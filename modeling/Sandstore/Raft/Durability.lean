import Sandstore.Raft.Append
import Sandstore.Raft.Ledger

/-!
# What an acknowledgement is worth

Two laws about a node whose writes may fail at any call, and what a positive reply then says about
the files it left.

**Terms.** `stepDown` raises the term in memory before it writes it, and keeps it when the write
fails. A second request at that term finds nothing to step down from and is answered without any
write. So a positive reply is at a durable term exactly when it granted a vote, or raised the term
itself, or the disk was not behind (`acknowledged_term_durable`).

**Entries.** `StoreLogs` puts the entries into its map before it writes the file, and keeps them
there when the write fails. A retry of the request finds every entry in the map and is acknowledged
without any write (`acknowledged_append_durable`).
-/

namespace Sandstore.Raft

open Lib Lib.Proc

variable {δ σ : Type}

/-! ## Terms -/

section Terms

attribute [local instance] Conv.exact

/-- A request at the node's own term that finds the disk at that term too. The requests concerned
are the two that may succeed without a write of the stable store. -/
def TermOnDisk (n : Node δ σ) : Input δ → Prop
  | .appendEntries req => req.term = n.mem.currentTerm → n.mem.currentTerm ≤ (getState n.disk.stable).term
  | .installSnapshot req => req.term = n.mem.currentTerm → n.mem.currentTerm ≤ (getState n.disk.stable).term
  | _ => True

/-- An answered request left a durable term behind exactly where it raised the term or found the
disk at it. -/
theorem Answered.durable_iff {n n' : Node δ σ} {reqTerm replyTerm : Int} (h : Answered n n' reqTerm replyTerm) :
    replyTerm ≤ n'.ballot.diskTerm ↔
      (reqTerm = n.mem.currentTerm → n.mem.currentTerm ≤ (getState n.disk.stable).term) := by
  have hcurrent := h.current
  rw [h.term]
  by_cases hgt : (n.mem.currentTerm : Int) < reqTerm
  · have hraised : (n'.ballot.diskTerm : Int) = n'.mem.currentTerm := congrArg _ (h.raised hgt)
    exact ⟨fun _ heq => by omega, fun _ => by omega⟩
  · have hkept := h.kept hgt
    have hdisk : n'.ballot.diskTerm = (getState n.disk.stable).term := by rw [hkept]; rfl
    have hterm : n'.mem.currentTerm = n.mem.currentTerm := congrArg Ballot.term hkept
    rw [hdisk, hterm]
    constructor
    · intro hle _
      omega
    · intro hle
      have := hle (by omega)
      omega

/-- The term of a positive reply is on disk when the reply leaves, exactly where the input found
its term there or put it there itself. -/
theorem acknowledged_iff (env : Env) (M : Machine δ σ) (n : Node δ σ) (i : Input δ) :
    Meets (fun _ => True) (program env M i) n
      (fun out n' => ∀ t, out.acknowledged = some t → (t ≤ n'.ballot.diskTerm ↔ TermOnDisk n i)) fun _ => True := by
  -- the other inputs answer nothing that could be positive
  have hquiet : ∀ {α : Type} (p : Proc (Node δ σ) α) (g : α → Output), (∀ a, (g a).acknowledged = none) →
      Meets (fun _ => True) (p >>= fun a => pure (g a)) n (fun out n' => ∀ t,
        out.acknowledged = some t → (t ≤ n'.ballot.diskTerm ↔ TermOnDisk n i)) fun _ => True := by
    intro α p g hg
    refine (meets_trivial p).bind ?_
    intro a m _
    exact meets_pure fun t ht => nomatch (hg a).symm.trans ht
  cases i with
  | requestVote req =>
    refine meets_bind ((handleRequestVote_spec req).imp ?_ fun _ _ => trivial)
    rintro ⟨reply, err⟩ m ⟨-, hgrant⟩
    refine meets_pure fun t ht => ⟨fun _ => trivial, fun _ => ?_⟩
    obtain ⟨hvote, ⟨⟩⟩ := Option.ite_none_right_eq_some.mp ht
    obtain ⟨hterm, hball⟩ := hgrant hvote
    have hterm : reply.term = req.term := hterm
    rw [hball, hterm]
    show req.term ≤ req.term.toNat
    omega
  | appendEntries req =>
    refine meets_bind ((handleAppendEntries_spec M req).imp ?_ fun _ _ => trivial)
    rintro ⟨reply, err⟩ m ⟨-, hanswer⟩
    refine meets_pure fun t ht => ?_
    obtain ⟨hsuccess, ⟨⟩⟩ := Option.ite_none_right_eq_some.mp ht
    exact (hanswer hsuccess).durable_iff
  | installSnapshot req =>
    refine meets_bind ((handleInstallSnapshot_spec M req).imp ?_ fun _ _ => trivial)
    rintro ⟨reply, err⟩ m ⟨-, hanswer⟩
    refine meets_pure fun t ht => ?_
    obtain ⟨hsuccess, ⟨⟩⟩ := Option.ite_none_right_eq_some.mp ht
    exact (hanswer hsuccess).durable_iff
  | electionTimeout =>
    refine (electionTick_spec env).imp ?_ fun _ _ => trivial
    rintro out m (⟨rfl, -⟩ | ⟨requests, rfl, -⟩) t ht
    · cases ht
    · cases ht
  | batchTick | cancel | voteReply | appendReply | snapshotReply | checkCompaction =>
    exact hquiet _ (fun _ => .nothing) fun _ => rfl
  | replicate data call => exact hquiet _ .replicated fun _ => rfl

/-- A heartbeat of the leader of term 5. -/
def heartbeat : AppendEntriesRequest Byte := ⟨5, "b", 0, 0, some [], 0⟩

end Terms

/-! ## Entries -/

section Entries

open FileLogStore

variable [Conv]

/-- A successful `HandleAppendEntries`, seen from the node before it. -/
theorem appended_spec (env : Env) (M : Machine δ σ) (n : Node δ σ) (req : AppendEntriesRequest δ) :
    Meets (fun _ => True) (program env M (.appendEntries req)) n
      (fun out n' => ∀ reply err entries, out = .appended reply err → reply.success = true →
        req.entries = some entries → Promised n.mem.logStore entries →
        Holds n'.mem.logStore n.mem.lastIncludedIndex entries ∧
        (n.mem.scan entries = .upToDate ∧ n'.disk.wal = n.disk.wal ∨
          n.mem.scan entries ≠ .upToDate ∧ n'.disk.wal = some n'.mem.logStore.file)) fun _ => True := by
  refine meets_bind (meets_read_bind ((handled_spec (fun a : AppendEntriesReply × Option Err =>
    a.1.success = true) (fun m _ m' => ∀ entries, req.entries = some entries →
      Promised m.mem.logStore entries → Holds m'.mem.logStore m.mem.lastIncludedIndex entries ∧
      (m.mem.scan entries = .upToDate ∧ m'.disk.wal = m.disk.wal ∨
        m.mem.scan entries ≠ .upToDate ∧ m'.disk.wal = some m'.mem.logStore.file))
    Bool.false_ne_true (fun _ => Bool.false_ne_true) ?_).imp ?_ fun _ _ => trivial))
  · intro m
    refine (acceptEntries_spec M req).bind ?_
    intro reply m' h
    refine meets_pure fun hok entries hentries hp => ?_
    obtain ⟨entries', hentries', -, hlog⟩ := h hok
    cases hentries.symm.trans hentries'
    rcases hlog with ⟨hup, hsame, hwal⟩ | ⟨hnew, hlog, hwal, habove⟩
    · refine ⟨?_, .inl ⟨hup, hwal⟩⟩
      have hscan := scan_spec m.mem entries
      rw [hup] at hscan
      rw [hsame]
      exact Passed.holds hscan hp.agree
    · refine ⟨?_, .inr ⟨hnew, hwal⟩⟩
      rw [hlog] at habove ⊢
      exact result_holds hp habove
  · intro a n' h
    refine meets_pure fun reply err entries hout hok hentries hp => ?_
    cases hout
    obtain ⟨m, hside, hm⟩ := h hok
    have hlog : m.mem.logStore = n.mem.logStore := congrArg LogSide.logStore hside
    have hbase : m.mem.lastIncludedIndex = n.mem.lastIncludedIndex := congrArg LogSide.lastIncludedIndex hside
    have hwal : m.disk.wal = n.disk.wal := congrArg LogSide.wal hside
    have := hm entries hentries (hlog ▸ hp)
    rwa [scan_congr hlog hbase, hbase, hwal] at this

/-- **An acknowledged append is on disk exactly where the file was written or already held it.** Take
any run of a started node, with any of its writes failing, and a further `AppendEntries` request
that it answers with success. Loading the WAL file afterwards gives a log that holds every entry of
the request above the compacted prefix if and only if the request brought something the log in
memory lacked or contradicted, or the file held all of them before. -/
theorem acknowledged_append_durable (env : Env) (M : Machine δ σ) {n₀ n n' : Node δ σ} (hstarted : Started n₀)
    (before : List (Act δ)) (hbefore : exec (step env M) n₀ before = some n) (req : AppendEntriesRequest δ)
    (fates : List Fate) {reply : AppendEntriesReply} {err : Option Err}
    (hrun : (program env M (.appendEntries req)).run n fates = .back (.appended reply err) n')
    (hok : reply.success = true) {entries : List (LogEntry δ)} (hentries : req.entries = some entries)
    (hpromise : Promised n.mem.logStore entries) :
    Holds (load n'.disk.wal) n.mem.lastIncludedIndex entries ↔
      n.mem.scan entries ≠ .upToDate ∨
        Holds (load n.disk.wal) n.mem.lastIncludedIndex entries := by
  have hall : ∀ f ∈ fates, True := fun _ _ => trivial
  obtain ⟨hholds, hwal⟩ := (appended_spec env M n req).back hall hrun reply err entries rfl hok
    hentries hpromise
  rcases hwal with ⟨hup, hwal⟩ | ⟨hnew, hwal⟩
  · rw [hwal]
    exact ⟨.inr, fun h => h.resolve_left fun hne => hne hup⟩
  · have hstays : Stays (fun _ => True) (fun m => Kept m.mem.logStore) (program env M (.appendEntries req)) n :=
      program_kept env M _ (exec_kept hstarted hbefore)
    have hkept := hstays.back hall hrun
    rw [hwal, load_file hkept]
    exact ⟨fun _ => .inl hnew, fun _ => hholds⟩

end Entries

section EntriesDemo

attribute [local instance] Conv.go

/-- The first `StoreLogs` fails and the request is refused. Its retry finds the entry in memory and
is acknowledged, with no file on disk. -/
theorem acknowledged_append_lost :
    ∃ n : Node Byte Bytes,
      exec (step demoEnv tape) (Node.fresh [])
        [.input (.appendEntries firstAppend) [.done, .failedOld]] = some n ∧
      ∃ n' : Node Byte Bytes, (program demoEnv tape (.appendEntries firstAppend)).run n [] =
          .back (.appended ⟨1, true, 0, 0⟩ none) n' ∧
        (FileLogStore.load n'.disk.wal).getLog 1 = .error .logNotFound :=
  ⟨_, rfl, _, rfl, rfl⟩

/-- A request whose entry is new is on disk when it is acknowledged. -/
theorem acknowledged_append_kept :
    ∃ n' : Node Byte Bytes, (program demoEnv tape (.appendEntries firstAppend)).run (Node.fresh []) [] =
        .back (.appended ⟨1, true, 0, 0⟩ none) n' ∧
      Holds (FileLogStore.load n'.disk.wal) 0 [(⟨1, 1, 7⟩ : LogEntry Byte)] := by
  refine ⟨_, rfl, ?_⟩
  refine (acknowledged_append_durable demoEnv tape (fresh_started []) [] rfl firstAppend [] rfl rfl rfl
    ⟨List.pairwise_singleton _ _, ?_⟩).mpr (.inl fun h => nomatch h)
  intro e he existing hget
  cases List.mem_singleton.mp he
  cases hget

end EntriesDemo

end Sandstore.Raft
