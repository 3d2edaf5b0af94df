import Sandstore.Raft.Election
import Sandstore.Raft.LogStore

/-!
# What the calls of the log store leave behind

`StoreLogs` and `DeleteRange` change the map first and write the file after, so what a call leaves in
memory does not depend on what becomes of its write. `WalCall.after` is that store, and everything here
is said about it.

**Failing.** A call that returns an error has made its change all the same. The store answers as before
exactly if there was nothing to change (`WalCall.Idle`): the entries that got into the map were there
already, or the range held nothing. A batch whose clients were told of the failure is otherwise in the
log, to be sent, counted and committed.

**Removing.** A compaction raises the compacted position first and the lower end of the range past it
after that, so the range it goes on to delete is empty. The map and the file keep what was compacted.
They do not exactly if there was nothing at or below the new position (`WalCall.Bare`).
-/

namespace Sandstore.Raft

open Lib Lib.Proc
open FileLogStore

variable {δ σ : Type}

section Wal

variable [Conv]

/-! ## The calls -/

/-- The calls of the log store that change it, with any arguments. -/
inductive WalCall (δ : Type) where
  | storeLogs (entries : List (LogEntry δ))
  | deleteRange (min : Nat) (max : Option Nat)
  deriving DecidableEq

def WalCall.proc : WalCall δ → Proc (Node δ σ) (Option Err)
  | .storeLogs entries => Raft.storeLogs entries
  | .deleteRange min max => Raft.deleteRange min max

/-- The store in memory after a call, whatever becomes of its write. -/
def WalCall.after (s : FileLogStore δ) : WalCall δ → FileLogStore δ
  | .storeLogs entries => (s.storeLoop entries).1
  | .deleteRange min max => (s.deleteRange min max).getD s

/-- `NewFileLogStore` over the file there is. -/
def reopenLog (n : Node δ σ) : Node δ σ := n.withLog (load n.disk.wal)

/-- What happens to a log store: a call, with the fate of its write, or a new process. -/
inductive WalMove (δ : Type) where
  | call (c : WalCall δ) (fate : Fate)
  | reopen

/-- A call in which the process dies is followed by a new process over what is on disk. -/
def walStep (n : Node δ σ) : WalMove δ → Option (Node δ σ)
  | .call c fate =>
    match c.proc.run n [fate] with
    | .back _ n' => some n'
    | .died n' => some (reopenLog n')
  | .reopen => some (reopenLog n)

/-- A call leaves its store in memory, and the old file or that store's. -/
theorem WalCall.within (c : WalCall δ) (n : Node δ σ) : Within (fun _ => True)
      (fun n n' => n' = n.withLog (c.after n.mem.logStore) ∨
        n' = (n.withLog (c.after n.mem.logStore)).putWal) c.proc n := by
  cases c with
  | storeLogs entries =>
    cases hloop : (n.mem.logStore.storeLoop entries).2 with
    | some err =>
      refine meets_quiet ?_ (meets_pure (.inl rfl))
      rw [hloop]
      rfl
    | none =>
      refine meets_commit (by rw [hloop]; rfl) (meets_pure (.inr rfl)) ?_ ?_ (fun _ => .inl rfl) fun _ => .inr rfl
      · exact fun _ => meets_pure (.inl rfl)
      · exact fun _ => meets_pure (.inr rfl)
  | deleteRange min max =>
    cases hd : n.mem.logStore.deleteRange min max with
    | none =>
      refine meets_quiet (by rw [hd]) (meets_pure (.inl ?_))
      rw [WalCall.after, hd]
      rfl
    | some s =>
      have hafter : (WalCall.deleteRange min max).after n.mem.logStore = s := by
        rw [WalCall.after, hd]
        rfl
      rw [Proc.Within, hafter]
      refine meets_commit (by rw [hd]) (meets_pure (.inr rfl)) ?_ ?_ (fun _ => .inl rfl) fun _ => .inr rfl
      · exact fun _ => meets_pure (.inl rfl)
      · exact fun _ => meets_pure (.inr rfl)

variable {n : Node δ σ} {c : WalCall δ}

theorem WalCall.back {n' : Node δ σ} {fates : List Fate} {err : Option Err}
    (h : c.proc.run n fates = .back err n') : n'.mem.logStore = c.after n.mem.logStore := by
  rcases (c.within n).back (fun _ _ => trivial) h with rfl | rfl <;> rfl

variable {s : FileLogStore δ}

theorem WalCall.kept_after (h : Kept s) (c : WalCall δ) : Kept (c.after s) := by
  cases c with
  | storeLogs entries => exact h.storeLoop
  | deleteRange min max =>
    rw [WalCall.after]
    cases hd : s.deleteRange min max with
    | none => exact h
    | some s' => exact h.deleteRange hd

/-- What every call keeps of the store and of the file, a move keeps. -/
theorem walStep_keeps {I : FileLogStore δ → Prop} {F : Option (WalFile δ) → Prop} {n' : Node δ σ}
    {m : WalMove δ} (hfile : ∀ s, I s → F (some s.file)) (hload : ∀ wal, F wal → I (load wal))
    (hcall : ∀ c fate, m = .call c fate → I (c.after n.mem.logStore)) (hF : F n.disk.wal)
    (hs : walStep n m = some n') : I n'.mem.logStore ∧ F n'.disk.wal := by
  cases m with
  | reopen =>
    cases hs
    exact ⟨hload _ hF, hF⟩
  | call c fate =>
    have hI := hcall c fate rfl
    have hends : ∀ m, m = n.withLog (c.after n.mem.logStore) ∨
        m = (n.withLog (c.after n.mem.logStore)).putWal → I m.mem.logStore ∧ F m.disk.wal := by
      rintro m (rfl | rfl)
      · exact ⟨hI, hF⟩
      · exact ⟨hI, hfile _ hI⟩
    have hall : ∀ f ∈ [fate], True := fun _ _ => trivial
    have hrun := (c.within n).run hall
    simp only [walStep] at hs
    cases hr : c.proc.run n [fate] with
    | back err m =>
      rw [hr] at hs hrun
      cases hs
      exact hends _ hrun
    | died m =>
      rw [hr] at hs hrun
      cases hs
      exact ⟨hload _ (hends _ hrun).2, (hends _ hrun).2⟩

/-- A store that was opened over some file is well kept ever after. -/
theorem exec_walStep_kept {n₀ : Node δ σ} (hopen : n₀.mem.logStore = load n₀.disk.wal)
    {moves : List (WalMove δ)} (hrun : exec walStep n₀ moves = some n) : Kept n.mem.logStore := by
  refine exec_invariant (I := fun m : Node δ σ => Kept m.mem.logStore) ?_ moves ?_ hrun
  · intro m a m' hm hs
    exact (walStep_keeps (F := fun _ => True) (fun _ _ => trivial) (fun wal _ => kept_load wal)
      (fun c _ _ => c.kept_after hm) trivial hs).1
  · show Kept n₀.mem.logStore
    rw [hopen]
    exact kept_load _

/-! ## What `DeleteRange` deletes -/

variable {max : Option Nat}

/-- There is nothing in a range that is not gone through. -/
theorem eq_zero_of_deleteRange_none {min k : Nat} (hd : s.deleteRange min max = none) (hmin : min ≤ k)
    (hclip : k ≤ s.clip max) : k = 0 := by
  rcases deleteRange_none hd with hzero | hany
  · omega
  · cases max with
    | none => cases hany
    | some m =>
      have := clip_some s m
      simp only [Option.any_some, decide_eq_true_eq] at hany
      omega

/-- **What a `DeleteRange` leaves**: the map as it was, if it compacts up to a new position; and otherwise
what is not in its range. -/
theorem WalCall.deleteRange_after {min : Nat} {s' : FileLogStore δ} (hs : (deleteRange min max).after s = s') :
    (min = 0 ∧ s.compactedUntil < s.clip max ∧ s'.compactedUntil = s.clip max ∧ ∀ k, s'.logs.get k = s.logs.get k) ∨
      (min = 0 → s.clip max ≤ s.compactedUntil) ∧ s'.compactedUntil = s.compactedUntil ∧
        s'.compactedTerm = s.compactedTerm ∧ ∀ k, s'.logs.get k =
          if (min ≤ k ∧ s.compactedUntil < k) ∧ k ≤ s.clip max then none else s.logs.get k := by
  rw [WalCall.after] at hs
  cases hd : s.deleteRange min max with
  | none =>
    rw [hd] at hs
    cases hs
    refine .inr ⟨fun hmin => ?_, rfl, rfl, fun k => (if_neg fun hk => ?_).symm⟩
    · have := eq_zero_of_deleteRange_none hd (hmin.trans_le (Nat.zero_le _)) (Nat.le_refl _)
      omega
    · have := eq_zero_of_deleteRange_none hd hk.1.1 hk.2
      omega
  | some s'' =>
    rw [hd, Option.getD_some] at hs
    subst hs
    rcases deleteRange_some hd with ⟨hmove, rfl⟩ | ⟨hmove, rfl⟩
    · exact .inl ⟨hmove.1, hmove.2, rfl, get_compacted s min _⟩
    · exact .inr ⟨fun hmin => Nat.le_of_not_lt fun hlt => hmove ⟨hmin, hlt⟩, rfl, rfl, get_cut s min _⟩

/-! ## Calls that fail -/

/-- The two stores answer alike. -/
def SameAnswers (s s' : FileLogStore δ) : Prop :=
  (∀ i, s'.getLog i = s.getLog i) ∧ s'.lastIndexAndTerm = s.lastIndexAndTerm

/-- Of the entries at one index, the last is what the store answers there already. -/
def Repeats (s : FileLogStore δ) (entries : List (LogEntry δ)) : Prop :=
  ∀ front e rest, entries = front ++ e :: rest → (∀ e' ∈ rest, uint64 e'.index ≠ uint64 e.index) →
    s.getLog (uint64 e.index) = .ok e

/-- The call has nothing to change: the entries it gets into the map, those before the first compacted
index, are there already; or it does not move the compacted position and its range holds nothing. -/
def WalCall.Idle (s : FileLogStore δ) : WalCall δ → Prop
  | .storeLogs entries => Repeats s (entries.takeWhile fun e => s.compactedUntil < uint64 e.index)
  | .deleteRange min max =>
    (min = 0 → s.clip max ≤ s.compactedUntil) ∧ ∀ k e, min ≤ k → k ≤ s.clip max → s.getLog k ≠ .ok e

/-- The loop of `StoreLogs` places the entries before the first compacted index. -/
theorem storeLoop_eq_takeWhile (s : FileLogStore δ) (entries : List (LogEntry δ)) : (s.storeLoop entries).1 =
      (entries.takeWhile fun e => s.compactedUntil < uint64 e.index).foldl place s := by
  induction entries generalizing s with
  | nil => rfl
  | cons e entries ih =>
    rw [FileLogStore.storeLoop, List.takeWhile_cons]
    by_cases he : uint64 e.index ≤ s.compactedUntil
    · rw [if_pos he, if_neg (by simpa using he)]
      rfl
    · rw [if_neg he, if_pos (by simpa using he), ih]
      rfl

theorem get_foldl_place_split {front rest : List (LogEntry δ)} {e : LogEntry δ}
    (h : ∀ e' ∈ rest, uint64 e'.index ≠ uint64 e.index) :
    ((front ++ e :: rest).foldl place s).logs.get (uint64 e.index) = some e := by
  rw [List.foldl_append, List.foldl_cons, get_foldl_place_of_notMem h, get_place, if_pos rfl]

variable {entries : List (LogEntry δ)}

/-- The last entry at an index. -/
theorem exists_last_at {k : Nat} (h : ∃ e ∈ entries, uint64 e.index = k) :
    ∃ front e rest, entries = front ++ e :: rest ∧ uint64 e.index = k ∧
      ∀ e' ∈ rest, uint64 e'.index ≠ uint64 e.index := by
  induction entries with
  | nil =>
    obtain ⟨e, he, -⟩ := h
    cases he
  | cons first entries ih =>
    by_cases hlater : ∃ e ∈ entries, uint64 e.index = k
    · obtain ⟨front, e, rest, rfl, hk, hrest⟩ := ih hlater
      exact ⟨first :: front, e, rest, rfl, hk, hrest⟩
    · obtain ⟨e, he, hk⟩ := h
      rcases List.mem_cons.mp he with rfl | he
      · refine ⟨[], e, entries, rfl, hk, fun e' he' heq => hlater ⟨e', he', heq.trans hk⟩⟩
      · exact absurd ⟨e, he, hk⟩ hlater

/-- Entries that the store answers already leave it as it is. -/
theorem Repeats.foldl_place (hkept : Kept s) (h : Repeats s entries) : entries.foldl place s = s := by
  refine (foldl_place_kept hkept).ext hkept (OrdMap.ext_get fun k => ?_) foldl_place_compacted.1
    foldl_place_compacted.2
  by_cases hk : ∃ e ∈ entries, uint64 e.index = k
  · obtain ⟨front, e, rest, rfl, rfl, hrest⟩ := exists_last_at hk
    rw [get_foldl_place_split hrest, (getLog_eq_ok.mp (h front e rest rfl hrest)).2]
  · exact get_foldl_place_of_notMem fun e he heq => hk ⟨e, he, heq⟩

/-- A store that lacks one of the entries holds it afterwards. -/
theorem exists_stored (habove : ∀ e ∈ entries, s.compactedUntil < uint64 e.index) (h : ¬ Repeats s entries) :
    ∃ e ∈ entries, s.getLog (uint64 e.index) ≠ .ok e ∧ (entries.foldl place s).getLog (uint64 e.index) = .ok e := by
  unfold Repeats at h
  push Not at h
  obtain ⟨front, e, rest, rfl, hrest, hnew⟩ := h
  have he : e ∈ front ++ e :: rest := List.mem_append_right _ List.mem_cons_self
  refine ⟨e, he, hnew, getLog_eq_ok.mpr ⟨?_, get_foldl_place_split hrest⟩⟩
  rw [foldl_place_compacted.1]
  exact habove e he

theorem above_of_mem_takeWhile :
    ∀ e ∈ entries.takeWhile fun e => s.compactedUntil < uint64 e.index, s.compactedUntil < uint64 e.index :=
  fun e he => of_decide_eq_true (List.all_eq_true.mp List.all_takeWhile e he)

/-- A call with nothing to change changes nothing. -/
theorem WalCall.Idle.after_eq (hkept : Kept s) (h : c.Idle s) : c.after s = s := by
  cases c with
  | storeLogs entries =>
    rw [WalCall.after, storeLoop_eq_takeWhile]
    exact Repeats.foldl_place hkept h
  | deleteRange min max =>
    obtain ⟨hstays, hempty⟩ := h
    have hnew := WalCall.kept_after hkept (.deleteRange min max)
    rcases WalCall.deleteRange_after rfl with ⟨hmin, hmove, -⟩ | ⟨-, huntil, hterm, hlogs⟩
    · exact absurd (hstays hmin) (Nat.not_le.mpr hmove)
    · refine hnew.ext hkept (OrdMap.ext_get fun k => ?_) huntil hterm
      rw [hlogs]
      split
      · next hk =>
        cases hget : s.logs.get k with
        | none => rfl
        | some e => exact absurd (getLog_eq_ok.mpr ⟨hk.1.2, hget⟩) (hempty k e hk.1.1 hk.2)
      · rfl

theorem WalCall.idle_of_sameAnswers (h : SameAnswers s (c.after s)) : c.Idle s := by
  obtain ⟨hget, -⟩ := h
  cases c with
  | storeLogs entries =>
    by_contra hnew
    obtain ⟨e, -, hlacks, hholds⟩ := exists_stored above_of_mem_takeWhile hnew
    rw [WalCall.after, storeLoop_eq_takeWhile] at hget
    exact hlacks ((hget _).symm.trans hholds)
  | deleteRange min max =>
    rcases WalCall.deleteRange_after rfl with ⟨-, hmove, huntil, -⟩ | ⟨hstays, -, -, hcut⟩
    · -- the position is refused as compacted now, and was not before
      have hclip := hget (s.clip max)
      unfold FileLogStore.getLog at hclip
      rw [if_pos (Nat.le_of_eq huntil.symm), if_neg (Nat.not_le.mpr hmove)] at hclip
      cases hlogs : s.logs.get (s.clip max) with
      | none =>
        rw [hlogs] at hclip
        cases hclip
      | some e =>
        rw [hlogs] at hclip
        cases hclip
    · refine ⟨hstays, fun k e hmin hclip hok => ?_⟩
      have hgone := (getLog_eq_ok.mp ((hget k).trans hok)).2
      rw [hcut, if_pos ⟨⟨hmin, (getLog_eq_ok.mp hok).1⟩, hclip⟩] at hgone
      cases hgone

/-- The store after a call answers as before exactly if the call had nothing to change. -/
theorem WalCall.sameAnswers_iff (hkept : Kept s) (c : WalCall δ) : SameAnswers s (c.after s) ↔ c.Idle s := by
  refine ⟨c.idle_of_sameAnswers, fun h => ?_⟩
  rw [h.after_eq hkept]
  exact ⟨fun _ => rfl, rfl⟩

/-! ### A batch whose clients were told of the failure -/

omit [Conv] in
/-- Telling clients changes who waits and nothing else a node remembers. -/
theorem notifyAll_mem (n : Node δ σ) (batch : List (LogEntry δ)) (err : Err) :
    (n.notifyAll batch err).mem = { n.mem with pendingClients := (n.notifyAll batch err).mem.pendingClients } ∧
      (n.notifyAll batch err).disk = n.disk := by
  refine List.foldlRecOn (motive := fun m : Node δ σ => m.mem = { n.mem with pendingClients := m.mem.pendingClients } ∧
    m.disk = n.disk) batch _ ⟨rfl, rfl⟩ fun m hm e _ => ?_
  unfold Node.notify
  split
  · exact ⟨congrArg (fun r => { r with pendingClients := m.mem.pendingClients.erase e.index }) hm.1, hm.2⟩
  · exact hm

/-- A node without its batch. -/
def Node.unbatched (n : Node δ σ) : Node δ σ := n.withMem fun r => { r with pendingBatch := [] }

/-- A flush whose `StoreLogs` fails tells the clients of the batch and leaves what `StoreLogs` left. -/
theorem flushPendingBatch_failed {m : Node δ σ} {fates : List Fate} {err : Err} (hbatch : n.mem.pendingBatch ≠ [])
    (h : (Raft.storeLogs n.mem.pendingBatch).run n.unbatched fates = .back (some err) m) :
    flushPendingBatch.run n fates = .back () (m.notifyAll n.mem.pendingBatch err) := by
  show (storeBatch n.mem.pendingBatch).run n.unbatched fates = _
  obtain ⟨left, hleft⟩ := runLeft_of_run h
  rw [storeBatch, if_neg hbatch, run_bind, hleft]
  rfl

/-- A broadcast reads neither the batch nor who waits. -/
theorem broadcastAppendEntries_congr (env : Env) {n' : Node δ σ} {batch : List (LogEntry δ)}
    {clients : OrdMap Int CallId} (hmem : n'.mem = { n.mem with pendingBatch := batch, pendingClients := clients })
    (hdisk : n'.disk.snapshot = n.disk.snapshot) :
    broadcastAppendEntries env n' = broadcastAppendEntries env n := by
  have hwork : n'.workFor env.id = n.workFor env.id := by
    funext peer
    unfold Node.workFor Node.snapshotWork
    rw [hmem, hdisk]
    rfl
  unfold broadcastAppendEntries
  rw [hwork, hmem]

/-- Nor does the search for a commit index. -/
theorem commitFrom_congr {r : Replicator δ} {batch : List (LogEntry δ)} {clients : OrdMap Int CallId}
    (id : NodeId) (nodes : List ClusterNode) (k : Nat) :
    ({ r with pendingBatch := batch, pendingClients := clients } : Replicator δ).commitFrom id nodes k =
      r.commitFrom id nodes k := by
  induction k with
  | zero => rfl
  | succ k ih =>
    unfold Replicator.commitFrom
    rw [ih]
    rfl

/-- **A failed call leaves the log store as it was exactly if it had nothing to change.** Take a log
store opened over any file, after any calls, of which any may have failed, and new processes. A further
call that returns an error leaves every answer of the store as it was if and only if it was idle. For a
flush whose `StoreLogs` fails: its clients are told, and the log has got none of the entries they were
told about if and only if that call was idle; the node then goes on with what it remembered before,
less the batch, and sends and counts the same. -/
theorem failed_call_unchanged_iff {n₀ n : Node δ σ} (hopen : n₀.mem.logStore = load n₀.disk.wal)
    (moves : List (WalMove δ)) (hrun : exec walStep n₀ moves = some n) :
    (∀ (c : WalCall δ) fates err n', c.proc.run n fates = .back (some err) n' →
      (SameAnswers n.mem.logStore n'.mem.logStore ↔ c.Idle n.mem.logStore)) ∧
    ∀ fates err m, n.mem.pendingBatch ≠ [] →
      (Raft.storeLogs n.mem.pendingBatch).run n.unbatched fates = .back (some err) m →
      ∃ n', flushPendingBatch.run n fates = .back () n' ∧ n' = m.notifyAll n.mem.pendingBatch err ∧
        ((∀ e ∈ n.mem.pendingBatch, n'.mem.logStore.getLog (uint64 e.index) = .ok e →
            n.mem.logStore.getLog (uint64 e.index) = .ok e) ↔
          (WalCall.storeLogs n.mem.pendingBatch).Idle n.mem.logStore) ∧
        ((WalCall.storeLogs n.mem.pendingBatch).Idle n.mem.logStore →
          n'.mem = { n.mem with pendingBatch := [], pendingClients := n'.mem.pendingClients } ∧
          (∀ env, broadcastAppendEntries env n' = broadcastAppendEntries env n) ∧
          ∀ id nodes k, n'.mem.commitFrom id nodes k = n.mem.commitFrom id nodes k) := by
  have hkept := exec_walStep_kept hopen hrun
  refine ⟨fun c fates err n' hcall => ?_, fun fates err m hbatch hstore => ?_⟩
  · rw [WalCall.back hcall]
    exact c.sameAnswers_iff hkept
  · refine ⟨_, flushPendingBatch_failed hbatch hstore, rfl, ?_⟩
    obtain ⟨hmem, hdisk⟩ := notifyAll_mem m n.mem.pendingBatch err
    -- what `StoreLogs` leaves of the node, and its store in particular
    have hm : m = n.unbatched.withLog ((WalCall.storeLogs n.mem.pendingBatch).after n.mem.logStore) ∨
        m = (n.unbatched.withLog ((WalCall.storeLogs n.mem.pendingBatch).after n.mem.logStore)).putWal :=
      (WalCall.within (.storeLogs n.mem.pendingBatch) n.unbatched).back (fun _ _ => trivial) hstore
    have hlog : (m.notifyAll n.mem.pendingBatch err).mem.logStore =
        (WalCall.storeLogs n.mem.pendingBatch).after n.mem.logStore := by
      rw [hmem]
      rcases hm with rfl | rfl <;> rfl
    have hsnapshot : m.disk.snapshot = n.disk.snapshot := by
      rcases hm with rfl | rfl <;> rfl
    rw [hlog]
    refine ⟨⟨fun hnone => ?_, fun hidle e _ => ?_⟩, fun hidle => ?_⟩
    · by_contra hnew
      obtain ⟨e, he, hlacks, hholds⟩ := exists_stored above_of_mem_takeWhile hnew
      rw [← storeLoop_eq_takeWhile] at hholds
      exact hlacks (hnone e ((List.takeWhile_prefix _).subset he) hholds)
    · rw [hidle.after_eq hkept]
      exact id
    · have hsame : (m.notifyAll n.mem.pendingBatch err).mem = { n.mem with
          pendingBatch := [], pendingClients := (m.notifyAll n.mem.pendingBatch err).mem.pendingClients } := by
        have hback : m.mem = n.unbatched.mem := by
          rcases hm with rfl | rfl
          all_goals
            show (n.unbatched.withLog _).mem = _
            rw [hidle.after_eq hkept]
            rfl
        rw [hback] at hmem
        exact hmem
      refine ⟨hsame, fun env => ?_, fun id nodes k => ?_⟩
      · exact broadcastAppendEntries_congr env hsame ((congrArg Disk.snapshot hdisk).trans hsnapshot)
      · rw [hsame]
        exact commitFrom_congr id nodes k

/-! ## Removing what was compacted -/

/-- The call compacts nothing that is in the map. -/
def WalCall.Bare (s : FileLogStore δ) : WalCall δ → Prop
  | .storeLogs _ => True
  | .deleteRange min max =>
    min = 0 → s.compactedUntil < s.clip max → ∀ k e, s.logs.get k = some e → s.clip max < k

def WalMove.Bare (n : Node δ σ) : WalMove δ → Prop
  | .call c _ => c.Bare n.mem.logStore
  | .reopen => True

/-- A store with nothing at or below its compacted position. -/
structure Clear (s : FileLogStore δ) : Prop where
  kept : Kept s
  above : ∀ k e, s.logs.get k = some e → s.compactedUntil < k

theorem Clear.storeLoop (h : Clear s) (entries : List (LogEntry δ)) : Clear (s.storeLoop entries).1 := by
  refine storeLoop_induct h fun s hs entry _ habove => ⟨hs.kept.place entry, fun k e hk => ?_⟩
  rw [get_place] at hk
  split at hk
  · next heq => exact heq ▸ habove
  · exact hs.above k e hk

theorem Clear.after (h : Clear s) (hbare : c.Bare s) : Clear (c.after s) := by
  refine ⟨c.kept_after h.kept, ?_⟩
  cases c with
  | storeLogs entries => exact (h.storeLoop entries).above
  | deleteRange min max =>
    intro k e hk
    rcases WalCall.deleteRange_after rfl with ⟨hmin, hmove, huntil, hlogs⟩ | ⟨-, huntil, -, hlogs⟩
    · rw [hlogs] at hk
      rw [huntil]
      exact hbare hmin hmove k e hk
    · rw [hlogs] at hk
      rw [huntil]
      split at hk
      · cases hk
      · exact h.above k e hk

/-- No entry of the range is left. -/
theorem Clear.removed (h : Clear s) {min : Nat}
    (hbare : (WalCall.deleteRange min max).Bare s) {k : Nat} (hmin : min ≤ k) (hmax : ∀ m ∈ max, k ≤ m) :
    ((WalCall.deleteRange min max).after s).logs.get k = none := by
  have hclip : ∀ e, s.logs.get k = some e → k ≤ s.clip max := by
    intro e he
    have htop := h.kept.top k e he
    cases max with
    | none => exact htop
    | some m =>
      have := hmax m rfl
      rw [clip_some]
      omega
  rcases WalCall.deleteRange_after rfl with ⟨hzero, hmove, -, hlogs⟩ | ⟨-, -, -, hlogs⟩
  · rw [hlogs]
    cases hget : s.logs.get k with
    | none => rfl
    | some e => exact absurd (hclip e hget) (Nat.not_le.mpr (hbare hzero hmove k e hget))
  · rw [hlogs]
    split
    · rfl
    · next hout =>
      cases hget : s.logs.get k with
      | none => rfl
      | some e => exact absurd ⟨⟨hmin, h.above k e hget⟩, hclip e hget⟩ hout

/-- What is asked of a WAL file: no entry at or below its compacted position, and no more entries than
there are indices between that position and the end of the log. -/
def WalFile.Clear (wal : WalFile δ) : Prop :=
  (∀ e ∈ wal.logs, wal.compactedUntil < uint64 e.index) ∧
    wal.logs.length ≤ (load (some wal)).last - wal.compactedUntil

theorem Clear.file (h : Clear s) : s.file.Clear := by
  refine ⟨fun e he => ?_, ?_⟩
  · obtain ⟨k, hk⟩ := mem_file.mp he
    rw [h.kept.keyed k e hk]
    exact h.above k e hk
  · -- the keys are distinct and lie between the compacted position and the end
    have hlength : s.file.logs.length = s.logs.keys.length := by
      have hperm : s.file.logs.Perm s.logs.values := List.perm_insertionSort _ _
      rw [hperm.length_eq, OrdMap.values, OrdMap.keys, List.length_map, List.length_map]
    have hrange : s.logs.keys ⊆ List.range' (s.compactedUntil + 1) (s.last - s.compactedUntil) := by
      intro k hk
      obtain ⟨e, he⟩ := OrdMap.mem_keys_iff.mp hk
      have := h.above k e he
      have := h.kept.top k e he
      rw [List.mem_range'_1]
      omega
    have hle := (List.subperm_of_subset s.logs.keys_nodup hrange).length_le
    rw [List.length_range'] at hle
    rw [load_file h.kept, hlength]
    exact hle

/-- The compactions of a run really remove: no file it leaves holds a compacted entry, and after a
`DeleteRange` that returned no error no entry of its range is in the map. -/
def Removes (n₀ : Node δ σ) (moves : List (WalMove δ)) : Prop :=
  ∀ front n, front <+: moves → exec walStep n₀ front = some n →
    (∀ wal, n.disk.wal = some wal → wal.Clear) ∧
    ∀ min max fate n', front ++ [.call (.deleteRange min max) fate] <+: moves →
      (WalCall.deleteRange min max).proc.run n [fate] = .back none n' →
      ∀ k, min ≤ k → (∀ m ∈ max, k ≤ m) → n'.mem.logStore.logs.get k = none

/-- The move is a call that returns no error. -/
def WalMove.Returns (n : Node δ σ) : WalMove δ → Prop
  | .call c fate => ∃ n', c.proc.run n [fate] = .back none n'
  | .reopen => False

theorem exec_walStep_clear {n₀ : Node δ σ} (hstore : n₀.mem.logStore = .empty) (hwal : n₀.disk.wal = none)
    {moves : List (WalMove δ)} (hbare : Along walStep (fun n m => m.Bare n) n₀ moves)
    (hrun : exec walStep n₀ moves = some n) :
    Clear n.mem.logStore ∧ ∀ wal, n.disk.wal = some wal → ∃ s, Clear s ∧ wal = s.file := by
  have hempty : Clear (FileLogStore.empty : FileLogStore δ) := ⟨kept_empty, fun _ _ h => nomatch h⟩
  refine exec_along (I := fun m : Node δ σ => Clear m.mem.logStore ∧
    ∀ wal, m.disk.wal = some wal → ∃ s, Clear s ∧ wal = s.file) ?_ moves ⟨?_, ?_⟩ hbare hrun
  · rintro m a m' ⟨hm, hfile⟩ hok hs
    refine walStep_keeps (I := Clear) (F := fun w => ∀ wal, w = some wal → ∃ s, Clear s ∧ wal = s.file)
      ?_ ?_ ?_ hfile hs
    · rintro s h wal ⟨⟩
      exact ⟨s, h, rfl⟩
    · intro wal hwal
      cases wal with
      | none => exact hempty
      | some wal =>
        obtain ⟨s, h, rfl⟩ := hwal wal rfl
        rw [load_file h.kept]
        exact h
    · rintro c fate rfl
      exact hm.after hok
  · rw [hstore]
    exact hempty
  · rw [hwal]
    exact fun _ h => nomatch h

/-- **Compactions really remove exactly where there is nothing to remove.** Over any sequence of calls
of a new log store, with any writes failing, and of new processes over its file: if no compaction finds an
entry at or below the position it moves to, no file holds a compacted entry, the file is no longer than
the log behind its compacted position, and a `DeleteRange` that returned no error left nothing of its
range in the map. Where all this holds, no compaction that returned without an error found such an
entry. -/
theorem compaction_removes_iff {n₀ last : Node δ σ} (hstore : n₀.mem.logStore = .empty)
    (hwal : n₀.disk.wal = none) (moves : List (WalMove δ)) (hrun : exec walStep n₀ moves = some last) :
    (Along walStep (fun n m => m.Bare n) n₀ moves → Removes n₀ moves) ∧
      (Removes n₀ moves → Along walStep (fun n m => m.Returns n → m.Bare n) n₀ moves) := by
  constructor
  · rintro hbare front n ⟨rest, rfl⟩ hfront
    obtain ⟨hclear, hfile⟩ := exec_walStep_clear hstore hwal (hbare.split hfront).1 hfront
    refine ⟨fun wal hn => ?_, fun min max fate n' hnext hcall k hmin hmax => ?_⟩
    · obtain ⟨s, hs, rfl⟩ := hfile wal hn
      exact hs.file
    · rw [WalCall.back hcall]
      exact hclear.removed (hbare.at hnext hfront) hmin hmax
  · intro h
    refine along_of_at hrun fun before m n _ hnext hbefore _ hreturns => ?_
    cases m with
    | reopen => trivial
    | call c fate =>
      cases c with
      | storeLogs entries => trivial
      | deleteRange min max =>
        rintro rfl hmove k e hk
        refine Nat.lt_of_not_le fun hle => ?_
        obtain ⟨n', hcall⟩ := hreturns
        have hgone := (h before n (List.IsPrefix.trans (List.prefix_append before _) hnext) hbefore).2 0 max fate n'
          hnext hcall k (Nat.zero_le k) ?_
        · rw [WalCall.back hcall] at hgone
          rcases WalCall.deleteRange_after rfl with ⟨-, -, -, hlogs⟩ | ⟨hstays, -⟩
          · rw [hlogs, hk] at hgone
            cases hgone
          · exact absurd (hstays rfl) (Nat.not_le.mpr hmove)
        · rintro m rfl
          rw [clip_some] at hle
          omega

end Wal

section WalDemo

attribute [local instance] Conv.go

/-- The write of the leader's first entry fails and its client is told so. The next broadcast sends the
entry, a follower stores it, and it is committed and applied. -/
theorem failed_append_committed :
    ∃ w₀ w w' : World Byte Bytes,
      exec (World.step threeNodes tape) (World.init []) electA = some w₀ ∧
      (w₀.node "a").mem.logStore.getLog 1 = .error .logNotFound ∧
      exec (World.step threeNodes tape) w₀ [.own "a" (.replicate 7 0) [.failedOld]] = some w ∧
      (w.node "a").events = [.becameLeader 1, .notified 0 (some .writeFailed)] ∧
      (w.node "a").mem.logStore.getLog 1 = .ok ⟨1, 1, 7⟩ ∧
      exec (World.step threeNodes tape) w [.broadcast "a", .deliver 3 [], .deliver 5 []] = some w' ∧
      (w'.node "a").mem.commitIndex = 1 ∧ .applied 1 7 ∈ (w'.node "a").events :=
  ⟨_, _, _, rfl, rfl, rfl, rfl, rfl, rfl, rfl, by decide⟩

/-- The second of two equal calls fails and changes nothing. -/
theorem failed_repeat_unchanged :
    ∃ n n' : Node Byte Bytes,
      exec walStep (Node.fresh []) [.call (.storeLogs [⟨1, 1, 7⟩]) .done] = some n ∧
      (WalCall.storeLogs [⟨1, 1, 7⟩]).proc.run n [.failedOld] = .back (some .writeFailed) n' ∧
      SameAnswers n.mem.logStore n'.mem.logStore := by
  refine ⟨_, _, rfl, rfl, ?_⟩
  have hopen : (Node.fresh [] : Node Byte Bytes).mem.logStore = load (Node.fresh [] : Node Byte Bytes).disk.wal :=
    rfl
  refine ((failed_call_unchanged_iff hopen [.call (.storeLogs [⟨1, 1, 7⟩]) .done] rfl).1
    (.storeLogs [⟨1, 1, 7⟩]) [.failedOld] _ _ rfl).mpr ?_
  rintro front e rest hsplit -
  have he : e ∈ front ++ e :: rest := List.mem_append_right _ List.mem_cons_self
  rw [← hsplit] at he
  cases List.mem_singleton.mp ((List.takeWhile_prefix _).subset he)
  rfl

/-- Two entries are stored and compacted, and the call returns no error. Both are still in the map and
in the file, whose compacted position is 2. -/
theorem compaction_removes_nothing :
    ∃ n : Node Byte Bytes,
      exec walStep (Node.fresh []) [.call (.storeLogs [⟨1, 1, 7⟩, ⟨2, 1, 8⟩]) .done] = some n ∧
      ∃ n', (WalCall.deleteRange 0 (some 2)).proc.run n [.done] = .back none n' ∧
        n'.mem.logStore.logs.get 1 = some ⟨1, 1, 7⟩ ∧ n'.mem.logStore.logs.get 2 = some ⟨2, 1, 8⟩ ∧
        n'.disk.wal = some ⟨2, 1, [⟨1, 1, 7⟩, ⟨2, 1, 8⟩]⟩ :=
  ⟨_, rfl, _, rfl, rfl, rfl, rfl⟩

/-- A suffix that is dropped is gone from the map and from the file. -/
theorem compaction_removes_suffix :
    ∃ n : Node Byte Bytes,
      exec walStep (Node.fresh []) [.call (.storeLogs [⟨1, 1, 7⟩, ⟨2, 1, 8⟩]) .done,
        .call (.deleteRange 2 none) .done] = some n ∧
      Removes (Node.fresh [] : Node Byte Bytes) [.call (.storeLogs [⟨1, 1, 7⟩, ⟨2, 1, 8⟩]) .done,
        .call (.deleteRange 2 none) .done] := by
  refine ⟨_, rfl, (compaction_removes_iff rfl rfl _ rfl).1 ?_⟩
  refine along_cons trivial rfl (along_cons ?_ rfl trivial)
  exact fun h => absurd h (by decide)

end WalDemo

end Sandstore.Raft
