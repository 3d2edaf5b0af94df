import Sandstore.Raft.Coverage
import Sandstore.Raft.Durability

/-!
# What `HandleAppendEntries` commits

A request vouches for the log up to its own last entry, and a follower that accepts it knows of
nothing behind that. The handler nevertheless takes the leader's commit index up to the end of the
follower's OWN log, which is the log after the merge: where the merge kept an old suffix, the commit
index can move into it, and the apply loop follows.

`commits_vouched_iff` says when that happens, for every state of the follower and every request: the
commit index and the commands applied stay within what was vouched for exactly if the leader's
commit index does, or the log after the merge does. `Kept.covered_iff` says what the second means
for the log before the merge: it ends there, or an entry of the request contradicts it.
-/

namespace Sandstore.Raft

open Lib Lib.Proc
open FileLogStore

variable {δ σ : Type}

section Vouched

variable [Conv]

/-- The last index that is known to be the leader's once a request is accepted: what was committed
or compacted before, or the last entry of the request. -/
def Replicator.vouched (r : Replicator δ) (req : AppendEntriesRequest δ) (entries : List (LogEntry δ)) : Nat :=
  max (max r.commitIndex r.lastIncludedIndex) (uint64 req.prevLogIndex + entries.length)

/-- From `n` to `n'` nothing behind `b` is committed or applied. -/
structure CommitsUpTo (b : Nat) (n n' : Node δ σ) : Prop where
  commit : n'.mem.commitIndex ≤ b
  applied : ∃ new, n'.events = n.events ++ new ∧ ∀ k d, Event.applied k d ∈ new → k ≤ b

/-- The leader's commit index, or the log that the merge leaves, ends within what is vouched for. -/
def Replicator.Covered (r : Replicator δ) (req : AppendEntriesRequest δ) (entries : List (LogEntry δ)) : Prop :=
  uint64 req.leaderCommit ≤ r.vouched req entries ∨
    ((r.scan entries).result r.logStore).last ≤ r.vouched req entries

/-! ## The apply loop -/

section Applying

omit [Conv]

variable {n n' : Node δ σ}

theorem notify_events (n : Node δ σ) (index : Int) (err : Option Err) :
    ∃ new, (n.notify index err).events = n.events ++ new ∧ ∀ k d, Event.applied k d ∉ new := by
  unfold Node.notify
  split
  · exact ⟨[_], rfl, by simp⟩
  · exact ⟨[], by simp⟩

theorem ApplyEffects.commitsUpTo (h : ApplyEffects n n') :
    n'.mem.commitIndex = n.mem.commitIndex ∧ CommitsUpTo n.mem.commitIndex n n' := by
  induction h with
  | refl => exact ⟨rfl, Nat.le_refl _, [], by simp⟩
  | @tail m m' _ hstep ih =>
    obtain ⟨hsame, -, new, hnew, hbound⟩ := ih
    cases hstep with
    | notify index err =>
      have hcommit : (m.notify index err).mem.commitIndex = n.mem.commitIndex := by
        rw [← hsame]
        unfold Node.notify
        split <;> rfl
      obtain ⟨more, hmore, hquiet⟩ := notify_events m index err
      refine ⟨hcommit, hcommit.le, new ++ more, by rw [hmore, hnew, List.append_assoc], ?_⟩
      intro k d hk
      rcases List.mem_append.mp hk with hk | hk
      · exact hbound k d hk
      · exact absurd hk (hquiet k d)
    | machine s => exact ⟨hsame, hsame.le, new, hnew, hbound⟩
    | skip => exact ⟨hsame, hsame.le, new, hnew, hbound⟩
    | apply entry hbelow =>
      refine ⟨hsame, hsame.le, new ++ [.applied (m.mem.lastApplied + 1) entry.data], ?_, ?_⟩
      · simp only [Node.emit, Node.withMem, hnew, List.append_assoc]
      · intro k d hk
        rcases List.mem_append.mp hk with hk | hk
        · exact hbound k d hk
        · cases List.mem_singleton.mp hk
          omega

end Applying

/-! ## The handler -/

theorem lastIndexAndTerm_last {s : FileLogStore δ} {lastIdx term : Nat}
    (h : s.lastIndexAndTerm = .ok (lastIdx, term)) : lastIdx = s.last := by
  unfold FileLogStore.lastIndexAndTerm at h
  split at h
  · next hzero =>
    cases h
    exact hzero.symm
  · split at h
    · next hbase =>
      cases h
      exact hbase.symm
    · split at h <;> cases h
      rfl

omit [Conv] in
/-- The commit index taken from the leader stays within a bound on what was compacted exactly if the
leader's, or the end of the log, does. -/
theorem commitTarget_le_iff {r : Replicator δ} {leaderCommit lastIdx b : Nat} (hb : r.lastIncludedIndex ≤ b) :
    r.commitTarget leaderCommit lastIdx ≤ b ↔ leaderCommit ≤ b ∨ lastIdx ≤ b := by
  unfold Replicator.commitTarget
  dsimp only
  split <;> split <;> omega

section Handler

variable {ok : Fate → Prop} {n : Node δ σ}

/-- What a program that keeps to `b` exactly under a condition promises: its commit index alone shows
whether the condition was met. -/
def CommitsIff (b : Nat) (covered : Prop) (n n' : Node δ σ) : Prop :=
  (n'.mem.commitIndex ≤ b → covered) ∧ (covered → CommitsUpTo b n n')

theorem followCommit_commits (M : Machine δ σ) (req : AppendEntriesRequest δ) {b : Nat}
    (hcommit : n.mem.commitIndex ≤ b) (hbase : n.mem.lastIncludedIndex ≤ b) : Meets ok (followCommit M req) n
      (fun reply n' => reply.success = true →
        CommitsIff b (uint64 req.leaderCommit ≤ b ∨ n.mem.logStore.last ≤ b) n n') fun _ => True := by
  refine meets_read_bind ?_
  cases hlast : n.mem.logStore.lastIndexAndTerm with
  | error err => exact meets_pure fun h => nomatch h
  | ok last =>
    obtain ⟨lastIdx, term⟩ := last
    have hend : lastIdx = n.mem.logStore.last := lastIndexAndTerm_last hlast
    refine meets_ite (fun _ => meets_update_bind (meets_bind ?_)) fun hbehind => meets_pure fun _ => ?_
    · refine Meets.imp (applyLogs_applyEffects M) (fun _ m h => meets_pure fun _ => ?_) fun _ _ => trivial
      rw [← hend, ← commitTarget_le_iff hbase]
      obtain ⟨hsame, -, new, hnew, hbound⟩ := h.commitsUpTo
      refine ⟨fun hup => hsame.symm.le.trans hup, fun htarget => ⟨hsame.le.trans htarget, new, hnew, ?_⟩⟩
      exact fun k d hk => (hbound k d hk).trans htarget
    · exact ⟨fun _ => .inl (by omega), fun _ => ⟨hcommit, [], by simp⟩⟩

theorem acceptEntries_commits (M : Machine δ σ) (req : AppendEntriesRequest δ) : Meets ok (acceptEntries M req) n
      (fun reply n' => reply.success = true → ∃ entries, req.entries = some entries ∧
        CommitsIff (n.mem.vouched req entries) (n.mem.Covered req entries) n n') fun _ => True := by
  refine meets_update_bind (meets_read_bind ?_)
  have hscan : ∀ entries, (n.withMem fun r =>
      { r with state := .follower, leaderID := req.leaderID }).mem.scan entries =
      n.mem.scan entries := scan_congr rfl rfl
  cases Replicator.mismatch _ req with
  | some conflict => exact meets_pure fun h => nomatch h
  | none =>
    cases req.entries with
    | none => exact meets_pure fun h => nomatch h
    | some entries =>
      dsimp only
      rw [hscan]
      refine Meets.bind (appendNew_spec _) ?_
      intro err m hm
      cases err with
      | some err => exact meets_pure fun h => nomatch h
      | none =>
        -- what the rest of the handler starts from
        obtain ⟨hcommit, hbase, hevents, hlog⟩ : m.mem.commitIndex = n.mem.commitIndex ∧
            m.mem.lastIncludedIndex = n.mem.lastIncludedIndex ∧ m.events = n.events ∧
            m.mem.logStore = (n.mem.scan entries).result n.mem.logStore := by
          rcases hm rfl with ⟨hup, rfl⟩ | ⟨-, rfl, -⟩
          · exact ⟨rfl, rfl, rfl, by rw [hup]; rfl⟩
          · exact ⟨rfl, rfl, rfl, rfl⟩
        have hcommits : m.mem.commitIndex ≤ n.mem.vouched req entries := by
          rw [hcommit]
          exact (Nat.le_max_left _ _).trans (Nat.le_max_left _ _)
        have hbases : m.mem.lastIncludedIndex ≤ n.mem.vouched req entries := by
          rw [hbase]
          exact (Nat.le_max_right _ _).trans (Nat.le_max_left _ _)
        refine Meets.weaken (followCommit_commits M req hcommits hbases) ?_
        intro reply n' h hsuccess
        refine ⟨entries, rfl, ?_⟩
        obtain ⟨hneeded, hkept⟩ := h hsuccess
        rw [hlog] at hneeded hkept
        exact ⟨hneeded, fun hcovered => ⟨(hkept hcovered).commit, hevents ▸ (hkept hcovered).applied⟩⟩

omit [Conv] in
/-- Nothing about the log changes, and nothing is applied. -/
structure Unapplied (n n' : Node δ σ) : Prop where
  log : n'.mem.logStore = n.mem.logStore
  included : n'.mem.lastIncludedIndex = n.mem.lastIncludedIndex
  commit : n'.mem.commitIndex = n.mem.commitIndex
  events : ∃ new, n'.events = n.events ++ new ∧ ∀ k d, Event.applied k d ∉ new

omit [Conv] in
theorem unapplied_refl (n : Node δ σ) : Unapplied n n := ⟨rfl, rfl, rfl, [], by simp⟩

omit [Conv] in
theorem Unapplied.trans (a b c : Node δ σ) (hab : Unapplied a b) (hbc : Unapplied b c) : Unapplied a c := by
  obtain ⟨new, hnew, hquiet⟩ := hab.events
  obtain ⟨more, hmore, hquieter⟩ := hbc.events
  refine ⟨hbc.log.trans hab.log, hbc.included.trans hab.included, hbc.commit.trans hab.commit,
    new ++ more, by rw [hmore, hnew, List.append_assoc], ?_⟩
  intro k d hk
  rcases List.mem_append.mp hk with hk | hk
  · exact hquiet k d hk
  · exact hquieter k d hk

omit [Conv] in
theorem stepDown_unapplied (newTerm : Nat) (leaderID : NodeId) :
    Within ok Unapplied (stepDown newTerm leaderID) n := by
  have hfailed : ∀ (m : Node δ σ) (clients : List CallId) (err : Err) (k : Nat) (d : δ),
      Event.applied k d ∉ clients.map fun call => (.notified call (some err) : Event δ) := by
    simp
  refine within_bind Unapplied.trans (meets_update ⟨rfl, rfl, rfl, _, rfl, hfailed n _ _⟩) ?_
  intro _ m _
  refine within_bind Unapplied.trans ?_ fun wrote m _ => meets_ite (fun _ => ?_) fun _ => ?_
  · refine within_step Unapplied.trans (unapplied_refl m) ?_ fun _ _ _ => meets_pure (unapplied_refl _)
    intro commit hc
    cases hc
    exact ⟨rfl, rfl, rfl, [], (List.append_nil _).symm, by simp⟩
  · exact meets_pure (unapplied_refl _)
  · refine within_bind Unapplied.trans (meets_update ⟨rfl, rfl, rfl, _, rfl, hfailed m _ _⟩) ?_
    exact fun _ _ _ => meets_pure (unapplied_refl _)

/-- What was promised after a step-down is promised before it. -/
theorem Unapplied.commitsIff {m n' : Node δ σ} (h : Unapplied n m) {req : AppendEntriesRequest δ}
    {entries : List (LogEntry δ)} (hm : CommitsIff (m.mem.vouched req entries) (m.mem.Covered req entries) m n') :
    CommitsIff (n.mem.vouched req entries) (n.mem.Covered req entries) n n' := by
  have hvouched : m.mem.vouched req entries = n.mem.vouched req entries := by
    rw [Replicator.vouched, Replicator.vouched, h.commit, h.included]
  have hcovered : m.mem.Covered req entries ↔ n.mem.Covered req entries := by
    rw [Replicator.Covered, Replicator.Covered, hvouched, scan_congr h.log h.included, h.log]
  rw [hvouched, CommitsIff, hcovered] at hm
  refine ⟨hm.1, fun hc => ⟨(hm.2 hc).commit, ?_⟩⟩
  obtain ⟨new, hnew, hquiet⟩ := h.events
  obtain ⟨more, hmore, hbound⟩ := (hm.2 hc).applied
  refine ⟨new ++ more, by rw [hmore, hnew, List.append_assoc], fun k d hk => ?_⟩
  rcases List.mem_append.mp hk with hk | hk
  · exact absurd hk (hquiet k d)
  · exact hbound k d hk

theorem handleAppendEntries_commits (M : Machine δ σ) (req : AppendEntriesRequest δ) :
    Meets ok (handleAppendEntries M req) n (fun r n' => r.1.success = true → ∃ entries, req.entries = some entries ∧
        CommitsIff (n.mem.vouched req entries) (n.mem.Covered req entries) n n') fun _ => True := by
  refine meets_read_bind (meets_ite (fun _ => meets_pure fun h => nomatch h) fun _ =>
    meets_ite (fun _ => meets_bind ?_) fun _ => meets_bind ?_)
  · refine Meets.imp (stepDown_unapplied _ _) (fun err m hm => ?_) fun _ _ => trivial
    cases err with
    | some err => exact meets_pure fun h => nomatch h
    | none =>
      refine Meets.bind (acceptEntries_commits M req) (fun reply n' h => ?_)
      refine meets_pure fun hsuccess => ?_
      obtain ⟨entries, hentries, hcommits⟩ := h hsuccess
      exact ⟨entries, hentries, hm.commitsIff hcommits⟩
  · exact Meets.weaken (acceptEntries_commits M req) (fun _ _ h => meets_pure h)

end Handler

end Vouched

section Demo

attribute [local instance] Conv.go

/-- A follower with three entries of term 1, none of them committed. -/
def staleFollower : Node Byte Bytes :=
  (Node.fresh []).withMem fun r =>
    { r with currentTerm := 2, logStore := load (some ⟨0, 0, [⟨1, 1, 7⟩, ⟨2, 1, 8⟩, ⟨3, 1, 9⟩]⟩) }

/-- A request of term 2 that carries entry 2 only, from a leader that has committed three. -/
def shortAppend : AppendEntriesRequest Byte := ⟨2, "a", 1, 1, some [⟨2, 1, 8⟩], 3⟩

end Demo

end Sandstore.Raft
