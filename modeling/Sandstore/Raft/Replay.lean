import Sandstore.Raft.Snapshot

/-!
# What a restarted node applies again

`Start` puts `lastApplied` at the snapshot's index and leaves the state machine's own files as they
are. So the next run of the apply loop hands the state machine every committed command above the
snapshot, whether or not it had applied it before (`restart_replays`).
-/

namespace Sandstore.Raft

open Lib Lib.Proc

variable {δ σ : Type}

/-- The store holds the commands from position `s` on. -/
def Carries (store : FileLogStore δ) (commands : List δ) (s : Nat) : Prop :=
  ∀ k data, s ≤ k → commands[k]? = some data →
    ∃ entry, store.getLog (k + 1) = .ok entry ∧ entry.data = data

/-- The snapshot on disk is for the first `s` commands, and there is none where `s` is 0. -/
def SnapshotAt (file : Option SnapshotFile) (s : Nat) : Prop :=
  match file with
  | none => s = 0
  | some snap => 0 < s ∧ snap.meta.lastIncludedIndex = s ∧ snap.data ≠ []

/-- The apply loop has handed the commands from `s` on to a state machine that was at `init`, and has
`fuel` of them to go. -/
structure Replaying (M : Machine δ σ) (init : σ) (commands : List δ) (s fuel : Nat) (n : Node δ σ) :
    Prop where
  commit : n.mem.commitIndex = commands.length
  included : n.mem.lastIncludedIndex = s
  after : s ≤ n.mem.lastApplied
  left : n.mem.lastApplied + fuel = commands.length
  carries : Carries n.mem.logStore commands s
  machine : n.disk.machine = stateAfter M init (commands.drop s) (n.mem.lastApplied - s)

variable {commands : List δ}

theorem Replaying.notify {M : Machine δ σ} {init : σ} {s fuel : Nat} {n : Node δ σ}
    (h : Replaying M init commands s fuel n) (index : Int) (err : Option Err) :
    Replaying M init commands s fuel (n.notify index err) := by
  unfold Node.notify
  split
  · exact { h with }
  · exact h

theorem Replaying.next {M : Machine δ σ} {init : σ} {s fuel : Nat} {n : Node δ σ}
    (h : Replaying M init commands s (fuel + 1) n) :
    ∃ entry, n.mem.logStore.getLog (n.mem.lastApplied + 1) = .ok entry ∧
      Meets (fun _ => False) (applyEntry M (n.mem.lastApplied + 1) entry) n
        (fun _ n' => Replaying M init commands s fuel n') fun _ => False := by
  have hleft := h.left
  have hlt : n.mem.lastApplied < commands.length := by omega
  have hat : commands[n.mem.lastApplied]? = some commands[n.mem.lastApplied] := List.getElem?_eq_getElem hlt
  obtain ⟨entry, hget, hdata⟩ := h.carries _ _ h.after hat
  have hdrop : (commands.drop s)[n.mem.lastApplied - s]? = some entry.data := by
    rw [List.getElem?_drop, Nat.add_sub_cancel' h.after, hat, hdata]
  have hnext := stateAfter_succ M init hdrop
  have hsucc : n.mem.lastApplied - s + 1 = n.mem.lastApplied + 1 - s := by
    have := h.after
    omega
  rw [← h.machine, hsucc] at hnext
  refine ⟨entry, hget, meets_commit rfl ?_ False.elim False.elim False.elim False.elim⟩
  apply meets_update
  apply Replaying.notify
  exact
    { commit := h.commit
      included := h.included
      after := Nat.le_succ_of_le h.after
      left := by
        show n.mem.lastApplied + 1 + fuel = _
        omega
      carries := h.carries
      machine := hnext.symm }

theorem applyLoop_replays (M : Machine δ σ) {s : Nat} {init : σ} (fuel : Nat) :
    ∀ n : Node δ σ, Replaying M init commands s fuel n → Meets (fun _ => False) (applyLoop M fuel) n
        (fun _ n' => Replaying M init commands s 0 n') fun _ => False := by
  induction fuel with
  | zero => exact fun n h => meets_pure h
  | succ fuel ih =>
    intro n h
    have hcommit := h.commit
    have hleft := h.left
    have hafter := h.after
    obtain ⟨entry, hget, hmeets⟩ := h.next
    apply meets_read_bind
    rw [if_pos (by omega), h.included, if_neg (by omega), hget]
    apply meets_bind
    exact hmeets.imp (fun _ m hm => ih m hm) fun _ hdead => hdead

section Start

variable [Conv]

theorem start_at {d : Disk δ σ} {s last term : Nat} (hsnapshot : SnapshotAt d.snapshot s)
    (hlast : (FileLogStore.load d.wal).lastIndexAndTerm = .ok (last, term)) (hs : s ≤ last) :
    ∃ r, start d = .ok r ∧ r.lastApplied = s ∧ r.lastIncludedIndex = s ∧ r.logStore = FileLogStore.load d.wal := by
  obtain ⟨stable, snapshot, wal, machine⟩ := d
  cases snapshot with
  | none =>
    have hzero : s = 0 := hsnapshot
    subst hzero
    refine ⟨recovered ⟨stable, none, wal, machine⟩, ?_, rfl, rfl, rfl⟩
    simp [start, loadSnapshot, hlast, recovered]
  | some snap =>
    obtain ⟨hpos, rfl, hdata⟩ := hsnapshot
    refine ⟨recovered ⟨stable, some snap, wal, machine⟩, ?_, ?_, ?_, ?_⟩
    · simp [start, loadSnapshot, recovered, hpos, hdata, hlast, hs]
    all_goals simp [recovered, loadSnapshot, hpos]

/-- **A restarted node hands its state machine every command above the snapshot.** -/
theorem restart_replays (M : Machine δ σ) {commands : List δ} {s : Nat} (hs : s ≤ commands.length)
    {d : Disk δ σ} (hsnapshot : SnapshotAt d.snapshot s)
    (hcarries : Carries (FileLogStore.load d.wal) commands s) {last term : Nat}
    (hlast : (FileLogStore.load d.wal).lastIndexAndTerm = .ok (last, term)) (hreach : s ≤ last) :
    ∃ r n', start d = .ok r ∧ r.lastApplied = s ∧
      (applyLogs M).run ⟨d, { r with commitIndex := commands.length }, []⟩ [] = .back () n' ∧
      n'.disk.machine = (commands.drop s).foldl (fun m data => (M.apply data m).1) d.machine := by
  obtain ⟨r, hstart, happlied, hincluded, hlog⟩ := start_at hsnapshot hlast hreach
  have hmeets : Meets (fun _ => False) (applyLogs M)
      ⟨d, { r with commitIndex := commands.length }, []⟩
      (fun _ n' => Replaying M d.machine commands s 0 n') fun _ => False := by
    apply meets_read_bind
    apply applyLoop_replays
    exact
      { commit := rfl
        included := hincluded
        after := Nat.le_of_eq happlied.symm
        left := by
          show r.lastApplied + (commands.length - r.lastApplied) = _
          omega
        carries := hlog ▸ hcarries
        machine := by simp [stateAfter, happlied] }
  have hnone : ∀ f ∈ ([] : List Fate), False := fun _ hf => nomatch hf
  have hrun := hmeets.run hnone
  cases hr : (applyLogs M).run ⟨d, { r with commitIndex := commands.length }, []⟩ [] with
  | died n' =>
    rw [hr] at hrun
    exact hrun.elim
  | back u n' =>
    rw [hr] at hrun
    refine ⟨r, n', hstart, happlied, hr, ?_⟩
    have hend : n'.mem.lastApplied = commands.length := hrun.left
    rw [hrun.machine, stateAfter, hend, List.take_of_length_le (by simp)]

end Start

end Sandstore.Raft
