import Sandstore.Raft.Strokes

/-!
# What the apply loop does, and what becomes of the log

`ApplyEffect` is the list of the changes the apply loop makes, which leave the log as it is. The rest of
what a node does, to its term, its vote, its role and its clients, leaves the log side as it was
(`LogSide`): two handlers share how they deal with terms, and `handled_cases` says what that means for the
part after it.

The log store of a started node is well kept, whatever has happened to the node since (`exec_kept`).
-/

namespace Sandstore.Raft

open Lib Lib.Proc

variable {δ σ : Type} [Conv]

/-- The part of a node that is about the log. -/
structure LogSide (δ σ : Type) where
  logStore : FileLogStore δ
  wal : Option (WalFile δ)
  snapshot : Option SnapshotFile
  machine : σ
  commitIndex : Nat
  lastApplied : Nat
  lastIncludedIndex : Nat
  lastIncludedTerm : Nat

omit [Conv] in
/-- The log side of a node. -/
def Node.logSide (n : Node δ σ) : LogSide δ σ :=
  ⟨n.mem.logStore, n.disk.wal, n.disk.snapshot, n.disk.machine, n.mem.commitIndex,
    n.mem.lastApplied, n.mem.lastIncludedIndex, n.mem.lastIncludedTerm⟩

omit [Conv] in
/-- An atomic effect of the apply loop. -/
inductive ApplyEffect : Node δ σ → Node δ σ → Prop where
  | notify (n : Node δ σ) (index : Int) (err : Option Err) : ApplyEffect n (n.notify index err)
  | machine (n : Node δ σ) (m : σ) : ApplyEffect n { n with disk := { n.disk with machine := m } }
  | skip (n : Node δ σ) (hbelow : n.mem.lastApplied < n.mem.commitIndex)
      (h : n.mem.lastApplied + 1 ≤ n.mem.lastIncludedIndex) :
      ApplyEffect n (n.withMem fun r => { r with lastApplied := n.mem.lastApplied + 1 })
  | apply (n : Node δ σ) (entry : LogEntry δ) (hbelow : n.mem.lastApplied < n.mem.commitIndex)
      (h : n.mem.logStore.getLog (n.mem.lastApplied + 1) = .ok entry) :
      ApplyEffect n ((n.withMem fun r => { r with lastApplied := n.mem.lastApplied + 1 }).emit
        (.applied (n.mem.lastApplied + 1) entry.data))

omit [Conv] in
/-- Any number of effects of the apply loop. -/
def ApplyEffects : Node δ σ → Node δ σ → Prop := Relation.ReflTransGen ApplyEffect

omit [Conv] in
theorem ApplyEffects.trans (a b c : Node δ σ) (hab : ApplyEffects a b) (hbc : ApplyEffects b c) :
    ApplyEffects a c := Relation.ReflTransGen.trans hab hbc

omit [Conv] in
theorem notify_logSide (n : Node δ σ) (index : Int) (err : Option Err) : (n.notify index err).logSide = n.logSide := by
  unfold Node.notify
  split <;> rfl

section Applying

variable {ok : Fate → Prop} {n : Node δ σ}

omit [Conv]

theorem applyEntry_effects (M : Machine δ σ) (entry : LogEntry δ) (hbelow : n.mem.lastApplied < n.mem.commitIndex)
    (h : n.mem.logStore.getLog (n.mem.lastApplied + 1) = .ok entry) :
    Within ok ApplyEffects (applyEntry M (n.mem.lastApplied + 1) entry) n := by
  have happly := ApplyEffect.apply n entry hbelow h
  refine within_step ApplyEffects.trans (.single happly) ?_ ?_
  · intro commit hc
    cases hc
    exact .tail (.single happly) (.machine _ _)
  · exact fun b m _ => meets_update (.single (.notify m _ _))

theorem applyLoop_effects (M : Machine δ σ) (fuel : Nat) :
    ∀ n : Node δ σ, Within ok ApplyEffects (applyLoop M fuel) n := by
  induction fuel with
  | zero => exact fun _ => meets_pure .refl
  | succ fuel ih =>
    intro n
    refine meets_read_bind (meets_ite (fun hbelow => meets_ite (fun hskip => ?_) fun _ => ?_) ?_)
    · exact within_bind ApplyEffects.trans (meets_update (.single (.skip n hbelow hskip)))
        fun _ m _ => ih m
    · cases hget : n.mem.logStore.getLog (n.mem.lastApplied + 1) with
      | error _ => exact meets_pure .refl
      | ok entry =>
        exact within_bind ApplyEffects.trans (applyEntry_effects M entry hbelow hget)
          fun _ m _ => ih m
    · exact fun _ => meets_pure .refl

theorem applyLogs_applyEffects (M : Machine δ σ) : Within ok ApplyEffects (applyLogs M) n :=
  meets_read_bind (applyLoop_effects M _ n)

end Applying

/-! ## Handling terms -/

section Programs

variable {ok : Fate → Prop} {n : Node δ σ}

omit [Conv] in
theorem stepDown_civic (newTerm : Nat) (leaderID : NodeId) :
    Within ok (fun n n' : Node δ σ => n'.logSide = n.logSide) (stepDown newTerm leaderID) n := by
  have htrans : ∀ a b c : Node δ σ, b.logSide = a.logSide → c.logSide = b.logSide →
      c.logSide = a.logSide := fun _ _ _ hab hbc => hbc.trans hab
  refine within_bind htrans (meets_update rfl) fun _ m _ => ?_
  refine within_bind htrans (meets_write rfl (fun _ => rfl) (fun _ => rfl) (fun _ => rfl)
    fun _ => rfl) fun wrote m' _ => ?_
  refine meets_ite (fun _ => meets_pure rfl) fun _ => ?_
  exact within_bind htrans (meets_update rfl) fun _ _ _ => meets_pure rfl

/-- The two handlers that share their term handling answer before the part after it, with the log side as
it was, or run that part on a node with the same log side. -/
theorem handled_cases {α : Type} {reqTerm : Int} {leaderID : NodeId} {body : Proc (Node δ σ) α}
    {stale : α} {failed : Err → α} (P : Node δ σ → α → Node δ σ → Prop)
    (hbody : ∀ m : Node δ σ, m.logSide = n.logSide → Meets ok body m (P m) fun _ => True) :
    Meets ok (underTerm n reqTerm leaderID stale failed body) n
      (fun a n' => (a = stale ∨ ∃ err, a = failed err) ∧ n'.logSide = n.logSide ∨
        ∃ m, m.logSide = n.logSide ∧ P m a n') fun _ => True := by
  refine meets_ite (fun _ => meets_pure (.inl ⟨.inl rfl, rfl⟩)) fun _ => ?_
  refine meets_ite (fun _ => ?_) fun _ => ?_
  · refine meets_bind (Meets.imp (stepDown_civic _ leaderID) ?_ fun _ _ => trivial)
    intro err m hside
    cases err with
    | some err => exact meets_pure (.inl ⟨.inr ⟨err, rfl⟩, hside⟩)
    | none => exact (hbody m hside).weaken fun a m' h => .inr ⟨m, hside, h⟩
  · exact (hbody n rfl).weaken fun a m' h => .inr ⟨n, rfl, h⟩

/-- A positive answer of such a handler comes from the part after the term handling. -/
theorem handled_spec {α : Type} {reqTerm : Int} {leaderID : NodeId} {body : Proc (Node δ σ) α}
    {stale : α} {failed : Err → α} (good : α → Prop) (P : Node δ σ → α → Node δ σ → Prop)
    (hstale : ¬ good stale) (hfailed : ∀ err, ¬ good (failed err))
    (hbody : ∀ m : Node δ σ, Meets ok body m (fun a m' => good a → P m a m') fun _ => True) :
    Meets ok (underTerm n reqTerm leaderID stale failed body) n
      (fun a n' => good a → ∃ m, m.logSide = n.logSide ∧ P m a n') fun _ => True := by
  refine (handled_cases (fun m a m' => good a → P m a m') fun m _ => hbody m).weaken ?_
  rintro a n' (⟨rfl | ⟨err, rfl⟩, -⟩ | ⟨m, hside, h⟩) hgood
  · exact absurd hgood hstale
  · exact absurd hgood (hfailed err)
  · exact ⟨m, hside, h hgood⟩

end Programs

/-! ## The log store of a node -/

open FileLogStore

section Kept

variable {n n' : Node δ σ}

omit [Conv] in
/-- Applying leaves a node as it is, but for how far it has applied, who waits, and the machine. -/
theorem ApplyEffects.rest (h : ApplyEffects n n') :
    n'.mem = { n.mem with lastApplied := n'.mem.lastApplied, pendingClients := n'.mem.pendingClients } ∧
      n'.disk = { n.disk with machine := n'.disk.machine } := by
  induction h with
  | refl => exact ⟨rfl, rfl⟩
  | @tail m m' _ hstep ih =>
    obtain ⟨hmem, hdisk⟩ := ih
    cases hstep with
    | notify index err =>
      unfold Node.notify
      split
      · exact ⟨congrArg (fun r => { r with pendingClients := m.mem.pendingClients.erase index }) hmem, hdisk⟩
      · exact ⟨hmem, hdisk⟩
    | machine s => exact ⟨hmem, congrArg (fun d => { d with machine := s }) hdisk⟩
    | skip | apply => exact ⟨congrArg (fun r => { r with lastApplied := m.mem.lastApplied + 1 }) hmem, hdisk⟩

omit [Conv] in
theorem ApplyEffects.log_eq (h : ApplyEffects n n') : n'.mem.logStore = n.mem.logStore ∧ n'.disk.wal = n.disk.wal :=
  ⟨congrArg (·.logStore) h.rest.1, congrArg (·.wal) h.rest.2⟩

theorem LogStroke.kept {c : Charter δ σ} (h : LogStroke c n n') (hk : Kept n.mem.logStore) :
    Kept n'.mem.logStore := by
  have hnotify : ∀ (m : Node δ σ) index err, (m.notify index err).mem.logStore = m.mem.logStore :=
    fun m index err => (ApplyEffects.log_eq (.single (.notify m index err))).1
  cases h with
  | answer entry m err =>
    rw [hnotify]
    exact hk
  | refuse _ index err =>
    rw [hnotify]
    exact hk
  | flush | store => exact hk.storeLoop
  | cut _ _ _ _ _ hs => exact hk.deleteRange hs
  | trim _ _ _ hs => exact hk.deleteRange hs
  | skip | apply | enqueue | take | follow | putWal | save | restore | adopt | publish | commit => exact hk

theorem program_kept {ok : Fate → Prop} (env : Env) (M : Machine δ σ) (i : Input δ)
    (hk : Kept n.mem.logStore) : Stays ok (fun m => Kept m.mem.logStore) (program env M i) n := by
  refine program_keeps env M i hk fun m m' hm hs => ?_
  cases hs with
  | log _ hs => exact hs.kept hm
  | demote | fail | persist | vote | stand | campaign | lead | setPeer | cancel => exact hm

theorem recovered_kept (d : Disk δ σ) : Kept (recovered d).logStore := by
  unfold recovered
  dsimp only
  split <;> exact kept_load d.wal

theorem step_kept {env : Env} {M : Machine δ σ} {a : Act δ} (h : step env M n a = some n')
    (hk : Kept n.mem.logStore) : Kept n'.mem.logStore := by
  have hprogram : ∀ i, Within (fun _ => True) (fun _ m => Kept m.mem.logStore) (program env M i) n :=
    fun i => program_kept env M i hk
  refine step_cases h (fun _ _ _ _ _ => trivial) hprogram hk ?_
  intro m _ hreboot
  rw [start_eq (reboot_eq hreboot).1]
  exact recovered_kept m.disk

/-- The log store of a started node is well kept, whatever has happened to the node since. -/
theorem exec_kept {env : Env} {M : Machine δ σ} {acts : List (Act δ)} (hstarted : Started n)
    (h : exec (step env M) n acts = some n') : Kept n'.mem.logStore := by
  have hinit : Kept n.mem.logStore := start_eq hstarted ▸ recovered_kept n.disk
  exact exec_invariant (fun _ _ _ hm hs => step_kept hs hm) acts hinit h

end Kept

end Sandstore.Raft
