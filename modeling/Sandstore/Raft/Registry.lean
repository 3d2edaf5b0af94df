import Sandstore.Raft.Strokes

/-!
# What becomes of a registration

A `Replicate` call is registered at the index of its entry, and waits. Two inputs are about one call: the one
that registers it, and the branch it takes when its context is done. In every other critical section **a
registration goes only with an answer** (`Strokes.tells`), to one call or, with the loss of the office, to all
of them. And a node that seeks no office keeps its role in its term, or ends up following (`Strokes.seated`).
-/

namespace Sandstore.Raft

open Lib Lib.Proc

variable {δ σ : Type}

/-- The inputs whose sections neither register a call nor take a cancelled call's branch. -/
def Input.plain : Input δ → Bool
  | .replicate _ _ => false
  | .cancel _ _ => false
  | _ => true

/-- The call has been answered. -/
def Node.Answered (n : Node δ σ) (call : CallId) : Prop := ∃ err, Event.notified call err ∈ n.events

/-- The record goes on, and a call that is no longer registered has been answered. -/
structure Heeds (n n' : Node δ σ) : Prop where
  events : n.events <+: n'.events
  told : ∀ i call, n.mem.pendingClients.get i = some call →
    n'.mem.pendingClients.get i = some call ∨ n'.Answered call

/-- And nobody is registered. -/
structure Tells (n n' : Node δ σ) : Prop extends Heeds n n' where
  fewer : ∀ i call, n'.mem.pendingClients.get i = some call → n.mem.pendingClients.get i = some call

section Tells

variable {n n' n'' : Node δ σ}

theorem Node.Answered.mono {call : CallId} (h : n.Answered call) (hevents : n.events <+: n'.events) :
    n'.Answered call := h.imp fun _ he => hevents.subset he

theorem Heeds.trans (h : Heeds n n') (h' : Heeds n' n'') : Heeds n n'' where
  events := h.events.trans h'.events
  told := by
    intro i call hc
    rcases h.told i call hc with hstill | htold
    · exact h'.told i call hstill
    · exact .inr (htold.mono h'.events)

theorem Tells.refl (n : Node δ σ) : Tells n n := ⟨⟨List.prefix_rfl, fun _ _ h => .inl h⟩, fun _ _ h => h⟩

theorem Tells.trans (h : Tells n n') (h' : Tells n' n'') : Tells n n'' :=
  { h.toHeeds.trans h'.toHeeds with fewer := fun i call hc => h.fewer i call (h'.fewer i call hc) }

theorem Tells.same (hclients : n'.mem.pendingClients = n.mem.pendingClients) (hevents : n.events <+: n'.events) :
    Tells n n' := ⟨⟨hevents, fun _ _ h => .inl (hclients ▸ h)⟩, fun _ _ h => hclients ▸ h⟩

theorem Tells.all {f : CallId → Option Err} (hclients : n'.mem.pendingClients = ∅)
    (hevents : n'.events = n.events ++ n.mem.pendingClients.values.map fun c => .notified c (f c)) : Tells n n' where
  events := hevents ▸ List.prefix_append _ _
  fewer := by simp [hclients]
  told := by
    intro i call hc
    refine .inr ⟨f call, ?_⟩
    rw [hevents, List.mem_append, List.mem_map]
    exact .inr ⟨call, OrdMap.mem_values_iff.mpr ⟨i, hc⟩, rfl⟩

theorem Tells.erase {index : Int} {call : CallId} {err : Option Err}
    (hclients : n'.mem.pendingClients = n.mem.pendingClients.erase index)
    (hevents : n'.events = n.events ++ [.notified call err])
    (hat : ∀ c, n.mem.pendingClients.get index = some c → c = call) : Tells n n' where
  events := hevents ▸ List.prefix_append _ _
  fewer := by
    intro i c hc
    rw [hclients, OrdMap.get_erase] at hc
    split at hc
    · cases hc
    · exact hc
  told := by
    intro i c hc
    by_cases hi : i = index
    · rw [hi] at hc
      refine .inr ⟨err, ?_⟩
      rw [hevents, hat c hc]
      exact List.mem_append_right _ List.mem_cons_self
    · refine .inl ?_
      rw [hclients, OrdMap.get_erase_ne _ hi]
      exact hc

theorem Tells.notify (n : Node δ σ) (index : Int) (err : Option Err) : Tells n (n.notify index err) := by
  unfold Node.notify
  cases hc : n.mem.pendingClients.get index with
  | none => exact .refl n
  | some call => exact .erase rfl rfl fun c hc' => Option.some.inj (hc'.symm.trans hc)

variable [Conv] {c : Charter δ σ}

theorem LogStroke.tells (hi : c.input.plain = true) (h : LogStroke c n n') : Tells n n' := by
  have happlied : ∀ entry m, Tells n (n.applied entry m) := fun _ _ => .same rfl (List.prefix_append _ _)
  cases h with
  | apply entry m => exact happlied entry m
  | answer entry m err => exact (happlied entry m).trans (.notify _ _ _)
  | refuse _ index err => exact .notify n index _
  | enqueue lastIdx term data call hinput =>
    rw [hinput] at hi
    cases hi
  | skip | take | flush | follow | store | cut | trim | putWal | save | restore | adopt | publish | commit =>
    exact .same rfl List.prefix_rfl

theorem Stroke.tells (hi : c.input.plain = true) (h : Stroke c n n') : Tells n n' := by
  cases h with
  | log _ h => exact h.tells hi
  | demote | fail => exact .all rfl rfl
  | persist | vote | stand | campaign | setPeer => exact .same rfl List.prefix_rfl
  | lead => exact .same rfl (List.prefix_append _ _)
  | cancel index call hinput =>
    rw [hinput] at hi
    cases hi

/-- **A registration goes only with an answer.** -/
theorem Strokes.tells (h : Strokes c n n') (hi : c.input.plain = true) : Tells n n' :=
  h.keeps (.refl n) fun _ _ hm hs => hm.trans (hs.tells hi)

end Tells

/-! ## Roles -/

section Seated

variable {n n' n'' : Node δ σ}

/-- Whoever does not follow has its role as before, and in the same term. -/
def Seated (n n' : Node δ σ) : Prop :=
  n'.mem.state ≠ .follower → n'.mem.state = n.mem.state ∧ n'.mem.currentTerm = n.mem.currentTerm

theorem Seated.trans (h : Seated n n') (h' : Seated n' n'') : Seated n n'' := by
  intro hno
  obtain ⟨hrole, hterm⟩ := h' hno
  rw [hrole, hterm]
  exact h (hrole ▸ hno)

theorem Seated.not_leader (h : Seated n n') (hn : n.mem.state ≠ .leader) : n'.mem.state ≠ .leader := by
  intro hleads
  obtain ⟨hrole, -⟩ := h (by rw [hleads]; decide)
  exact hn (hrole ▸ hleads)

theorem Seated.notify (n : Node δ σ) (index : Int) (err : Option Err) : Seated n (n.notify index err) := by
  unfold Node.notify
  split <;> exact fun _ => ⟨rfl, rfl⟩

variable [Conv] {c : Charter δ σ}

theorem LogStroke.seated (h : LogStroke c n n') : Seated n n' := by
  have happlied : ∀ entry m, Seated n (n.applied entry m) := fun _ _ _ => ⟨rfl, rfl⟩
  cases h with
  | apply entry m => exact happlied entry m
  | answer entry m err => exact (happlied entry m).trans (.notify _ _ _)
  | refuse _ index err => exact .notify n index _
  | follow => exact fun hno => absurd rfl hno
  | skip | enqueue | take | flush | store | cut | trim | putWal | save | restore | adopt | publish | commit =>
    exact fun _ => ⟨rfl, rfl⟩

theorem Stroke.seated (hi : c.input.seeksOffice = false) (h : Stroke c n n') : Seated n n' := by
  cases h with
  | log _ h => exact h.seated
  | demote | fail => exact fun hno => absurd rfl hno
  | persist | vote | setPeer | cancel => exact fun _ => ⟨rfl, rfl⟩
  | stand _ hseeks | campaign _ hseeks | lead _ _ hseeks =>
    rw [hi] at hseeks
    cases hseeks

theorem Strokes.seated (h : Strokes c n n') (hi : c.input.seeksOffice = false) : Seated n n' :=
  h.keeps (fun _ => ⟨rfl, rfl⟩) fun _ _ hm hs => hm.trans (hs.seated hi)

/-- A program that seeks no office leaves the roles so. -/
theorem Stroking.seated {α : Type} {ok : Fate → Prop} {M : Machine δ σ} {i : Input δ} {p : Proc (Node δ σ) α}
    {Q : α → Node δ σ → Prop} (h : Stroking ok (.plain M i) n p n Q) (hi : i.seeksOffice = false) :
    Meets ok p n (fun _ m => Seated n m) fun _ => True :=
  (h.meets (fun _ => trivial) .refl).imp (fun _ _ hm => hm.1.seated hi) fun _ _ => trivial

end Seated

end Sandstore.Raft
