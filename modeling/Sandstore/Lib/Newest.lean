import Mathlib.Data.List.Induction

/-!
# The newest element with a property

A history is a list that grows at its end. `Newest p l x` says that `x` has the property `p` and nothing
after it has. There is one such element if there is any, and there are two ways in which it changes: the
history grows (`newest_snoc`), or the property comes to hold of one more element (`newest_add`).
-/

namespace Sandstore.Lib

variable {α : Type} {p q : α → Prop} {l : List α} {x y z : α}

def Newest (p : α → Prop) (l : List α) (x : α) : Prop :=
  ∃ front back, l = front ++ x :: back ∧ p x ∧ ∀ y ∈ back, ¬ p y

/-- The element `y` is `x` or comes after it. -/
def NotBefore (l : List α) (x y : α) : Prop := ∃ front back, l = front ++ x :: back ∧ y ∈ x :: back

theorem Newest.holds (h : Newest p l x) : p x := by
  obtain ⟨_, _, _, hx, _⟩ := h
  exact hx

theorem Newest.mem (h : Newest p l x) : x ∈ l := by
  obtain ⟨front, back, rfl, _, _⟩ := h
  simp

theorem Newest.congr (hpq : ∀ y ∈ l, p y ↔ q y) (h : Newest p l x) : Newest q l x := by
  obtain ⟨front, back, rfl, hx, hback⟩ := h
  refine ⟨front, back, rfl, (hpq x (by simp)).mp hx, fun y hy hq => ?_⟩
  exact hback y hy ((hpq y (by simp [hy])).mpr hq)

theorem Newest.notBefore (h : Newest p l y) (hx : x ∈ l) (hpx : p x) : NotBefore l x y := by
  obtain ⟨front, back, rfl, _, hback⟩ := h
  rcases List.mem_append.mp hx with hfront | hrest
  · obtain ⟨a, b, rfl⟩ := List.append_of_mem hfront
    exact ⟨a, b ++ y :: back, by simp, by simp⟩
  · rcases List.mem_cons.mp hrest with rfl | hlater
    · exact ⟨front, back, rfl, List.mem_cons_self⟩
    · exact absurd hpx (hback x hlater)

theorem newest_snoc : Newest p (l ++ [z]) x ↔ (p z ∧ x = z) ∨ (¬ p z ∧ Newest p l x) := by
  constructor
  · rintro ⟨front, back, heq, hx, hback⟩
    rcases List.eq_nil_or_concat back with rfl | ⟨back, z', rfl⟩
    · obtain ⟨rfl, hz⟩ := List.append_inj' heq rfl
      cases hz
      exact .inl ⟨hx, rfl⟩
    · rw [List.concat_eq_append, ← List.cons_append, ← List.append_assoc] at heq
      obtain ⟨rfl, hz⟩ := List.append_inj' heq rfl
      cases hz
      refine .inr ⟨hback z (by simp), front, back, rfl, hx, fun y hy => hback y (by simp [hy])⟩
  · rintro (⟨hz, rfl⟩ | ⟨hz, front, back, rfl, hx, hback⟩)
    · exact ⟨l, [], rfl, hz, by simp⟩
    · refine ⟨front, back ++ [z], by simp, hx, fun y hy => ?_⟩
      rcases List.mem_append.mp hy with hy | hy
      · exact hback y hy
      · cases List.mem_singleton.mp hy
        exact hz

theorem exists_newest (hx : x ∈ l) (hpx : p x) : ∃ y, Newest p l y := by
  induction l using List.reverseRecOn with
  | nil => cases hx
  | append_singleton l z ih =>
    by_cases hz : p z
    · exact ⟨z, newest_snoc.mpr (.inl ⟨hz, rfl⟩)⟩
    · have hne : x ≠ z := fun heq => hz (heq ▸ hpx)
      obtain ⟨y, hy⟩ := ih (by simpa [hne] using hx)
      exact ⟨y, newest_snoc.mpr (.inr ⟨hz, hy⟩)⟩

theorem Newest.unique (h : Newest p l x) (h' : Newest p l y) : x = y := by
  induction l using List.reverseRecOn with
  | nil => cases h.mem
  | append_singleton l z ih =>
    rcases newest_snoc.mp h with ⟨hz, rfl⟩ | ⟨hz, h⟩ <;>
      rcases newest_snoc.mp h' with ⟨hz', rfl⟩ | ⟨hz', h'⟩
    · rfl
    · exact absurd hz hz'
    · exact absurd hz' hz
    · exact ih h h'

theorem newest_add {front back : List α} (hq : ∀ y, q y ↔ p y ∨ y = x) (hnodup : (front ++ x :: back).Nodup)
    (hback : ∀ y ∈ back, ¬ p y) : Newest q (front ++ x :: back) x := by
  refine ⟨front, back, rfl, (hq x).mpr (.inr rfl), fun y hy hqy => ?_⟩
  rcases (hq y).mp hqy with hpy | rfl
  · exact hback y hy hpy
  · simp [List.nodup_append, hy] at hnodup

end Sandstore.Lib
