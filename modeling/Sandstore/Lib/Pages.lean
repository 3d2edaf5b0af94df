import Mathlib.Data.List.Basic
import Mathlib.Order.Defs.LinearOrder
import Mathlib.Order.Lattice

/-!
# A list read in pages while it changes

A reader asks for a sorted list page by page and says where to go on by a number: how many elements it has been
shown. The list is another one each time. `shown` is what it has after so many pages and `collected` what it ends
with, each as a function of the lists that the requests meet.

A position means the same in two lists only if as many elements come before it. That is `Steady`: of the list
that a request meets, as many elements are at or before what has been shown as have been shown. Then the pages
continue each other, so that what is collected is in order (`collected_sorted`) and has everything that was there
all the time (`mem_collected`). The reading ends as soon as the lists are bounded (`ends`).
-/

namespace Sandstore.Lib

variable {α : Type}

/-- What so many pages have shown, where none of them was the last. -/
def shown (size : Nat) (view : Nat → List α) (pages : Nat) : List α :=
  (List.range pages).flatMap fun i => ((view i).drop (size * i)).take size

/-- What has been shown when the page of this number is the last. -/
def collected (size : Nat) (view : Nat → List α) (last : Nat) : List α :=
  shown size view last ++ (view last).drop (size * last)

/-- After each of so many pages there was more. -/
def Unfinished (size : Nat) (view : Nat → List α) (pages : Nat) : Prop :=
  ∀ i < pages, size * (i + 1) < (view i).length

/-- Whenever a page is asked for, as many elements are at or before those shown as have been shown. -/
def Steady [LinearOrder α] (size : Nat) (view : Nat → List α) : Prop :=
  ∀ i, Unfinished size view i → (view i).countP (fun x => (shown size view i).any fun y => x ≤ y) = size * i

theorem shown_succ (size : Nat) (view : Nat → List α) (pages : Nat) :
    shown size view (pages + 1) = shown size view pages ++ ((view pages).drop (size * pages)).take size := by
  rw [shown, List.range_succ, List.flatMap_append, List.flatMap_singleton]
  rfl

/-- **Lists that stay bounded come to an end.** -/
theorem ends {size : Nat} {view : Nat → List α} (hsize : 0 < size) {bound : Nat} (hbound : ∀ i, (view i).length ≤ bound) :
    ∃ last, Unfinished size view last ∧ (view last).length ≤ size * (last + 1) := by
  by_contra hnever
  have hmore : ∀ pages, Unfinished size view pages := by
    intro pages
    induction pages with
    | zero => exact fun i hi => absurd hi (Nat.not_lt_zero i)
    | succ pages ih =>
      intro i hi
      rcases Nat.lt_succ_iff_lt_or_eq.mp hi with hlt | rfl
      · exact ih i hlt
      · exact Nat.lt_of_not_le fun hle => hnever ⟨i, ih, hle⟩
  have hlong := hmore (bound + 1) bound (Nat.lt_succ_self bound)
  have hgrown : bound + 1 ≤ size * (bound + 1) := Nat.le_mul_of_pos_left _ hsize
  have := hbound bound
  omega

section Pages

variable [LinearOrder α] {size : Nat} {view : Nat → List α} {last : Nat}

/-- In a sorted list what has a property that is inherited downwards comes first. -/
theorem drop_countP {p : α → Bool} {xs : List α} (hsorted : xs.Pairwise (· < ·))
    (hdown : ∀ x y, x < y → p y = true → p x = true) : xs.drop (xs.countP p) = xs.filter fun x => !p x := by
  induction xs with
  | nil => rfl
  | cons x xs ih =>
    obtain ⟨hless, hsorted'⟩ := List.pairwise_cons.mp hsorted
    by_cases hx : p x = true
    · rw [List.countP_cons_of_pos hx, List.drop_succ_cons, ih hsorted', List.filter_cons_of_neg (by simp [hx])]
    · -- nothing behind `x` has the property
      have hnone : ∀ y ∈ xs, ¬ p y = true := fun y hy hpy => hx (hdown x y (hless y hy) hpy)
      rw [List.countP_cons_of_neg hx, List.countP_eq_zero.mpr hnone, List.drop_zero, eq_comm, List.filter_eq_self]
      intro y hy
      rcases List.mem_cons.mp hy with rfl | hy
      · simpa using hx
      · simpa using hnone y hy

section Steady

variable (hsteady : Steady size view) (hsorted : ∀ i, (view i).Pairwise (· < ·)) (hmore : Unfinished size view last)

include hsteady hsorted hmore

/-- Where the position is right, what is left is what comes behind everything shown. -/
theorem Steady.left :
    (view last).drop (size * last) = (view last).filter fun x => !(shown size view last).any fun y => x ≤ y := by
  rw [← hsteady last hmore]
  refine drop_countP (hsorted last) ?_
  intro x y hlt hy
  obtain ⟨z, hz, hyz⟩ := List.any_eq_true.mp hy
  exact List.any_eq_true.mpr ⟨z, hz, by simpa using hlt.le.trans (by simpa using hyz)⟩

theorem Steady.left_behind {x : α} :
    x ∈ (view last).drop (size * last) ↔ x ∈ view last ∧ ∀ y ∈ shown size view last, y < x := by
  rw [hsteady.left hsorted hmore, List.mem_filter]
  simp

theorem shown_sorted : (shown size view last).Pairwise (· < ·) := by
  induction last with
  | zero => exact List.Pairwise.nil
  | succ last ih =>
    have hmore' : Unfinished size view last := fun i hi => hmore i (Nat.lt_succ_of_lt hi)
    rw [shown_succ, List.pairwise_append]
    refine ⟨ih hmore', ((hsorted last).sublist (List.drop_sublist _ _)).sublist (List.take_sublist _ _), ?_⟩
    intro y hy x hx
    exact ((hsteady.left_behind hsorted hmore').mp (List.mem_of_mem_take hx)).2 y hy

/-- What was there at every page and is not behind what has been shown has been shown. -/
theorem mem_shown {x y : α} (hx : ∀ i < last, x ∈ view i) (hy : y ∈ shown size view last)
    (hle : x ≤ y) : x ∈ shown size view last := by
  induction last generalizing y with
  | zero => exact absurd hy List.not_mem_nil
  | succ last ih =>
    have hmore' : Unfinished size view last := fun i hi => hmore i (Nat.lt_succ_of_lt hi)
    have hx' : ∀ i < last, x ∈ view i := fun i hi => hx i (Nat.lt_succ_of_lt hi)
    rw [shown_succ] at hy ⊢
    rw [List.mem_append]
    by_cases hearlier : ∃ z ∈ shown size view last, x ≤ z
    · obtain ⟨z, hz, hxz⟩ := hearlier
      exact .inl (ih hmore' hx' hz hxz)
    · right
      have hbehind : ∀ z ∈ shown size view last, z < x := fun z hz => lt_of_not_ge fun hxz => hearlier ⟨z, hz, hxz⟩
      have hleft := (hsteady.left_behind hsorted hmore').mpr ⟨hx last (Nat.lt_succ_self last), hbehind⟩
      rcases List.mem_append.mp hy with hold | hpage
      · exact absurd (hbehind y hold) (not_lt_of_ge hle)
      · -- both are in what was left, and `x` is no later than `y`
        have hleftSorted := (hsorted last).sublist (List.drop_sublist (size * last) (view last))
        rw [← List.take_append_drop size ((view last).drop (size * last))] at hleft hleftSorted
        rcases List.mem_append.mp hleft with hin | hlater
        · exact hin
        · exact absurd ((List.pairwise_append.mp hleftSorted).2.2 y hpage x hlater) (not_lt_of_ge hle)

theorem collected_sorted : (collected size view last).Pairwise (· < ·) := by
  rw [collected, List.pairwise_append]
  refine ⟨shown_sorted hsteady hsorted hmore, (hsorted last).sublist (List.drop_sublist _ _), ?_⟩
  intro y hy x hx
  exact ((hsteady.left_behind hsorted hmore).mp hx).2 y hy

/-- **What was there all the time is collected.** -/
theorem mem_collected {x : α} (hx : ∀ i ≤ last, x ∈ view i) : x ∈ collected size view last := by
  rw [collected, List.mem_append]
  by_cases hearlier : ∃ y ∈ shown size view last, x ≤ y
  · obtain ⟨y, hy, hxy⟩ := hearlier
    exact .inl (mem_shown hsteady hsorted hmore (fun i hi => hx i (Nat.le_of_lt hi)) hy hxy)
  · right
    refine (hsteady.left_behind hsorted hmore).mpr ⟨hx last (Nat.le_refl last), fun y hy => ?_⟩
    exact lt_of_not_ge fun hxy => hearlier ⟨y, hy, hxy⟩

end Steady

/-- A position in a list is right if what has been shown is what the list begins with. -/
theorem countP_take {xs : List α} (hsorted : xs.Pairwise (· < ·)) {n : Nat} (hn : n ≤ xs.length) :
    xs.countP (fun x => (xs.take n).any fun y => x ≤ y) = n := by
  have hcount : (xs.take n ++ xs.drop n).countP (fun x => (xs.take n).any fun y => x ≤ y) = n := by
    have hfirst : (xs.take n).countP (fun x => (xs.take n).any fun y => x ≤ y) = (xs.take n).length :=
      List.countP_eq_length.mpr fun x hx => List.any_eq_true.mpr ⟨x, hx, by simp⟩
    rw [← List.take_append_drop n xs] at hsorted
    have hrest : (xs.drop n).countP (fun x => (xs.take n).any fun y => x ≤ y) = 0 := by
      refine List.countP_eq_zero.mpr fun x hx hany => ?_
      obtain ⟨y, hy, hle⟩ := List.any_eq_true.mp hany
      exact absurd ((List.pairwise_append.mp hsorted).2.2 y hy x hx) (not_lt_of_ge (by simpa using hle))
    rw [List.countP_append, hfirst, hrest, List.length_take_of_le hn, Nat.add_zero]
  rwa [List.take_append_drop] at hcount

end Pages

end Sandstore.Lib
