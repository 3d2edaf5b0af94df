import Mathlib.Data.List.Nodup
import Mathlib.Data.List.Perm.Subperm

/-!
# Majorities

More than half of a list, counted without repetition. Two majorities of one list meet
(`Majority.meet`), which is all that elections and commitment ask of them.
-/

namespace Sandstore.Lib

variable {α : Type}

/-- Distinct members of `all`, more than half of them. -/
structure Majority (all part : List α) : Prop where
  nodup : part.Nodup
  subset : part ⊆ all
  large : all.length / 2 < part.length

/-- **Two majorities have a member in common.** -/
theorem Majority.meet {all p q : List α} (hp : Majority all p) (hq : Majority all q) : ∃ a, a ∈ p ∧ a ∈ q := by
  by_contra hnone
  have hdisjoint : p.Disjoint q := by
    intro a ha hb
    exact hnone ⟨a, ha, hb⟩
  have hnodup : (p ++ q).Nodup := hp.nodup.append hq.nodup hdisjoint
  have hsubset : p ++ q ⊆ all := List.append_subset.mpr ⟨hp.subset, hq.subset⟩
  have hle := (List.subperm_of_subset hnodup hsubset).length_le
  have hp := hp.large
  have hq := hq.large
  simp only [List.length_append] at hle
  omega

end Sandstore.Lib
