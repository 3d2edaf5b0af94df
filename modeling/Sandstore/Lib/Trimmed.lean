import Mathlib.Data.List.Basic

/-!
# Logs whose front has been given up

A log is a list of entries, numbered from 1. A trimmed log has forgotten the entries up to a position
`base`, of which it keeps one thing, the mark of the entry there, and goes on with the list behind it.

Three operations change it: `write` replaces or adds entries from a position on, `cutFrom` drops
everything from a position on, and `trim` moves `base` up. `get_write`, `get_cutFrom` and `get_trim`
say what is at each position afterwards, and `trim` changes neither the end of the log (`last_trim`,
`lastMark_trim`) nor what lies behind the position it was asked for.
-/

namespace Sandstore.Lib

/-- A log from the position after `base` on. `mark` is what is kept of the entry at `base`. -/
structure Trimmed (μ ε : Type) where
  base : Nat
  mark : μ
  entries : List ε
  deriving DecidableEq

namespace Trimmed

variable {μ ε : Type}

/-- The position of the last entry. -/
def last (l : Trimmed μ ε) : Nat := l.base + l.entries.length

/-- The entry at a position behind `base`. -/
def get (l : Trimmed μ ε) (i : Nat) : Option ε :=
  if i ≤ l.base then none else l.entries[i - l.base - 1]?

/-- What is kept of the last entry. -/
def lastMark (markOf : ε → μ) (l : Trimmed μ ε) : μ := (l.entries.getLast?.map markOf).getD l.mark

/-- Put entries at the positions from `i` on. -/
def write (l : Trimmed μ ε) (i : Nat) (es : List ε) : Trimmed μ ε :=
  { l with
    entries := l.entries.take (i - l.base - 1) ++ es ++ l.entries.drop (i - l.base - 1 + es.length) }

/-- Drop the entries from position `i` on. -/
def cutFrom (l : Trimmed μ ε) (i : Nat) : Trimmed μ ε :=
  { l with entries := l.entries.take (i - l.base - 1) }

/-- Give up the entries up to position `i`, or all of them. -/
def trim (markOf : ε → μ) (l : Trimmed μ ε) (i : Nat) : Trimmed μ ε :=
  { base := max l.base (min i l.last)
    mark := ((l.get (min i l.last)).map markOf).getD l.mark
    entries := l.entries.drop (min i l.last - l.base) }

variable {l : Trimmed μ ε}

variable {i : Nat}

theorem get_of_le (h : i ≤ l.base) : l.get i = none := if_pos h

theorem get_of_lt (h : l.base < i) : l.get i = l.entries[i - l.base - 1]? := if_neg (Nat.not_le.mpr h)

theorem get_isSome (hbase : l.base < i) (hlast : i ≤ l.last) : ∃ e, l.get i = some e := by
  rw [get_of_lt hbase]
  unfold last at hlast
  exact ⟨_, List.getElem?_eq_getElem (by omega)⟩

theorem get_eq_none (h : l.last < i) : l.get i = none := by
  unfold last at h
  rw [get_of_lt (by omega)]
  exact List.getElem?_eq_none (by omega)

/-- The mark of the end is the mark of the entry there, or the one that was kept. -/
theorem lastMark_eq (markOf : ε → μ) (l : Trimmed μ ε) :
    l.lastMark markOf = ((l.get l.last).map markOf).getD l.mark := by
  unfold lastMark get last
  by_cases hnil : l.entries = []
  · simp [hnil]
  · have hpos := List.length_pos_of_ne_nil hnil
    rw [if_neg (by omega), List.getLast?_eq_getElem?]
    congr 3
    omega

/-! ## Writing -/

theorem last_write {es : List ε} (hbase : l.base < i) (hlast : i ≤ l.last + 1) :
    (l.write i es).last = max l.last (i + es.length - 1) := by
  unfold last at *
  simp only [write, List.length_append, List.length_take, List.length_drop]
  omega

theorem get_write {es : List ε} (hbase : l.base < i) (hlast : i ≤ l.last + 1) (k : Nat) :
    (l.write i es).get k = if i ≤ k ∧ k < i + es.length then es[k - i]? else l.get k := by
  unfold last at hlast
  by_cases hk : k ≤ l.base
  · rw [get_of_le hk, if_neg (by omega)]
    exact get_of_le hk
  · have hfront : (l.entries.take (i - l.base - 1)).length = i - l.base - 1 := by
      rw [List.length_take]
      omega
    have hget : (l.write i es).get k = (l.entries.take (i - l.base - 1) ++ es ++
          l.entries.drop (i - l.base - 1 + es.length))[k - l.base - 1]? :=
      get_of_lt (by exact Nat.lt_of_not_le hk)
    rw [hget, get_of_lt (Nat.lt_of_not_le hk), List.append_assoc]
    rcases Nat.lt_or_ge k i with hlow | hhigh
    · rw [List.getElem?_append_left (by omega), List.getElem?_take, if_pos (by omega), if_neg (by omega)]
    · rw [List.getElem?_append_right (by omega), hfront]
      have hpos : k - l.base - 1 - (i - l.base - 1) = k - i := by omega
      rw [hpos]
      by_cases hin : k < i + es.length
      · rw [List.getElem?_append_left (by omega), if_pos ⟨hhigh, hin⟩]
      · rw [List.getElem?_append_right (by omega), if_neg (by omega), List.getElem?_drop]
        congr 1
        omega

/-! ## Cutting -/

theorem get_cutFrom (hbase : l.base < i) (k : Nat) : (l.cutFrom i).get k = if i ≤ k then none else l.get k := by
  by_cases hk : k ≤ l.base
  · rw [get_of_le hk, ite_self]
    exact get_of_le hk
  · have hget : (l.cutFrom i).get k = (l.entries.take (i - l.base - 1))[k - l.base - 1]? :=
      get_of_lt (by exact Nat.lt_of_not_le hk)
    rw [hget, get_of_lt (Nat.lt_of_not_le hk), List.getElem?_take]
    split <;> split <;> first | rfl | omega

/-! ## Trimming -/

section Trimming

variable (markOf : ε → μ)

theorem trim_of_le {i : Nat} (h : min i l.last ≤ l.base) : l.trim markOf i = l := by
  unfold trim
  rw [Nat.max_eq_left h, get_of_le h, Nat.sub_eq_zero_of_le h]
  rfl

theorem last_trim (l : Trimmed μ ε) (i : Nat) : (l.trim markOf i).last = l.last := by
  unfold last trim
  simp only [List.length_drop, last]
  omega

theorem get_trim (l : Trimmed μ ε) (i k : Nat) :
    (l.trim markOf i).get k = if k ≤ min i l.last then none else l.get k := by
  have hbase : (l.trim markOf i).base = max l.base (min i l.last) := rfl
  by_cases hlow : k ≤ (l.trim markOf i).base
  · rw [get_of_le hlow]
    split
    · rfl
    · exact (get_of_le (by omega)).symm
  · have hlast : l.last = l.base + l.entries.length := rfl
    rw [get_of_lt (Nat.lt_of_not_le hlow), if_neg (by omega), get_of_lt (by omega)]
    simp only [trim, List.getElem?_drop]
    congr 1
    omega

/-- Trimming forgets nothing about the end of the log. -/
theorem lastMark_trim (l : Trimmed μ ε) (i : Nat) : (l.trim markOf i).lastMark markOf = l.lastMark markOf := by
  rw [lastMark_eq, lastMark_eq, last_trim, get_trim]
  by_cases hall : l.last ≤ i
  · rw [if_pos (by omega)]
    simp only [trim, Nat.min_eq_right hall, Option.map_none, Option.getD_none]
  · rw [if_neg (by omega)]
    by_cases hnone : l.base < l.last
    · obtain ⟨e, he⟩ := get_isSome hnone (Nat.le_refl _)
      simp only [he, Option.map_some, Option.getD_some]
    · -- nothing was retained, so nothing below it is in the log either
      have hempty : l.get (min i l.last) = none := get_of_le (by unfold last at *; omega)
      simp only [trim, hempty, get_of_le (Nat.not_lt.mp hnone), Option.map_none, Option.getD_none]

/-- Trimming changes nothing behind the position it was asked for. -/
theorem get_trim_of_lt (l : Trimmed μ ε) {i k : Nat} (h : i < k) : (l.trim markOf i).get k = l.get k := by
  rw [get_trim, if_neg (by omega)]

end Trimming

end Trimmed

end Sandstore.Lib
