import Sandstore.Raft.Leader

/-!
# A log store as a list

Without snapshots the map of a `FileLogStore` has no gaps: it is a list whose entry at position `k`
sits at index `k + 1` and carries that index. `Spells s l` says so, and each operation of the store is
the operation on the list it should be: `GetLog` is lookup, storing what follows is append, deleting
from an index is `take`, and the slice of a broadcast is `drop`.
-/

namespace Sandstore.Raft

open Lib

section Spells

attribute [local instance] Conv.exact

variable {δ : Type} {s : FileLogStore δ} {l : List (LogEntry δ)}

/-- Each entry carries its own position and a term that is one. -/
def Numbered (l : List (LogEntry δ)) : Prop :=
  ∀ k e, l[k]? = some e → e.index = ((k + 1 : Nat) : Int) ∧ 0 ≤ e.term

/-- The store holds exactly this list. -/
structure Spells (s : FileLogStore δ) (l : List (LogEntry δ)) : Prop where
  get : ∀ k, s.logs.get (k + 1) = l[k]?
  zero : s.logs.get 0 = none
  last : s.last = l.length
  compacted : s.compactedUntil = 0
  numbered : Numbered l

theorem spells_empty : Spells (FileLogStore.empty : FileLogStore δ) [] :=
  ⟨fun _ => rfl, rfl, rfl, rfl, fun _ _ h => nomatch h⟩

theorem Numbered.take (h : Numbered l) (j : Nat) : Numbered (l.take j) := by
  intro k e hk
  rw [List.getElem?_take] at hk
  split at hk
  · exact h k e hk
  · cases hk

theorem Numbered.index (h : Numbered l) {k : Nat} {e : LogEntry δ} (hk : l[k]? = some e) :
    uint64 e.index = k + 1 := by
  rw [(h k e hk).1]
  rfl

/-! ## Reading -/

theorem Spells.getLog_ok (h : Spells s l) {k : Nat} {e : LogEntry δ} : s.getLog (k + 1) = .ok e ↔ l[k]? = some e := by
  rw [FileLogStore.getLog_eq_ok, h.get, h.compacted]
  simp

/-- The only index below the list is 0. -/
theorem Spells.getLog_error (h : Spells s l) {k : Nat} (hk : l[k]? = none) :
    s.getLog (k + 1) = .error .logNotFound := by
  have hpos : ¬ k + 1 ≤ s.compactedUntil := by
    rw [h.compacted]
    omega
  rw [FileLogStore.getLog, if_neg hpos, h.get, hk]

/-- The last index and the last term, 0 and 0 for an empty log. -/
def lastTermOf (l : List (LogEntry δ)) : Nat := (l.getLast?.map fun e => e.term.toNat).getD 0

theorem Spells.lastIndexAndTerm (h : Spells s l) : s.lastIndexAndTerm = .ok (l.length, lastTermOf l) := by
  have hlast := h.last
  by_cases hnil : l = []
  · subst hnil
    have hzero : s.last = 0 := hlast
    rw [FileLogStore.lastIndexAndTerm, if_pos hzero]
    rfl
  · have hpos := List.length_pos_of_ne_nil hnil
    have hzero : s.last ≠ 0 := by omega
    have hbase : s.last ≠ s.compactedUntil := by
      rw [h.compacted]
      exact hzero
    have hget : s.logs.get s.last = some (l.getLast hnil) := by
      rw [hlast, ← Nat.sub_add_cancel hpos, h.get, ← List.getLast?_eq_getElem?, List.getLast?_eq_some_getLast hnil]
    rw [FileLogStore.lastIndexAndTerm, if_neg hzero, if_neg hbase, hget, hlast]
    simp only [lastTermOf, List.getLast?_eq_some_getLast hnil, Option.map_some, Option.getD_some]
    rfl

theorem Spells.slice (h : Spells s l) (p count : Nat) : s.slice (p + 1) count = (l.drop p).take count := by
  induction count generalizing p with
  | zero => simp [FileLogStore.slice]
  | succ count ih =>
    rw [FileLogStore.slice]
    cases hk : l[p]? with
    | none =>
      have hle : l.length ≤ p := List.getElem?_eq_none_iff.mp hk
      rw [h.getLog_error hk, List.drop_of_length_le hle]
      rfl
    | some e =>
      obtain ⟨hlt, heq⟩ := List.getElem?_eq_some_iff.mp hk
      rw [h.getLog_ok.mpr hk, List.drop_eq_getElem_cons hlt, heq, List.take_succ_cons, ← ih]

/-! ## Writing -/

theorem Spells.place (h : Spells s l) {e : LogEntry δ} (hindex : e.index = ((l.length + 1 : Nat) : Int))
    (hterm : 0 ≤ e.term) : Spells (s.place e) (l ++ [e]) := by
  have hidx : uint64 e.index = l.length + 1 := by
    rw [hindex]
    rfl
  refine ⟨fun k => ?_, ?_, ?_, h.compacted, fun k e' hk => ?_⟩
  · rw [FileLogStore.get_place, hidx, h.get]
    by_cases hk : k = l.length
    · simp [hk]
    · rw [if_neg (by omega)]
      rcases Nat.lt_or_gt_of_ne hk with hlt | hgt
      · rw [List.getElem?_append_left hlt]
      · rw [List.getElem?_eq_none (by omega), List.getElem?_eq_none (by simp; omega)]
  · rw [FileLogStore.get_place, hidx, if_neg (by omega), h.zero]
  · rw [FileLogStore.place_last, h.last, hidx, List.length_append, List.length_singleton]
    omega
  · by_cases hlt : k < l.length
    · rw [List.getElem?_append_left hlt] at hk
      exact h.numbered k e' hk
    · rw [List.getElem?_append_right (Nat.not_lt.mp hlt)] at hk
      have hk0 : k - l.length = 0 := by
        obtain ⟨hb, _⟩ := List.getElem?_eq_some_iff.mp hk
        simpa using hb
      rw [hk0] at hk
      cases hk
      have : k = l.length := by omega
      exact this ▸ ⟨hindex, hterm⟩

/-- **Storing what follows is append.** -/
theorem Spells.storeLoop (h : Spells s l) {es : List (LogEntry δ)} (hes : Numbered (l ++ es)) :
    (s.storeLoop es).2 = none ∧ Spells (s.storeLoop es).1 (l ++ es) := by
  induction es generalizing s l with
  | nil =>
    rw [List.append_nil]
    exact ⟨rfl, h⟩
  | cons e es ih =>
    have hhead : (l ++ e :: es)[l.length]? = some e := by simp
    obtain ⟨hindex, hterm⟩ := hes _ e hhead
    have hfresh : ¬ uint64 e.index ≤ s.compactedUntil := by
      rw [h.compacted, hes.index hhead]
      omega
    have hassoc : l ++ e :: es = (l ++ [e]) ++ es := by simp
    rw [hassoc] at hes ⊢
    rw [FileLogStore.storeLoop, if_neg hfresh]
    exact ih (h.place hindex hterm) hes

/-- **Deleting from an index is `take`.** -/
theorem Spells.cut (h : Spells s l) (hkept : FileLogStore.Kept s) {j : Nat} (hj : j < l.length) :
    ∃ s', s.deleteRange (j + 1) none = some s' ∧ Spells s' (l.take j) := by
  have hbelow : s.compactedUntil < j + 1 := by
    rw [h.compacted]
    omega
  cases hd : s.deleteRange (j + 1) none with
  | none =>
    have := FileLogStore.deleteRange_suffix_none hd
    have := h.last
    omega
  | some s' =>
    obtain ⟨huntil, _, hget⟩ := FileLogStore.deleteRange_suffix hbelow hd
    have hkept' := hkept.deleteRange hd
    have hentries : ∀ k, s'.logs.get (k + 1) = (l.take j)[k]? := by
      intro k
      rw [hget, h.get, h.last, List.getElem?_take]
      by_cases hk : k < j
      · rw [if_neg (by omega), if_pos hk]
      · rw [if_neg hk]
        by_cases hkl : k < l.length
        · rw [if_pos (by omega)]
        · rw [if_neg (by omega), List.getElem?_eq_none (Nat.not_lt.mp hkl)]
    have hzero : s'.logs.get 0 = none := by rw [hget, if_neg (by omega), h.zero]
    have hbase : s'.compactedUntil = 0 := huntil.trans h.compacted
    refine ⟨s', rfl, hentries, hzero, ?_, hbase, h.numbered.take j⟩
    -- the largest key left
    have hlen : (l.take j).length = j := by simp; omega
    rw [hlen]
    apply Nat.le_antisymm
    · rcases hkept'.held with hlast | ⟨e, he⟩
      · omega
      · cases hlast : s'.last with
        | zero => omega
        | succ k =>
          rw [hlast, hentries] at he
          obtain ⟨hlt, _⟩ := List.getElem?_eq_some_iff.mp he
          omega
    · cases j with
      | zero => omega
      | succ k =>
        have hk : (l.take (k + 1))[k]? = some l[k] := by
          rw [List.getElem?_take, if_pos (Nat.lt_succ_self k)]
          exact List.getElem?_eq_getElem _
        exact hkept'.top (k + 1) _ ((hentries k).trans hk)

end Spells

end Sandstore.Raft
