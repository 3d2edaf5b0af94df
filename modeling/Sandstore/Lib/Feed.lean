import Mathlib.Logic.Function.Basic

/-!
# A snapshot and a stream

A view of a map that others write is a snapshot of it, taken at some point of its history, on which the
writes of a stream are played. Where the stream begins at the snapshot the view follows the map. Where it
begins later the two agree at the keys that the stream writes, whatever was there before, and elsewhere
only if the writes in between came to nothing (`play_eq_iff`).
-/

namespace Sandstore.Lib

variable {κ α : Type} [DecidableEq κ]

/-- A write of one key, to a value or to none. -/
structure KeyWrite (κ α : Type) where
  key : κ
  value : Option α

/-- A map after writes. -/
def play (s : κ → Option α) (ws : List (KeyWrite κ α)) : κ → Option α :=
  ws.foldl (fun s w => Function.update s w.key w.value) s

theorem play_append (s : κ → Option α) (ws ws' : List (KeyWrite κ α)) :
    play s (ws ++ ws') = play (play s ws) ws' := List.foldl_append

variable {ws : List (KeyWrite κ α)}

theorem play_unwritten {k : κ} (h : ∀ w ∈ ws, w.key ≠ k) (s : κ → Option α) : play s ws k = s k := by
  induction ws generalizing s with
  | nil => rfl
  | cons w ws ih =>
    have hne : k ≠ w.key := (h w List.mem_cons_self).symm
    refine (ih (fun w' hw' => h w' (List.mem_cons_of_mem _ hw')) _).trans ?_
    exact Function.update_of_ne hne _ _

theorem play_written {k : κ} (h : ∃ w ∈ ws, w.key = k) (s s' : κ → Option α) : play s ws k = play s' ws k := by
  induction ws generalizing s s' with
  | nil =>
    obtain ⟨w, hw, -⟩ := h
    cases hw
  | cons w ws ih =>
    by_cases hlater : ∃ w' ∈ ws, w'.key = k
    · exact ih hlater _ _
    · have hnone : ∀ w' ∈ ws, w'.key ≠ k := fun w' hw' heq => hlater ⟨w', hw', heq⟩
      have hkey : w.key = k := by
        obtain ⟨w', hw', heq⟩ := h
        rcases List.mem_cons.mp hw' with rfl | hw'
        · exact heq
        · exact absurd heq (hnone w' hw')
      refine (play_unwritten hnone _).trans (Eq.trans ?_ (play_unwritten hnone _).symm)
      rw [← hkey]
      show Function.update s w.key w.value w.key = Function.update s' w.key w.value w.key
      rw [Function.update_self, Function.update_self]

/-- Where each key is written once, it has the value of its write. -/
theorem play_of_mem (hnodup : (ws.map (·.key)).Nodup) {w : KeyWrite κ α} (hw : w ∈ ws)
    (s : κ → Option α) : play s ws w.key = w.value := by
  induction ws generalizing s with
  | nil => cases hw
  | cons first ws ih =>
    obtain ⟨hfirst, hrest⟩ := List.nodup_cons.mp hnodup
    rcases List.mem_cons.mp hw with rfl | hw
    · have hnone : ∀ w' ∈ ws, w'.key ≠ w.key := fun w' hw' heq => hfirst (List.mem_map.mpr ⟨w', hw', heq⟩)
      refine (play_unwritten hnone _).trans ?_
      exact Function.update_self _ _ _
    · exact ih hrest hw _

/-- **One stream on two maps gives one map exactly if they agree at the keys it does not write.** -/
theorem play_eq_iff {s s' : κ → Option α} : play s ws = play s' ws ↔ ∀ k, (∀ w ∈ ws, w.key ≠ k) → s k = s' k := by
  constructor
  · intro h k hk
    rw [← play_unwritten hk s, ← play_unwritten hk s', h]
  · intro h
    funext k
    by_cases hk : ∃ w ∈ ws, w.key = k
    · exact play_written hk s s'
    · have hnone : ∀ w ∈ ws, w.key ≠ k := fun w hw heq => hk ⟨w, hw, heq⟩
      rw [play_unwritten hnone, play_unwritten hnone, h k hnone]

end Sandstore.Lib
