import Sandstore.Lib.ByteFile
import Sandstore.Orchestrators.Planes

/-!
# What a write puts into its chunk

`prepareWritePayload` makes a buffer, copies the chunk into it and the data over that. For a write that
lies in its chunk this is writing at an offset (`prepareWritePayload_ok`), whichever of its three branches
it takes: a new chunk is an empty one, and a write of a whole chunk leaves nothing of what was there.
-/

namespace Sandstore.Orchestrators

open Lib
open Raft (Byte Bytes)

theorem wrap64_of_lt {n : Nat} (h : n < 2 ^ 63) : wrap64 n = n := Metadata.bmod_of_lt (by omega) (by omega)

theorem copyAt_fresh {existing : Bytes} {n : Nat} (h : existing.length ≤ n) :
    copyAt (List.replicate n 0) 0 existing = existing ++ List.replicate (n - existing.length) 0 := by
  simp [copyAt, List.take_of_length_le h]

/-- The buffer of `prepareWritePayload`, if it is as long as it has to be. -/
theorem overlay_ok (existing data : Bytes) (off : Nat) :
    overlay existing (max existing.length (off + data.length) : Nat) off data =
      .ok (writeAt 0 existing off data) := by
  have hlong : existing.length ≤ max existing.length (off + data.length) := Nat.le_max_left _ _
  unfold overlay
  rw [if_neg (by omega), Int.toNat_natCast, Int.toNat_natCast, copyAt_fresh hlong]
  set k := max existing.length (off + data.length) - existing.length with hk
  have hroom : off + data.length ≤ (existing ++ List.replicate k 0).length := by simp; omega
  have hcopy : copyAt (existing ++ List.replicate k 0) off data =
      writeAt 0 (existing ++ List.replicate k 0) off data := by
    rw [writeAt_eq (by omega), copyAt, List.take_of_length_le (by omega : data.length ≤ _)]
  dsimp only
  rw [hcopy, writeAt_padded (by omega)]

/-- **The payload is the chunk with the data written at its offset.** -/
theorem prepareWritePayload_ok {chunkSize offset : Nat} {data existing : Bytes} (hpos : 0 < chunkSize)
    (hsize : chunkSize < 2 ^ 63) (hfits : offset % chunkSize + data.length ≤ chunkSize)
    {isNewChunk : Bool} (hexisting : isNewChunk = false → existing.length ≤ chunkSize) :
    prepareWritePayload chunkSize offset data isNewChunk existing =
      .ok (writeAt 0 (if isNewChunk then [] else existing) (offset % chunkSize) data) := by
  have hmod : (offset : Int).tmod chunkSize = (offset % chunkSize : Nat) := by
    rw [Int.tmod_eq_emod_of_nonneg (by omega)]
    rfl
  have hrequired : wrap64 ((offset % chunkSize : Nat) + data.length) = (offset % chunkSize + data.length : Nat) := by
    rw [← Int.natCast_add, wrap64_of_lt (by omega)]
  have hbuffer := overlay_ok existing data (offset % chunkSize)
  unfold prepareWritePayload
  dsimp only
  rw [hmod, hrequired]
  cases isNewChunk with
  | true =>
    have hfresh := overlay_ok [] data (offset % chunkSize)
    rw [List.length_nil, Nat.zero_max] at hfresh
    rw [if_pos rfl, if_pos rfl, hfresh]
  | false =>
    rw [if_neg Bool.false_ne_true, if_neg Bool.false_ne_true]
    split
    · next hfull =>
      simp only [isFullOverwrite, hmod, decide_eq_true_eq] at hfull
      have hstart : offset % chunkSize = 0 := by omega
      have hrest : existing.drop data.length = [] := List.drop_eq_nil_of_le (by have := hexisting rfl; omega)
      rw [hstart, writeAt_eq (Nat.zero_le _)]
      simp [hrest]
    · split
      · next hlonger =>
        rw [Nat.max_eq_right (by omega)] at hbuffer
        exact hbuffer
      · next hlonger =>
        rw [Nat.max_eq_left (by omega)] at hbuffer
        exact hbuffer

/-- **The payload is the overlay**, byte by byte, and the two branches that do not read the chunk say what
the third one would. -/
theorem prepareWritePayload_overlay (chunkSize offset : Nat) (data existing : Bytes) (hpos : 0 < chunkSize)
    (hsize : chunkSize < 2 ^ 63) (hexisting : existing.length ≤ chunkSize)
    (hfits : offset % chunkSize + data.length ≤ chunkSize) :
    (∃ out, prepareWritePayload chunkSize offset data false existing = .ok out ∧
      out.length = max existing.length (offset % chunkSize + data.length) ∧ out.length ≤ chunkSize ∧
      (∀ i < data.length, out.getD (offset % chunkSize + i) 0 = data.getD i 0) ∧
      (∀ i < existing.length, i < offset % chunkSize ∨ offset % chunkSize + data.length ≤ i →
        out.getD i 0 = existing.getD i 0) ∧
      ∀ i, existing.length ≤ i → i < offset % chunkSize → out.getD i 0 = 0) ∧
    (∀ unread, prepareWritePayload chunkSize offset data true unread =
      prepareWritePayload chunkSize offset data false []) ∧
    (isFullOverwrite chunkSize offset data = true →
      prepareWritePayload chunkSize offset data false existing =
        overlay existing (max existing.length (offset % chunkSize + data.length) : Nat)
          (offset % chunkSize : Nat) data) := by
  have hwrite : prepareWritePayload chunkSize offset data false existing =
      .ok (writeAt 0 existing (offset % chunkSize) data) :=
    prepareWritePayload_ok hpos hsize hfits fun _ => hexisting
  refine ⟨⟨_, hwrite, length_writeAt _ _ _, ?_, ?_, ?_, ?_⟩, ?_, ?_⟩
  · rw [length_writeAt]
    exact Nat.max_le.mpr ⟨hexisting, hfits⟩
  · intro i hi
    rw [getD_writeAt, if_pos (by omega), Nat.add_sub_cancel_left]
  · intro i _ houtside
    rw [getD_writeAt, if_neg (by omega)]
  · intro i hi hgap
    rw [getD_writeAt, if_neg (by omega)]
    exact List.getD_eq_default _ _ hi
  · intro unread
    have hnew : prepareWritePayload chunkSize offset data true unread =
        .ok (writeAt 0 [] (offset % chunkSize) data) :=
      prepareWritePayload_ok hpos hsize hfits fun h => absurd h.symm Bool.false_ne_true
    have hempty : prepareWritePayload chunkSize offset data false [] =
        .ok (writeAt 0 [] (offset % chunkSize) data) :=
      prepareWritePayload_ok hpos hsize hfits fun _ => Nat.zero_le _
    exact hnew.trans hempty.symm
  · intro _
    rw [hwrite, overlay_ok]

/-- A write past the end of a short chunk. -/
theorem prepareWritePayload_gap :
    ∃ out, prepareWritePayload (8 : Nat) (4 : Nat) [7] false [1, 2] = .ok out ∧ out.length = 5 :=
  (prepareWritePayload_overlay 8 4 [7] [1, 2] (by decide) (by decide) (by decide) (by decide)).1.imp
    fun _ h => ⟨h.1, h.2.1⟩

/-- A write that does not read the chunk does not depend on it. -/
theorem prepareWritePayload_unread {chunkSize offset : Int} {data : Bytes} {isNewChunk : Bool}
    (h : readsFirst chunkSize offset data isNewChunk = false) (existing existing' : Bytes) :
    prepareWritePayload chunkSize offset data isNewChunk existing =
      prepareWritePayload chunkSize offset data isNewChunk existing' := by
  unfold prepareWritePayload
  cases isNewChunk with
  | true => rfl
  | false =>
    have hfull : isFullOverwrite chunkSize offset data = true := by simpa [readsFirst] using h
    simp [hfull]

end Sandstore.Orchestrators
