import Mathlib.Data.List.GetD
import Mathlib.Data.List.TakeDrop

/-!
# Files as byte arrays

A file is a list over any type with an element that stands for a byte nobody has written. Writing at an
offset beyond its end fills the gap with that element.

`assemble` puts a file together from pieces of one size: the piece at index `i` holds the bytes from
`i * pieceSize` on, and what a piece does not have is not written. One law carries the rest:
**writing into one piece is writing into the file** (`assemble_write`), provided the write stays inside
the piece and no piece reaches beyond the end of the file (`Within`). A file that is only ever written at
its end stays cut into full pieces (`Tiled`).
-/

namespace Sandstore.Lib

variable {α : Type} {zero : α}

/-! ## Writing at an offset -/

/-- `data` at the offset `off`, the file around it, and `zero` in a gap. -/
def writeAt (zero : α) (file : List α) (off : Nat) (data : List α) : List α :=
  file.takeD off zero ++ data ++ file.drop (off + data.length)

@[simp] theorem length_writeAt (file : List α) (off : Nat) (data : List α) :
    (writeAt zero file off data).length = max file.length (off + data.length) := by
  simp only [writeAt, List.length_append, List.takeD_length, List.length_drop]
  omega

theorem getD_takeD (file : List α) (off p : Nat) :
    (file.takeD off zero).getD p zero = if p < off then file.getD p zero else zero := by
  induction off generalizing file p with
  | zero => simp
  | succ off ih =>
    cases p with
    | zero => cases file <;> simp
    | succ p =>
      cases file with
      | nil => simp
      | cons b file => simpa using ih file p

theorem getD_writeAt (file : List α) (off : Nat) (data : List α) (p : Nat) :
    (writeAt zero file off data).getD p zero =
      if off ≤ p ∧ p < off + data.length then data.getD (p - off) zero else file.getD p zero := by
  unfold writeAt
  rcases Nat.lt_or_ge p off with hlt | hge
  · have hfront : p < (file.takeD off zero ++ data).length := by simp; omega
    rw [List.getD_append _ _ _ _ hfront, List.getD_append _ _ _ _ (by simpa using hlt), getD_takeD,
      if_pos hlt, if_neg (by omega)]
  · rcases Nat.lt_or_ge p (off + data.length) with hlt | hge'
    · have hfront : p < (file.takeD off zero ++ data).length := by simp; omega
      rw [List.getD_append _ _ _ _ hfront, List.getD_append_right _ _ _ _ (by simpa using hge),
        List.takeD_length, if_pos ⟨hge, hlt⟩]
    · have hback : (file.takeD off zero ++ data).length ≤ p := by simp; omega
      rw [List.getD_append_right _ _ _ _ hback, if_neg (by omega)]
      simp only [List.length_append, List.takeD_length, List.getD_eq_getElem?_getD, List.getElem?_drop]
      rw [Nat.add_sub_cancel' hge']

variable {file : List α}

theorem ext_getD (zero : α) {file' : List α} (hlength : file.length = file'.length)
    (hbytes : ∀ p < file.length, file.getD p zero = file'.getD p zero) : file = file' := by
  refine List.ext_getElem hlength fun p hp hp' => ?_
  rw [← List.getD_eq_getElem _ zero hp, ← List.getD_eq_getElem _ zero hp']
  exact hbytes p hp

theorem getD_padded (file : List α) (k p : Nat) : (file ++ List.replicate k zero).getD p zero = file.getD p zero := by
  rcases Nat.lt_or_ge p file.length with hlt | hge
  · rw [List.getD_append _ _ _ _ hlt]
  · rw [List.getD_append_right _ _ _ _ hge, List.getD_eq_default _ _ hge, List.getD_eq_getElem?_getD,
      List.getElem?_getD_replicate_default_eq]

theorem writeAt_padded {off k : Nat} {data : List α} (h : file.length + k ≤ max file.length (off + data.length)) :
    writeAt zero (file ++ List.replicate k zero) off data = writeAt zero file off data := by
  apply ext_getD zero
  · simp only [length_writeAt, List.length_append, List.length_replicate]
    omega
  · intro p _
    rw [getD_writeAt, getD_writeAt, getD_padded]

theorem writeAt_eq {off : Nat} (h : off ≤ file.length) (data : List α) :
    writeAt zero file off data = file.take off ++ data ++ file.drop (off + data.length) := by
  rw [writeAt, List.takeD_eq_take _ h]

/-- The file has this data at this offset. -/
def HasAt (file : List α) (off : Nat) (data : List α) : Prop := (file.drop off).take data.length = data

theorem hasAt_writeAt (file : List α) (off : Nat) (data : List α) : HasAt (writeAt zero file off data) off data := by
  rw [HasAt, writeAt, List.append_assoc, List.drop_left' (List.takeD_length _ _ _), List.take_left]

theorem HasAt.writeAt {data data' : List α} {off off' : Nat} (h : HasAt file off data)
    (hapart : off + data.length ≤ off' ∨ off' + data'.length ≤ off) :
    HasAt (writeAt zero file off' data') off data := by
  have hroom : data.length = 0 ∨ off + data.length ≤ file.length := by
    have := congrArg List.length h
    simp only [List.length_take, List.length_drop] at this
    omega
  refine ext_getD zero (by simp; omega) fun p hp => ?_
  have hp' : p < data.length := by simp at hp; omega
  have hbyte := congrArg (fun l => l.getD p zero) h
  simp only [List.getD_eq_getElem?_getD, List.getElem?_take, List.getElem?_drop, if_pos hp'] at hbyte ⊢
  rw [← hbyte, ← List.getD_eq_getElem?_getD, ← List.getD_eq_getElem?_getD, getD_writeAt, if_neg (by omega)]

/-! ## Files in pieces -/

/-- The byte at a position. -/
def byteAt (zero : α) (pieceSize : Nat) (pieces : List (List α)) (p : Nat) : α :=
  (pieces.getD (p / pieceSize) []).getD (p % pieceSize) zero

/-- The file of a size that pieces make up. -/
def assemble (zero : α) (pieceSize size : Nat) (pieces : List (List α)) : List α :=
  (List.range size).map (byteAt zero pieceSize pieces)

/-- No piece is longer than the size of a piece, or reaches beyond the end of the file. -/
def Within (pieceSize size : Nat) (pieces : List (List α)) : Prop :=
  ∀ i < pieces.length, (pieces.getD i []).length ≤ pieceSize ∧
    i * pieceSize + (pieces.getD i []).length ≤ size

@[simp] theorem length_assemble (pieceSize size : Nat) (pieces : List (List α)) :
    (assemble zero pieceSize size pieces).length = size := by simp [assemble]

variable {pieces : List (List α)} {pieceSize : Nat}

theorem Within.byteAt_eq {size : Nat} (h : Within pieceSize size pieces)
    {p : Nat} (hp : size ≤ p) : byteAt zero pieceSize pieces p = zero := by
  unfold byteAt
  rcases Nat.lt_or_ge (p / pieceSize) pieces.length with hlt | hge
  · have hpiece := (h _ hlt).2
    have hsplit := Nat.div_add_mod' p pieceSize
    exact List.getD_eq_default _ _ (by omega)
  · rw [List.getD_eq_default _ _ hge]
    rfl

theorem Within.getD_assemble {size : Nat} (h : Within pieceSize size pieces) (p : Nat) :
    (assemble zero pieceSize size pieces).getD p zero = byteAt zero pieceSize pieces p := by
  rcases Nat.lt_or_ge p size with hlt | hge
  · simp [assemble, List.getD_eq_getElem?_getD, hlt]
  · rw [List.getD_eq_default _ _ (by simpa using hge), h.byteAt_eq hge]

section Write

variable {pieceSize size idx off : Nat} {pieces pieces' : List (List α)} {data : List α}

/-- The pieces after a write of `data` at `off` into the piece `idx`, which is there or comes next. -/
def WroteAt (zero : α) (pieces : List (List α)) (idx off : Nat) (data : List α)
    (pieces' : List (List α)) : Prop :=
  idx ≤ pieces.length ∧ pieces'.length = max pieces.length (idx + 1) ∧
    ∀ i, pieces'.getD i [] =
      if i = idx then writeAt zero (pieces.getD idx []) off data else pieces.getD i []

theorem wroteAt_set (h : idx < pieces.length) :
    WroteAt zero pieces idx off data (pieces.set idx (writeAt zero (pieces.getD idx []) off data)) := by
  refine ⟨Nat.le_of_lt h, by rw [List.length_set]; omega, fun i => ?_⟩
  by_cases hi : i = idx
  · simp [hi, h, List.getD_eq_getElem?_getD]
  · simp [hi, Ne.symm hi, List.getD_eq_getElem?_getD]

theorem wroteAt_append (h : pieces.length = idx) :
    WroteAt zero pieces idx off data (pieces ++ [writeAt zero [] off data]) := by
  subst h
  refine ⟨Nat.le_refl _, by simp, fun i => ?_⟩
  rcases Nat.lt_trichotomy i pieces.length with hlt | rfl | hgt
  · rw [List.getD_append _ _ _ _ hlt, if_neg (by omega)]
  · rw [List.getD_append_right _ _ _ _ (Nat.le_refl _), List.getD_eq_default pieces _ (Nat.le_refl _)]
    simp
  · rw [List.getD_eq_default _ _ (by simp; omega), if_neg (by omega), List.getD_eq_default _ _ (by omega)]

theorem WroteAt.within (hw : WroteAt zero pieces idx off data pieces')
    (h : Within pieceSize size pieces) (hfits : off + data.length ≤ pieceSize) :
    Within pieceSize (max size (idx * pieceSize + (off + data.length))) pieces' := by
  obtain ⟨hnext, hlen, hat⟩ := hw
  intro i hi
  rw [hat i]
  have hold : (pieces.getD i []).length ≤ pieceSize ∧
      (i < pieces.length → i * pieceSize + (pieces.getD i []).length ≤ size) := by
    rcases Nat.lt_or_ge i pieces.length with hlt | hge
    · exact ⟨(h i hlt).1, fun _ => (h i hlt).2⟩
    · rw [List.getD_eq_default _ _ hge]
      exact ⟨Nat.zero_le _, fun hlt => by omega⟩
  split
  · next heq =>
    subst heq
    rw [length_writeAt]
    rcases Nat.lt_or_ge i pieces.length with hlt | hge
    · have := hold.2 hlt
      omega
    · rw [List.getD_eq_default _ _ hge, List.length_nil]
      omega
  · have := hold.2 (by omega)
    exact ⟨hold.1, by omega⟩

/-- **Writing into one piece is writing into the file.** -/
theorem assemble_write (hw : WroteAt zero pieces idx off data pieces')
    (h : Within pieceSize size pieces) (hfits : off + data.length ≤ pieceSize) (hpos : 0 < pieceSize) :
    assemble zero pieceSize (max size (idx * pieceSize + (off + data.length))) pieces' =
      writeAt zero (assemble zero pieceSize size pieces) (idx * pieceSize + off) data := by
  have hwithin := hw.within h hfits
  apply ext_getD zero
  · simp only [length_assemble, length_writeAt]
    omega
  · intro p _
    rw [hwithin.getD_assemble, getD_writeAt, h.getD_assemble]
    unfold byteAt
    rw [hw.2.2]
    -- the position is in the piece that is written, or it is not
    have hsplit := Nat.div_add_mod' p pieceSize
    have hmod := Nat.mod_lt p hpos
    by_cases hidx : p / pieceSize = idx
    · rw [if_pos hidx, getD_writeAt, hidx]
      rw [hidx] at hsplit
      by_cases hin : off ≤ p % pieceSize ∧ p % pieceSize < off + data.length
      · rw [if_pos hin, if_pos (by omega)]
        congr 1
        omega
      · rw [if_neg hin, if_neg (by omega)]
    · rw [if_neg hidx, if_neg]
      rintro ⟨hle, hlt⟩
      refine hidx (Nat.div_eq_of_lt_le ?_ ?_)
      · omega
      · rw [Nat.succ_mul]
        omega

end Write

/-! ## Files cut into pieces -/

/-- The pieces are the file cut at the multiples of the size of a piece. -/
structure Tiled (pieceSize : Nat) (file : List α) (pieces : List (List α)) : Prop where
  count : pieces.length = (file.length + pieceSize - 1) / pieceSize
  piece : ∀ i, pieces.getD i [] = (file.drop (i * pieceSize)).take pieceSize

theorem tiled_nil (hpos : 0 < pieceSize) : Tiled pieceSize ([] : List α) [] :=
  ⟨by simp [Nat.div_eq_of_lt (Nat.sub_lt hpos Nat.one_pos)], by simp⟩

/-- **The pieces of a file, one after another, are the file.** -/
theorem Tiled.flatten (h : Tiled pieceSize file pieces) (hpos : 0 < pieceSize) : pieces.flatten = file := by
  have hcover : file.length ≤ pieces.length * pieceSize := by
    have hsplit := Nat.div_add_mod' (file.length + pieceSize - 1) pieceSize
    have hmod := Nat.mod_lt (file.length + pieceSize - 1) hpos
    rw [← h.count] at hsplit
    omega
  have hgo : ∀ (pieces : List (List α)) (file : List α),
      (∀ i, pieces.getD i [] = (file.drop (i * pieceSize)).take pieceSize) →
      file.length ≤ pieces.length * pieceSize → pieces.flatten = file := by
    intro pieces
    induction pieces with
    | nil =>
      intro file _ hlength
      rw [List.length_nil, Nat.zero_mul] at hlength
      exact (List.eq_nil_of_length_eq_zero (Nat.le_zero.mp hlength)).symm
    | cons p pieces ih =>
      intro file hpiece hlength
      have hfirst : p = file.take pieceSize := by simpa using hpiece 0
      have hrest : pieces.flatten = file.drop pieceSize := by
        refine ih (file.drop pieceSize) (fun i => ?_) ?_
        · have hnext := hpiece (i + 1)
          rw [List.getD_cons_succ, Nat.succ_mul, Nat.add_comm, ← List.drop_drop] at hnext
          exact hnext
        · rw [List.length_cons, Nat.succ_mul] at hlength
          rw [List.length_drop]
          omega
      rw [List.flatten_cons, hrest, hfirst, List.take_append_drop]
  exact hgo pieces file h.piece hcover

theorem ceil_eq {q r : Nat} (hr : 0 < r) (hle : r ≤ pieceSize) :
    (q * pieceSize + r + pieceSize - 1) / pieceSize = q + 1 := by
  have hsum : q * pieceSize + r + pieceSize - 1 = (r - 1) + (q + 1) * pieceSize := by
    rw [Nat.succ_mul]
    omega
  rw [hsum, Nat.add_mul_div_right _ _ (by omega), Nat.div_eq_of_lt (by omega), Nat.zero_add]

/-- **Writing at the end of a file, inside a piece, leaves it cut into its pieces.** -/
theorem Tiled.append {data : List α} {pieces' : List (List α)} (h : Tiled pieceSize file pieces)
    (hdata : data ≠ []) (hfits : file.length % pieceSize + data.length ≤ pieceSize)
    (hw : WroteAt zero pieces (file.length / pieceSize) (file.length % pieceSize) data pieces') :
    Tiled pieceSize (file ++ data) pieces' := by
  obtain ⟨hnext, hcount, hat⟩ := hw
  have hlength : 0 < data.length := List.length_pos_iff.mpr hdata
  have hsplit := Nat.div_add_mod' file.length pieceSize
  have hmod := Nat.mod_lt file.length (by omega : 0 < pieceSize)
  set q := file.length / pieceSize with hq
  set r := file.length % pieceSize with hr
  refine ⟨?_, fun i => ?_⟩
  · have hbefore : pieces.length ≤ q + 1 := by
      have hmono : (file.length + pieceSize - 1) / pieceSize ≤ (q * pieceSize + pieceSize + pieceSize - 1) / pieceSize :=
        Nat.div_le_div_right (by omega)
      rw [ceil_eq (by omega) (Nat.le_refl _)] at hmono
      rw [h.count]
      exact hmono
    rw [hcount, List.length_append, ← hsplit, Nat.add_assoc (q * pieceSize), ceil_eq (by omega) hfits]
    omega
  · rw [hat i]
    split
    · next hi =>
      -- the piece at the end of the file
      have hpiece : pieces.getD q [] = file.drop (q * pieceSize) := by
        rw [h.piece, List.take_of_length_le]
        rw [List.length_drop]
        omega
      have hlast : (file.drop (q * pieceSize)).length = r := by
        rw [List.length_drop]
        omega
      have hend : (file.drop (q * pieceSize)).drop (r + data.length) = [] := List.drop_eq_nil_of_le (by omega)
      have hroom : (file.drop (q * pieceSize) ++ data).length ≤ pieceSize := by
        rw [List.length_append]
        omega
      rw [hi, hpiece, writeAt_eq (Nat.le_of_eq hlast.symm), List.take_of_length_le (Nat.le_of_eq hlast), hend, List.append_nil,
        List.drop_append_of_le_length (by omega), List.take_of_length_le hroom]
    · next hi =>
      rw [h.piece]
      rcases Nat.lt_or_gt_of_ne hi with hlt | hgt
      · have hbelow : i * pieceSize + pieceSize ≤ q * pieceSize := by
          rw [← Nat.succ_mul]
          exact Nat.mul_le_mul_right _ hlt
        rw [List.drop_append_of_le_length (by omega), List.take_append_of_le_length]
        rw [List.length_drop]
        omega
      · have habove : q * pieceSize + pieceSize ≤ i * pieceSize := by
          rw [← Nat.succ_mul]
          exact Nat.mul_le_mul_right _ hgt
        rw [List.drop_eq_nil_of_le (by omega), List.drop_eq_nil_of_le]
        rw [List.length_append]
        omega

end Sandstore.Lib
