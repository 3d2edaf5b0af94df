import Mathlib.Logic.Relation

/-!
# A ballot that survives a crash

A voter keeps a term and the candidate it votes for in that term, and a copy of both on disk. It
may raise its term, which blanks its vote; cast a vote where it has none or repeat the one it has;
write what it remembers to disk; and crash, which leaves it with what the disk holds. Writes may be
missing anywhere: nothing forces a raised term or a cast vote to reach the disk.

The law is about the votes that did reach it. `Ballot.Bound blank t c` says that the voter can no
longer vote for anybody but `c` in term `t`, and once it holds it holds for ever
(`Bound.evolves`): a voter that answered only after its write has answered for good.
-/

namespace Sandstore.Lib

variable {κ : Type}

/-- A term and a vote in memory, and their copy on disk. -/
structure Ballot (κ : Type) where
  term : Nat
  vote : κ
  diskTerm : Nat
  diskVote : κ

namespace Ballot

/-- The same term and vote in memory and on disk. -/
def settled (t : Nat) (c : κ) : Ballot κ := ⟨t, c, t, c⟩

/-- What can happen to a ballot. -/
inductive Step (blank : κ) : Ballot κ → Ballot κ → Prop where
  | raise (b : Ballot κ) (t : Nat) (h : b.term < t) : Step blank b { b with term := t, vote := blank }
  | cast (b : Ballot κ) (c : κ) (h : b.vote = blank ∨ b.vote = c) : Step blank b { b with vote := c }
  | persist (b : Ballot κ) : Step blank b { b with diskTerm := b.term, diskVote := b.vote }
  | crash (b : Ballot κ) : Step blank b { b with term := b.diskTerm, vote := b.diskVote }

/-- Any number of steps. -/
def Evolves (blank : κ) : Ballot κ → Ballot κ → Prop := Relation.ReflTransGen (Step blank)

/-- Memory is never behind the disk, and where they stand at one term the disk's vote is the one in
memory or was not yet cast. -/
structure Ahead (blank : κ) (b : Ballot κ) : Prop where
  term_le : b.diskTerm ≤ b.term
  vote_eq : b.diskTerm = b.term → b.diskVote = blank ∨ b.diskVote = b.vote

/-- The disk binds the voter: in term `t` it can vote for `c` and nobody else. -/
structure Bound (t : Nat) (c : κ) (b : Ballot κ) : Prop where
  term_le : t ≤ b.diskTerm
  vote_eq : t = b.diskTerm → b.diskVote = c

variable {blank c : κ} {t : Nat} {b b' : Ballot κ}

theorem Ahead.step (h : Ahead blank b) (hs : Step blank b b') : Ahead blank b' := by
  cases hs with
  | raise t ht =>
    have := h.term_le
    exact ⟨by show b.diskTerm ≤ t; omega, fun heq => absurd heq (by show b.diskTerm ≠ t; omega)⟩
  | cast c hc =>
    refine ⟨h.term_le, fun heq => ?_⟩
    rcases h.vote_eq heq with hd | hd
    · exact .inl hd
    · rcases hc with hv | hv
      · exact .inl (hd.trans hv)
      · exact .inr (hd.trans hv)
  | persist => exact ⟨Nat.le_refl _, fun _ => .inr rfl⟩
  | crash => exact ⟨Nat.le_refl _, fun _ => .inr rfl⟩

theorem Ahead.diskTerm_le (h : Ahead blank b) (hs : Step blank b b') : b.diskTerm ≤ b'.diskTerm := by
  cases hs with
  | raise | cast | crash => exact Nat.le_refl _
  | persist => exact h.term_le

theorem Bound.step (hc : c ≠ blank) (h : Bound t c b) (ha : Ahead blank b) (hs : Step blank b b') : Bound t c b' := by
  refine ⟨Nat.le_trans h.term_le (ha.diskTerm_le hs), ?_⟩
  cases hs with
  | raise | cast | crash => exact h.vote_eq
  | persist =>
    -- the disk moves to the term in memory; at `t` that was its own term already
    intro heq
    have hterm : t = b.diskTerm := by
      have := ha.term_le
      have := h.term_le
      have : t = b.term := heq
      omega
    have hvote := h.vote_eq hterm
    rcases ha.vote_eq (hterm.symm.trans heq) with hd | hd
    · exact absurd (hvote.symm.trans hd) hc
    · exact hd.symm.trans hvote

theorem Ahead.evolves (h : Ahead blank b) (hs : Evolves blank b b') : Ahead blank b' := by
  induction hs with
  | refl => exact h
  | tail _ hs ih => exact ih.step hs

theorem Bound.evolves (hc : c ≠ blank) (h : Bound t c b) (ha : Ahead blank b)
    (hs : Evolves blank b b') : Bound t c b' := by
  induction hs with
  | refl => exact h
  | tail hpre hs ih => exact ih.step hc (ha.evolves hpre) hs

theorem Ahead.diskTerm_le_of_evolves (h : Ahead blank b) (hs : Evolves blank b b') : b.diskTerm ≤ b'.diskTerm := by
  induction hs with
  | refl => exact Nat.le_refl _
  | tail hpre hs ih => exact Nat.le_trans ih ((h.evolves hpre).diskTerm_le hs)

end Ballot

end Sandstore.Lib
