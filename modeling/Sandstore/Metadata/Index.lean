import Sandstore.Metadata.Namespace

/-!
# What the consistent index counts

The store carries a `uint64` that each applier moves on inside its own transaction, and `Recover` returns
it. It is meant for the index of the last raft entry the store reflects. But an applier that rejects its
entry returns before that write, or bolt rolls it back with the rest, while the replicator has moved on all
the same.

**The law** (`consistentIndex_afterAll`): the index is the number of entries that were accepted, modulo
`2 ^ 64`. So it is the number of entries handed in exactly if none of them was rejected, and they were few
enough for a `uint64` (`recover_counts_iff`).
-/

namespace Sandstore.Metadata

open Lib
open Raft (Byte Bytes Err)

namespace Store

/-- A store that has seen no entry: bolt's empty file, before `Recover` or after it. -/
def Fresh (st : Store) : Prop := st = {} ∨ ∃ now, st = Store.boot now

/-- How many of the calls the store accepts. -/
def accepted (st : Store) : List (Int × Command) → Nat
  | [] => 0
  | call :: calls =>
    (if (st.applyTransaction call.1 call.2).isOk then 1 else 0) + accepted (st.after call.1 call.2) calls

/-- What a restart would find: the index as `Recover` returns it. -/
def index (st : Store) : Nat := st.consistentIndex.getD 0

theorem recover_index (st : Store) (now : Int) : (st.recover now).1 = st.index := by
  unfold Store.recover index
  cases st.consistentIndex <;> rfl

theorem Fresh.index_eq {st : Store} (h : st.Fresh) : st.index = 0 := by rcases h with rfl | ⟨now, rfl⟩ <;> rfl

theorem accepted_le (st : Store) (calls : List (Int × Command)) : st.accepted calls ≤ calls.length := by
  induction calls generalizing st with
  | nil => exact Nat.le_refl 0
  | cons call calls ih =>
    have hrest := ih (st.after call.1 call.2)
    rw [accepted, List.length_cons]
    split <;> omega

/-- Every call is counted just if every call is accepted where it is applied. -/
theorem accepted_eq_iff (st : Store) (calls : List (Int × Command)) :
    st.accepted calls = calls.length ↔ ∀ before call, before ++ [call] <+: calls →
      ((st.afterAll before).applyTransaction call.1 call.2).isOk = true := by
  induction calls generalizing st with
  | nil =>
    refine iff_of_true rfl fun before call hfront => ?_
    have hlen := hfront.length_le
    simp at hlen
  | cons first calls ih =>
    have hbound := accepted_le (st.after first.1 first.2) calls
    have hrest := ih (st.after first.1 first.2)
    rw [accepted, List.length_cons]
    constructor
    · intro hcount before call hfront
      split at hcount
      · next hok =>
        cases before with
        | nil =>
          cases (List.cons_prefix_cons.mp hfront).1
          exact hok
        | cons c before =>
          obtain ⟨rfl, hlater⟩ := List.cons_prefix_cons.mp hfront
          exact hrest.mp (by omega) before call hlater
      · omega
    · intro hall
      have hfirst : (st.applyTransaction first.1 first.2).isOk = true :=
        hall [] first (List.prefix_append [first] calls)
      have hlater : ∀ before call, before ++ [call] <+: calls →
          (((st.after first.1 first.2).afterAll before).applyTransaction call.1 call.2).isOk = true :=
        fun before call hfront => hall (first :: before) call (List.cons_prefix_cons.mpr ⟨rfl, hfront⟩)
      rw [if_pos hfirst, hrest.mpr hlater, Nat.add_comm]

theorem index_after (st : Store) (now : Int) (data : Command) (hst : st.index < 2 ^ 64) : (st.after now data).index =
      (st.index + if (st.applyTransaction now data).isOk then 1 else 0) % 2 ^ 64 := by
  cases h : st.applyTransaction now data with
  | error err =>
    rw [after, h]
    exact (Nat.mod_eq_of_lt hst).symm
  | ok st' =>
    have hindex := applyTransaction_index h
    rw [after, h]
    simp only [updated, index, hindex, Option.getD_some]
    rfl

/-- **The index counts the entries that were accepted.** -/
theorem consistentIndex_afterAll (st : Store) (calls : List (Int × Command)) (hst : st.index < 2 ^ 64) :
    (st.afterAll calls).index = (st.index + st.accepted calls) % 2 ^ 64 := by
  induction calls generalizing st with
  | nil => exact (Nat.mod_eq_of_lt hst).symm
  | cons call calls ih =>
    have hfirst := index_after st call.1 call.2 hst
    have hlt : (st.after call.1 call.2).index < 2 ^ 64 := hfirst ▸ Nat.mod_lt _ (by decide)
    show ((st.after call.1 call.2).afterAll calls).index = _
    rw [ih _ hlt, hfirst, Nat.mod_add_mod, accepted, Nat.add_assoc]

end Store

/-- **The index is the number of entries exactly if none was rejected.** After any list of entries handed to
a fresh store in order, at whatever times, `Recover` returns their number if and only if a `uint64` can hold
it and each entry was accepted by the store it met. -/
theorem recover_counts_iff {st : Store} (hst : st.Fresh) (calls : List (Int × Command)) (now : Int) :
    ((st.afterAll calls).recover now).1 = calls.length ↔
      calls.length < 2 ^ 64 ∧ ∀ before call, before ++ [call] <+: calls →
        ((st.afterAll before).applyTransaction call.1 call.2).isOk = true := by
  have hzero := hst.index_eq
  have hbound := st.accepted_le calls
  rw [Store.recover_index, Store.consistentIndex_afterAll st calls (by omega), hzero, Nat.zero_add,
    ← Store.accepted_eq_iff]
  constructor
  · intro hcount
    have hlt : calls.length < 2 ^ 64 := hcount ▸ Nat.mod_lt _ (by decide)
    exact ⟨hlt, by rwa [Nat.mod_eq_of_lt (by omega)] at hcount⟩
  · rintro ⟨hlt, hcount⟩
    rw [hcount, Nat.mod_eq_of_lt hlt]

/-- A file is created in the root, and its attributes are set. -/
def twoAccepted : List (Int × Command) :=
  [(0, replicateOp (createOp [49] [48] [102] .file 0o644 0 0) 1),
    (0, replicateOp { type := .setAttr, inodeID := [49], setMode := some 0o600 } 2)]

theorem recover_counts_two :
    ((Store.boot 0).afterAll twoAccepted).recover 3 = (2, (Store.boot 0).afterAll twoAccepted) ∧
      ∀ before call, before ++ [call] <+: twoAccepted →
        (((Store.boot 0).afterAll before).applyTransaction call.1 call.2).isOk = true := by
  have hcount : (((Store.boot 0).afterAll twoAccepted).recover 3).1 = twoAccepted.length := by decide +kernel
  exact ⟨by decide +kernel, ((recover_counts_iff (.inr ⟨0, rfl⟩) twoAccepted 3).mp hcount).2⟩

/-- The file is removed twice. The second removal is rejected, as it should be, and `Recover` returns 2 after
three entries. -/
theorem rejected_entry_uncounted :
    ∃ calls : List (Int × Command), calls.length = 3 ∧ (((Store.boot 0).afterAll calls).recover 0).1 = 2 :=
  ⟨[(0, replicateOp (createOp [49] [48] [102] .file 0o644 0 0) 1),
    (0, replicateOp (removeOp [48] [102]) 2), (0, replicateOp (removeOp [48] [102]) 3)], rfl, by decide +kernel⟩

end Sandstore.Metadata
