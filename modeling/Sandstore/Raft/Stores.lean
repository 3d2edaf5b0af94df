import Sandstore.Lib.OrdMap
import Sandstore.Raft.Types

/-!
# The three stores of a node

`FileStableStore`, `FileSnapshotStore` and `FileLogStore`, each as the value its file decodes to.
The stable and the snapshot store hold nothing in memory: they are their files. The log store holds
a map, the last index and the compacted position, and every operation that changes them rewrites
the whole file from memory.

The order of the two matters more than anything else here. `storeLogs` and `deleteRange` change the
map FIRST and write the file after, and an error of the write does not undo the change, so this
module gives the change to the map (`storeLoop`, `deleteRange`) and the file it would write (`file`)
as separate functions; the write between them belongs to the process (`Replicator`).

`load_file` is the law that makes the file worth writing: loading what a well-kept store writes
answers every query as the store does. Checksums and the JSON envelope are not modelled: no file is
corrupted.
-/

namespace Sandstore.Raft

open Lib

/-! ## The files -/

/-- `stableState`: the contents of the stable store's file. -/
structure StableState where
  term : Nat
  votedFor : NodeId
  deriving DecidableEq, Repr

/-- `FileStableStore.GetState`: a missing file is term 0 and no vote. -/
def getState (file : Option StableState) : StableState := file.getD ⟨0, ""⟩

structure SnapshotMeta where
  lastIncludedIndex : Nat
  lastIncludedTerm : Nat
  deriving DecidableEq, Repr

/-- `snapshotFile`: the contents of the snapshot store's file. -/
structure SnapshotFile where
  «meta» : SnapshotMeta
  data : Bytes
  deriving DecidableEq, Repr

/-- `FileSnapshotStore.LoadSnapshot`: a missing file is position 0 and no data. -/
def loadSnapshot (file : Option SnapshotFile) : SnapshotMeta × Bytes :=
  match file with
  | none => (⟨0, 0⟩, [])
  | some snap => (snap.meta, snap.data)

/-- `walFile`: the contents of the log store's file. -/
structure WalFile (δ : Type) where
  compactedUntil : Nat
  compactedTerm : Nat
  logs : List (LogEntry δ)
  deriving DecidableEq, Repr

/-! ## The log store -/

/-- `FileLogStore`, less its path and its lock. -/
structure FileLogStore (δ : Type) where
  logs : OrdMap Nat (LogEntry δ)
  last : Nat
  compactedUntil : Nat
  compactedTerm : Nat
  deriving DecidableEq

namespace FileLogStore

variable {δ : Type} [Conv]

omit [Conv] in
/-- A store over no file. -/
def empty : FileLogStore δ := ⟨∅, 0, 0, 0⟩

/-- One assignment `s.logs[idx] = entry`, with `s.last` raised to `idx`. -/
def place (s : FileLogStore δ) (entry : LogEntry δ) : FileLogStore δ :=
  { s with
    logs := s.logs.insert (uint64 entry.index) entry
    last := if uint64 entry.index > s.last then uint64 entry.index else s.last }

/-- `FileLogStore.load`. -/
def load : Option (WalFile δ) → FileLogStore δ
  | none => empty
  | some wal =>
    wal.logs.foldl place ⟨∅, wal.compactedUntil, wal.compactedUntil, wal.compactedTerm⟩

/-- The file `persistLocked` writes: every entry of the map, sorted by index. -/
def file (s : FileLogStore δ) : WalFile δ :=
  ⟨s.compactedUntil, s.compactedTerm, s.logs.values.insertionSort (fun a b => a.index ≤ b.index)⟩

/-- The loop of `StoreLogs`: a compacted index stops it, with the entries before it in the map. -/
def storeLoop (s : FileLogStore δ) : List (LogEntry δ) → FileLogStore δ × Option Err
  | [] => (s, none)
  | entry :: entries =>
    if uint64 entry.index ≤ s.compactedUntil then
      (s, some (.appendCompacted (uint64 entry.index) s.compactedUntil))
    else (s.place entry).storeLoop entries

omit [Conv] in
/-- `FileLogStore.GetLog`. -/
def getLog (s : FileLogStore δ) (index : Nat) : Except Err (LogEntry δ) :=
  if index ≤ s.compactedUntil then .error .logCompacted
  else
    match s.logs.get index with
    | some entry => .ok entry
    | none => .error .logNotFound

/-- `FileLogStore.LastIndexAndTerm`. -/
def lastIndexAndTerm (s : FileLogStore δ) : Except Err (Nat × Nat) :=
  if s.last = 0 then .ok (0, 0)
  else if s.last = s.compactedUntil then .ok (s.compactedUntil, s.compactedTerm)
  else
    match s.logs.get s.last with
    | some entry => .ok (s.last, uint64 entry.term)
    | none => .error (.lastLogMissing s.last)

omit [Conv] in
/-- `s.last` as `DeleteRange` recomputes it: the largest key left, or the compacted position. -/
def lastOf (logs : OrdMap Nat (LogEntry δ)) (compactedUntil : Nat) : Nat :=
  logs.keys.foldl (fun last idx => if idx > last then idx else last) compactedUntil

omit [Conv] in
/-- The upper end of `DeleteRange`, at most the last index. No `max` stands for `math.MaxUint64`. -/
def clip (s : FileLogStore δ) (max : Option Nat) : Nat :=
  match max with
  | none => s.last
  | some max => if max > s.last then s.last else max

/-- The compacted position moved to `max`, with its term taken from the log if it is there. -/
def compactTo (s : FileLogStore δ) (max : Nat) : FileLogStore δ :=
  { s with
    compactedUntil := max
    compactedTerm :=
      match s.logs.get max with
      | some entry => uint64 entry.term
      | none => s.compactedTerm }

omit [Conv] in
/-- The deletion loop of `DeleteRange`, never below the compacted position. -/
def cut (s : FileLogStore δ) (min max : Nat) : FileLogStore δ :=
  let min := if min ≤ s.compactedUntil then s.compactedUntil + 1 else min
  let logs := s.logs.filter (fun idx _ => ¬ (idx ≥ min ∧ idx ≤ max))
  { s with logs := logs, last := lastOf logs s.compactedUntil }

/-- The change `DeleteRange` makes to the map before it persists; nothing where it returns before
that. -/
def deleteRange (s : FileLogStore δ) (min : Nat) (max : Option Nat) : Option (FileLogStore δ) :=
  if max.any (min > ·) then none
  else if s.clip max = 0 then none
  else if min = 0 ∧ s.clip max > s.compactedUntil then
    some ((s.compactTo (s.clip max)).cut min (s.clip max))
  else some (s.cut min (s.clip max))

/-! ## What a store that was built by these operations looks like -/

/-- A well-kept store: each entry sits at its own index, and `last` is the largest key or the
compacted position, whichever is larger. -/
structure Kept (s : FileLogStore δ) : Prop where
  keyed : ∀ k entry, s.logs.get k = some entry → uint64 entry.index = k
  top : ∀ k entry, s.logs.get k = some entry → k ≤ s.last
  base : s.compactedUntil ≤ s.last
  held : s.last = s.compactedUntil ∨ ∃ entry, s.logs.get s.last = some entry

theorem kept_empty : Kept (empty : FileLogStore δ) where
  keyed := fun _ _ h => nomatch h
  top := fun _ _ h => nomatch h
  base := Nat.le_refl _
  held := .inl rfl

@[simp] theorem place_compactedUntil (s : FileLogStore δ) (entry : LogEntry δ) :
    (s.place entry).compactedUntil = s.compactedUntil := rfl

theorem place_last (s : FileLogStore δ) (entry : LogEntry δ) :
    (s.place entry).last = max s.last (uint64 entry.index) := by
  simp only [place]
  split <;> omega

theorem get_place (s : FileLogStore δ) (entry : LogEntry δ) (k : Nat) :
    (s.place entry).logs.get k = if k = uint64 entry.index then some entry else s.logs.get k :=
  OrdMap.get_insert _ _ _ _

variable {s : FileLogStore δ}

theorem Kept.place (h : Kept s) (entry : LogEntry δ) : Kept (s.place entry) where
  keyed := by
    intro k e hk
    rw [get_place] at hk
    split at hk
    · next hidx => cases hk; exact hidx.symm
    · exact h.keyed k e hk
  top := by
    intro k e hk
    rw [get_place] at hk
    rw [place_last]
    split at hk
    · next hidx => exact hidx ▸ Nat.le_max_right _ _
    · exact (h.top k e hk).trans (Nat.le_max_left _ _)
  base := by
    rw [place_last]
    exact h.base.trans (Nat.le_max_left _ _)
  held := by
    rw [place_last, place_compactedUntil, get_place]
    rcases Nat.le_total (uint64 entry.index) s.last with hle | hle
    · rw [Nat.max_eq_left hle]
      rcases h.held with hbase | ⟨e, he⟩
      · exact .inl hbase
      · right
        split
        · exact ⟨entry, rfl⟩
        · exact ⟨e, he⟩
    · rw [Nat.max_eq_right hle, if_pos rfl]
      exact .inr ⟨entry, rfl⟩

variable {entries : List (LogEntry δ)}

/-- What placing one of the entries above the compacted position keeps, the loop of `StoreLogs` keeps. -/
theorem storeLoop_induct {I : FileLogStore δ → Prop} (h : I s)
    (hplace : ∀ s, I s → ∀ e ∈ entries, s.compactedUntil < uint64 e.index → I (s.place e)) :
    I (s.storeLoop entries).1 := by
  induction entries generalizing s with
  | nil => exact h
  | cons entry entries ih =>
    rw [FileLogStore.storeLoop]
    split
    · exact h
    · next hle =>
      exact ih (hplace s h entry List.mem_cons_self (Nat.lt_of_not_le hle)) fun s hs e he =>
        hplace s hs e (List.mem_cons_of_mem _ he)

theorem Kept.storeLoop (h : Kept s) : Kept (s.storeLoop entries).1 := storeLoop_induct h fun _ hs e _ _ => hs.place e

omit [Conv] in
theorem getLog_eq_ok {k : Nat} {entry : LogEntry δ} :
    s.getLog k = .ok entry ↔ s.compactedUntil < k ∧ s.logs.get k = some entry := by
  unfold getLog
  by_cases hk : k ≤ s.compactedUntil
  · simp [hk, Nat.not_lt.mpr hk]
  · rw [if_neg hk]
    cases s.logs.get k with
    | none => simp
    | some e => simp [Nat.lt_of_not_le hk]

/-! ## Loading what was written -/

/-- `StoreLogs` that meets no compacted index places its entries one by one. -/
theorem storeLoop_eq_foldl (h : (s.storeLoop entries).2 = none) :
    (s.storeLoop entries).1 = entries.foldl FileLogStore.place s ∧
      ∀ e ∈ entries, s.compactedUntil < uint64 e.index := by
  induction entries generalizing s with
  | nil => exact ⟨rfl, fun _ he => nomatch he⟩
  | cons entry entries ih =>
    simp only [FileLogStore.storeLoop] at h ⊢
    by_cases hle : uint64 entry.index ≤ s.compactedUntil
    · rw [if_pos hle] at h
      cases h
    · rw [if_neg hle] at h ⊢
      obtain ⟨hfold, hrest⟩ := ih h
      refine ⟨hfold, ?_⟩
      intro e he
      rcases List.mem_cons.mp he with rfl | he
      · omega
      · exact hrest e he

/-- `StoreLogs` above the compacted position meets no obstacle. -/
theorem storeLoop_ok (h : ∀ e ∈ entries, s.compactedUntil < uint64 e.index) : (s.storeLoop entries).2 = none := by
  induction entries generalizing s with
  | nil => rfl
  | cons e entries ih =>
    have he := h e List.mem_cons_self
    rw [FileLogStore.storeLoop, if_neg (by omega)]
    exact ih fun e' he' => h e' (List.mem_cons_of_mem _ he')

theorem storeLoop_compactedUntil (entries : List (LogEntry δ)) (s : FileLogStore δ) :
    (s.storeLoop entries).1.compactedUntil = s.compactedUntil :=
  storeLoop_induct (I := fun s' => s'.compactedUntil = s.compactedUntil) rfl fun _ hs _ _ _ => hs

/-- What is at an index after `StoreLogs` was there before or is one of its entries. -/
theorem get_storeLoop {k : Nat} {e : LogEntry δ} :
    (s.storeLoop entries).1.logs.get k = some e → s.logs.get k = some e ∨ (e ∈ entries ∧ uint64 e.index = k) := by
  refine storeLoop_induct (I := fun s' => s'.logs.get k = some e → _) .inl fun s' hs d hd _ h => ?_
  rw [get_place] at h
  split at h
  · next hk =>
    cases h
    exact .inr ⟨hd, hk.symm⟩
  · exact hs h

section Placed

variable {entries : List (LogEntry δ)} {s : FileLogStore δ}

theorem foldl_place_kept (h : Kept s) : Kept (entries.foldl FileLogStore.place s) :=
  List.foldlRecOn entries _ h fun _ hs e _ => hs.place e

theorem foldl_place_compacted : (entries.foldl FileLogStore.place s).compactedUntil = s.compactedUntil ∧
      (entries.foldl FileLogStore.place s).compactedTerm = s.compactedTerm := by
  induction entries generalizing s with
  | nil => exact ⟨rfl, rfl⟩
  | cons entry entries ih => exact ih

theorem get_foldl_place_of_notMem {k : Nat} (h : ∀ e ∈ entries, uint64 e.index ≠ k) :
    (entries.foldl FileLogStore.place s).logs.get k = s.logs.get k := by
  induction entries generalizing s with
  | nil => rfl
  | cons entry entries ih =>
    have hne : k ≠ uint64 entry.index := (h entry List.mem_cons_self).symm
    rw [List.foldl_cons, ih fun e he => h e (List.mem_cons_of_mem _ he), get_place, if_neg hne]

theorem get_foldl_place_of_mem (hd : entries.Pairwise fun a b => uint64 a.index ≠ uint64 b.index) {e : LogEntry δ}
    (he : e ∈ entries) : (entries.foldl FileLogStore.place s).logs.get (uint64 e.index) = some e := by
  induction entries generalizing s with
  | nil => cases he
  | cons entry entries ih =>
    obtain ⟨hhead, htail⟩ := List.pairwise_cons.mp hd
    rcases List.mem_cons.mp he with rfl | he
    · rw [List.foldl_cons, get_foldl_place_of_notMem fun e' he' => (hhead e' he').symm, get_place, if_pos rfl]
    · exact ih htail he

end Placed

theorem kept_load (wal : Option (WalFile δ)) : Kept (load wal) := by
  cases wal with
  | none => exact kept_empty
  | some wal =>
    refine foldl_place_kept ⟨?_, ?_, Nat.le_refl _, .inl rfl⟩
    · exact fun _ _ h => nomatch h
    · exact fun _ _ h => nomatch h

variable {s' : FileLogStore δ}

/-- The map and the compacted position of a well-kept store determine its last index. -/
theorem Kept.last_eq (h : Kept s) (h' : Kept s') (hlogs : s.logs = s'.logs)
    (hbase : s.compactedUntil = s'.compactedUntil) : s.last = s'.last := by
  have hle : ∀ {s s' : FileLogStore δ}, Kept s → Kept s' → s.logs = s'.logs →
      s.compactedUntil = s'.compactedUntil → s.last ≤ s'.last := by
    intro s s' h h' hlogs hbase
    rcases h.held with hlast | ⟨e, he⟩
    · rw [hlast, hbase]
      exact h'.base
    · rw [hlogs] at he
      exact h'.top _ e he
  exact Nat.le_antisymm (hle h h' hlogs hbase) (hle h' h hlogs.symm hbase.symm)

theorem Kept.ext (h : Kept s) (h' : Kept s') (hlogs : s.logs = s'.logs)
    (huntil : s.compactedUntil = s'.compactedUntil) (hterm : s.compactedTerm = s'.compactedTerm) : s = s' := by
  have hlast := h.last_eq h' hlogs huntil
  cases s
  cases s'
  dsimp only at hlogs huntil hterm hlast
  rw [hlogs, huntil, hterm, hlast]

theorem Kept.values_distinct (h : Kept s) : s.logs.values.Pairwise fun a b => uint64 a.index ≠ uint64 b.index := by
  have hkeys : s.logs.values.map (fun e => uint64 e.index) = s.logs.keys := by
    simp only [OrdMap.values, OrdMap.keys, List.map_map]
    refine List.map_congr_left fun b hb => ?_
    exact h.keyed b.1 b.2 (OrdMap.get_eq_some_iff.mpr hb)
  exact List.pairwise_map.mp (hkeys ▸ s.logs.keys_nodup)

omit [Conv] in
theorem mem_file {e : LogEntry δ} : e ∈ s.file.logs ↔ ∃ k, s.logs.get k = some e :=
  (List.perm_insertionSort _ _).mem_iff.trans OrdMap.mem_values_iff

/-- **Loading what a well-kept store writes gives the store back.** -/
theorem load_file (h : Kept s) : load (some s.file) = s := by
  have hperm : s.file.logs.Perm s.logs.values := List.perm_insertionSort _ _
  have hdistinct : s.file.logs.Pairwise fun a b => uint64 a.index ≠ uint64 b.index :=
    (hperm.pairwise_iff fun hab => hab.symm).mpr h.values_distinct
  have hlogs : (load (some s.file)).logs = s.logs := by
    refine OrdMap.ext_get fun k => ?_
    cases hk : s.logs.get k with
    | some e =>
      have hmem : e ∈ s.file.logs := hperm.mem_iff.mpr (OrdMap.mem_values_iff.mpr ⟨k, hk⟩)
      rw [← h.keyed k e hk]
      exact get_foldl_place_of_mem hdistinct hmem
    | none =>
      refine (get_foldl_place_of_notMem ?_).trans (OrdMap.get_empty k)
      intro e he heq
      obtain ⟨k', hk'⟩ := OrdMap.mem_values_iff.mp (hperm.mem_iff.mp he)
      rw [← heq, h.keyed k' e hk', hk'] at hk
      cases hk
  obtain ⟨huntil, hterm⟩ : (load (some s.file)).compactedUntil = s.compactedUntil ∧
      (load (some s.file)).compactedTerm = s.compactedTerm := foldl_place_compacted
  exact (kept_load (some s.file)).ext h hlogs huntil hterm

/-! ## Deleting -/

section Deleting

omit [Conv]

/-- The fold of `DeleteRange` keeps the largest of its start and the keys it meets. -/
theorem foldl_raise (ks : List Nat) (b : Nat) : b ≤ ks.foldl (fun last idx => if idx > last then idx else last) b ∧
      (∀ k ∈ ks, k ≤ ks.foldl (fun last idx => if idx > last then idx else last) b) ∧
      (ks.foldl (fun last idx => if idx > last then idx else last) b = b ∨
        ks.foldl (fun last idx => if idx > last then idx else last) b ∈ ks) := by
  induction ks generalizing b with
  | nil => simp
  | cons k ks ih =>
    obtain ⟨hbase, htop, hheld⟩ := ih (if k > b then k else b)
    have hmax : b ≤ (if k > b then k else b) ∧ k ≤ (if k > b then k else b) := by
      split <;> omega
    refine ⟨hmax.1.trans hbase, ?_, ?_⟩
    · intro k' hk'
      rcases List.mem_cons.mp hk' with rfl | hk'
      · exact hmax.2.trans hbase
      · exact htop k' hk'
    · rcases hheld with heq | hmem
      · rw [List.foldl_cons, heq]
        by_cases hkb : k > b
        · rw [if_pos hkb]
          exact .inr List.mem_cons_self
        · rw [if_neg hkb]
          exact .inl rfl
      · exact .inr (List.mem_cons_of_mem _ hmem)

theorem lastOf_spec (logs : OrdMap Nat (LogEntry δ)) (b : Nat) :
    b ≤ lastOf logs b ∧ (∀ k e, logs.get k = some e → k ≤ lastOf logs b) ∧
      (lastOf logs b = b ∨ ∃ e, logs.get (lastOf logs b) = some e) := by
  obtain ⟨hbase, htop, hheld⟩ := foldl_raise logs.keys b
  refine ⟨hbase, fun k e hk => htop k (OrdMap.mem_keys_iff.mpr ⟨e, hk⟩), ?_⟩
  exact hheld.imp id OrdMap.mem_keys_iff.mp

theorem get_cut (s : FileLogStore δ) (min max k : Nat) : (s.cut min max).logs.get k =
      if (min ≤ k ∧ s.compactedUntil < k) ∧ k ≤ max then none else s.logs.get k := by
  have hrange : (k ≥ if min ≤ s.compactedUntil then s.compactedUntil + 1 else min) ↔
      min ≤ k ∧ s.compactedUntil < k := by
    split <;> omega
  simp only [cut, OrdMap.get_filter, hrange]
  by_cases hk : (min ≤ k ∧ s.compactedUntil < k) ∧ k ≤ max
  · simp [hk]
  · rw [if_neg hk]
    cases s.logs.get k with
    | none => rfl
    | some e => simp [Option.filter, hk]

theorem clip_le (s : FileLogStore δ) (max : Option Nat) : s.clip max ≤ s.last := by
  unfold clip
  cases max with
  | none => exact Nat.le_refl _
  | some max =>
    dsimp only
    split <;> omega

end Deleting

/-- The range of a compaction is empty. -/
theorem get_compacted (s : FileLogStore δ) (min k i : Nat) :
    ((s.compactTo k).cut min k).logs.get i = s.logs.get i := by
  rw [get_cut, if_neg]
  · rfl
  · show ¬ ((min ≤ i ∧ k < i) ∧ i ≤ k)
    omega

section Range

variable {min : Nat} {max : Option Nat}

/-- **What `DeleteRange` leaves** where it goes through its range, which is empty if it compacts up to a new
position. -/
theorem deleteRange_some (hs : s.deleteRange min max = some s') :
    (min = 0 ∧ s.compactedUntil < s.clip max) ∧ s' = (s.compactTo (s.clip max)).cut min (s.clip max) ∨
      ¬ (min = 0 ∧ s.compactedUntil < s.clip max) ∧ s' = s.cut min (s.clip max) := by
  unfold FileLogStore.deleteRange at hs
  split at hs
  · cases hs
  · split at hs
    · cases hs
    · split at hs
      · next hmove => exact .inl ⟨hmove, (Option.some.inj hs).symm⟩
      · next hmove => exact .inr ⟨hmove, (Option.some.inj hs).symm⟩

/-- Only a range that is empty, or that ends before the log begins, is not gone through. -/
theorem deleteRange_none (hs : s.deleteRange min max = none) : s.clip max = 0 ∨ max.any (min > ·) = true := by
  unfold FileLogStore.deleteRange at hs
  split at hs
  · next hany => exact .inr hany
  · split at hs
    · next hzero => exact .inl hzero
    · split at hs <;> cases hs

theorem Kept.cut (hkeyed : ∀ k entry, s.logs.get k = some entry → uint64 entry.index = k) (min max : Nat) :
    Kept (s.cut min max) := by
  obtain ⟨hbase, htop, hheld⟩ := lastOf_spec (s.cut min max).logs s.compactedUntil
  refine ⟨fun k e hk => hkeyed k e ?_, htop, hbase, hheld⟩
  rw [get_cut] at hk
  split at hk
  · cases hk
  · exact hk

theorem Kept.deleteRange (h : Kept s) (hs : s.deleteRange min max = some s') : Kept s' := by
  rcases deleteRange_some hs with ⟨-, rfl⟩ | ⟨-, rfl⟩
  · exact Kept.cut (s := s.compactTo (s.clip max)) h.keyed _ _
  · exact Kept.cut h.keyed _ _

theorem get_of_deleteRange (hs : s.deleteRange min max = some s') {k : Nat}
    {e : LogEntry δ} (hk : s'.logs.get k = some e) : s.logs.get k = some e := by
  have hcut : ∀ (t : FileLogStore δ) (m : Nat), (t.cut min m).logs.get k = some e → t.logs.get k = some e := by
    intro t m h
    rw [get_cut] at h
    split at h
    · cases h
    · exact h
  rcases deleteRange_some hs with ⟨-, rfl⟩ | ⟨-, rfl⟩
  · exact hcut (s.compactTo (s.clip max)) _ hk
  · exact hcut s _ hk

end Range

theorem deleteRange_from {c : Nat} (hc : 0 < c) (hs : s.deleteRange c none = some s') : s' = s.cut c s.last := by
  rcases deleteRange_some hs with ⟨hmove, -⟩ | ⟨-, rfl⟩
  · omega
  · rfl

/-- Cutting the log above its compacted prefix removes the entries from `c` on, and nothing else. -/
theorem deleteRange_suffix {c : Nat} (hc : s.compactedUntil < c) (hs : s.deleteRange c none = some s') :
    s'.compactedUntil = s.compactedUntil ∧ s'.compactedTerm = s.compactedTerm ∧
      ∀ k, s'.logs.get k = if c ≤ k ∧ k ≤ s.last then none else s.logs.get k := by
  cases deleteRange_from (by omega) hs
  refine ⟨rfl, rfl, fun k => ?_⟩
  rw [get_cut]
  have hrange : ((c ≤ k ∧ s.compactedUntil < k) ∧ k ≤ s.last) ↔ c ≤ k ∧ k ≤ s.last := by omega
  simp only [hrange]

theorem deleteRange_suffix_none {c : Nat} (hs : s.deleteRange c none = none) : s.last = 0 :=
  (deleteRange_none hs).resolve_right Bool.false_ne_true

/-- Compacting a prefix moves the compacted position and removes no entry from the map: the range
the source goes on to delete is empty. -/
theorem deleteRange_prefix (h : Kept s) {m : Nat} (hs : s.deleteRange 0 (some m) = some s') :
    s'.logs = s.logs ∧ s'.last = s.last ∧ s'.compactedUntil = max s.compactedUntil (s.clip (some m)) := by
  have hclip := s.clip_le (some m)
  have hbase := h.base
  have hkept := h.deleteRange hs
  have hshape : s'.logs = s.logs ∧ s'.compactedUntil = max s.compactedUntil (s.clip (some m)) := by
    rcases deleteRange_some hs with ⟨hmove, rfl⟩ | ⟨hmove, rfl⟩
    · refine ⟨OrdMap.ext_get fun k => ?_, (Nat.max_eq_right (Nat.le_of_lt hmove.2)).symm⟩
      exact get_compacted s 0 _ k
    · have hle : s.clip (some m) ≤ s.compactedUntil := by omega
      refine ⟨OrdMap.ext_get fun k => ?_, (Nat.max_eq_left hle).symm⟩
      rw [get_cut, if_neg (by omega)]
  refine ⟨hshape.1, Nat.le_antisymm ?_ ?_, hshape.2⟩
  · rcases hkept.held with heq | ⟨e, he⟩
    · omega
    · exact h.top _ e (hshape.1 ▸ he)
  · rcases h.held with heq | ⟨e, he⟩
    · have := hkept.base
      omega
    · exact hkept.top _ e (hshape.1 ▸ he)

end FileLogStore

end Sandstore.Raft
