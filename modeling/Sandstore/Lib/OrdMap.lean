import Mathlib.Order.Basic
import Mathlib.Order.Defs.LinearOrder
import Mathlib.Data.List.Sort

/-!
# Ordered finite maps

A map is the list of its bindings in strictly ascending key order, and the order is a field: a list
that repeats a key or leaves the order is not a map at all. So the representation is canonical, two
maps with the same lookups are the same map (`OrdMap.ext_get`), and walking the list is walking the
keys in order, which is what a cursor over an ordered store does.

Every operation is a filter or a splice of filters, and it is evaluated by the kernel without
unfolding a balancing scheme. Proofs never look at the list: `mem_iff_get` turns a lookup into a
membership once, and the `get_*` equations are the interface.
-/

namespace Sandstore.Lib

universe u v

/-- A finite map with its bindings in strictly ascending key order. -/
structure OrdMap (κ : Type u) [LinearOrder κ] (α : Type v) where
  entries : List (κ × α)
  sorted : entries.Pairwise (fun a b => a.1 < b.1)

namespace OrdMap

variable {κ : Type u} [LinearOrder κ] {α : Type v}

instance [DecidableEq α] : DecidableEq (OrdMap κ α) := fun m m' =>
  decidable_of_iff (m.entries = m'.entries)
    ⟨fun h => by cases m; cases m'; cases h; rfl, fun h => h ▸ rfl⟩

/-- The map with no binding. -/
def empty : OrdMap κ α := ⟨[], List.Pairwise.nil⟩

instance : EmptyCollection (OrdMap κ α) := ⟨empty⟩

instance : Inhabited (OrdMap κ α) := ⟨empty⟩

/-- The value bound at a key. -/
def get (m : OrdMap κ α) (k : κ) : Option α := (m.entries.find? (fun e => e.1 = k)).map (·.2)

/-- Bind a key, over what was bound there. -/
def insert (m : OrdMap κ α) (k : κ) (v : α) : OrdMap κ α where
  entries := m.entries.filter (fun e => e.1 < k) ++ (k, v) :: m.entries.filter (fun e => k < e.1)
  sorted := by
    refine List.pairwise_append.mpr ⟨m.sorted.filter _, ?_, ?_⟩
    · refine List.pairwise_cons.mpr ⟨?_, m.sorted.filter _⟩
      intro e he
      simpa using (List.mem_filter.mp he).2
    · intro a ha b hb
      have hak : a.1 < k := by simpa using (List.mem_filter.mp ha).2
      rcases List.mem_cons.mp hb with rfl | hb
      · exact hak
      · have hkb : k < b.1 := by simpa using (List.mem_filter.mp hb).2
        exact hak.trans hkb

/-- The bindings whose key and value pass a test. -/
def filter (m : OrdMap κ α) (p : κ → α → Bool) : OrdMap κ α where
  entries := m.entries.filter (fun e => p e.1 e.2)
  sorted := m.sorted.filter _

/-- Unbind one key. -/
def erase (m : OrdMap κ α) (k : κ) : OrdMap κ α := m.filter (fun k' _ => k' ≠ k)

/-- The bound keys, ascending. -/
def keys (m : OrdMap κ α) : List κ := m.entries.map (·.1)

/-- The bound values, in key order. -/
def values (m : OrdMap κ α) : List α := m.entries.map (·.2)

/-! ## Lookup is membership -/

theorem keys_nodup (m : OrdMap κ α) : m.keys.Nodup := (List.pairwise_map.mpr m.sorted).imp fun h => h.ne

variable {k : κ} {v : α}

theorem entry_unique (m : OrdMap κ α) {w : α} (hv : (k, v) ∈ m.entries) (hw : (k, w) ∈ m.entries) : v = w :=
  congrArg Prod.snd (List.inj_on_of_nodup_map m.keys_nodup hv hw rfl)

variable {m : OrdMap κ α}

theorem get_eq_some_iff : m.get k = some v ↔ (k, v) ∈ m.entries := by
  unfold get
  constructor
  · intro h
    obtain ⟨e, he, rfl⟩ := Option.map_eq_some_iff.mp h
    have hk : e.1 = k := by simpa using List.find?_some he
    exact hk ▸ List.mem_of_find?_eq_some he
  · intro h
    cases hf : m.entries.find? (fun e => e.1 = k) with
    | none =>
      have := List.find?_eq_none.mp hf (k, v) h
      simp at this
    | some e =>
      have hk : e.1 = k := by simpa using List.find?_some hf
      have he : (k, e.2) ∈ m.entries := hk ▸ List.mem_of_find?_eq_some hf
      rw [Option.map_some, m.entry_unique he h]

@[ext] theorem ext_get {m' : OrdMap κ α} (h : ∀ k, m.get k = m'.get k) : m = m' := by
  have hmem : ∀ e, e ∈ m.entries ↔ e ∈ m'.entries := fun e => by
    rw [show e = (e.1, e.2) from rfl, ← get_eq_some_iff, ← get_eq_some_iff, h]
  have hnd : ∀ m : OrdMap κ α, m.entries.Nodup := fun m => m.keys_nodup.of_map
  have heq : m.entries = m'.entries := ((List.perm_ext_iff_of_nodup (hnd m) (hnd m')).mpr hmem).eq_of_pairwise
      (fun a b _ _ hab hba => absurd (hab.trans hba) (lt_irrefl _)) m.sorted m'.sorted
  cases m
  cases m'
  cases heq
  rfl

/-! ## The operations, by their lookups -/

@[simp] theorem get_empty (k : κ) : (∅ : OrdMap κ α).get k = none := rfl

theorem get_insert (m : OrdMap κ α) (k k' : κ) (v : α) :
    (m.insert k v).get k' = if k' = k then some v else m.get k' := by
  ext w
  rw [get_eq_some_iff]
  simp only [insert, List.mem_append, List.mem_cons, List.mem_filter, decide_eq_true_eq, Prod.mk.injEq]
  split
  · next h =>
    subst h
    simp [eq_comm]
  · next h =>
    rw [get_eq_some_iff]
    rcases lt_or_gt_of_ne h with hlt | hgt
    · simp [h, hlt, hlt.le]
    · simp [h, hgt, hgt.le]

@[simp] theorem get_insert_self (m : OrdMap κ α) (k : κ) (v : α) : (m.insert k v).get k = some v := by
  rw [get_insert, if_pos rfl]

theorem get_insert_ne (m : OrdMap κ α) {k' : κ} (v : α) (h : k' ≠ k) : (m.insert k v).get k' = m.get k' := by
  rw [get_insert, if_neg h]

theorem get_filter (m : OrdMap κ α) (p : κ → α → Bool) (k : κ) : (m.filter p).get k = (m.get k).filter (p k) := by
  ext w
  rw [get_eq_some_iff, Option.filter_eq_some_iff, get_eq_some_iff]
  simp [filter]

theorem get_erase (m : OrdMap κ α) (k k' : κ) : (m.erase k).get k' = if k' = k then none else m.get k' := by
  rw [erase, get_filter]
  split
  · next h =>
    subst h
    cases m.get k' <;> simp
  · next h =>
    cases m.get k' <;> simp [h]

@[simp] theorem get_erase_self (m : OrdMap κ α) (k : κ) : (m.erase k).get k = none := by rw [get_erase, if_pos rfl]

theorem get_erase_ne (m : OrdMap κ α) {k' : κ} (h : k' ≠ k) : (m.erase k).get k' = m.get k' := by
  rw [get_erase, if_neg h]

theorem mem_keys_iff : k ∈ m.keys ↔ ∃ v, m.get k = some v := by simp [keys, get_eq_some_iff]

theorem mem_values_iff : v ∈ m.values ↔ ∃ k, m.get k = some v := by simp [values, get_eq_some_iff]

theorem insert_of_get (h : m.get k = some v) : m.insert k v = m := by
  refine ext_get fun k' => ?_
  rw [get_insert]
  split
  · next hk => rw [hk, h]
  · rfl

theorem erase_of_get_none (h : m.get k = none) : m.erase k = m := by
  refine ext_get fun k' => ?_
  rw [get_erase]
  split
  · next hk => rw [hk, h]
  · rfl

/-! ## Which keys are bound -/

/-! ## Counting bindings -/

theorem entries_nodup (m : OrdMap κ α) : m.entries.Nodup := m.keys_nodup.of_map

theorem erase_perm (h : m.get k = some v) : m.entries.Perm ((k, v) :: (m.erase k).entries) := by
  have hrest : (k, v) ∉ (m.erase k).entries := by
    rw [← get_eq_some_iff, get_erase_self]
    exact nofun
  refine (List.perm_ext_iff_of_nodup m.entries_nodup ?_).mpr fun e => ?_
  · exact List.nodup_cons.mpr ⟨hrest, (m.erase k).entries_nodup⟩
  · obtain ⟨k', v'⟩ := e
    rw [List.mem_cons, ← get_eq_some_iff, ← get_eq_some_iff, get_erase]
    by_cases hk : k' = k
    · subst hk
      simp [h, eq_comm]
    · simp [hk]

theorem insert_perm (m : OrdMap κ α) (k : κ) (v : α) :
    (m.insert k v).entries.Perm ((k, v) :: (m.erase k).entries) := by
  have herase : (m.insert k v).erase k = m.erase k := by
    refine ext_get fun k' => ?_
    rw [get_erase, get_erase]
    split
    · rfl
    · next hk => exact get_insert_ne m v hk
  exact herase ▸ erase_perm (get_insert_self m k v)

/-- How many bindings pass a test. -/
def count (m : OrdMap κ α) (p : κ → α → Bool) : Nat := m.entries.countP fun e => p e.1 e.2

theorem count_erase (m : OrdMap κ α) (k : κ) (p : κ → α → Bool) :
    m.count p = (m.erase k).count p + if (m.get k).any (p k) then 1 else 0 := by
  cases h : m.get k with
  | none => simp [erase_of_get_none h]
  | some v =>
    rw [count, (erase_perm h).countP_eq, List.countP_cons]
    rfl

theorem count_insert (m : OrdMap κ α) (k : κ) (v : α) (p : κ → α → Bool) :
    (m.insert k v).count p = (m.erase k).count p + if p k v then 1 else 0 := by
  rw [count, (insert_perm m k v).countP_eq, List.countP_cons]
  rfl

theorem count_congr {p q : κ → α → Bool} (h : ∀ k v, m.get k = some v → p k v = q k v) : m.count p = m.count q := by
  refine List.countP_congr fun e he => ?_
  rw [h e.1 e.2 (get_eq_some_iff.mpr he)]

theorem count_eq_zero {p : κ → α → Bool} (h : ∀ k v, m.get k = some v → p k v = false) : m.count p = 0 := by
  refine List.countP_eq_zero.mpr fun e he => ?_
  rw [h e.1 e.2 (get_eq_some_iff.mpr he)]
  exact Bool.false_ne_true

/-! ## One value changed where it is -/

/-- Change the value at a key, if one is bound there. -/
def adjust (m : OrdMap κ α) (k : κ) (f : α → α) : OrdMap κ α where
  entries := m.entries.map fun e => (e.1, if e.1 = k then f e.2 else e.2)
  sorted := List.pairwise_map.mpr m.sorted

theorem get_adjust (m : OrdMap κ α) (k k' : κ) (f : α → α) :
    (m.adjust k f).get k' = (m.get k').map fun v => if k' = k then f v else v := by
  ext w
  rw [get_eq_some_iff, Option.map_eq_some_iff]
  simp only [adjust, List.mem_map, get_eq_some_iff]
  constructor
  · rintro ⟨⟨k₀, v⟩, hmem, heq⟩
    cases heq
    exact ⟨v, hmem, rfl⟩
  · rintro ⟨v, hmem, rfl⟩
    exact ⟨(k', v), hmem, rfl⟩

/-! ## Maps that bind no value twice -/

/-- No value is bound at two keys. -/
def OneToOne (m : OrdMap κ α) : Prop := ∀ k k' v, m.get k = some v → m.get k' = some v → k = k'

theorem oneToOne_empty : OneToOne (∅ : OrdMap κ α) := fun _ _ _ h => nomatch h

theorem OneToOne.erase (h : m.OneToOne) (k : κ) : (m.erase k).OneToOne := by
  intro a b v ha hb
  rw [get_erase] at ha hb
  split at ha
  · cases ha
  · split at hb
    · cases hb
    · exact h a b v ha hb

theorem OneToOne.insert (h : m.OneToOne) (hnew : ∀ k', m.get k' = some v → k' = k) : (m.insert k v).OneToOne := by
  intro a b w ha hb
  rw [get_insert] at ha hb
  split at ha
  · next hak =>
    cases ha
    split at hb
    · next hbk => rw [hak, hbk]
    · rw [hak, hnew b hb]
  · split at hb
    · next hbk =>
      cases hb
      rw [hbk, hnew a ha]
    · exact h a b w ha hb

theorem OneToOne.get_erase_ne (h : m.OneToOne) (hk : m.get k = some v) (k' : κ) : (m.erase k).get k' ≠ some v := by
  intro hk'
  rw [get_erase] at hk'
  split at hk'
  · cases hk'
  · next hne => exact hne (h k' k v hk' hk)

end OrdMap

end Sandstore.Lib
