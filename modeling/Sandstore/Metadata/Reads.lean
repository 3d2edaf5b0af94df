import Mathlib.Data.List.Induction
import Sandstore.Metadata.Bolt

/-!
# Reading an inode

`GetInode` and the chunk list under it. The chunks of a file are the entries of one bucket whose keys
begin with the number of the inode, followed by the index of the chunk; a cursor finds them side by
side, since keys that share a front are neighbours in byte order (`scan_eq_filter`).

What `replaceChunkList` stores for an inode, `loadChunkList` reads back (`loadChunkList_replace`), and what is
stored for another one makes no difference: after any calls, **each inode has the list of its last call**
(`loadChunkList_replaceAll`).
-/

namespace Sandstore.Metadata

open Lib
open Raft (Byte Bytes Err NodeId)

/-! ## The reads -/

/-- `binary.BigEndian.Uint64`. -/
def uint64OfBE (bytes : Bytes) : Nat := bytes.foldl (fun n b => 256 * n + b.val) 0

/-- Grow the list with empty descriptors until it has the index, and set it there. -/
def placeChunk (chunkList : List ChunkDescriptor) (index : Nat) (chunkDescriptor : ChunkDescriptor) :
    List ChunkDescriptor :=
  (chunkList ++ List.replicate (index + 1 - chunkList.length) (ChunkDescriptor.mk [] [])).set index chunkDescriptor

/-- `loadChunkList`. -/
def loadChunkList (chunkMap : Bucket ChunkDescriptor) (inodeKey : Bytes) :
    Except Err (List ChunkDescriptor) :=
  (Bucket.scan chunkMap inodeKey).foldlM
    (fun chunkList e =>
      if e.1.length ≠ inodeKey.length + 8 then .error (.other "invalid chunk map key length")
      else .ok (placeChunk chunkList (uint64OfBE (e.1.drop inodeKey.length)) e.2))
    []

namespace Store

/-- `GetInode`: the stored inode and its chunk list. -/
def getInode (st : Store) (inodeID : Bytes) : Except Err (Inode × List ChunkDescriptor) := do
  let inodeKey ← encodeInodeKey "inode id" inodeID
  let inode ← st.loadStoredInode inodeKey
  let chunkList ← loadChunkList st.chunkMap inodeKey
  return (inode, chunkList)

end Store

/-- `GetInode` of the service, for a context that may be done. -/
def Service.getInode (svc : Service) (ctxDone : Bool) (inodeID : Bytes) :
    Except Err (Inode × List ChunkDescriptor) :=
  match svc.db with
  | none => .error .notInitialized
  | some st => if ctxDone then .error .contextDone else st.getInode inodeID

variable {chunkList : List ChunkDescriptor}

theorem getInode_ok {st : Store} {inodeID : Bytes} {inode : Inode}
    (h : st.getInode inodeID = .ok (inode, chunkList)) :
    ∃ inodeKey, encodeInodeKey "inode id" inodeID = .ok inodeKey ∧
      st.inodes.get inodeKey = some inode ∧ loadChunkList st.chunkMap inodeKey = .ok chunkList := by
  obtain ⟨inodeKey, hkey, h⟩ := bind_ok h
  obtain ⟨inode', hinode, h⟩ := bind_ok h
  obtain ⟨chunkList', hlist, h⟩ := bind_ok h
  cases h
  exact ⟨inodeKey, hkey, loadStoredInode_ok hinode, hlist⟩

/-! ## Keys that share a front -/

variable {key : Bytes}

/-- Between a key and a key that begins with it lie only keys that begin with it. -/
theorem prefix_of_between {x y : Bytes} (hx : key <+: x) (hle : ¬ y < key) (hlt : y < x) : key <+: y := by
  induction key generalizing x y with
  | nil => exact List.nil_prefix
  | cons k key ih =>
    obtain ⟨rest, rfl⟩ := hx
    cases y with
    | nil => exact absurd (List.nil_lt_cons k key) hle
    | cons b y =>
      rw [List.cons_append, List.cons_lt_cons_iff] at hlt
      rw [List.cons_lt_cons_iff, not_or, not_and] at hle
      rcases hlt with hbk | ⟨rfl, hrest⟩
      · exact absurd hbk hle.1
      · exact List.cons_prefix_cons.mpr ⟨rfl, ih (List.prefix_append key rest) (hle.2 rfl) hrest⟩

theorem not_lt_of_prefix {x : Bytes} (h : key <+: x) : ¬ x < key := by
  obtain ⟨rest, rfl⟩ := h
  induction key with
  | nil => exact List.not_lt_nil _
  | cons k key ih =>
    rw [List.cons_append, List.cons_lt_cons_iff, not_or, not_and]
    exact ⟨lt_irrefl k, fun _ => ih⟩

/-- A cursor yields the entries whose keys begin with the key. -/
theorem scan_eq_filter {α : Type} (b : Bucket α) (key : Bytes) :
    Bucket.scan b key = b.entries.filter fun e => key.isPrefixOf e.1 := by
  -- from the first entry on that is not below the key
  have htake : ∀ l : List (Bytes × α), l.Pairwise (fun a b => a.1 < b.1) → (∀ e ∈ l, ¬ e.1 < key) →
      l.takeWhile (fun e => key.isPrefixOf e.1) = l.filter fun e => key.isPrefixOf e.1 := by
    intro l hsorted hge
    induction l with
    | nil => rfl
    | cons e l ih =>
      obtain ⟨hlt, hl⟩ := List.pairwise_cons.mp hsorted
      by_cases he : key.isPrefixOf e.1
      · simp [he, ih hl fun x hx => hge x (List.mem_cons_of_mem _ hx)]
      · have hnone : l.filter (fun e => key.isPrefixOf e.1) = [] := by
          rw [List.filter_eq_nil_iff]
          intro x hx hfront
          have hbetween := prefix_of_between (List.isPrefixOf_iff_prefix.mp hfront)
            (hge e List.mem_cons_self) (hlt x hx)
          exact he (List.isPrefixOf_iff_prefix.mpr hbetween)
        simp [he, hnone]
  have hscan : ∀ l : List (Bytes × α), l.Pairwise (fun a b => a.1 < b.1) →
      (l.dropWhile fun e => e.1 < key).takeWhile (fun e => key.isPrefixOf e.1) =
        l.filter fun e => key.isPrefixOf e.1 := by
    intro l hsorted
    induction l with
    | nil => rfl
    | cons e l ih =>
      obtain ⟨hlt, hl⟩ := List.pairwise_cons.mp hsorted
      by_cases he : e.1 < key
      · have hnot : ¬ key.isPrefixOf e.1 := fun hfront => not_lt_of_prefix (List.isPrefixOf_iff_prefix.mp hfront) he
        rw [List.dropWhile_cons_of_pos (by simpa using he), ih hl]
        simp [hnot]
      · rw [List.dropWhile_cons_of_neg (by simpa using he)]
        refine htake _ hsorted fun x hx => ?_
        rcases List.mem_cons.mp hx with rfl | hx
        · exact he
        · exact fun hxk => he ((hlt x hx).trans hxk)
  exact hscan b.entries b.sorted

/-! ## Chunk lists are read back -/

theorem uint64OfBE_uint64BE {n : Nat} (h : n < 2 ^ 64) : uint64OfBE (uint64BE n) = n := by
  -- one more byte is one division less
  have hstep : ∀ i, 256 * (n / 256 ^ (i + 1)) + n / 256 ^ i % 256 = n / 256 ^ i := by
    intro i
    rw [Nat.pow_succ, ← Nat.div_div_eq_div_mul]
    exact Nat.div_add_mod _ _
  have htop : 256 * 0 + n / 256 ^ 7 % 256 = n / 256 ^ 7 := by
    have : n / 256 ^ 7 < 256 := Nat.div_lt_of_lt_mul h
    omega
  simp only [uint64OfBE, uint64BE, List.map_cons, List.map_nil, List.foldl_cons, List.foldl_nil, Fin.ofNat]
  rw [htop, hstep 6, hstep 5, hstep 4, hstep 3, hstep 2, hstep 1, hstep 0, Nat.pow_zero, Nat.div_one]

variable {inodeKey : Bytes}

theorem encodeChunkMapKey_inj {i j : Nat} (hi : i < 2 ^ 64) (hj : j < 2 ^ 64)
    (h : encodeChunkMapKey inodeKey i = encodeChunkMapKey inodeKey j) : i = j := by
  have hbe : uint64BE i = uint64BE j := List.append_cancel_left h
  rw [← uint64OfBE_uint64BE hi, hbe, uint64OfBE_uint64BE hj]

theorem mem_scan {α : Type} {b : Bucket α} {e : Bytes × α} :
    e ∈ Bucket.scan b key ↔ b.get e.1 = some e.2 ∧ key <+: e.1 := by
  rw [scan_eq_filter, List.mem_filter, OrdMap.get_eq_some_iff, List.isPrefixOf_iff_prefix]

theorem scan_nodup {α : Type} (b : Bucket α) (key : Bytes) : (Bucket.scan b key).Nodup := by
  rw [scan_eq_filter]
  have hentries : b.entries.Nodup := by
    refine b.sorted.imp fun hlt heq => ?_
    subst heq
    exact lt_irrefl _ hlt
  exact hentries.filter _

theorem get_foldl_erase {α : Type} (es : List (Bytes × α)) (m : Bucket α) (key : Bytes) :
    (es.foldl (fun m e => m.erase e.1) m).get key = if key ∈ es.map (·.1) then none else m.get key := by
  induction es generalizing m with
  | nil => simp
  | cons e es ih =>
    rw [List.foldl_cons, ih, OrdMap.get_erase]
    by_cases hkey : key = e.1 <;> by_cases hmem : key ∈ es.map (·.1) <;> simp [hkey, hmem]

theorem get_deleteChunkList (chunkMap : Bucket ChunkDescriptor) (inodeKey key : Bytes) :
    (deleteChunkList chunkMap inodeKey).get key = if inodeKey <+: key then none else chunkMap.get key := by
  rw [deleteChunkList, get_foldl_erase]
  by_cases hfront : inodeKey <+: key
  · rw [if_pos hfront]
    cases hget : chunkMap.get key with
    | none => simp
    | some c =>
      have hmem : (key, c) ∈ Bucket.scan chunkMap inodeKey := mem_scan.mpr ⟨hget, hfront⟩
      rw [if_pos (List.mem_map.mpr ⟨_, hmem, rfl⟩)]
  · have hnot : key ∉ (Bucket.scan chunkMap inodeKey).map (·.1) := by
      intro hmem
      obtain ⟨e, he, rfl⟩ := List.mem_map.mp hmem
      exact hfront (mem_scan.mp he).2
    rw [if_neg hnot, if_neg hfront]

/-- The insertions of `replaceChunkList`, from an index on. -/
def insertChunks (m : Bucket ChunkDescriptor) (inodeKey : Bytes) (chunkList : List ChunkDescriptor)
    (start : Nat) : Bucket ChunkDescriptor :=
  (chunkList.zipIdx start).foldl (fun m c => m.insert (encodeChunkMapKey inodeKey c.2) c.1) m

theorem get_insertChunks {i : Nat} (hi : i < 2 ^ 64) (chunkList : List ChunkDescriptor)
    (m : Bucket ChunkDescriptor) (start : Nat) (hfits : start + chunkList.length ≤ 2 ^ 64) :
    (insertChunks m inodeKey chunkList start).get (encodeChunkMapKey inodeKey i) =
      if start ≤ i ∧ i < start + chunkList.length then chunkList[i - start]?
      else m.get (encodeChunkMapKey inodeKey i) := by
  induction chunkList generalizing m start with
  | nil => simp [insertChunks]
  | cons c chunkList ih =>
    rw [List.length_cons] at hfits
    have hnext := ih (m.insert (encodeChunkMapKey inodeKey start) c) (start + 1) (by omega)
    rw [OrdMap.get_insert] at hnext
    show (insertChunks (m.insert _ c) inodeKey chunkList (start + 1)).get _ = _
    have hne : i ≠ start → encodeChunkMapKey inodeKey i ≠ encodeChunkMapKey inodeKey start :=
      mt (encodeChunkMapKey_inj hi (by omega))
    rw [hnext, List.length_cons]
    rcases Nat.lt_trichotomy i start with hlt | rfl | hgt
    · rw [if_neg (by omega), if_neg (hne hlt.ne), if_neg (by omega)]
    · simp
    · have hsub : i - start = (i - (start + 1)) + 1 := by omega
      rw [if_neg (hne hgt.ne'), hsub, List.getElem?_cons_succ]
      by_cases hlast : i < start + (chunkList.length + 1)
      · rw [if_pos (by omega), if_pos (by omega)]
      · rw [if_neg (by omega), if_neg (by omega)]

theorem get_insertChunks_other (chunkList : List ChunkDescriptor) (m : Bucket ChunkDescriptor) (start : Nat)
    (hkey : ∀ i, start ≤ i → i < start + chunkList.length → key ≠ encodeChunkMapKey inodeKey i) :
    (insertChunks m inodeKey chunkList start).get key = m.get key := by
  induction chunkList generalizing m start with
  | nil => rfl
  | cons c chunkList ih =>
    rw [List.length_cons] at hkey
    have hnext := ih (m.insert (encodeChunkMapKey inodeKey start) c) (start + 1) fun i hle hlt =>
      hkey i (by omega) (by omega)
    rwa [OrdMap.get_insert_ne _ _ (hkey start (Nat.le_refl _) (by omega))] at hnext

theorem replaceChunkList_eq (chunkMap : Bucket ChunkDescriptor) (inodeKey : Bytes)
    (chunkList : List ChunkDescriptor) : replaceChunkList chunkMap inodeKey chunkList =
      insertChunks (deleteChunkList chunkMap inodeKey) inodeKey chunkList 0 := rfl

theorem prefix_encodeChunkMapKey (inodeKey : Bytes) (i : Nat) :
    inodeKey <+: encodeChunkMapKey inodeKey i := List.prefix_append _ _

/-- What `replaceChunkList` leaves at the keys of the inode. -/
theorem get_replace {i : Nat} (hi : i < 2 ^ 64) (chunkMap : Bucket ChunkDescriptor)
    (hfits : chunkList.length ≤ 2 ^ 64) :
    (replaceChunkList chunkMap inodeKey chunkList).get (encodeChunkMapKey inodeKey i) = chunkList[i]? := by
  rw [replaceChunkList_eq, get_insertChunks hi _ _ _ (by omega), get_deleteChunkList,
    if_pos (prefix_encodeChunkMapKey inodeKey i)]
  by_cases hlt : i < chunkList.length
  · simp [hlt]
  · simp [hlt]

theorem get_replace_other (chunkMap : Bucket ChunkDescriptor) (chunkList : List ChunkDescriptor)
    (hfront : ¬ inodeKey <+: key) : (replaceChunkList chunkMap inodeKey chunkList).get key = chunkMap.get key := by
  rw [replaceChunkList_eq, get_insertChunks_other, get_deleteChunkList, if_neg hfront]
  exact fun i _ _ heq => hfront (heq ▸ prefix_encodeChunkMapKey inodeKey i)

theorem get_replace_form {chunkMap : Bucket ChunkDescriptor} (hfits : chunkList.length ≤ 2 ^ 64)
    {c : ChunkDescriptor} (hfront : inodeKey <+: key)
    (hget : (replaceChunkList chunkMap inodeKey chunkList).get key = some c) :
    ∃ i, i < 2 ^ 64 ∧ key = encodeChunkMapKey inodeKey i ∧ chunkList[i]? = some c := by
  by_cases hkey : ∃ i, i < chunkList.length ∧ key = encodeChunkMapKey inodeKey i
  · obtain ⟨i, hi, rfl⟩ := hkey
    rw [get_replace (by omega) chunkMap hfits] at hget
    exact ⟨i, by omega, rfl, hget⟩
  · rw [replaceChunkList_eq, get_insertChunks_other chunkList _ 0 fun i _ hlt heq =>
      hkey ⟨i, by omega, heq⟩, get_deleteChunkList, if_pos hfront] at hget
    cases hget

/-- What is at an index after chunks have been placed, each at an index of its own. -/
theorem get_foldl_place {es : List (Nat × ChunkDescriptor)} (hdistinct : (es.map (·.1)).Nodup)
    (chunkList : List ChunkDescriptor) {i : Nat} {c : ChunkDescriptor} (hmem : (i, c) ∈ es) :
    (es.foldl (fun l e => placeChunk l e.1 e.2) chunkList)[i]? = some c := by
  -- later chunks are placed elsewhere
  have hkeep : ∀ (es : List (Nat × ChunkDescriptor)) (l : List ChunkDescriptor), i ∉ es.map (·.1) → l[i]? = some c →
      (es.foldl (fun l e => placeChunk l e.1 e.2) l)[i]? = some c := by
    intro es l hnot hget
    refine List.foldlRecOn (motive := fun l : List ChunkDescriptor => l[i]? = some c) es _ hget fun l hget e he => ?_
    have hne : e.1 ≠ i := fun heq => hnot (List.mem_map.mpr ⟨e, he, heq⟩)
    have hlt : i < l.length := (List.getElem?_eq_some_iff.mp hget).1
    dsimp only [placeChunk]
    rw [List.getElem?_set_ne hne, List.getElem?_append_left hlt, hget]
  induction es generalizing chunkList with
  | nil => cases hmem
  | cons e es ih =>
    rw [List.map_cons, List.nodup_cons] at hdistinct
    rcases List.mem_cons.mp hmem with rfl | hmem
    · refine hkeep es _ hdistinct.1 ?_
      dsimp only [placeChunk]
      rw [List.getElem?_set_self]
      simp only [List.length_append, List.length_replicate]
      omega
    · exact ih hdistinct.2 _ hmem

theorem length_foldl_place {bound : Nat} (es : List (Nat × ChunkDescriptor)) (chunkList : List ChunkDescriptor)
    (hbound : ∀ e ∈ es, e.1 < bound) (hlen : chunkList.length ≤ bound) :
    (es.foldl (fun l e => placeChunk l e.1 e.2) chunkList).length ≤ bound := by
  refine List.foldlRecOn (motive := fun l : List ChunkDescriptor => l.length ≤ bound) es _ hlen fun l hl e he => ?_
  have := hbound e he
  simp only [placeChunk, List.length_set, List.length_append, List.length_replicate]
  omega

/-- `loadChunkList` over keys of the right length. -/
theorem loadChunkList_ok {chunkMap : Bucket ChunkDescriptor}
    (hlength : ∀ e ∈ Bucket.scan chunkMap inodeKey, e.1.length = inodeKey.length + 8) :
    loadChunkList chunkMap inodeKey = .ok (((Bucket.scan chunkMap inodeKey).map fun e =>
        (uint64OfBE (e.1.drop inodeKey.length), e.2)).foldl (fun l e => placeChunk l e.1 e.2) []) := by
  unfold loadChunkList
  generalize Bucket.scan chunkMap inodeKey = es at hlength
  generalize ([] : List ChunkDescriptor) = init
  induction es generalizing init with
  | nil => rfl
  | cons e es ih =>
    have he := hlength e List.mem_cons_self
    simp only [List.foldlM_cons, he, ne_eq, not_true_eq_false, if_false, List.map_cons, List.foldl_cons]
    exact ih (fun x hx => hlength x (List.mem_cons_of_mem _ hx)) _

/-- **What is stored for an inode is read back.** -/
theorem loadChunkList_replace (chunkMap : Bucket ChunkDescriptor) (inodeKey : Bytes)
    (hfits : chunkList.length ≤ 2 ^ 64) :
    loadChunkList (replaceChunkList chunkMap inodeKey chunkList) inodeKey = .ok chunkList := by
  have hform : ∀ e ∈ Bucket.scan (replaceChunkList chunkMap inodeKey chunkList) inodeKey,
      ∃ i, i < 2 ^ 64 ∧ e.1 = encodeChunkMapKey inodeKey i ∧ chunkList[i]? = some e.2 := by
    intro e he
    obtain ⟨hget, hfront⟩ := mem_scan.mp he
    exact get_replace_form hfits hfront hget
  have hindex : ∀ {e : Bytes × ChunkDescriptor} {i : Nat}, i < 2 ^ 64 →
      e.1 = encodeChunkMapKey inodeKey i → uint64OfBE (e.1.drop inodeKey.length) = i := by
    intro e i hi he
    rw [he, encodeChunkMapKey, List.drop_left, uint64OfBE_uint64BE hi]
  rw [loadChunkList_ok]
  · set es := (Bucket.scan (replaceChunkList chunkMap inodeKey chunkList) inodeKey).map fun e =>
      (uint64OfBE (e.1.drop inodeKey.length), e.2) with hes
    have hbound : ∀ e ∈ es, e.1 < chunkList.length := by
      intro e he
      obtain ⟨x, hx, rfl⟩ := List.mem_map.mp he
      obtain ⟨i, hi, hkey, hat⟩ := hform x hx
      rw [hindex hi hkey]
      exact (List.getElem?_eq_some_iff.mp hat).1
    have hmem : ∀ i c, chunkList[i]? = some c → (i, c) ∈ es := by
      intro i c hat
      have hi : i < 2 ^ 64 := by
        have := (List.getElem?_eq_some_iff.mp hat).1
        omega
      have hscan : (encodeChunkMapKey inodeKey i, c) ∈
          Bucket.scan (replaceChunkList chunkMap inodeKey chunkList) inodeKey :=
        mem_scan.mpr ⟨(get_replace hi chunkMap hfits).trans hat, prefix_encodeChunkMapKey inodeKey i⟩
      exact List.mem_map.mpr ⟨_, hscan, by rw [hindex hi rfl]⟩
    have hdistinct : (es.map (·.1)).Nodup := by
      rw [hes, List.map_map]
      refine (scan_nodup _ _).map_on fun x hx y hy hxy => ?_
      obtain ⟨i, hi, hkey, hat⟩ := hform x hx
      obtain ⟨j, hj, hkey', hat'⟩ := hform y hy
      have hij : i = j := by rw [← hindex hi hkey, ← hindex hj hkey']; exact hxy
      subst hij
      exact Prod.ext (hkey.trans hkey'.symm) (Option.some_inj.mp (hat.symm.trans hat'))
    congr 1
    have hlen := length_foldl_place es [] hbound (Nat.zero_le _)
    apply List.ext_getElem?
    intro i
    cases hat : chunkList[i]? with
    | some c => exact get_foldl_place hdistinct [] (hmem i c hat)
    | none =>
      rw [List.getElem?_eq_none_iff] at hat ⊢
      omega
  · intro e he
    obtain ⟨i, _, hkey, _⟩ := hform e he
    rw [hkey, encodeChunkMapKey, List.length_append, uint64BE_length]

/-! ## Many inodes -/

/-- The list is read off the keys that begin with the inode's. -/
theorem loadChunkList_congr {m m' : Bucket ChunkDescriptor} (h : ∀ k, inodeKey <+: k → m.get k = m'.get k) :
    loadChunkList m inodeKey = loadChunkList m' inodeKey := by
  have hsame : m.filter (fun k _ => inodeKey.isPrefixOf k) = m'.filter fun k _ => inodeKey.isPrefixOf k := by
    ext k : 1
    rw [OrdMap.get_filter, OrdMap.get_filter]
    by_cases hfront : inodeKey <+: k
    · rw [h k hfront]
    · simp [List.isPrefixOf_iff_prefix.not.mpr hfront]
  have hscan : Bucket.scan m inodeKey = Bucket.scan m' inodeKey := by
    rw [scan_eq_filter, scan_eq_filter]
    exact congrArg OrdMap.entries hsame
  rw [loadChunkList, hscan, loadChunkList]

/-- Calls of `replaceChunkList`, each with an inode's key and a list, on a new bucket. -/
def replaceAll (calls : List (Bytes × List ChunkDescriptor)) : Bucket ChunkDescriptor :=
  calls.foldl (fun chunkMap call => replaceChunkList chunkMap call.1 call.2) ∅

/-- The list of the last call for an inode, or none. -/
def lastList (calls : List (Bytes × List ChunkDescriptor)) (inodeKey : Bytes) : List ChunkDescriptor :=
  calls.foldl (fun list call => if call.1 = inodeKey then call.2 else list) []

/-- **Chunk lists are stored exactly and independently.** -/
theorem loadChunkList_replaceAll (calls : List (Bytes × List ChunkDescriptor)) (hkey : inodeKey.length = 8)
    (hkeys : ∀ call ∈ calls, call.1.length = 8) (hfits : ∀ call ∈ calls, call.2.length ≤ 2 ^ 64) :
    loadChunkList (replaceAll calls) inodeKey = .ok (lastList calls inodeKey) := by
  induction calls using List.reverseRecOn with
  | nil => rfl
  | append_singleton calls call ih =>
    have hcall : call ∈ calls ++ [call] := List.mem_append_right _ List.mem_cons_self
    have hbefore := ih (fun c hc => hkeys c (List.mem_append_left _ hc)) fun c hc =>
      hfits c (List.mem_append_left _ hc)
    simp only [replaceAll, lastList, List.foldl_append, List.foldl_cons, List.foldl_nil] at hbefore ⊢
    split
    · next hsame => exact hsame ▸ loadChunkList_replace _ _ (hfits call hcall)
    · next hother =>
      rw [← hbefore]
      refine loadChunkList_congr fun k hfront => get_replace_other _ _ fun hfront' => hother ?_
      -- two keys of one length that a key begins with
      exact (List.prefix_of_prefix_length_le hfront' hfront (by rw [hkeys call hcall, hkey])).eq_of_length
        (by rw [hkeys call hcall, hkey])

theorem loadChunkList_replaceAll_shorter :
    loadChunkList (replaceAll [(uint64BE 1, [⟨[97], []⟩, ⟨[98], []⟩]), (uint64BE 2, [⟨[99], []⟩]),
      (uint64BE 1, [⟨[100], []⟩])]) (uint64BE 1) = .ok [⟨[100], []⟩] :=
  loadChunkList_replaceAll _ rfl (by decide) (by decide)

end Sandstore.Metadata
