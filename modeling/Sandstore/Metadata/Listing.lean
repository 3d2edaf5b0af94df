import Sandstore.Metadata.Links

/-!
# Directory listings

A directory is no record of its own but a range of keys: the dentries whose keys begin with the eight bytes of
its number. `ReadDir` walks that range, `directoryIsEmpty` looks at its first key and `Lookup` at one key of
it, and nothing says that the three agree. They do (`listings_exact`), after every sequence of transactions
whose creates are of new numbers: the range of one directory holds no key of another since all numbers are
eight bytes long, its order is that of the names, and every dentry leads to an inode that carries the number
it is stored under.

A caller that does not want all at once gives a cookie, which is a position, and a number of entries. The sum
of the two can wrap around, and then the slice has its end before its beginning (`readDir_safe_iff`).
-/

namespace Sandstore.Metadata

open Lib
open Raft (Byte Bytes Err)

/-! ## Loops that can fail -/

theorem mem_of_mapM_ok {ε α β : Type} {f : α → Except ε β} {as : List α} {bs : List β} (h : as.mapM f = .ok bs) (b : β) :
    b ∈ bs ↔ ∃ a ∈ as, f a = .ok b := by
  induction as generalizing bs with
  | nil =>
    cases h
    simp
  | cons a as ih =>
    rw [List.mapM_cons] at h
    obtain ⟨b', hb', h⟩ := bind_ok h
    obtain ⟨bs', hbs', h⟩ := bind_ok h
    cases h
    have hsame : b = b' ↔ f a = .ok b := by
      rw [hb', Except.ok.injEq]
      exact eq_comm
    rw [List.mem_cons, ih hbs', hsame]
    simp only [List.mem_cons, exists_eq_or_imp]

/-! ## The range of a directory -/

variable {key : Bytes}

theorem lt_of_append_lt_append {x y : Bytes} (h : key ++ x < key ++ y) : x < y := by
  induction key with
  | nil => exact h
  | cons b key ih =>
    rw [List.cons_append, List.cons_append, List.cons_lt_cons_iff] at h
    rcases h with hlt | ⟨_, hrest⟩
    · exact absurd hlt (lt_irrefl b)
    · exact ih hrest

variable {entries : List DirEntry}

theorem mem_dirEntries {st : Store} {inodeID : Bytes}
    (h : st.dirEntries inodeID key = .ok entries) (entry : DirEntry) :
    entry ∈ entries ↔ ∃ childKey child, st.dentries.get (encodeDentryKey key entry.name) = some childKey ∧
      st.inodes.get childKey = some child ∧ entry.inodeID = child.inodeID ∧ entry.type = child.type := by
  rw [mem_of_mapM_ok h]
  constructor
  · intro ⟨e, he, hentry⟩
    split at hentry
    · cases hentry
    · next child hchild =>
      cases hentry
      obtain ⟨hget, rest, hrest⟩ := mem_scan.mp he
      refine ⟨e.2, child, ?_, hchild, rfl, rfl⟩
      rw [← hget, ← hrest, List.drop_left]
      rfl
  · intro ⟨childKey, child, hget, hchild, hid, htype⟩
    refine ⟨(encodeDentryKey key entry.name, childKey), mem_scan.mpr ⟨hget, List.prefix_append _ _⟩, ?_⟩
    have hname : (encodeDentryKey key entry.name).drop key.length = entry.name := List.drop_left
    simp only [hchild, hname, ← hid, ← htype]

/-- The name of an entry is what its key has behind the directory's. -/
theorem name_of_dirEntry {st : Store} {inodeID : Bytes}
    (h : st.dirEntries inodeID key = .ok entries) : entries.map (·.name) =
      (Bucket.scan st.dentries key).map fun e => e.1.drop key.length := by
  unfold Store.dirEntries at h
  generalize Bucket.scan st.dentries key = es at h ⊢
  induction es generalizing entries with
  | nil =>
    cases h
    rfl
  | cons e es ih =>
    rw [List.mapM_cons] at h
    obtain ⟨entry, hentry, h⟩ := bind_ok h
    obtain ⟨entries', hentries', h⟩ := bind_ok h
    cases h
    rw [List.map_cons, List.map_cons, ih hentries']
    split at hentry
    · cases hentry
    · cases hentry
      rfl

/-- The keys of a range are in the order of what they have behind its front. -/
theorem scan_names_sorted {α : Type} (bucket : Bucket α) (key : Bytes) :
    ((Bucket.scan bucket key).map fun e => e.1.drop key.length).Pairwise (· < ·) := by
  have hsorted : (Bucket.scan bucket key).Pairwise fun e e' => e.1 < e'.1 := by
    rw [scan_eq_filter]
    exact bucket.sorted.filter _
  rw [List.pairwise_map]
  refine hsorted.imp_of_mem ?_
  intro e e' he he' hlt
  obtain ⟨_, rest, hrest⟩ := mem_scan.mp he
  obtain ⟨_, rest', hrest'⟩ := mem_scan.mp he'
  rw [← hrest, ← hrest'] at hlt ⊢
  rw [List.drop_left, List.drop_left]
  exact lt_of_append_lt_append hlt

theorem dirEntries_sorted {st : Store} {inodeID : Bytes}
    (h : st.dirEntries inodeID key = .ok entries) : (entries.map (·.name)).Pairwise (· < ·) := by
  rw [name_of_dirEntry h]
  exact scan_names_sorted st.dentries key

/-! ## What is stored under a number carries it -/

/-- Every inode carries the number it is stored under, as an ID that has what the root's and those of all creates
have. -/
theorem ids_afterAll (P : Bytes → Prop) (hroot : P [48]) (now : Int) (calls : List (Int × Command))
    (hcreates : ∀ c ∈ calls, ∀ op chunkIntent, c.2 = some ⟨.posixMeta, some op, chunkIntent⟩ → op.type = .create →
      P op.inodeID) : ∀ key inode, ((Store.boot now).afterAll calls).inodes.get key = some inode →
      encodeInodeKey "inode id" inode.inodeID = .ok key ∧ P inode.inodeID := by
  intro key inode hget
  rcases made_afterAll now calls hget with ⟨hkey, hid, _⟩ | ⟨c, hc, op, chunkIntent, hdata, htype, hkey, hid, _⟩
  · rw [hid, hkey]
    exact ⟨rfl, hroot⟩
  · rw [hid]
    exact ⟨hkey, hcreates c hc op chunkIntent hdata htype⟩

/-! ## Three reads of one directory -/

/-- The entries are those of the directory, and the three reads show them. -/
structure ListingOf (st : Store) (inodeID key : Bytes) (entries : List DirEntry) : Prop where
  readDir : st.readDir inodeID 0 0 = .ok (entries, (entries.length : Int), true)
  sorted : (entries.map (·.name)).Pairwise (· < ·)
  mem : ∀ entry, entry ∈ entries ↔ ∃ childKey child,
    st.dentries.get (encodeDentryKey key entry.name) = some childKey ∧
      st.inodes.get childKey = some child ∧ entry.inodeID = child.inodeID ∧ entry.type = child.type
  own : ∀ entry ∈ entries, ∀ other name, other.length = 8 →
    encodeDentryKey other name = encodeDentryKey key entry.name → other = key ∧ name = entry.name
  isEmpty : st.directoryIsEmpty inodeID = .ok entries.isEmpty
  lookup : ∀ name childID, st.lookup inodeID name = .ok childID ↔
    ∃ entry ∈ entries, entry.name = name ∧ ∃ n, parseUint entry.inodeID = some n ∧ childID = formatUint n

/-- Every create has its ID as `nextInodeID` prints it. -/
def Printed (calls : List (Int × Command)) : Prop :=
  ∀ c ∈ calls, ∀ op chunkIntent, c.2 = some ⟨.posixMeta, some op, chunkIntent⟩ → op.type = .create →
    ∃ n < 2 ^ 64, op.inodeID = formatUint n

/-- A page goes from the cookie to `stop`, or to the end if that comes first. -/
theorem page_eq {cookie maxEntries stop : Int}
    (hstop : (if maxEntries ≤ 0 then (entries.length : Int) else (max cookie 0 + maxEntries).bmod (2 ^ 64)) = stop) :
    Store.page entries cookie maxEntries = if entries.length ≤ max cookie 0 then some ([], max cookie 0, true)
      else if min stop entries.length < max cookie 0 then none
      else some ((entries.drop (max cookie 0).toNat).take (min stop entries.length - max cookie 0).toNat,
        min stop entries.length, decide (min stop entries.length = entries.length)) := by
  have hcookie : (if cookie < 0 then 0 else cookie) = max cookie 0 := by
    split <;> omega
  have hcut : (if stop > entries.length then (entries.length : Int) else stop) = min stop entries.length := by
    split <;> omega
  simp only [Store.page, hcookie, hstop, hcut, ge_iff_le]

theorem page_all (entries : List DirEntry) :
    Store.page entries 0 0 = some (entries, (entries.length : Int), true) := by
  rw [page_eq (if_pos (Int.le_refl 0))]
  cases entries with
  | nil => rfl
  | cons entry entries =>
    rw [if_neg (by simp), if_neg (by omega)]
    simp

section Reads

variable {st : Store} {inodeID key : Bytes} {dir : Inode}

theorem readDir_of_dirEntries (hkey : encodeInodeKey "inode id" inodeID = .ok key)
    (hget : st.inodes.get key = some dir) (hdir : dir.type = .directory) {entries : List DirEntry}
    (hentries : st.dirEntries inodeID key = .ok entries) (cookie maxEntries : Int) :
    st.readDir inodeID cookie maxEntries =
      ((Store.page entries cookie maxEntries).map Except.ok).getD (.error .panicked) := by
  simp only [Store.readDir, encodeInodeKey_as "parent inode id" hkey, loadStoredInode_of_get hget, bind, Except.bind,
    hdir, hentries]
  cases Store.page entries cookie maxEntries <;> rfl

theorem directoryIsEmpty_of_dirEntries (hkey : encodeInodeKey "inode id" inodeID = .ok key)
    (hget : st.inodes.get key = some dir) (hdir : dir.type = .directory) {entries : List DirEntry}
    (hentries : st.dirEntries inodeID key = .ok entries) : st.directoryIsEmpty inodeID = .ok entries.isEmpty := by
  have hlength := congrArg List.length (name_of_dirEntry hentries)
  rw [List.length_map, List.length_map] at hlength
  simp only [Store.directoryIsEmpty, hkey, loadStoredInode_of_get hget, bind, Except.bind, hdir]
  rw [Bool.eq_iff_iff.mpr (show (Bucket.scan st.dentries key).isEmpty = true ↔ entries.isEmpty = true by
    rw [List.isEmpty_iff_length_eq_zero, List.isEmpty_iff_length_eq_zero, hlength])]
  rfl

theorem lookup_ok_iff_leads (hkey : encodeInodeKey "inode id" inodeID = .ok key)
    (hget : st.inodes.get key = some dir) (hdir : dir.type = .directory) {name childID : Bytes} :
    st.lookup inodeID name = .ok childID ↔ ∃ childKey, st.dentries.get (encodeDentryKey key name) = some childKey ∧
      childKey.length = 8 ∧ childID = formatUint (uint64OfBE childKey) := by
  rw [lookup_ok_iff]
  constructor
  · intro ⟨parentKey, _, childKey, hkey', _, _, hdentry, hlength, hid⟩
    cases hkey.symm.trans hkey'
    exact ⟨childKey, hdentry, hlength, hid⟩
  · intro ⟨childKey, hdentry, hlength, hid⟩
    exact ⟨key, dir, childKey, hkey, hget, hdir, hdentry, hlength, hid⟩

end Reads

/-- **Directory listings are exact.** After every sequence of transactions whose creates are of new numbers, and
for every directory, `ReadDir` answers one entry for each dentry of the directory and none of another's, in the
order of the names and with the children's IDs and types; `directoryIsEmpty` says whether there are any; and
`Lookup` finds the names that are among them, with the same ID. -/
theorem listings_exact (now : Int) (calls : List (Int × Command)) (hnew : (createdNumbers calls).Nodup)
    (hroot : 0 ∉ createdNumbers calls) {inodeID key : Bytes} {dir : Inode}
    (hkey : encodeInodeKey "inode id" inodeID = .ok key)
    (hget : ((Store.boot now).afterAll calls).inodes.get key = some dir) (hdir : dir.type = .directory) :
    ∃ entries, ListingOf ((Store.boot now).afterAll calls) inodeID key entries ∧
      (Printed calls → ∀ name childID, ((Store.boot now).afterAll calls).lookup inodeID name = .ok childID ↔
        ∃ entry ∈ entries, entry.name = name ∧ entry.inodeID = childID) := by
  have hground := grounded_afterAll now calls hnew hroot
  have hids := ids_afterAll (fun _ => True) trivial now calls fun _ _ _ _ _ _ => trivial
  set st := (Store.boot now).afterAll calls with hst
  obtain ⟨entries, hentries⟩ := dirEntries_ok hground.target inodeID key
  have hmem := mem_dirEntries hentries
  -- the number of a child is what its ID says
  have hnumber : ∀ childKey child, st.inodes.get childKey = some child →
      ∃ n, parseUint child.inodeID = some n ∧ uint64OfBE childKey = n := by
    intro childKey child hchild
    obtain ⟨n, hn, rfl⟩ := encodeInodeKey_ok (hids childKey child hchild).1
    exact ⟨n, hn, uint64OfBE_uint64BE (parseUint_lt hn)⟩
  have hlookup : ∀ name childID, st.lookup inodeID name = .ok childID ↔
      ∃ entry ∈ entries, entry.name = name ∧ ∃ n, parseUint entry.inodeID = some n ∧ childID = formatUint n := by
    intro name childID
    rw [lookup_ok_iff_leads hkey hget hdir]
    constructor
    · intro ⟨childKey, hdentry, _, hid⟩
      obtain ⟨child, hchild⟩ := hground.target _ _ hdentry
      obtain ⟨n, hn, hnum⟩ := hnumber childKey child hchild
      exact ⟨⟨name, child.inodeID, child.type⟩, (hmem _).mpr ⟨childKey, child, hdentry, hchild, rfl, rfl⟩, rfl,
        n, hn, hnum ▸ hid⟩
    · intro ⟨entry, hentry, hname, n, hn, hid⟩
      obtain ⟨childKey, child, hdentry, hchild, hentryID, _⟩ := (hmem entry).mp hentry
      obtain ⟨n', hn', hnum⟩ := hnumber childKey child hchild
      rw [hentryID, hn'] at hn
      cases hn
      exact ⟨childKey, hname ▸ hdentry, hground.length hchild, hnum ▸ hid⟩
  refine ⟨entries, ?_, fun hprinted name childID => ?_⟩
  · refine ⟨?_, dirEntries_sorted hentries, hmem, ?_, directoryIsEmpty_of_dirEntries hkey hget hdir hentries, hlookup⟩
    · rw [readDir_of_dirEntries hkey hget hdir hentries, page_all]
      rfl
    · intro entry _ other name hother heq
      exact List.append_inj heq (hother.trans (hground.length hget).symm)
  · -- an ID that has been printed is the one that its number is printed as
    have hprint : ∀ entry ∈ entries, ∃ n < 2 ^ 64, entry.inodeID = formatUint n := by
      intro entry hentry
      obtain ⟨childKey, child, _, hchild, hentryID, _⟩ := (hmem entry).mp hentry
      rw [hentryID]
      exact (ids_afterAll (fun inodeID => ∃ n < 2 ^ 64, inodeID = formatUint n) ⟨0, by decide, rfl⟩ now calls hprinted
        childKey child (hst ▸ hchild)).2
    rw [hlookup]
    constructor
    · intro ⟨entry, hentry, hname, n, hn, hid⟩
      obtain ⟨m, hm, hprinted⟩ := hprint entry hentry
      rw [hprinted, parseUint_formatUint hm] at hn
      cases hn
      exact ⟨entry, hentry, hname, hprinted.trans hid.symm⟩
    · intro ⟨entry, hentry, hname, hid⟩
      obtain ⟨m, hm, hprinted⟩ := hprint entry hentry
      exact ⟨entry, hentry, hname, m, by rw [hprinted, parseUint_formatUint hm], hid.symm.trans hprinted⟩

/-- Two files and the file of the empty name, and one file that is in the directory 3. -/
def listedCalls : List (Int × Command) :=
  [(0, replicateOp (createOp (formatUint 1) [48] [102] .file 0o644 0 0) 1),
    (0, replicateOp (createOp (formatUint 2) [48] [] .file 0o644 0 0) 2),
    (0, replicateOp (createOp (formatUint 3) [48] [100] .directory 0o755 0 0) 3),
    (0, replicateOp (createOp (formatUint 4) [51] [101] .file 0o644 0 0) 4)]

theorem listings_exact_root :
    ∃ entries, ListingOf ((Store.boot 0).afterAll listedCalls) [48] rootKey entries ∧
      (Printed listedCalls → ∀ name childID, ((Store.boot 0).afterAll listedCalls).lookup [48] name = .ok childID ↔
        ∃ entry ∈ entries, entry.name = name ∧ entry.inodeID = childID) := by
  obtain ⟨root, hroot, hdir⟩ := (grounded_afterAll 0 listedCalls (by decide +kernel) (by decide +kernel)).root
  exact listings_exact 0 listedCalls (by decide +kernel) (by decide +kernel) rfl hroot hdir

/-! ## Pages -/

/-- What a page is to be: the entries from the cookie to the next one, which is beyond it unless all have been
shown. -/
structure SafePage (entries : List DirEntry) (cookie : Int) (items : List DirEntry) (next : Int) (eof : Bool) :
    Prop where
  slice : items = (entries.drop (max cookie 0).toNat).take (next - max cookie 0).toNat
  within : max cookie 0 ≤ next ∧ (next ≤ entries.length ∨ items = [])
  progress : eof = false → max cookie 0 < next

theorem page_safe_iff {cookie maxEntries : Int} (hcookie : cookie < 2 ^ 63) (hmax : maxEntries < 2 ^ 63) :
    (∃ items next eof, Store.page entries cookie maxEntries = some (items, next, eof) ∧
      SafePage entries cookie items next eof) ↔
    entries.length ≤ max cookie 0 ∨ maxEntries ≤ 0 ∨ max cookie 0 + maxEntries < 2 ^ 63 := by
  obtain ⟨stop, hstop⟩ : ∃ stop, (if maxEntries ≤ 0 then (entries.length : Int)
      else (max cookie 0 + maxEntries).bmod (2 ^ 64)) = stop := ⟨_, rfl⟩
  rw [page_eq hstop]
  by_cases hend : (entries.length : Int) ≤ max cookie 0
  · rw [if_pos hend]
    refine iff_of_true ⟨[], max cookie 0, true, rfl, ?_, ⟨Int.le_refl _, .inr rfl⟩, ?_⟩ (.inl hend)
    · rw [Int.sub_self]
      rfl
    · exact fun h => absurd h.symm Bool.false_ne_true
  · rw [if_neg hend]
    have hcases : (max cookie 0 < stop ∧ (maxEntries ≤ 0 ∨ max cookie 0 + maxEntries < 2 ^ 63)) ∨
        (stop < 0 ∧ 0 < maxEntries ∧ 2 ^ 63 ≤ max cookie 0 + maxEntries) := by
      rw [← hstop]
      split
      · omega
      · by_cases hfits : max cookie 0 + maxEntries < 2 ^ 63
        · rw [bmod_of_lt (by omega) hfits]
          omega
        · rw [bmod_of_ge (by omega) (by omega)]
          omega
    rcases hcases with ⟨hbehind, hfits⟩ | ⟨hwrapped, hwraps⟩
    · rw [if_neg (by omega)]
      exact iff_of_true ⟨_, _, _, rfl, rfl, ⟨by omega, .inl (by omega)⟩, fun _ => by omega⟩ (.inr hfits)
    · rw [if_pos (by omega)]
      exact iff_of_false (by simp) (by omega)

/-- **Paging is safe exactly if the sum of the cookie and the number of entries does not wrap around**, where it is
formed at all: `ReadDir` does not panic, the cookie it answers is not below the given one, and it is beyond it as
long as there is more. -/
theorem readDir_safe_iff {st : Store} {inodeID key : Bytes} {dir : Inode} {entries : List DirEntry}
    (hkey : encodeInodeKey "inode id" inodeID = .ok key) (hget : st.inodes.get key = some dir)
    (hdir : dir.type = .directory) (hentries : st.dirEntries inodeID key = .ok entries) {cookie maxEntries : Int}
    (hcookie : -2 ^ 63 ≤ cookie ∧ cookie < 2 ^ 63) (hmax : -2 ^ 63 ≤ maxEntries ∧ maxEntries < 2 ^ 63) :
    (∃ items next eof, st.readDir inodeID cookie maxEntries = .ok (items, next, eof) ∧
      SafePage entries cookie items next eof) ↔
    entries.length ≤ max cookie 0 ∨ maxEntries ≤ 0 ∨ max cookie 0 + maxEntries < 2 ^ 63 := by
  rw [← page_safe_iff hcookie.2 hmax.2, readDir_of_dirEntries hkey hget hdir hentries]
  cases Store.page entries cookie maxEntries with
  | none => simp
  | some result => simp

theorem readDir_safe_second :
    ∃ entries items next eof, ((Store.boot 0).afterAll listedCalls).readDir [48] 1 2 = .ok (items, next, eof) ∧
      SafePage entries 1 items next eof := by
  have hground := grounded_afterAll 0 listedCalls (by decide +kernel) (by decide +kernel)
  obtain ⟨root, hroot, hdir⟩ := hground.root
  obtain ⟨entries, hentries⟩ := dirEntries_ok hground.target [48] rootKey
  exact ⟨entries, (readDir_safe_iff rfl hroot hdir hentries (by decide) (by decide)).mpr (.inr (.inr (by decide)))⟩

/-- From the second of three entries on, as many as there can be. -/
theorem readDir_panics :
    ((Store.boot 0).afterAll listedCalls).readDir [48] 1 (2 ^ 63 - 1) = .error .panicked := by
  decide +kernel

end Sandstore.Metadata
