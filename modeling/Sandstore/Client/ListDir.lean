import Sandstore.Client.Open
import Sandstore.Lib.Pages
import Sandstore.Metadata.Listing

/-!
# Listing a directory that changes

`ListDir` asks for a directory a hundred entries at a time. What it hands back to the server to go on is a
position, and the server builds the list anew for every request. So an entry that somebody creates before the
position shows an old one again, and one that is removed before it hides one that was to come.

The requests of one call meet the buckets one after the other (`viewAt`), with any creates and removes in the
directory between them. `listPages_collected` is what the loop returns whatever happens: the pages that
`Lib.collected` cuts out of the names of each moment. **The law** (`listDir_exact`) is that the loop ends and
returns every name exactly once that is there all the time, provided that the directory does not grow without end
and that whenever a page is asked for as many names come before the position as have been returned
(`Lib.Steady`).
-/

namespace Sandstore.Client

open Lib Metadata
open Raft (Byte Bytes Err)

/-! ## The client -/

inductive ListDirError where
  | path (err : PathError)
  | lookupFailed (path : Bytes) (err : Err) -- "lookup %q failed: %w"
  | request (path : Bytes) (err : Err) -- "listdir %q failed: %w"
  | response (path : Bytes) (code : SandCode) -- responseError("listdir", …)
  deriving DecidableEq, Repr

/-- The loop of `ListDir` for so many requests, the `i`-th of which meets `view i`. -/
def listPages (view : Nat → Store) (cleanPath inodeID : Bytes) :
    Nat → Nat → Int → List DirEntry → Option (Except ListDirError (List DirEntry))
  | 0, _, _, _ => none
  | requests + 1, i, cookie, allEntries =>
    match send (respond ((view i).readDir inodeID cookie 100)) with
    | .error err => some (.error (.request cleanPath err))
    | .ok (.failed code _) => some (.error (.response cleanPath code))
    | .ok (.ok (entries, next, eof)) =>
      if eof then some (.ok (allEntries ++ entries))
      else listPages view cleanPath inodeID requests (i + 1) next (allEntries ++ entries)

/-- `ListDir`, where it gets by with so many requests for entries. The path is looked up in `view 0`. -/
def listDir (trimSpace : Bytes → Bytes) (view : Nat → Store) (path : Bytes) (requests : Nat) :
    Option (Except ListDirError (List DirEntry)) :=
  match normalizePath trimSpace path with
  | .error err => some (.error (.path err))
  | .ok cleanPath =>
    match send (respond ((view 0).lookupPath cleanPath)) with
    | .error err => some (.error (.lookupFailed cleanPath err))
    | .ok (.failed code _) => some (.error (.response cleanPath code))
    | .ok (.ok inodeID) => listPages (fun i => view (i + 1)) cleanPath inodeID requests 0 0 []

theorem listDir_of_lookup {trimSpace : Bytes → Bytes} {view : Nat → Store} {path cleanPath inodeID : Bytes}
    (hpath : normalizePath trimSpace path = .ok cleanPath) (hlookup : (view 0).lookupPath cleanPath = .ok inodeID)
    (requests : Nat) :
    listDir trimSpace view path requests = listPages (fun i => view (i + 1)) cleanPath inodeID requests 0 0 [] := by
  simp only [listDir, hpath, hlookup]
  rfl

/-! ## What it returns -/

/-- The names in a directory. -/
def names (st : Store) (key : Bytes) : List Bytes := (Bucket.scan st.dentries key).map fun e => e.1.drop key.length

theorem page_batch (entries : List DirEntry) (cookie : Nat) {size : Nat} (hsize : 0 < size)
    (hroom : entries.length + size < 2 ^ 63) : Store.page entries cookie size =
      if entries.length ≤ cookie + size then some (entries.drop cookie, (max entries.length cookie : Int), true)
      else some ((entries.drop cookie).take size, ((cookie + size : Nat) : Int), false) := by
  have hcookie : max (cookie : Int) 0 = cookie := by omega
  by_cases hend : entries.length ≤ cookie
  · rw [page_eq rfl, hcookie, if_pos (by omega), if_pos (by omega), List.drop_of_length_le hend, max_eq_right (by omega)]
  · have hstop : (if (size : Int) ≤ 0 then (entries.length : Int) else (max (cookie : Int) 0 + size).bmod (2 ^ 64)) =
        ((cookie + size : Nat) : Int) := by
      rw [if_neg (by omega), hcookie, bmod_of_lt (by omega) (by omega)]
      rfl
    rw [page_eq hstop, hcookie, Int.toNat_natCast, if_neg (by omega), if_neg (by omega)]
    by_cases hlast : entries.length ≤ cookie + size
    · rw [if_pos hlast, min_eq_right (by omega), List.take_of_length_le (by rw [List.length_drop]; omega),
        max_eq_left (by omega), decide_eq_true rfl]
    · have htake : (((cookie + size : Nat) : Int) - cookie).toNat = size := by omega
      rw [if_neg hlast, min_eq_left (by omega), htake, decide_eq_false (by omega)]

section Loop

variable {view : Nat → Store} {inodeID key : Bytes}

theorem readDir_batch {st : Store} {dir : Inode} (hkey : encodeInodeKey "inode id" inodeID = .ok key)
    (hget : st.inodes.get key = some dir) (hdir : dir.type = .directory)
    (htarget : ∀ k c, st.dentries.get k = some c → ∃ inode, st.inodes.get c = some inode)
    (hroom : (names st key).length + 100 < 2 ^ 63) (cookie : Nat) :
    ∃ entries : List DirEntry, entries.map (·.name) = names st key ∧ st.readDir inodeID cookie 100 =
      if entries.length ≤ cookie + 100 then .ok (entries.drop cookie, (max entries.length cookie : Int), true)
      else .ok ((entries.drop cookie).take 100, ((cookie + 100 : Nat) : Int), false) := by
  obtain ⟨entries, hentries⟩ := dirEntries_ok htarget inodeID key
  have hnames : entries.map (·.name) = names st key := name_of_dirEntry hentries
  have hlength : entries.length = (names st key).length := by rw [← hnames, List.length_map]
  refine ⟨entries, hnames, ?_⟩
  have hpage := page_batch entries cookie (Nat.succ_pos 99) (by omega)
  rw [readDir_of_dirEntries hkey hget hdir hentries, show (100 : Int) = ((100 : Nat) : Int) from rfl, hpage]
  split <;> rfl

/-- **What the loop returns** is what the pages cut out of the names that each request meets. -/
theorem listPages_collected (cleanPath : Bytes) (hkey : encodeInodeKey "inode id" inodeID = .ok key)
    (hdir : ∀ i, ∃ dir, (view i).inodes.get key = some dir ∧ dir.type = .directory)
    (htarget : ∀ i k c, (view i).dentries.get k = some c → ∃ inode, (view i).inodes.get c = some inode)
    (hroom : ∀ i, (names (view i) key).length + 100 < 2 ^ 63) {last : Nat}
    (hmore : Unfinished 100 (fun i => names (view i) key) last)
    (hlast : (names (view last) key).length ≤ 100 * (last + 1)) :
    ∃ entries, listPages view cleanPath inodeID (last + 1) 0 0 [] = some (.ok entries) ∧
      entries.map (·.name) = collected 100 (fun i => names (view i) key) last := by
  -- by induction on the number of requests that are still to come
  have hgo : ∀ rest i (all : List DirEntry), i + rest = last → all.map (·.name) = shown 100 (fun i => names (view i) key) i →
      ∃ entries, listPages view cleanPath inodeID (rest + 1) i ((100 * i : Nat) : Int) all = some (.ok entries) ∧
        entries.map (·.name) = collected 100 (fun i => names (view i) key) last := by
    intro rest
    induction rest with
    | zero =>
      intro i all hi hall
      obtain rfl : i = last := hi
      obtain ⟨dir, hget, hisDir⟩ := hdir i
      obtain ⟨entries, hnames, hread⟩ := readDir_batch hkey hget hisDir (htarget i) (hroom i) (100 * i)
      have hend : entries.length ≤ 100 * i + 100 := by
        rw [← hnames, List.length_map] at hlast
        omega
      rw [if_pos hend] at hread
      refine ⟨all ++ entries.drop (100 * i), ?_, ?_⟩
      · rw [listPages, hread]
        rfl
      · rw [List.map_append, hall, List.map_drop, hnames]
        rfl
    | succ rest ih =>
      intro i all hi hall
      obtain ⟨dir, hget, hisDir⟩ := hdir i
      obtain ⟨entries, hnames, hread⟩ := readDir_batch hkey hget hisDir (htarget i) (hroom i) (100 * i)
      have hgoes : ¬ entries.length ≤ 100 * i + 100 := by
        have hlong : 100 * (i + 1) < (names (view i) key).length := hmore i (by omega)
        rw [← hnames, List.length_map] at hlong
        omega
      rw [if_neg hgoes] at hread
      have hnext := ih (i + 1) (all ++ (entries.drop (100 * i)).take 100) (by omega) (by
        rw [List.map_append, hall, List.map_take, List.map_drop, hnames, shown_succ])
      obtain ⟨result, hresult, hcollected⟩ := hnext
      refine ⟨result, ?_, hcollected⟩
      rw [listPages, hread]
      exact hresult
  exact hgo last 0 [] (Nat.zero_add last) rfl

end Loop

/-! ## The moments of a call -/

/-- What has been applied when the `i`-th request is served. -/
def callsUpTo (before : List (Int × Command)) (between : Nat → List (Int × Command)) : Nat → List (Int × Command)
  | 0 => before
  | i + 1 => callsUpTo before between i ++ between i

def viewAt (now : Int) (before : List (Int × Command)) (between : Nat → List (Int × Command)) (i : Nat) : Store :=
  (Store.boot now).afterAll (callsUpTo before between i)

/-- A create or a remove in a directory. -/
def InDirectory (key : Bytes) (data : Command) : Prop :=
  ∃ op chunkIntent, data = some ⟨.posixMeta, some op, chunkIntent⟩ ∧ (op.type = .create ∨ op.type = .remove) ∧
    encodeInodeKey "inode id" op.parentID = .ok key

/-- The directory is there. -/
def IsDirectory (st : Store) (key : Bytes) : Prop := ∃ dir, st.inodes.get key = some dir ∧ dir.type = .directory

variable {st : Store} {key : Bytes}

/-- Whatever is created or removed in a directory, the directory stays. -/
theorem isDirectory_afterAll (h : IsDirectory st key) (calls : List (Int × Command))
    (hin : ∀ c ∈ calls, InDirectory key c.2) : IsDirectory (st.afterAll calls) key := by
  refine afterAll_induct (I := fun st => IsDirectory st key) h calls ?_
  intro st now data st' ⟨dir, hget, hdir⟩ hc happlied
  obtain ⟨op, chunkIntent, rfl, htype, hkey⟩ := hin _ hc
  cases happlied with
  | create _ _ _ parentKey childKey parent hparentKey _ hparent hparentDir =>
    cases hkey.symm.trans (encodeInodeKey_as _ hparentKey)
    exact ⟨_, (addDentry_inodes st op key childKey parent key).trans (if_pos rfl), hparentDir⟩
  | remove _ _ _ parentKey childKey parent child hparentKey _ hparent =>
    cases hkey.symm.trans (encodeInodeKey_as _ hparentKey)
    cases hget.symm.trans hparent
    exact ⟨_, (dropDentry_inodes st op key childKey dir child key).trans (if_pos rfl), hdir⟩
  | rename _ _ hrename => simp [hrename] at htype
  | setAttr _ _ hset => simp [hset] at htype
  | updateInode _ _ hupdate => simp [hupdate] at htype

theorem viewAt_succ (now : Int) (before : List (Int × Command)) (between : Nat → List (Int × Command)) (i : Nat) :
    viewAt now before between (i + 1) = (viewAt now before between i).afterAll (between i) := by
  rw [viewAt, callsUpTo, Store.afterAll, List.foldl_append]
  rfl

section Moments

variable {now : Int} {before : List (Int × Command)} {between : Nat → List (Int × Command)} {key : Bytes}

theorem isDirectory_viewAt (h : IsDirectory (viewAt now before between 0) key)
    (hin : ∀ i, ∀ c ∈ between i, InDirectory key c.2) (i : Nat) : IsDirectory (viewAt now before between i) key := by
  induction i with
  | zero => exact h
  | succ i ih =>
    rw [viewAt_succ]
    exact isDirectory_afterAll ih (between i) (hin i)

/-- **Listing a directory that changes.** Whatever is created and removed in a directory while it is listed, if the
directory does not grow without end and no page finds the position displaced, then the loop ends, and every name
that is there at each request is returned exactly once. -/
theorem listDir_exact (hnew : ∀ i, (createdNumbers (callsUpTo before between i)).Nodup)
    (hroot : ∀ i, 0 ∉ createdNumbers (callsUpTo before between i)) {trimSpace : Bytes → Bytes}
    {path cleanPath inodeID : Bytes} (hpath : normalizePath trimSpace path = .ok cleanPath)
    (hlookup : (viewAt now before between 0).lookupPath cleanPath = .ok inodeID)
    (hkey : encodeInodeKey "inode id" inodeID = .ok key) (hdir : IsDirectory (viewAt now before between 0) key)
    (hin : ∀ i, ∀ c ∈ between i, InDirectory key c.2) (bound : Nat)
    (hbound : ∀ i, (names (viewAt now before between (i + 1)) key).length ≤ bound) (hroom : bound + 100 < 2 ^ 63)
    (hsteady : Steady 100 fun i => names (viewAt now before between (i + 1)) key) :
    ∃ requests entries, listDir trimSpace (viewAt now before between) path requests = some (.ok entries) ∧
      ∀ name, (∀ i ≤ requests, name ∈ names (viewAt now before between i) key) →
        (entries.map (·.name)).count name = 1 := by
  have htarget : ∀ i k c, (viewAt now before between i).dentries.get k = some c →
      ∃ inode, (viewAt now before between i).inodes.get c = some inode := by
    intro i
    exact (grounded_afterAll now (callsUpTo before between i) (hnew i) (hroot i)).target
  have hsorted : ∀ i, (names (viewAt now before between (i + 1)) key).Pairwise (· < ·) :=
    fun i => scan_names_sorted _ key
  obtain ⟨last, hmore, hlast⟩ := ends (Nat.succ_pos 99) hbound
  have hroom' : ∀ i, (names (viewAt now before between (i + 1)) key).length + 100 < 2 ^ 63 := by
    intro i
    have := hbound i
    omega
  obtain ⟨entries, hpages, hcollected⟩ := listPages_collected cleanPath hkey
    (fun i => isDirectory_viewAt hdir hin (i + 1)) (fun i => htarget (i + 1)) hroom' hmore hlast
  refine ⟨last + 1, entries, ?_, ?_⟩
  · rw [listDir_of_lookup hpath hlookup]
    exact hpages
  · intro name hname
    rw [hcollected]
    have hnodup : (collected 100 (fun i => names (viewAt now before between (i + 1)) key) last).Nodup :=
      (collected_sorted hsteady hsorted hmore).imp fun hlt => ne_of_lt hlt
    refine List.count_eq_one_of_mem hnodup (mem_collected hsteady hsorted hmore ?_)
    intro i hi
    exact hname (i + 1) (Nat.succ_le_succ hi)

end Moments

/-! ## A name that is hidden -/

/-- The names `aa`, `ab` and so on. -/
def fileName (i : Nat) : Bytes := [Fin.ofNat 256 (97 + i / 26), Fin.ofNat 256 (97 + i % 26)]

def createFile (i : Nat) : Int × Command :=
  (0, replicateOp (createOp (formatUint (i + 1)) [48] (fileName i) .file 0o644 0 0) 0)

/-- So many files in the root directory. -/
def manyFiles (n : Nat) : List (Int × Command) := (List.range n).map createFile

theorem manyFiles_succ (n : Nat) : manyFiles n ++ [createFile n] = manyFiles (n + 1) := by
  rw [manyFiles, manyFiles, List.range_succ, List.map_append]
  rfl

theorem fileName_lt {i j : Nat} (hij : i < j) (hj : j < 676) : fileName i < fileName j := by
  have hval : ∀ k, k < 26 → (Fin.ofNat 256 (97 + k)).val = 97 + k := fun k hk => Nat.mod_eq_of_lt (by omega)
  have hi26 := hval (i / 26) (by omega)
  have hj26 := hval (j / 26) (by omega)
  have him := hval (i % 26) (by omega)
  have hjm := hval (j % 26) (by omega)
  rw [fileName, fileName, List.cons_lt_cons_iff, Fin.lt_def, Fin.ext_iff, hi26, hj26, List.cons_lt_cons_iff,
    Fin.lt_def, him, hjm]
  omega

theorem fileNames_sorted {l : List Nat} (hl : l.Pairwise (· < ·)) (hfew : ∀ i ∈ l, i < 676) :
    (l.map fileName).Pairwise (· < ·) := by
  rw [List.pairwise_map]
  refine hl.imp_of_mem ?_
  intro i j _ hj hij
  exact fileName_lt hij (hfew j hj)

theorem fileName_inj {i j : Nat} (hi : i < 676) (hj : j < 676) (h : fileName i = fileName j) : i = j := by
  rcases Nat.lt_trichotomy i j with hlt | heq | hgt
  · exact absurd (h ▸ fileName_lt hlt hj) (lt_irrefl _)
  · exact heq
  · exact absurd (h ▸ fileName_lt hgt hi) (lt_irrefl _)

variable {n : Nat}

theorem createdNumbers_manyFiles (hn : n < 676) : createdNumbers (manyFiles n) = (List.range n).map (· + 1) := by
  induction n with
  | zero => rfl
  | succ n ih =>
    have hnumber : createdNumber (createFile n).2 = some (n + 1) := by
      show (if OpType.create = OpType.create then parseUint (formatUint (n + 1)) else none) = some (n + 1)
      rw [if_pos rfl, parseUint_formatUint (by omega)]
    rw [← manyFiles_succ, createdNumbers_append, hnumber, ih (by omega), List.range_succ, List.map_append]
    rfl

theorem manyFiles_new (hn : n < 676) : (createdNumbers (manyFiles n)).Nodup ∧ 0 ∉ createdNumbers (manyFiles n) := by
  rw [createdNumbers_manyFiles hn]
  exact ⟨List.nodup_range.map fun _ _ h => Nat.succ.inj h, by simp⟩

theorem grounded_manyFiles (hn : n < 676) :
    Grounded (createdNumbers (manyFiles n)) ((Store.boot 0).afterAll (manyFiles n)) :=
  grounded_afterAll 0 _ (manyFiles_new hn).1 (manyFiles_new hn).2

theorem mem_names {name : Bytes} :
    name ∈ names st key ↔ ∃ c, st.dentries.get (encodeDentryKey key name) = some c := by
  rw [names, List.mem_map]
  constructor
  · intro ⟨e, he, hname⟩
    obtain ⟨hget, rest, hrest⟩ := mem_scan.mp he
    rw [← hrest, List.drop_left] at hname
    exact ⟨e.2, by rw [← hname, encodeDentryKey, hrest, hget]⟩
  · intro ⟨c, hget⟩
    exact ⟨(encodeDentryKey key name, c), mem_scan.mpr ⟨hget, List.prefix_append _ _⟩, List.drop_left⟩

theorem names_eq {l : List Bytes} (hl : l.Pairwise (· < ·)) (hmem : ∀ name, name ∈ names st key ↔ name ∈ l) :
    names st key = l := List.Pairwise.eq_of_mem_iff (scan_names_sorted st.dentries key) hl hmem

theorem mem_names_createFile {root : Inode} (hroot : st.inodes.get rootKey = some root)
    (hdir : root.type = .directory) (hn : n + 1 < 2 ^ 64) (hfree : fileName n ∉ names st rootKey) (name : Bytes) :
    name ∈ names (st.after (createFile n).1 (createFile n).2) rootKey ↔ name = fileName n ∨ name ∈ names st rootKey := by
  have hfree := Option.eq_none_iff_forall_ne_some.mpr fun c hc => hfree (mem_names.mpr ⟨c, hc⟩)
  have hparentKey : encodeInodeKey "parent inode id" [48] = .ok rootKey := rfl
  have hchildKey : encodeInodeKey "child inode id" (formatUint (n + 1)) = .ok (uint64BE (n + 1)) := by
    rw [encodeInodeKey, parseUint_formatUint hn]
  have hdentries : (st.after (createFile n).1 (createFile n).2).dentries =
      st.dentries.insert (encodeDentryKey rootKey (fileName n)) (uint64BE (n + 1)) := by
    simp only [createFile, replicateOp, createOp, Store.after, Store.applyTransaction, Store.applyStandardMetadata,
      Store.applyCreate, hparentKey, hchildKey, loadStoredInode_of_get hroot, bind, Except.bind, hdir, hfree]
    rfl
  rw [mem_names, mem_names, hdentries, OrdMap.get_insert]
  split
  · next hname => simp [List.append_cancel_left hname]
  · next hother =>
    have hne : name ≠ fileName n := fun heq => hother (congrArg _ heq)
    simp [hne]

/-- The first of the files is removed. -/
def removeFirst : Int × Command := (0, replicateOp (removeOp [48] (fileName 0)) 0)

theorem mem_names_removeFirst {root child : Inode} {childKey : Bytes} (hroot : st.inodes.get rootKey = some root)
    (hentry : st.dentries.get (encodeDentryKey rootKey (fileName 0)) = some childKey)
    (hchild : st.inodes.get childKey = some child) (name : Bytes) :
    name ∈ names (st.after removeFirst.1 removeFirst.2) rootKey ↔ name ≠ fileName 0 ∧ name ∈ names st rootKey := by
  have hparentKey : encodeInodeKey "parent inode id" [48] = .ok rootKey := rfl
  have hdentries : (st.after removeFirst.1 removeFirst.2).dentries =
      st.dentries.erase (encodeDentryKey rootKey (fileName 0)) := by
    simp only [removeFirst, replicateOp, removeOp, Store.after, Store.applyTransaction, Store.applyStandardMetadata,
      Store.applyRemove, hparentKey, loadStoredInode_of_get hroot, loadStoredInode_of_get hchild, bind, Except.bind,
      hentry]
    rfl
  rw [mem_names, mem_names, hdentries, OrdMap.get_erase]
  split
  · next hname => simp [List.append_cancel_left hname]
  · next hother =>
    have hne : name ≠ fileName 0 := fun heq => hother (congrArg _ heq)
    simp [hne]

theorem names_manyFiles (hn : n < 676) :
    names ((Store.boot 0).afterAll (manyFiles n)) rootKey = (List.range n).map fileName := by
  induction n with
  | zero => rfl
  | succ n ih =>
    have ih := ih (by omega)
    obtain ⟨root, hroot, hdir⟩ := (grounded_manyFiles (n := n) (by omega)).root
    have hfree : fileName n ∉ names ((Store.boot 0).afterAll (manyFiles n)) rootKey := by
      rw [ih, List.mem_map]
      rintro ⟨i, hi, heq⟩
      have hlt := List.mem_range.mp hi
      have := fileName_inj (by omega) (by omega) heq
      omega
    refine names_eq (fileNames_sorted List.pairwise_lt_range fun i hi => ?_) fun name => ?_
    · have := List.mem_range.mp hi
      omega
    · rw [← manyFiles_succ, afterAll_snoc, mem_names_createFile hroot hdir (by omega) hfree, ih, List.range_succ,
        List.map_append, List.mem_append, or_comm]
      simp

/-- One call between the first page and the second. -/
def afterFirstPage (call : Int × Command) (i : Nat) : List (Int × Command) := if i = 1 then [call] else []

theorem callsUpTo_afterFirstPage (before : List (Int × Command)) (call : Int × Command) (i : Nat) :
    callsUpTo before (afterFirstPage call) i = if i ≤ 1 then before else before ++ [call] := by
  induction i with
  | zero => rfl
  | succ i ih =>
    rw [callsUpTo, ih, afterFirstPage]
    by_cases hzero : i = 0
    · subst hzero
      exact List.append_nil before
    · by_cases hone : i = 1
      · subst hone
        rfl
      · rw [if_neg (by omega), if_neg hone, if_neg (by omega), List.append_nil]

theorem lookupPath_root (now : Int) (calls : List (Int × Command)) :
    ((Store.boot now).afterAll calls).lookupPath [47] = .ok [48] := by
  simp only [Store.lookupPath, Store.loadSuperblock, superblock_afterAll, bind, Except.bind, if_pos]
  rfl

theorem listDir_exact_growing :
    ∃ requests entries,
      listDir id (viewAt 0 (manyFiles 101) (afterFirstPage (createFile 101))) [47] requests = some (.ok entries) ∧
      ∀ name, (∀ i ≤ requests,
          name ∈ names (viewAt 0 (manyFiles 101) (afterFirstPage (createFile 101)) i) rootKey) →
        (entries.map (·.name)).count name = 1 := by
  have hcalls : ∀ i, callsUpTo (manyFiles 101) (afterFirstPage (createFile 101)) i =
      manyFiles (if i ≤ 1 then 101 else 102) := by
    intro i
    rw [callsUpTo_afterFirstPage]
    split
    · rfl
    · exact manyFiles_succ 101
  have hfew : ∀ i, (if i ≤ 1 then 101 else 102) < 676 := by
    intro i
    split <;> decide
  have hnames : ∀ i, names (viewAt 0 (manyFiles 101) (afterFirstPage (createFile 101)) (i + 1)) rootKey =
      (List.range (if i + 1 ≤ 1 then 101 else 102)).map fileName := by
    intro i
    rw [viewAt, hcalls, names_manyFiles (hfew (i + 1))]
  refine listDir_exact ?_ ?_ rfl (lookupPath_root 0 _) rfl ?_ ?_ 102 ?_ (by decide) ?_
  · intro i
    rw [hcalls]
    exact (manyFiles_new (hfew i)).1
  · intro i
    rw [hcalls]
    exact (manyFiles_new (hfew i)).2
  · exact (grounded_manyFiles (by decide)).root
  · intro i c hc
    rw [afterFirstPage] at hc
    split at hc
    · rw [List.mem_singleton.mp hc]
      exact ⟨_, _, rfl, .inl rfl, rfl⟩
    · exact absurd hc List.not_mem_nil
  · intro i
    rw [hnames, List.length_map, List.length_range]
    split <;> omega
  · rw [funext hnames]
    intro i hmore
    rcases i with _ | _ | i
    · simp [shown]
    · -- the second page meets the names of the first and one more at the end
      have hsorted : ((List.range 102).map fileName).Pairwise (· < ·) := by
        refine fileNames_sorted List.pairwise_lt_range fun i hi => ?_
        have := List.mem_range.mp hi
        omega
      exact countP_take hsorted (n := 100) (by simp)
    · have hlong := hmore 1 (by omega)
      rw [List.length_map, List.length_range] at hlong
      simp at hlong

theorem names_removeFirst : names (((Store.boot 0).afterAll (manyFiles 101)).after removeFirst.1 removeFirst.2) rootKey =
    (List.range' 1 100).map fileName := by
  have hground := grounded_manyFiles (n := 101) (by decide)
  have hbefore := names_manyFiles (n := 101) (by decide)
  obtain ⟨root, hroot, _⟩ := hground.root
  obtain ⟨c, hfirst⟩ := mem_names.mp (hbefore ▸ List.mem_map_of_mem (List.mem_range.mpr (Nat.succ_pos 100)))
  obtain ⟨child, hchild⟩ := hground.target _ _ hfirst
  have hsorted : ((List.range' 0 101).map fileName).Pairwise (· < ·) :=
    fileNames_sorted List.pairwise_lt_range' fun i hi => by have := List.mem_range'_1.mp hi; omega
  rw [List.range'_succ, List.map_cons, List.pairwise_cons] at hsorted
  refine names_eq hsorted.2 fun name => ?_
  rw [mem_names_removeFirst hroot hfirst hchild, hbefore, List.range_eq_range', List.range'_succ, List.map_cons,
    List.mem_cons]
  constructor
  · intro ⟨hne, hmem⟩
    exact hmem.resolve_left hne
  · intro hmem
    exact ⟨(hsorted.1 name hmem).ne', .inr hmem⟩

/-- The directory has 101 names when the first page is read. Then the first name is removed: the second page
finds 100 names and nothing behind the position, and the last name, which has been there all the time, is not
returned. -/
theorem listDir_skips :
    ∃ entries, listDir id (viewAt 0 (manyFiles 101) (afterFirstPage removeFirst)) [47] 2 = some (.ok entries) ∧
      (∀ i, fileName 100 ∈ names (viewAt 0 (manyFiles 101) (afterFirstPage removeFirst) i) rootKey) ∧
      fileName 100 ∉ entries.map (·.name) := by
  generalize hview : viewAt 0 (manyFiles 101) (afterFirstPage removeFirst) = view
  have hnames : ∀ i, names (view i) rootKey =
      if i ≤ 1 then (List.range 101).map fileName else (List.range' 1 100).map fileName := by
    intro i
    rw [← hview, viewAt, callsUpTo_afterFirstPage]
    split
    · exact names_manyFiles (by decide)
    · rw [afterAll_snoc, names_removeFirst]
  have hnumbers : ∀ i, createdNumbers (callsUpTo (manyFiles 101) (afterFirstPage removeFirst) i) =
      (List.range 101).map (· + 1) := by
    intro i
    rw [callsUpTo_afterFirstPage, ← createdNumbers_manyFiles (by decide)]
    split
    · rfl
    · have hnone : createdNumber removeFirst.2 = none := rfl
      rw [createdNumbers_append, hnone, Option.toList_none, List.append_nil]
  have hground : ∀ i, Grounded ((List.range 101).map (· + 1)) (view i) := by
    intro i
    rw [← hnumbers i, ← hview]
    apply grounded_afterAll
    · rw [hnumbers]
      decide +kernel
    · rw [hnumbers]
      decide +kernel
  have hmore : Unfinished 100 (fun i => names (view (i + 1)) rootKey) 1 := by
    intro i hi
    obtain rfl : i = 0 := by omega
    simp only [hnames]
    decide
  have hlast : (names (view (1 + 1)) rootKey).length ≤ 100 * (1 + 1) := by
    rw [hnames]
    decide
  have hroom : ∀ i, (names (view (i + 1)) rootKey).length + 100 < 2 ^ 63 := by
    intro i
    rw [hnames]
    split <;> simp
  have hkey : encodeInodeKey "inode id" [48] = .ok rootKey := rfl
  obtain ⟨entries, hpages, hcollected⟩ := listPages_collected [47] hkey (fun i => (hground (i + 1)).root)
    (fun i => (hground (i + 1)).target) hroom hmore hlast
  refine ⟨entries, ?_, ?_, ?_⟩
  · have hlookup : (view 0).lookupPath [47] = .ok [48] := hview ▸ lookupPath_root 0 (manyFiles 101)
    rw [listDir_of_lookup rfl hlookup]
    exact hpages
  · intro i
    rw [hnames]
    split
    · exact List.mem_map.mpr ⟨100, by simp, rfl⟩
    · exact List.mem_map.mpr ⟨100, by simp, rfl⟩
  · -- the first page has the first hundred names, and the second page none
    have hshown : collected 100 (fun i => names (view (i + 1)) rootKey) 1 = (List.range 100).map fileName := by
      simp only [collected, shown_succ, hnames]
      rfl
    rw [hcollected, hshown]
    intro hmem
    obtain ⟨i, hi, heq⟩ := List.mem_map.mp hmem
    have hlt := List.mem_range.mp hi
    have := fileName_inj (by omega) (by omega) heq
    omega

end Sandstore.Client
