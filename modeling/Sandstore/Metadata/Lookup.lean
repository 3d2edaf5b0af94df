import Sandstore.Metadata.Reads

/-!
# Reading the namespace

`Lookup`, `LookupPath`, `ReadDir`, `GetAttributes`, `GetFsStat`, `GetFsInfo` and the emptiness test
of `Rmdir`, each as the read-only transaction it is, for a context that is not done.

A dentry holds the eight bytes of an inode number, and the reads that answer an ID write that number in
decimal. `encodeInodeKey_formatUint` is the round trip: the ID that a read answers leads back to the key
it was read from.
-/

namespace Sandstore.Metadata

open Lib
open Raft (Byte Bytes Err)

/-! ## Inode IDs -/

/-- The decimal digits of a number that has at most this many. -/
def formatDigits : Nat → Nat → Bytes
  | 0, _ => []
  | digits + 1, n =>
    if n < 10 then [Fin.ofNat 256 (48 + n)]
    else formatDigits digits (n / 10) ++ [Fin.ofNat 256 (48 + n % 10)]

/-- `strconv.FormatUint(n, 10)`: a `uint64` has at most twenty digits. -/
def formatUint (n : Nat) : Bytes := formatDigits 20 n

/-- `decodeInodeID`, with the two names its callers' errors give. -/
def decodeInodeID (parent name key : Bytes) : Except Err Bytes :=
  if key.length ≠ 8 then .error (.decodeChild parent name key.length)
  else .ok (formatUint (uint64OfBE key))

/-! ## What the reads answer -/

structure DirEntry where
  name : Bytes
  inodeID : Bytes
  type : InodeType
  deriving DecidableEq, Repr

structure Attributes where
  inodeID : Bytes
  type : InodeType
  mode : Nat
  size : Int
  accessTime : Int
  modifyTime : Int
  changeTime : Int
  uid : Nat
  gid : Nat
  deriving DecidableEq, Repr

structure FileSystemStats where
  totalSpace : Int
  usedSpace : Int
  totalInodes : Int
  usedInodes : Int
  blockSize : Int
  deriving DecidableEq, Repr

structure FileSystemInfo where
  fsID : Bytes
  maxFileSize : Int
  maxFilenameSize : Int
  chunkSize : Int
  deriving DecidableEq, Repr

/-- The attributes `GetAttributes` takes from an inode. -/
def Inode.attributes (inode : Inode) : Attributes where
  inodeID := inode.inodeID
  type := inode.type
  mode := inode.mode
  size := inode.fileSize
  accessTime := inode.accessTime
  modifyTime := inode.modifyTime
  changeTime := inode.changeTime
  uid := inode.ownerUID
  gid := inode.ownerGID

namespace Store

def lookup (st : Store) (parentInodeID name : Bytes) : Except Err Bytes := do
  let parentKey ← encodeInodeKey "parent inode id" parentInodeID
  let parent ← st.loadStoredInode parentKey
  if parent.type ≠ .directory then .error .notDir
  else
    match st.dentries.get (encodeDentryKey parentKey name) with
    | none => .error .notFound
    | some childKey => decodeInodeID parentInodeID name childKey

def getAttributes (st : Store) (inodeID : Bytes) : Except Err Attributes := do
  let inodeKey ← encodeInodeKey "inode id" inodeID
  let inode ← st.loadStoredInode inodeKey
  return inode.attributes

def loadSuperblock (st : Store) : Except Err Superblock :=
  match st.superblock with
  | some superblock => .ok superblock
  | none => .error .notFound

def getFsStat (st : Store) : Except Err FileSystemStats := do
  let superblock ← st.loadSuperblock
  return {
    totalSpace := superblock.maxFileSize
    usedSpace := 0
    totalInodes := superblock.maxFileSize
    usedInodes := st.inodes.entries.length
    blockSize := superblock.chunkSize }

def getFsInfo (st : Store) : Except Err FileSystemInfo := do
  let superblock ← st.loadSuperblock
  return {
    fsID := superblock.fsID
    maxFileSize := superblock.maxFileSize
    maxFilenameSize := superblock.maxFilenameSize
    chunkSize := superblock.chunkSize }

/-- One round of `LookupPath`'s loop. -/
def walk (st : Store) (path currentID part : Bytes) : Except Err Bytes :=
  if part = [] ∨ part = [46] then .ok currentID
  else do
    let currentKey ← encodeInodeKey "inode id" currentID
    let inode ← st.loadStoredInode currentKey
    if inode.type ≠ .directory then .error .notDir
    else
      match st.dentries.get (encodeDentryKey currentKey part) with
      | none => .error .notFound
      | some childKey => decodeInodeID path part childKey

/-- `strings.Trim(path, "/")`. -/
def trimSlashes (path : Bytes) : Bytes :=
  ((path.dropWhile (· = 47)).reverse.dropWhile (· = 47)).reverse

def lookupPath (st : Store) (path : Bytes) : Except Err Bytes := do
  let superblock ← st.loadSuperblock
  if path = [47] then .ok superblock.rootInodeID
  else ((trimSlashes path).splitOn 47).foldlM (st.walk path) superblock.rootInodeID

/-- The loop of `ReadDir` over the cursor. -/
def dirEntries (st : Store) (inodeID parentKey : Bytes) : Except Err (List DirEntry) :=
  (Bucket.scan st.dentries parentKey).mapM fun e =>
    match st.inodes.get e.2 with
    | none => .error (.missingChild inodeID (e.1.drop parentKey.length))
    | some child => .ok ⟨e.1.drop parentKey.length, child.inodeID, child.type⟩

/-- The slice of the entries that `ReadDir` answers, with the next cookie and whether it is the end, or nothing
where `entries[cookie:end]` panics. -/
def page (entries : List DirEntry) (cookie maxEntries : Int) : Option (List DirEntry × Int × Bool) :=
  let cookie := if cookie < 0 then 0 else cookie
  if cookie ≥ entries.length then some ([], cookie, true)
  else
    -- for a `maxEntries` that is not positive the sum is `cookie + (len(entries) - cookie)`; any other can wrap
    let last := if maxEntries ≤ 0 then (entries.length : Int) else (cookie + maxEntries).bmod (2 ^ 64)
    let last := if last > entries.length then (entries.length : Int) else last
    if last < cookie then none
    else some ((entries.drop cookie.toNat).take (last - cookie).toNat, last, last = entries.length)

def readDir (st : Store) (inodeID : Bytes) (cookie maxEntries : Int) :
    Except Err (List DirEntry × Int × Bool) := do
  let parentKey ← encodeInodeKey "parent inode id" inodeID
  let parent ← st.loadStoredInode parentKey
  if parent.type ≠ .directory then .error .notDir
  else do
    let entries ← st.dirEntries inodeID parentKey
    match page entries cookie maxEntries with
    | some result => return result
    | none => .error .panicked

def directoryIsEmpty (st : Store) (inodeID : Bytes) : Except Err Bool := do
  let inodeKey ← encodeInodeKey "inode id" inodeID
  let inode ← st.loadStoredInode inodeKey
  if inode.type ≠ .directory then .error .notDir
  else return (Bucket.scan st.dentries inodeKey).isEmpty

end Store

/-! ## IDs lead back to their keys -/

/-- The step of `parseUint`. -/
theorem digit_ofNat {d : Nat} (h : d < 10) : digit (Fin.ofNat 256 (48 + d)) = some d := by
  have hval : (Fin.ofNat 256 (48 + d)).val = 48 + d := Nat.mod_eq_of_lt (by omega)
  rw [digit, hval, if_pos (by omega)]
  congr 1
  omega

theorem foldlM_formatDigits (digits : Nat) : ∀ n, n < 10 ^ digits →
    (formatDigits digits n).foldlM (fun n b => (digit b).map (10 * n + ·)) 0 = some n := by
  induction digits with
  | zero =>
    intro n hn
    have hzero : n = 0 := by simpa using hn
    subst hzero
    rfl
  | succ digits ih =>
    intro n hn
    rw [formatDigits]
    split
    · next hsmall =>
      simp only [List.foldlM_cons, List.foldlM_nil, digit_ofNat hsmall, Option.map_some,
        Option.bind_eq_bind, Option.bind_some]
      exact congrArg some (Nat.zero_add n)
    · have hdiv : n / 10 < 10 ^ digits := by
        rw [Nat.pow_succ] at hn
        exact Nat.div_lt_of_lt_mul (by omega)
      have hmod : n % 10 < 10 := Nat.mod_lt _ (by omega)
      rw [List.foldlM_append, ih _ hdiv]
      simp only [Option.bind_eq_bind, Option.bind_some, List.foldlM_cons, List.foldlM_nil,
        digit_ofNat hmod, Option.map_some]
      show some (10 * (n / 10) + n % 10) = some n
      congr 1
      omega

theorem formatUint_ne_nil (n : Nat) : formatUint n ≠ [] := by
  unfold formatUint formatDigits
  split <;> simp

/-- **What is printed is parsed back.** -/
theorem parseUint_formatUint {n : Nat} (h : n < 2 ^ 64) : parseUint (formatUint n) = some n := by
  have hdigits : n < 10 ^ 20 := by omega
  have hfold := foldlM_formatDigits 20 n hdigits
  unfold parseUint
  rw [if_neg (formatUint_ne_nil n), formatUint, hfold]
  simp only [if_pos h]

variable {key : Bytes}

theorem uint64OfBE_lt (h : key.length = 8) : uint64OfBE key < 2 ^ 64 := by
  match key, h with
  | [a, b, c, d, e, f, g, i], _ =>
    have := a.isLt; have := b.isLt; have := c.isLt; have := d.isLt
    have := e.isLt; have := f.isLt; have := g.isLt; have := i.isLt
    simp only [uint64OfBE, List.foldl_cons, List.foldl_nil]
    omega

theorem uint64BE_uint64OfBE (h : key.length = 8) : uint64BE (uint64OfBE key) = key := by
  match key, h with
  | [a, b, c, d, e, f, g, i], _ =>
    have := a.isLt; have := b.isLt; have := c.isLt; have := d.isLt
    have := e.isLt; have := f.isLt; have := g.isLt; have := i.isLt
    simp only [uint64BE, uint64OfBE, List.map_cons, List.map_nil, List.foldl_cons, List.foldl_nil,
      List.cons.injEq, and_true]
    refine ⟨?_, ?_, ?_, ?_, ?_, ?_, ?_, ?_⟩ <;>
    · apply Fin.ext
      simp only [Fin.ofNat]
      omega

/-- **The ID of a key leads back to the key.** -/
theorem encodeInodeKey_formatUint (what : String) (h : key.length = 8) :
    encodeInodeKey what (formatUint (uint64OfBE key)) = .ok key := by
  rw [encodeInodeKey, parseUint_formatUint (uint64OfBE_lt h)]
  dsimp only
  rw [uint64BE_uint64OfBE h]

/-! ## Where an entry leads -/

/-- There is an entry in a directory, under a name, for an inode ID. -/
def Store.Leads (st : Store) (parentID name childID : Bytes) : Prop :=
  ∃ parentKey parent childKey, encodeInodeKey "inode id" parentID = .ok parentKey ∧
    st.inodes.get parentKey = some parent ∧ parent.type = .directory ∧
    st.dentries.get (encodeDentryKey parentKey name) = some childKey ∧ childKey.length = 8 ∧
    childID = formatUint (uint64OfBE childKey)

/-- A key does not depend on what the caller's error calls the ID. -/
theorem encodeInodeKey_as {what : String} {inodeID : Bytes} (what' : String)
    (h : encodeInodeKey what inodeID = .ok key) : encodeInodeKey what' inodeID = .ok key := by
  obtain ⟨n, hn, rfl⟩ := encodeInodeKey_ok h
  simp only [encodeInodeKey, hn]

theorem loadStoredInode_of_get {st : Store} {inode : Inode} (h : st.inodes.get key = some inode) :
    st.loadStoredInode key = .ok inode := by rw [Store.loadStoredInode, h]

theorem decodeInodeID_ok_iff {parent name childID : Bytes} :
    decodeInodeID parent name key = .ok childID ↔ key.length = 8 ∧ childID = formatUint (uint64OfBE key) := by
  unfold decodeInodeID
  by_cases hlength : key.length = 8
  · rw [if_neg (not_not.mpr hlength), Except.ok.injEq]
    exact ⟨fun h => ⟨hlength, h.symm⟩, fun h => h.2.symm⟩
  · rw [if_pos hlength]
    exact iff_of_false (fun h => nomatch h) fun h => hlength h.1

theorem walk_ok_iff {st : Store} {path currentID part childID : Bytes} (hempty : part ≠ []) (hdot : part ≠ [46]) :
    st.walk path currentID part = .ok childID ↔ st.Leads currentID part childID := by
  rw [Store.walk, if_neg (not_or.mpr ⟨hempty, hdot⟩)]
  constructor
  · intro h
    obtain ⟨currentKey, hkey, h⟩ := bind_ok h
    obtain ⟨inode, hinode, h⟩ := bind_ok h
    split at h
    · cases h
    · next htype =>
      split at h
      · cases h
      · next childKey hget =>
        obtain ⟨hlength, hchild⟩ := decodeInodeID_ok_iff.mp h
        exact ⟨currentKey, inode, childKey, hkey, loadStoredInode_ok hinode, not_not.mp htype, hget, hlength, hchild⟩
  · rintro ⟨currentKey, inode, childKey, hkey, hinode, htype, hget, hlength, hchild⟩
    simp only [hkey, loadStoredInode_of_get hinode, bind, Except.bind, htype, hget]
    exact decodeInodeID_ok_iff.mpr ⟨hlength, hchild⟩

theorem lookup_ok_iff {st : Store} {parentID name childID : Bytes} :
    st.lookup parentID name = .ok childID ↔ st.Leads parentID name childID := by
  unfold Store.lookup
  constructor
  · intro h
    obtain ⟨parentKey, hkey, h⟩ := bind_ok h
    obtain ⟨parent, hparent, h⟩ := bind_ok h
    split at h
    · cases h
    · next htype =>
      split at h
      · cases h
      · next childKey hget =>
        obtain ⟨hlength, hchild⟩ := decodeInodeID_ok_iff.mp h
        exact ⟨parentKey, parent, childKey, encodeInodeKey_as _ hkey, loadStoredInode_ok hparent, not_not.mp htype,
          hget, hlength, hchild⟩
  · rintro ⟨parentKey, parent, childKey, hkey, hparent, htype, hget, hlength, hchild⟩
    simp only [encodeInodeKey_as "parent inode id" hkey, loadStoredInode_of_get hparent, bind, Except.bind, htype, hget]
    exact decodeInodeID_ok_iff.mpr ⟨hlength, hchild⟩

end Sandstore.Metadata
