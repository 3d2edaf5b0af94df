import Sandstore.Raft.Types

/-!
# The metadata service's data

Inodes, chunk descriptors, and the commands that travel in raft entries. A Go string is its bytes: the
store turns names and IDs into keys byte by byte, and the order of those keys is the order of its
cursors. Times are nanoseconds since the epoch, which is all that the gob encoding of a time keeps of
an instant.

An enumeration of the source is an integer on the wire. The names it gives are constructors here, and
`other` carries any other code, since nothing on the way checks it.

`storableInode` clears `Children` and `ChunkList` before an inode is stored, and nothing sets them on
a stored inode, so the record leaves them out. `OpID` is never read.
-/

namespace Sandstore.Metadata

open Raft (Byte Bytes Err NodeId)

inductive InodeType where
  | file
  | directory
  | other (code : Int)
  deriving DecidableEq, Repr

/-- `contract.Inode`, as `storableInode` leaves it. -/
structure Inode where
  inodeID : Bytes
  type : InodeType
  linkCount : Int
  mode : Nat
  ownerUID : Nat
  ownerGID : Nat
  accessTime : Int
  modifyTime : Int
  changeTime : Int
  fileSize : Int
  versionNumber : Int
  deriving DecidableEq, Repr

structure ChunkLocation where
  logicalNodeAlias : NodeId
  physicalEndpoint : String
  deriving DecidableEq, Repr

structure ChunkDescriptor where
  chunkID : Bytes
  locations : List ChunkLocation
  deriving DecidableEq, Repr

structure Superblock where
  fsID : Bytes
  rootInodeID : Bytes
  chunkSize : Int
  maxFilenameSize : Int
  maxFileSize : Int
  createdAt : Int
  deriving DecidableEq, Repr

/-! ## Commands -/

inductive OpType where
  | create
  | remove
  | rename
  | setAttr
  | updateInode
  | other (code : Int)
  deriving DecidableEq, Repr

/-- `MetadataOperation`. A nil pointer or slice is nothing. -/
structure MetadataOperation where
  type : OpType
  inodeID : Bytes := []
  parentID : Bytes := []
  name : Bytes := []
  fileType : InodeType := .file
  mode : Nat := 0
  uid : Nat := 0
  gid : Nat := 0
  dstParentID : Bytes := []
  dstName : Bytes := []
  setMode : Option Nat := none
  setUID : Option Nat := none
  setGID : Option Nat := none
  setATime : Option Int := none
  setMTime : Option Int := none
  newSize : Option Int := none
  newChunkList : Option (List ChunkDescriptor) := none
  timestamp : Int := 0
  deriving DecidableEq, Repr

inductive IntentState where
  | unknown
  | prepared
  | committed
  | aborted
  | other (code : Int)
  deriving DecidableEq, Repr

structure ChunkIntentOperation where
  txnID : Bytes
  chunkID : Bytes
  nodeIDs : List NodeId
  state : IntentState
  timestamp : Int
  deriving DecidableEq, Repr

inductive PayloadType where
  | posixMeta
  | chunkIntent
  | other (code : Int)
  deriving DecidableEq, Repr

structure RaftCommandEnvelope where
  type : PayloadType
  posixMeta : Option MetadataOperation := none
  chunkIntent : Option ChunkIntentOperation := none
  deriving DecidableEq, Repr

/-- What decoding a raft entry's data answers, nothing where it is not an envelope. -/
abbrev Command := Option RaftCommandEnvelope

/-! ## Keys -/

/-- The value of a decimal digit. -/
def digit (b : Byte) : Option Nat :=
  if 48 ≤ b.val ∧ b.val ≤ 57 then some (b.val - 48) else none

/-- `strconv.ParseUint(s, 10, 64)`. -/
def parseUint (s : Bytes) : Option Nat :=
  if s = [] then none
  else
    match s.foldlM (fun n b => (digit b).map (10 * n + ·)) 0 with
    | some n => if n < 2 ^ 64 then some n else none
    | none => none

/-- `binary.BigEndian.PutUint64`. -/
def uint64BE (n : Nat) : Bytes := [7, 6, 5, 4, 3, 2, 1, 0].map fun i => Fin.ofNat 256 (n / 256 ^ i)

/-- `encodeInodeKey`; `what` is how the caller's error calls the ID. -/
def encodeInodeKey (what : String) (inodeID : Bytes) : Except Err Bytes :=
  match parseUint inodeID with
  | some parsed => .ok (uint64BE parsed)
  | none => .error (.encodeInodeID what inodeID)

def encodeDentryKey (parentKey name : Bytes) : Bytes := parentKey ++ name

def encodeChunkMapKey (inodeKey : Bytes) (chunkIndex : Nat) : Bytes :=
  inodeKey ++ uint64BE chunkIndex

theorem uint64BE_length (n : Nat) : (uint64BE n).length = 8 := by simp [uint64BE]

theorem encodeInodeKey_ok {what : String} {inodeID key : Bytes} (h : encodeInodeKey what inodeID = .ok key) :
    ∃ n, parseUint inodeID = some n ∧ key = uint64BE n := by
  unfold encodeInodeKey at h
  split at h
  · next n hn =>
    cases h
    exact ⟨n, hn, rfl⟩
  · cases h

theorem parseUint_lt {inodeID : Bytes} {n : Nat} (h : parseUint inodeID = some n) : n < 2 ^ 64 := by
  unfold parseUint at h
  split at h
  · cases h
  · split at h
    · split at h
      · next hlt =>
        cases h
        exact hlt
      · cases h
    · cases h

theorem encodeInodeKey_length {what : String} {inodeID key : Bytes}
    (h : encodeInodeKey what inodeID = .ok key) : key.length = 8 := by
  obtain ⟨n, -, rfl⟩ := encodeInodeKey_ok h
  exact uint64BE_length n

/-! ## Sums of `int64` -/

theorem bmod_of_lt {z : Int} (hlow : 0 ≤ z) (hlt : z < 2 ^ 63) : z.bmod (2 ^ 64) = z := by
  rw [Int.bmod_def]
  split <;> omega

theorem bmod_of_ge {z : Int} (hge : 2 ^ 63 ≤ z) (hlt : z < 2 ^ 64) : z.bmod (2 ^ 64) = z - 2 ^ 64 := by
  rw [Int.bmod_def]
  split <;> omega

end Sandstore.Metadata
