import Sandstore.Metadata.Lookup

/-!
# Changing the namespace

`Create`, `Mkdir`, `Remove` and `Rmdir` of the service. Each reads the node's own buckets, refuses
what it sees to be wrong, and hands an operation to `replicateOp`, which stamps it and sends it through
raft. What is read is not locked: each read is a transaction of its own, and by the time the operation
is applied the buckets may be others. So a request's check takes a view, the buckets that each of its
reads sees.

`Remove` and `Rmdir` replicate the same operation. What makes the difference between them is only the
check.
-/

namespace Sandstore.Metadata

open Raft (Byte Bytes Err)

/-- The command `replicateOp` hands to the replicator. -/
def replicateOp (op : MetadataOperation) (now : Int) : Command :=
  some { type := .posixMeta, posixMeta := some { op with timestamp := now } }

inductive Request where
  | create (parentInodeID name : Bytes) (mode uid gid : Nat)
  | mkdir (parentInodeID name : Bytes) (mode uid gid : Nat)
  | remove (parentInodeID name : Bytes)
  | rmdir (parentInodeID name : Bytes)
  deriving DecidableEq, Repr

/-- The checks that `Create` and `Mkdir` begin with. -/
def checkFree (view : Nat → Store) (parentInodeID name : Bytes) : Except Err Unit := do
  let parent ← (view 0).getInode parentInodeID
  if parent.1.type ≠ .directory then .error .notDir
  else
    match (view 1).lookup parentInodeID name with
    | .ok _ => .error .alreadyExists
    | .error .notFound => .ok ()
    | .error err => .error err

/-- The operation of `Create` and of `Mkdir`. -/
def createOp (newID parentInodeID name : Bytes) (fileType : InodeType) (mode uid gid : Nat) :
    MetadataOperation where
  type := .create
  inodeID := newID
  parentID := parentInodeID
  name := name
  fileType := fileType
  mode := mode
  uid := uid
  gid := gid

/-- The operation of `Remove` and of `Rmdir`. -/
def removeOp (parentInodeID name : Bytes) : MetadataOperation where
  type := .remove
  parentID := parentInodeID
  name := name

/-- The operation of `Rename`. -/
def renameOp (srcParentID srcName dstParentID dstName : Bytes) : MetadataOperation where
  type := .rename
  parentID := srcParentID
  name := srcName
  dstParentID := dstParentID
  dstName := dstName

/-- The checks of `Rmdir`. -/
def checkEmptyDir (view : Nat → Store) (parentInodeID name : Bytes) : Except Err Unit := do
  let childID ← (view 0).lookup parentInodeID name
  let child ← (view 1).getInode childID
  if child.1.type ≠ .directory then .error .notDir
  else do
    let isEmpty ← (view 2).directoryIsEmpty childID
    if isEmpty then .ok () else .error .notEmpty

/-- `nextInodeID`: the counter starts with the clock. -/
def nextInodeID (counter seed : Nat) : Nat := ((if counter = 0 then seed else counter) + 1) % 2 ^ 64

/-- A request up to `replicateOp`; `newID` is what `nextInodeID` answers. -/
def Request.check (view : Nat → Store) (newID : Bytes) : Request → Except Err MetadataOperation
  | .create parentInodeID name mode uid gid => do
    checkFree view parentInodeID name
    return createOp newID parentInodeID name .file mode uid gid
  | .mkdir parentInodeID name mode uid gid => do
    checkFree view parentInodeID name
    return createOp newID parentInodeID name .directory mode uid gid
  | .remove parentInodeID name => do
    let _ ← (view 0).lookup parentInodeID name
    return removeOp parentInodeID name
  | .rmdir parentInodeID name => do
    checkEmptyDir view parentInodeID name
    return removeOp parentInodeID name

theorem Request.check_type {view : Nat → Store} {newID : Bytes} {r : Request} {op : MetadataOperation}
    (h : r.check view newID = .ok op) : op.type = .create ∨ op.type = .remove := by
  cases r with
  | create parentInodeID name mode uid gid =>
    obtain ⟨_, _, h⟩ := bind_ok h
    cases h
    exact .inl rfl
  | mkdir parentInodeID name mode uid gid =>
    obtain ⟨_, _, h⟩ := bind_ok h
    cases h
    exact .inl rfl
  | remove parentInodeID name =>
    obtain ⟨_, _, h⟩ := bind_ok h
    cases h
    exact .inr rfl
  | rmdir parentInodeID name =>
    obtain ⟨_, _, h⟩ := bind_ok h
    cases h
    exact .inr rfl

end Sandstore.Metadata
