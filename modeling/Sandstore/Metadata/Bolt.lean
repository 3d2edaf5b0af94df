import Sandstore.Lib.OrdMap
import Sandstore.Metadata.Types
import Mathlib.Data.List.Lex
import Mathlib.Order.Fin.Basic

/-!
# The bolt store and its appliers

`BoltMetadataService` as a state machine over its buckets. A bucket is a map from byte strings in byte
order. A transaction is a function from one state of the buckets to the next or an error, and an error
leaves the buckets as they were: bbolt rolls back.

The appliers follow the source check by check and write by write. Where one key is written twice in a
transaction (a directory created under its own number, a rename within one directory) the later write
stands, as in the source. Bolt's limits on the length of a key are left out, and so are the decode
errors of gob, which reads back what it wrote. The clock is an argument wherever the source calls
`time.Now`.
-/

namespace Sandstore.Metadata

open Lib
open Raft (Byte Bytes Err NodeId)

/-- A bolt bucket. -/
abbrev Bucket (α : Type) := OrdMap Bytes α

/-- The buckets of the database. -/
structure Store where
  consistentIndex : Option Nat := none
  superblock : Option Superblock := none
  inodes : Bucket Inode := ∅
  dentries : Bucket Bytes := ∅
  chunkMap : Bucket ChunkDescriptor := ∅
  chunkPlacements : Bucket (List NodeId) := ∅
  chunkIntents : Bucket ChunkIntentOperation := ∅
  deriving DecidableEq

/-! ## Buckets -/

/-- What a cursor yields from `Seek(key)` on, as long as the keys have `key` in front. -/
def Bucket.scan {α : Type} (b : Bucket α) (key : Bytes) : List (Bytes × α) :=
  (b.entries.dropWhile fun e => e.1 < key).takeWhile fun e => key.isPrefixOf e.1

def deleteChunkList (chunkMap : Bucket ChunkDescriptor) (inodeKey : Bytes) :
    Bucket ChunkDescriptor :=
  (Bucket.scan chunkMap inodeKey).foldl (fun m e => m.erase e.1) chunkMap

def replaceChunkList (chunkMap : Bucket ChunkDescriptor) (inodeKey : Bytes)
    (chunkList : List ChunkDescriptor) : Bucket ChunkDescriptor :=
  chunkList.zipIdx.foldl (fun m c => m.insert (encodeChunkMapKey inodeKey c.2) c.1)
    (deleteChunkList chunkMap inodeKey)

namespace Store

def loadStoredInode (st : Store) (inodeKey : Bytes) : Except Err Inode :=
  match st.inodes.get inodeKey with
  | some inode => .ok inode
  | none => .error .notFound

/-- `nextConsistentIndex`, in `uint64` arithmetic. -/
def nextConsistentIndex (st : Store) : Nat := (st.consistentIndex.getD 0 + 1) % 2 ^ 64

end Store

/-! ## The appliers -/

/-- The child of `ApplyCreate`. -/
def MetadataOperation.newInode (op : MetadataOperation) : Inode where
  inodeID := op.inodeID
  type := op.fileType
  linkCount := if op.fileType = .directory then 2 else 1
  mode := op.mode
  ownerUID := op.uid
  ownerGID := op.gid
  accessTime := op.timestamp
  modifyTime := op.timestamp
  changeTime := op.timestamp
  fileSize := 0
  versionNumber := 0

/-- A directory whose entries have changed. -/
def Inode.touch (inode : Inode) (now : Int) : Inode :=
  { inode with modifyTime := now, changeTime := now }

/-- The inode `ApplySetAttr` stores. -/
def Inode.setAttr (inode : Inode) (op : MetadataOperation) : Inode :=
  { inode with
    mode := op.setMode.getD inode.mode
    ownerUID := op.setUID.getD inode.ownerUID
    ownerGID := op.setGID.getD inode.ownerGID
    accessTime := op.setATime.getD inode.accessTime
    modifyTime := op.setMTime.getD inode.modifyTime
    changeTime := op.timestamp }

/-- The inode `ApplyUpdateInode` stores. -/
def Inode.update (inode : Inode) (op : MetadataOperation) : Inode :=
  { inode with
    fileSize := op.newSize.getD inode.fileSize
    modifyTime := op.setMTime.getD inode.modifyTime
    versionNumber := inode.versionNumber + 1
    changeTime := op.timestamp }

/-- The inode `applyChunkIntentAtomic` stores: `SetMTime` and the version are left alone, and an
operation without a timestamp takes the clock's. -/
def Inode.write (inode : Inode) (op : MetadataOperation) (now : Int) : Inode :=
  { inode with fileSize := op.newSize.getD inode.fileSize }.touch
    (if op.timestamp > 0 then op.timestamp else now)

namespace Store

/-- The writes of `ApplyCreate`, once its checks have passed. -/
def addDentry (st : Store) (op : MetadataOperation) (parentKey childKey : Bytes) (parent : Inode) :
    Store :=
  let linkCount := if op.fileType = .directory then parent.linkCount + 1 else parent.linkCount
  { st with
    inodes := (st.inodes.insert childKey op.newInode).insert parentKey
      ({ parent with linkCount := linkCount }.touch op.timestamp)
    dentries := st.dentries.insert (encodeDentryKey parentKey op.name) childKey
    consistentIndex := some st.nextConsistentIndex }

def applyCreate (st : Store) (op : MetadataOperation) : Except Err Store := do
  let parentKey ← encodeInodeKey "parent inode id" op.parentID
  let childKey ← encodeInodeKey "child inode id" op.inodeID
  let parent ← st.loadStoredInode parentKey
  if parent.type ≠ .directory then .error .notFound
  else if (st.dentries.get (encodeDentryKey parentKey op.name)).isSome then .error .alreadyExists
  else .ok (st.addDentry op parentKey childKey parent)

/-- The writes of `ApplyRename`, once its checks have passed. The entry at the destination is looked
up after the source's is gone. -/
def moveDentry (st : Store) (op : MetadataOperation) (srcParentKey dstParentKey : Bytes)
    (srcParent dstParent : Inode) (childKey : Bytes) : Store :=
  let dentries := st.dentries.erase (encodeDentryKey srcParentKey op.name)
  let inodes :=
    match dentries.get (encodeDentryKey dstParentKey op.dstName) with
    | some overwrittenChildKey => st.inodes.erase overwrittenChildKey
    | none => st.inodes
  { st with
    inodes := (inodes.insert srcParentKey (srcParent.touch op.timestamp)).insert dstParentKey
      (dstParent.touch op.timestamp)
    dentries := dentries.insert (encodeDentryKey dstParentKey op.dstName) childKey
    consistentIndex := some st.nextConsistentIndex }

def applyRename (st : Store) (op : MetadataOperation) : Except Err Store := do
  let srcParentKey ← encodeInodeKey "source parent inode id" op.parentID
  let dstParentKey ← encodeInodeKey "destination parent inode id" op.dstParentID
  let srcParent ← st.loadStoredInode srcParentKey
  let dstParent ← st.loadStoredInode dstParentKey
  match st.dentries.get (encodeDentryKey srcParentKey op.name) with
  | none => .error .notFound
  | some childKey =>
    .ok (st.moveDentry op srcParentKey dstParentKey srcParent dstParent childKey)

/-- The writes of `ApplyRemove`, once its checks have passed. -/
def dropDentry (st : Store) (op : MetadataOperation) (parentKey childKey : Bytes)
    (parent child : Inode) : Store :=
  let linkCount := if child.type = .directory then parent.linkCount - 1 else parent.linkCount
  { st with
    inodes := (st.inodes.erase childKey).insert parentKey
      ({ parent with linkCount := linkCount }.touch op.timestamp)
    dentries := st.dentries.erase (encodeDentryKey parentKey op.name)
    consistentIndex := some st.nextConsistentIndex }

def applyRemove (st : Store) (op : MetadataOperation) : Except Err Store := do
  let parentKey ← encodeInodeKey "parent inode id" op.parentID
  match st.dentries.get (encodeDentryKey parentKey op.name) with
  | none => .error .notFound
  | some childKey => do
    let parent ← st.loadStoredInode parentKey
    let child ← st.loadStoredInode childKey
    .ok (st.dropDentry op parentKey childKey parent child)

def applySetAttr (st : Store) (op : MetadataOperation) : Except Err Store := do
  let inodeKey ← encodeInodeKey "inode id" op.inodeID
  let inode ← st.loadStoredInode inodeKey
  .ok { st with
    inodes := st.inodes.insert inodeKey (inode.setAttr op)
    consistentIndex := some st.nextConsistentIndex }

/-- The chunk map after an operation that may carry a chunk list. -/
def chunkMapAfter (st : Store) (op : MetadataOperation) (inodeKey : Bytes) :
    Bucket ChunkDescriptor :=
  match op.newChunkList with
  | some chunkList => replaceChunkList st.chunkMap inodeKey chunkList
  | none => st.chunkMap

def applyUpdateInode (st : Store) (op : MetadataOperation) : Except Err Store := do
  let inodeKey ← encodeInodeKey "inode id" op.inodeID
  let inode ← st.loadStoredInode inodeKey
  .ok { st with
    inodes := st.inodes.insert inodeKey (inode.update op)
    chunkMap := st.chunkMapAfter op inodeKey
    consistentIndex := some st.nextConsistentIndex }

/-- `applyStandardMetadata`. -/
def applyStandardMetadata (st : Store) : Option MetadataOperation → Except Err Store
  | none => .error .missingOperation
  | some op =>
    match op.type with
    | .create => st.applyCreate op
    | .remove => st.applyRemove op
    | .rename => st.applyRename op
    | .setAttr => st.applySetAttr op
    | .updateInode => st.applyUpdateInode op
    | .other code => .error (.unknownOperation code)

/-- The metadata half of `applyChunkIntentAtomic`. Any operation but an update is ignored. -/
def applyMetaUpdate (st : Store) (now : Int) : Option MetadataOperation → Except Err Store
  | none => .ok st
  | some op =>
    if op.type ≠ .updateInode then .ok st
    else do
      let inodeKey ← encodeInodeKey "inode id" op.inodeID
      let inode ← st.loadStoredInode inodeKey
      .ok { st with
        inodes := st.inodes.insert inodeKey (inode.write op now)
        chunkMap := st.chunkMapAfter op inodeKey }

def applyChunkIntentAtomic (st : Store) (now : Int) (metaUpdate : Option MetadataOperation) :
    Option ChunkIntentOperation → Except Err Store
  | none => .error .missingIntent
  | some intent => do
    let st' ← st.applyMetaUpdate now metaUpdate
    .ok { st' with
      chunkIntents := st.chunkIntents.insert intent.txnID intent
      chunkPlacements := st.chunkPlacements.insert intent.chunkID intent.nodeIDs
      consistentIndex := some st.nextConsistentIndex }

/-- `ApplyTransaction`. -/
def applyTransaction (st : Store) (now : Int) : Command → Except Err Store
  | none => .error .undecodable
  | some envelope =>
    match envelope.type with
    | .posixMeta => st.applyStandardMetadata envelope.posixMeta
    | .chunkIntent => st.applyChunkIntentAtomic now envelope.posixMeta envelope.chunkIntent
    | .other code => .error (.unknownEnvelope code)

/-! ## Recover -/

/-- The root inode `Recover` stores. -/
def rootInode (now : Int) : Inode where
  inodeID := [48]
  type := .directory
  linkCount := 2
  mode := 0o755
  ownerUID := 0
  ownerGID := 0
  accessTime := now
  modifyTime := now
  changeTime := now
  fileSize := 0
  versionNumber := 0

/-- The superblock `Recover` stores. Its `FsID` is the nil UUID. -/
def superblockAt (now : Int) : Superblock where
  fsID := (List.replicate 36 48).set 8 45 |>.set 13 45 |>.set 18 45 |>.set 23 45
  rootInodeID := [48]
  chunkSize := 8 * 1024 * 1024
  maxFilenameSize := 255
  maxFileSize := 2 ^ 40
  createdAt := now

/-- `Recover`: the consistent index it returns, and what it leaves in the buckets. -/
def recover (st : Store) (now : Int) : Nat × Store :=
  match st.consistentIndex with
  | some consistentIndex => (consistentIndex, st)
  | none =>
    (0, { st with
      superblock := some (superblockAt now)
      inodes := st.inodes.insert (uint64BE 0) (rootInode now)
      consistentIndex := some 0 })

end Store

/-! ## As a state machine -/

/-- The service behind a replicator: the contents of its database file, nothing where bolt cannot open
it, whether the service has it open, and what the clock is going to say. -/
structure Service where
  file : Option Store
  isOpen : Bool
  clock : Nat → Int

namespace Service

/-- The database of the service, if it has one. -/
def db (svc : Service) : Option Store := if svc.isOpen then svc.file else none

/-- The clock moves on. -/
def tick (svc : Service) : Service := { svc with clock := fun k => svc.clock (k + 1) }

/-- `ApplyTransaction` under the clock: an error leaves the buckets as they were. -/
def apply (svc : Service) (data : Command) : Service × Option Err :=
  match svc.db with
  | none => (svc.tick, some .notInitialized)
  | some store =>
    match store.applyTransaction (svc.clock 0) data with
    | .ok store' => ({ svc.tick with file := some store' }, none)
    | .error err => (svc.tick, some err)

/-- A new process over the file: `NewBoltMetadataService`, and `BoltMetadataService.Start` up to the
replicator's. What `Recover` returns is dropped. -/
def start (file : Option Store) (clock : Nat → Int) : Option Service :=
  file.map fun store => tick ⟨some (store.recover (clock 0)).2, true, clock⟩

/-- `RestoreSnapshot`: the file is replaced before it is known whether bolt can open it. -/
def restoreSnapshot (deserialize : Bytes → Option Store) (data : Bytes) (svc : Service) :
    Service × Bool :=
  if svc.isOpen then
    ({ svc with file := deserialize data, isOpen := (deserialize data).isSome },
      (deserialize data).isSome)
  else (svc, false)

end Service

/-- The service as the replicator sees it. The format of bolt's file is a parameter. -/
def boltMachine (serialize : Store → Bytes) (deserialize : Bytes → Option Store) :
    Raft.Machine Command Service where
  apply data svc := svc.apply data
  serializeSnapshot svc := svc.db.map serialize
  restoreSnapshot := Service.restoreSnapshot deserialize

/-! ## What a successful applier has done -/

section Inversion

variable {st st' : Store} {op : MetadataOperation}

theorem bind_ok {ε α β : Type} {x : Except ε α} {f : α → Except ε β} {b : β}
    (h : (x >>= f) = .ok b) : ∃ a, x = .ok a ∧ f a = .ok b := by
  cases x with
  | error err => cases h
  | ok a => exact ⟨a, rfl, h⟩

theorem loadStoredInode_ok {key : Bytes} {inode : Inode} (h : st.loadStoredInode key = .ok inode) :
    st.inodes.get key = some inode := by
  unfold Store.loadStoredInode at h
  split at h
  · next hget =>
    cases h
    exact hget
  · cases h

theorem applyCreate_ok (h : st.applyCreate op = .ok st') :
    ∃ parentKey childKey parent, encodeInodeKey "parent inode id" op.parentID = .ok parentKey ∧
      encodeInodeKey "child inode id" op.inodeID = .ok childKey ∧
      st.inodes.get parentKey = some parent ∧ parent.type = .directory ∧
      st.dentries.get (encodeDentryKey parentKey op.name) = none ∧
      st' = st.addDentry op parentKey childKey parent := by
  obtain ⟨parentKey, hparentKey, h⟩ := bind_ok h
  obtain ⟨childKey, hchildKey, h⟩ := bind_ok h
  obtain ⟨parent, hparent, h⟩ := bind_ok h
  split at h
  · cases h
  · next htype =>
    split at h
    · cases h
    · next hfree =>
      cases h
      exact ⟨parentKey, childKey, parent, hparentKey, hchildKey, loadStoredInode_ok hparent,
        not_not.mp htype, by simpa using hfree, rfl⟩

theorem applyRemove_ok (h : st.applyRemove op = .ok st') : ∃ parentKey childKey parent child,
      encodeInodeKey "parent inode id" op.parentID = .ok parentKey ∧
      st.dentries.get (encodeDentryKey parentKey op.name) = some childKey ∧
      st.inodes.get parentKey = some parent ∧ st.inodes.get childKey = some child ∧
      st' = st.dropDentry op parentKey childKey parent child := by
  obtain ⟨parentKey, hparentKey, h⟩ := bind_ok h
  split at h
  · cases h
  · next childKey hchildKey =>
    obtain ⟨parent, hparent, h⟩ := bind_ok h
    obtain ⟨child, hchild, h⟩ := bind_ok h
    cases h
    exact ⟨parentKey, childKey, parent, child, hparentKey, hchildKey, loadStoredInode_ok hparent,
      loadStoredInode_ok hchild, rfl⟩

theorem applyRename_ok (h : st.applyRename op = .ok st') : ∃ srcParentKey dstParentKey srcParent dstParent childKey,
      encodeInodeKey "source parent inode id" op.parentID = .ok srcParentKey ∧
      encodeInodeKey "destination parent inode id" op.dstParentID = .ok dstParentKey ∧
      st.inodes.get srcParentKey = some srcParent ∧ st.inodes.get dstParentKey = some dstParent ∧
      st.dentries.get (encodeDentryKey srcParentKey op.name) = some childKey ∧
      st' = st.moveDentry op srcParentKey dstParentKey srcParent dstParent childKey := by
  obtain ⟨srcParentKey, hsrc, h⟩ := bind_ok h
  obtain ⟨dstParentKey, hdst, h⟩ := bind_ok h
  obtain ⟨srcParent, hsrcParent, h⟩ := bind_ok h
  obtain ⟨dstParent, hdstParent, h⟩ := bind_ok h
  split at h
  · cases h
  · next childKey hchild =>
    cases h
    exact ⟨srcParentKey, dstParentKey, srcParent, dstParent, childKey, hsrc, hdst,
      loadStoredInode_ok hsrcParent, loadStoredInode_ok hdstParent, hchild, rfl⟩

theorem applySetAttr_ok (h : st.applySetAttr op = .ok st') :
    ∃ inodeKey inode, encodeInodeKey "inode id" op.inodeID = .ok inodeKey ∧ st.inodes.get inodeKey = some inode ∧
      st' = { st with
        inodes := st.inodes.insert inodeKey (inode.setAttr op)
        consistentIndex := some st.nextConsistentIndex } := by
  obtain ⟨inodeKey, hkey, h⟩ := bind_ok h
  obtain ⟨inode, hinode, h⟩ := bind_ok h
  cases h
  exact ⟨inodeKey, inode, hkey, loadStoredInode_ok hinode, rfl⟩

theorem applyUpdateInode_ok (h : st.applyUpdateInode op = .ok st') :
    ∃ inodeKey inode, encodeInodeKey "inode id" op.inodeID = .ok inodeKey ∧ st.inodes.get inodeKey = some inode ∧
      st' = { st with
        inodes := st.inodes.insert inodeKey (inode.update op)
        chunkMap := st.chunkMapAfter op inodeKey
        consistentIndex := some st.nextConsistentIndex } := by
  obtain ⟨inodeKey, hkey, h⟩ := bind_ok h
  obtain ⟨inode, hinode, h⟩ := bind_ok h
  cases h
  exact ⟨inodeKey, inode, hkey, loadStoredInode_ok hinode, rfl⟩

theorem applyMetaUpdate_ok {now : Int} (htype : op.type = .updateInode)
    (h : st.applyMetaUpdate now (some op) = .ok st') :
    ∃ inodeKey inode, encodeInodeKey "inode id" op.inodeID = .ok inodeKey ∧ st.inodes.get inodeKey = some inode ∧
      st' = { st with
        inodes := st.inodes.insert inodeKey (inode.write op now)
        chunkMap := st.chunkMapAfter op inodeKey } := by
  rw [Store.applyMetaUpdate, if_neg (not_not.mpr htype)] at h
  obtain ⟨inodeKey, hkey, h⟩ := bind_ok h
  obtain ⟨inode, hinode, h⟩ := bind_ok h
  cases h
  exact ⟨inodeKey, inode, hkey, loadStoredInode_ok hinode, rfl⟩

/-- The buckets with an intent stored. -/
def Store.storeIntent (st : Store) (intent : ChunkIntentOperation) : Store :=
  { st with
    chunkIntents := st.chunkIntents.insert intent.txnID intent
    chunkPlacements := st.chunkPlacements.insert intent.chunkID intent.nodeIDs
    consistentIndex := some st.nextConsistentIndex }

/-- What a transaction that succeeds has found and what it leaves. -/
inductive Applied (st : Store) (now : Int) : Command → Store → Prop where
  | create (op : MetadataOperation) (chunkIntent : Option ChunkIntentOperation) (htype : op.type = .create)
      (parentKey childKey : Bytes) (parent : Inode)
      (hparentKey : encodeInodeKey "parent inode id" op.parentID = .ok parentKey)
      (hchildKey : encodeInodeKey "child inode id" op.inodeID = .ok childKey)
      (hparent : st.inodes.get parentKey = some parent) (hdir : parent.type = .directory)
      (hfree : st.dentries.get (encodeDentryKey parentKey op.name) = none) :
      Applied st now (some ⟨.posixMeta, some op, chunkIntent⟩) (st.addDentry op parentKey childKey parent)
  | remove (op : MetadataOperation) (chunkIntent : Option ChunkIntentOperation) (htype : op.type = .remove)
      (parentKey childKey : Bytes) (parent child : Inode)
      (hparentKey : encodeInodeKey "parent inode id" op.parentID = .ok parentKey)
      (hdentry : st.dentries.get (encodeDentryKey parentKey op.name) = some childKey)
      (hparent : st.inodes.get parentKey = some parent) (hchild : st.inodes.get childKey = some child) :
      Applied st now (some ⟨.posixMeta, some op, chunkIntent⟩) (st.dropDentry op parentKey childKey parent child)
  | rename (op : MetadataOperation) (chunkIntent : Option ChunkIntentOperation) (htype : op.type = .rename)
      (srcParentKey dstParentKey : Bytes) (srcParent dstParent : Inode) (childKey : Bytes)
      (hsrcKey : encodeInodeKey "source parent inode id" op.parentID = .ok srcParentKey)
      (hdstKey : encodeInodeKey "destination parent inode id" op.dstParentID = .ok dstParentKey)
      (hsrc : st.inodes.get srcParentKey = some srcParent) (hdst : st.inodes.get dstParentKey = some dstParent)
      (hdentry : st.dentries.get (encodeDentryKey srcParentKey op.name) = some childKey) :
      Applied st now (some ⟨.posixMeta, some op, chunkIntent⟩)
        (st.moveDentry op srcParentKey dstParentKey srcParent dstParent childKey)
  | setAttr (op : MetadataOperation) (chunkIntent : Option ChunkIntentOperation) (htype : op.type = .setAttr)
      (key : Bytes) (inode : Inode) (hkey : encodeInodeKey "inode id" op.inodeID = .ok key)
      (hget : st.inodes.get key = some inode) :
      Applied st now (some ⟨.posixMeta, some op, chunkIntent⟩)
        { st with
          inodes := st.inodes.insert key (inode.setAttr op)
          consistentIndex := some st.nextConsistentIndex }
  | updateInode (op : MetadataOperation) (chunkIntent : Option ChunkIntentOperation) (htype : op.type = .updateInode)
      (key : Bytes) (inode : Inode) (hkey : encodeInodeKey "inode id" op.inodeID = .ok key)
      (hget : st.inodes.get key = some inode) :
      Applied st now (some ⟨.posixMeta, some op, chunkIntent⟩)
        { st with
          inodes := st.inodes.insert key (inode.update op)
          chunkMap := st.chunkMapAfter op key
          consistentIndex := some st.nextConsistentIndex }
  | intent (posixMeta : Option MetadataOperation) (intent : ChunkIntentOperation)
      (hidle : ∀ op, posixMeta = some op → op.type ≠ .updateInode) :
      Applied st now (some ⟨.chunkIntent, posixMeta, some intent⟩) (st.storeIntent intent)
  | write (op : MetadataOperation) (intent : ChunkIntentOperation) (htype : op.type = .updateInode)
      (key : Bytes) (inode : Inode) (hkey : encodeInodeKey "inode id" op.inodeID = .ok key)
      (hget : st.inodes.get key = some inode) :
      Applied st now (some ⟨.chunkIntent, some op, some intent⟩)
        { st.storeIntent intent with
          inodes := st.inodes.insert key (inode.write op now)
          chunkMap := st.chunkMapAfter op key }

/-- **Every transaction that succeeds is one of these.** -/
theorem applyTransaction_applied {now : Int} {data : Command} (h : st.applyTransaction now data = .ok st') :
    Applied st now data st' := by
  cases data with
  | none => cases h
  | some envelope =>
    obtain ⟨type, posixMeta, chunkIntent⟩ := envelope
    cases type with
    | other code => cases h
    | posixMeta =>
      cases posixMeta with
      | none => cases h
      | some op =>
        simp only [Store.applyTransaction, Store.applyStandardMetadata] at h
        split at h
        · next htype =>
          obtain ⟨parentKey, childKey, parent, hparentKey, hchildKey, hparent, hdir, hfree, rfl⟩ := applyCreate_ok h
          exact .create op chunkIntent htype parentKey childKey parent hparentKey hchildKey hparent hdir hfree
        · next htype =>
          obtain ⟨parentKey, childKey, parent, child, hparentKey, hdentry, hparent, hchild, rfl⟩ := applyRemove_ok h
          exact .remove op chunkIntent htype parentKey childKey parent child hparentKey hdentry hparent hchild
        · next htype =>
          obtain ⟨srcKey, dstKey, srcParent, dstParent, childKey, hsrcKey, hdstKey, hsrc, hdst, hdentry, rfl⟩ :=
            applyRename_ok h
          exact .rename op chunkIntent htype srcKey dstKey srcParent dstParent childKey hsrcKey hdstKey hsrc hdst
            hdentry
        · next htype =>
          obtain ⟨key, inode, hkey, hget, rfl⟩ := applySetAttr_ok h
          exact .setAttr op chunkIntent htype key inode hkey hget
        · next htype =>
          obtain ⟨key, inode, hkey, hget, rfl⟩ := applyUpdateInode_ok h
          exact .updateInode op chunkIntent htype key inode hkey hget
        · cases h
    | chunkIntent =>
      cases chunkIntent with
      | none => cases h
      | some intent =>
        obtain ⟨stored, hstored, h⟩ := bind_ok h
        cases h
        cases posixMeta with
        | none =>
          cases hstored
          exact .intent none intent fun op hop => absurd hop.symm (Option.some_ne_none op)
        | some op =>
          by_cases htype : op.type = .updateInode
          · obtain ⟨key, inode, hkey, hget, rfl⟩ := applyMetaUpdate_ok htype hstored
            exact .write op intent htype key inode hkey hget
          · rw [Store.applyMetaUpdate, if_pos htype] at hstored
            cases hstored
            exact .intent (some op) intent fun op' hop => Option.some_inj.mp hop ▸ htype

theorem applyTransaction_index {now : Int} {data : Command} (h : st.applyTransaction now data = .ok st') :
    st'.consistentIndex = some st.nextConsistentIndex := by cases applyTransaction_applied h <;> rfl

end Inversion

end Sandstore.Metadata
