import Sandstore.Metadata.Reads

/-!
# The control plane and the data plane

What `handleWrite` and `handleRead` compute between two blocking calls: where a write goes
(`PrepareFileWrite`), what the chunk is going to hold (`prepareWritePayload`), what is proposed to raft
(`CommitFileWrite`), and where a read comes from (`PrepareFileRead`).

Offsets and lengths are `int64` and wrap; Go's division and remainder go towards zero. A slice bound or
an index out of range is a panic, which is an error of its own here. The IDs that the source draws from
`uuid.NewString` are arguments, and so is the clock, and so are the answers of the cluster service and
of the metadata service.
-/

namespace Sandstore.Orchestrators

open Metadata
open Raft (Bytes ClusterNode NodeId)

inductive Err where
  | invalidLength -- ErrInvalidLength
  | crossChunkWrite -- ErrCrossChunkWrite
  | isDirectory -- ErrIsDirectory
  | metadata (err : Raft.Err) -- what the metadata service returned
  | clusterView -- what GetHealthyNodes returned
  | insufficientNodes (need have_ : Int) -- "insufficient nodes for prepare: need %d have %d"
  | allReplicasFailed (chunkID : Bytes) -- "all replicas failed to serve chunk %s"
  | preparesFailed (failures total : Nat) -- "%d/%d prepare RPCs failed: %w"
  | commitFailed (err : Raft.Err) -- "consensus commit failed: %w"
  | panicked
  deriving DecidableEq, Repr

/-- A value as an `int64`. -/
def wrap64 (z : Int) : Int := z.bmod (2 ^ 64)

/-! ## Placement -/

/-- The answers of the cluster service, nothing where a call fails. -/
structure ClusterView where
  allNodes : Option (List ClusterNode)
  healthyNodes : Option (List ClusterNode)
  deriving DecidableEq, Repr

/-- The nodes `SelectTargets` and `ResolveEndpoint` go by. -/
def ClusterView.nodes (view : ClusterView) : Option (List ClusterNode) :=
  match view.allNodes with
  | some (n :: ns) => some (n :: ns)
  | _ => view.healthyNodes

def defaultReplicaCount : Int := 3

/-- `SelectTargets`, for a strategy built with `strategyCount`. -/
def selectTargets (view : ClusterView) (strategyCount replicaCount : Int) :
    Except Err (List ChunkLocation) :=
  let strategyCount := if strategyCount ≤ 0 then defaultReplicaCount else strategyCount
  let replicaCount := if replicaCount ≤ 0 then strategyCount else replicaCount
  match view.nodes with
  | none => .error .clusterView
  | some nodes =>
    let filtered := nodes.filter fun node => node.id ≠ "" ∧ node.address ≠ ""
    if filtered.length < replicaCount then .error (.insufficientNodes replicaCount filtered.length)
    else
      .ok (((filtered.insertionSort fun a b => a.id ≤ b.id).take replicaCount.toNat).map fun node =>
        ⟨node.id, node.address⟩)

/-- `ResolveEndpoint`, nothing where it returns an error. -/
def resolveEndpoint (view : ClusterView) (logicalAlias : NodeId) : Option String :=
  view.nodes.bind fun nodes => (nodes.find? fun node => node.id = logicalAlias).map (·.address)

/-! ## The control plane -/

def defaultChunkSize : Int := 8 * 1024 * 1024

/-- What the two orchestrators are built with. -/
structure Config where
  chunkSize : Int := defaultChunkSize
  replicaCount : Int := defaultReplicaCount
  positive : 0 < chunkSize := by decide

/-- The size of the chunks in the examples below. -/
theorem four_positive : (0 : Int) < 4 := by decide

/-- `isWithinChunkBoundary`. -/
def isWithinChunkBoundary (chunkSize offset length : Int) : Bool :=
  if length ≤ 0 then true
  else offset.tdiv chunkSize = (wrap64 (wrap64 (offset + length) - 1)).tdiv chunkSize

structure WriteContext where
  txnID : Bytes
  chunkID : Bytes
  targetNodes : List ChunkLocation
  isNewChunk : Bool
  deriving DecidableEq, Repr

/-- The chunk of an index that `PrepareFileWrite` and `PrepareFileRead` have compared with the length of
the list only from above. -/
def chunkAt (chunkList : List ChunkDescriptor) (chunkIdx : Int) : Except Err ChunkDescriptor :=
  if chunkIdx < 0 then .error .panicked
  else
    match chunkList[chunkIdx.toNat]? with
    | some chunk => .ok chunk
    | none => .error .panicked

/-- `PrepareFileWrite`; `newChunkID` and `txnID` are the fresh IDs. -/
def prepareFileWrite (cfg : Config) (view : ClusterView)
    (getInode : Except Raft.Err (Inode × List ChunkDescriptor)) (offset length : Int)
    (newChunkID txnID : Bytes) : Except Err WriteContext :=
  if length < 0 then .error .invalidLength
  else if ¬ isWithinChunkBoundary cfg.chunkSize offset length then .error .crossChunkWrite
  else
    match getInode with
    | .error err => .error (.metadata err)
    | .ok (inode, chunkList) =>
      if inode.type ≠ .file then .error .isDirectory
      else
        let chunkIdx := offset.tdiv cfg.chunkSize
        if chunkIdx ≥ chunkList.length then do
          let targets ← selectTargets view cfg.replicaCount cfg.replicaCount
          return ⟨txnID, newChunkID, targets, true⟩
        else do
          let chunk ← chunkAt chunkList chunkIdx
          return ⟨txnID, chunk.chunkID, chunk.locations, false⟩

/-- The operation `CommitFileWrite` proposes, from the inode it has read. -/
def metaUpdate (inode : Inode) (chunkList : List ChunkDescriptor) (ctx : WriteContext)
    (newEOF mtime : Int) : MetadataOperation where
  type := .updateInode
  inodeID := inode.inodeID
  newSize := some (if newEOF > inode.fileSize then newEOF else inode.fileSize)
  newChunkList := some
    (if ctx.isNewChunk then chunkList ++ [⟨ctx.chunkID, ctx.targetNodes⟩] else chunkList)
  setMTime := some mtime
  timestamp := mtime

/-- The envelope of `RaftTxHandle.Commit`. -/
def commitEnvelope (ctx : WriteContext) (op : MetadataOperation) (now : Int) : RaftCommandEnvelope where
  type := .chunkIntent
  posixMeta := some op
  chunkIntent := some
    { txnID := ctx.txnID
      chunkID := ctx.chunkID
      nodeIDs := ctx.targetNodes.map (·.logicalNodeAlias)
      state := .committed
      timestamp := now }

/-- `CommitFileWrite` up to the call of `Replicate`. -/
def commitFileWrite (getInode : Except Raft.Err (Inode × List ChunkDescriptor)) (ctx : WriteContext)
    (newEOF mtime now : Int) : Except Err RaftCommandEnvelope :=
  match getInode with
  | .error err => .error (.metadata err)
  | .ok (inode, chunkList) => .ok (commitEnvelope ctx (metaUpdate inode chunkList ctx newEOF mtime) now)

/-- `PrepareFileRead`: the chunk to read, nothing where the answer is empty. -/
def prepareFileRead (cfg : Config) (getInode : Except Raft.Err (Inode × List ChunkDescriptor))
    (offset : Int) : Except Err (Option ChunkDescriptor) :=
  match getInode with
  | .error err => .error (.metadata err)
  | .ok (inode, chunkList) =>
    if offset ≥ inode.fileSize then .ok none
    else
      let chunkIdx := offset.tdiv cfg.chunkSize
      if chunkIdx ≥ chunkList.length then .ok none
      else do
        let chunk ← chunkAt chunkList chunkIdx
        return some chunk

/-! ## The data plane -/

/-- `copy(out[offset:], data)`. -/
def copyAt (out : Bytes) (offset : Nat) (data : Bytes) : Bytes :=
  out.take offset ++ data.take (out.length - offset) ++ out.drop (offset + data.length)

/-- `make([]byte, finalLen)`, the existing bytes, and the data over them. -/
def overlay (existing : Bytes) (finalLen writeOffset : Int) (data : Bytes) : Except Err Bytes :=
  if finalLen < 0 ∨ writeOffset < 0 ∨ finalLen < writeOffset then .error .panicked
  else
    let out := copyAt (List.replicate finalLen.toNat 0) 0 existing
    .ok (copyAt out writeOffset.toNat data)

/-- `isFullOverwrite`. -/
def isFullOverwrite (chunkSize offset : Int) (data : Bytes) : Bool :=
  offset.tmod chunkSize = 0 ∧ (data.length : Int) = chunkSize

/-- Whether `prepareWritePayload` reads the chunk first. -/
def readsFirst (chunkSize offset : Int) (data : Bytes) (isNewChunk : Bool) : Bool :=
  ¬ isNewChunk ∧ ¬ isFullOverwrite chunkSize offset data

/-- `prepareWritePayload`, given what the chunk holds where it reads it. -/
def prepareWritePayload (chunkSize offset : Int) (data : Bytes) (isNewChunk : Bool)
    (existingData : Bytes) : Except Err Bytes :=
  let writeOffset := offset.tmod chunkSize
  let requiredLen := wrap64 (writeOffset + data.length)
  if isNewChunk then overlay [] requiredLen writeOffset data
  else if isFullOverwrite chunkSize offset data then .ok data
  else
    let finalLen := if requiredLen > existingData.length then requiredLen else existingData.length
    overlay existingData finalLen writeOffset data

end Sandstore.Orchestrators
