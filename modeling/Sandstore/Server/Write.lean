import Sandstore.Chunk.Calls
import Sandstore.Orchestrators.Planes
import Sandstore.Raft.Cluster

/-!
# Writes in a running cluster

Every node of a deployment runs a replicator, the bolt store behind it and a chunk service, and takes
write requests. `handleWrite` is cut at its blocking calls: the replicas it reads an old chunk from, the
prepare calls it makes to every target, and the wait for `Replicate`. Between two of them anything may
happen: leader changes, messages that are late or lost, crashes, other writes, and the end of the
request's own context.

A letter to a chunk service is handled once or never, and its answer stays with it. An RPC may fail for
its caller whatever becomes of the letter, and whenever it likes. A process that dies takes its requests
and its prepared index with it; its files stay. A chunk service is not told about the metadata service
in this wiring, and nobody calls its `Start`.

`Replicate` calls are told apart by a number that stands for their channel. A result on that channel, the
end of the context and the stopping of the replicator are the three arms of its `select`, and are moves
of their own.
-/

namespace Sandstore.Server

open Lib Metadata Orchestrators
open Chunk (ChunkService)
open Raft (Bytes NodeId CallId Cluster World Conv)

/-! ## State -/

inductive ChunkMessage where
  | prepare (txnID chunkID data checksum : Bytes)
  | commit (txnID chunkID : Bytes)
  | abort (txnID chunkID : Bytes)
  deriving DecidableEq, Repr

/-- A message to the chunk service at an address, and its answer once it has been handled. -/
structure Letter where
  address : String
  message : ChunkMessage
  answer : Option (Option Chunk.Err) := none
  deriving DecidableEq, Repr

structure WriteRequest where
  inodeID : Bytes
  offset : Int
  data : Bytes
  deriving DecidableEq, Repr

/-- Where a `handleWrite` is waiting: for the next replica to read from, for the answers to its letters
and with so many failures so far, for `Replicate`. -/
inductive Phase where
  | reading (todo : List ChunkLocation)
  | preparing (waiting : List Nat) (failures : Nat)
  | replicating (call : CallId) (entryIndex : Int)
  | finished (result : Except Orchestrators.Err Int)
  | lost
  deriving DecidableEq

structure Write where
  node : NodeId
  req : WriteRequest
  ctx : WriteContext
  phase : Phase
  deriving DecidableEq

structure Deployment where
  raft : World Command Service
  chunks : NodeId → ChunkService := fun _ => {}
  wire : List Letter := []
  writes : Bytes → Option Write := fun _ => none
  calls : List CallId := []
  writeCalls : List CallId := []

/-- What does not change while the deployment runs. -/
structure Setting where
  cluster : Cluster
  config : Config
  calculateChecksum : Bytes → Bytes
  serialize : Store → Bytes
  deserialize : Bytes → Option Store

namespace Setting

/-- The state machine of its nodes. -/
def machine (S : Setting) : Raft.Machine Command Service := boltMachine S.serialize S.deserialize

/-- The node that listens at an address. -/
def nodeAt (S : Setting) (address : String) : Option NodeId :=
  (S.cluster.nodes.find? fun n => n.address = address).map (·.id)

end Setting

/-- Every node has an empty bolt file, and nothing is running. -/
def Deployment.init : Deployment where
  raft := World.init ⟨some {}, false, fun _ => 0⟩

/-- A string of hexadecimal digits and dashes, as `uuid.NewString` draws them. -/
def isUuid (id : Bytes) : Bool :=
  id.all fun b => b = 45 ∨ (48 ≤ b ∧ b ≤ 57) ∨ (97 ≤ b ∧ b ≤ 102)

/-- What a dead process leaves of a request. -/
def Phase.crash : Phase → Phase
  | .finished result => .finished result
  | _ => .lost

/-- Whether a raft entry is a chunk intent. -/
def isChunkIntent (data : Command) : Bool := data.any fun envelope => envelope.type = .chunkIntent

namespace Deployment

def setWrite (w : Deployment) (txnID : Bytes) (wr : Write) : Deployment :=
  { w with writes := fun t => if t = txnID then some wr else w.writes t }

def setChunks (w : Deployment) (id : NodeId) (cs : ChunkService) : Deployment :=
  { w with chunks := fun j => if j = id then cs else w.chunks j }

def send (w : Deployment) (letters : List Letter) : Deployment := { w with wire := w.wire ++ letters }

/-- The raft group moves, and the processes that are down lose what they had in memory. -/
def moved (w : Deployment) (raft : World Command Service) : Deployment :=
  { w with
    raft := raft
    chunks := fun id =>
      if (raft.host id).up then w.chunks id else { w.chunks id with preparedIndex := ∅ }
    writes := fun t => (w.writes t).map fun wr =>
      if (raft.host wr.node).up then wr else { wr with phase := wr.phase.crash } }

/-- A panic kills the process. -/
def panic (w : Deployment) (id : NodeId) : Deployment :=
  w.moved (w.raft.set id ⟨w.raft.node id, false⟩)

/-! ## The parts of handleWrite -/

/-- The request of a transaction that has come this far, if its process is running. -/
def active (w : Deployment) (txnID : Bytes) : Option Write :=
  match w.writes txnID with
  | some wr => if (w.raft.host wr.node).up then some wr else none
  | none => none

/-- `broadcastAbortAsync`, and the error response. -/
def abortWrite (w : Deployment) (wr : Write) (err : Orchestrators.Err) : Deployment :=
  (w.send (wr.ctx.targetNodes.map fun target =>
    ⟨target.physicalEndpoint, .abort wr.ctx.txnID wr.ctx.chunkID, none⟩)).setWrite wr.ctx.txnID
      { wr with phase := .finished (.error err) }

/-- `broadcastCommitAsync`, and the success response. -/
def commitWrite (w : Deployment) (wr : Write) : Deployment :=
  (w.send (wr.ctx.targetNodes.map fun target =>
    ⟨target.physicalEndpoint, .commit wr.ctx.txnID wr.ctx.chunkID, none⟩)).setWrite wr.ctx.txnID
      { wr with phase := .finished (.ok wr.req.data.length) }

/-- The prepare calls of `ExecuteWrite`: a target without an endpoint has failed already. -/
def sendPrepares (S : Setting) (w : Deployment) (view : ClusterView) (wr : Write) (finalData : Bytes) :
    Deployment :=
  let addresses := wr.ctx.targetNodes.filterMap fun target =>
    resolveEndpoint view target.logicalNodeAlias
  (w.send (addresses.map fun address =>
    ⟨address, .prepare wr.ctx.txnID wr.ctx.chunkID finalData (S.calculateChecksum finalData), none⟩)).setWrite
      wr.ctx.txnID
      { wr with
        phase := .preparing (List.range' w.wire.length addresses.length)
          (wr.ctx.targetNodes.length - addresses.length) }

/-- `ExecuteWrite` from the moment it knows what the chunk holds. -/
def executeWrite (S : Setting) (w : Deployment) (view : ClusterView) (wr : Write)
    (existingData : Bytes) : Deployment :=
  match prepareWritePayload S.config.chunkSize wr.req.offset wr.req.data wr.ctx.isNewChunk
      existingData with
  | .ok finalData => w.sendPrepares S view wr finalData
  | .error _ => w.panic wr.node

/-- The start of `handleWrite`, up to its first blocking call. -/
def begin (S : Setting) (w : Deployment) (id : NodeId) (req : WriteRequest) (newChunkID txnID : Bytes)
    (view : ClusterView) (ctxDone : Bool) : Deployment :=
  match prepareFileWrite S.config view ((w.raft.node id).disk.machine.getInode ctxDone req.inodeID)
      req.offset req.data.length newChunkID txnID with
  | .error .panicked => w.panic id
  | .error err => w.setWrite txnID ⟨id, req, ⟨txnID, newChunkID, [], false⟩, .finished (.error err)⟩
  | .ok ctx =>
    if readsFirst S.config.chunkSize req.offset req.data ctx.isNewChunk then
      w.setWrite txnID ⟨id, req, ctx, .reading ctx.targetNodes⟩
    else w.executeWrite S view ⟨id, req, ctx, .reading []⟩ []

/-- The next call of `sendReadRPC`; `lost` is an RPC that fails. -/
def fetch (S : Setting) (w : Deployment) (wr : Write) (view : ClusterView) (lost : Bool) (now : Int) :
    List ChunkLocation → Deployment
  | [] => w.abortWrite wr (.allReplicasFailed wr.ctx.chunkID)
  | target :: todo =>
    let failed := w.setWrite wr.ctx.txnID { wr with phase := .reading todo }
    match (resolveEndpoint view target.logicalNodeAlias).bind S.nodeAt with
    | none => failed
    | some id =>
      if lost ∨ ¬ (w.raft.host id).up then failed
      else
        match (w.chunks id).readChunk none true now wr.ctx.chunkID with
        | (cs, .ok existingData) => (w.setChunks id cs).executeWrite S view wr existingData
        | (cs, .error _) => (w.setChunks id cs).setWrite wr.ctx.txnID { wr with phase := .reading todo }

/-- A message at its chunk service. -/
def handleMessage (S : Setting) (cs : ChunkService) (fate : Chunk.WriteFate) (works : Bool) (now : Int) :
    ChunkMessage → ChunkService × Option Chunk.Err
  | .prepare txnID chunkID data checksum =>
    cs.prepareChunk S.calculateChecksum fate now txnID chunkID data checksum
  | .commit txnID chunkID => cs.commitChunk works txnID chunkID
  | .abort txnID chunkID => cs.abortChunk works txnID chunkID

/-- A letter reaches the node it is addressed to. -/
def deliver (S : Setting) (w : Deployment) (k : Nat) (fate : Chunk.WriteFate) (works : Bool)
    (now : Int) : Option Deployment :=
  match w.wire[k]? with
  | some ⟨address, message, none⟩ =>
    match S.nodeAt address with
    | none => none
    | some id =>
      if (w.raft.host id).up then
        let (cs, err) := handleMessage S (w.chunks id) fate works now message
        some { w.setChunks id cs with wire := w.wire.set k ⟨address, message, some err⟩ }
      else none
  | _ => none

/-- The answer to one prepare call comes in, or the call fails. -/
def prepared (w : Deployment) (wr : Write) (waiting : List Nat) (failures k : Nat) (lost : Bool) :
    Option Deployment :=
  if k ∈ waiting then
    let next (failed : Bool) := some (w.setWrite wr.ctx.txnID
      { wr with
        phase := .preparing (waiting.erase k) (if failed then failures + 1 else failures) })
    if lost then next true
    else
      match w.wire[k]? with
      | some ⟨_, _, some err⟩ => next err.isSome
      | _ => none
  else none

variable [Conv]

/-- The index `Replicate` is going to give its entry. -/
def entryIndex (n : Raft.Node Command Service) (data : Command) : Int :=
  match n.mem.logStore.lastIndexAndTerm with
  | .ok (lastIdx, _) => (n.mem.entryFor lastIdx data).index
  | .error _ => 0

/-- `RaftTxHandle.Commit` calls `Replicate`, up to the wait for its result. -/
def propose (S : Setting) (w : Deployment) (wr : Write) (envelope : RaftCommandEnvelope)
    (call : CallId) (fates : List Fate) : Deployment :=
  let n := w.raft.node wr.node
  let w := { w with calls := call :: w.calls, writeCalls := call :: w.writeCalls }
  match (Raft.replicate (S.cluster.env wr.node) (some envelope) call).run n fates with
  | .back (some err) n' => (w.moved (w.raft.set wr.node ⟨n', true⟩)).abortWrite wr (.commitFailed err)
  | .back none n' =>
    (w.moved (w.raft.set wr.node ⟨n', true⟩)).setWrite wr.ctx.txnID
      { wr with phase := .replicating call (entryIndex n (some envelope)) }
  | .died n' => w.moved (w.raft.set wr.node ⟨n', false⟩)

/-- `handleWrite` once all its prepare calls have ended. -/
def proceed (S : Setting) (w : Deployment) (wr : Write) (failures : Nat) (ctxDone : Bool)
    (mtime now : Int) (call : CallId) (fates : List Fate) : Deployment :=
  if failures > 0 then w.abortWrite wr (.preparesFailed failures wr.ctx.targetNodes.length)
  else
    match commitFileWrite ((w.raft.node wr.node).disk.machine.getInode ctxDone wr.req.inodeID) wr.ctx
        (wrap64 (wr.req.offset + wr.req.data.length)) mtime now with
    | .error err => w.abortWrite wr err
    | .ok envelope => w.propose S wr envelope call fates

/-- The context of a waiting `Replicate` call is done: it forgets its channel and returns. -/
def expire (w : Deployment) (wr : Write) (call : CallId) (entryIndex : Int) : Deployment :=
  match (Raft.cancel entryIndex call : Proc (Raft.Node Command Service) Unit).run
      (w.raft.node wr.node) [] with
  | .back _ n' | .died n' =>
    (w.moved (w.raft.set wr.node ⟨n', true⟩)).abortWrite wr (.commitFailed .contextDone)

end Deployment

/-! ## Moves -/

/-- A move of the deployment. `raft` is anything the replicators do besides, the calls of other clients
included. -/
inductive Move where
  | restart (id : NodeId) (clock : Nat → Int)
  | raft (a : Raft.Action Command)
  | begin (id : NodeId) (req : WriteRequest) (newChunkID txnID : Bytes) (view : ClusterView)
      (ctxDone : Bool)
  | fetch (txnID : Bytes) (view : ClusterView) (lost : Bool) (now : Int)
  | deliver (k : Nat) (fate : Chunk.WriteFate) (works : Bool) (now : Int)
  | prepared (txnID : Bytes) (k : Nat) (lost : Bool)
  | proceed (txnID : Bytes) (ctxDone : Bool) (mtime now : Int) (call : CallId) (fates : List Fate)
  | returned (txnID : Bytes) (err : Option Raft.Err)
  | expired (txnID : Bytes)
  | stopped (txnID : Bytes)

namespace Deployment

/-- Whether the replicators may do this by themselves: chunk intents come from `handleWrite` alone, and
a call has a channel of its own. -/
def foreign (w : Deployment) : Raft.Action Command → Bool
  | .restart _ => false
  | .own _ (.replicate data call) _ => ¬ isChunkIntent data ∧ call ∉ w.calls
  | .own _ (.cancel _ call) _ => call ∉ w.writeCalls
  | _ => true

/-- The calls a raft action makes. -/
def newCalls : Raft.Action Command → List CallId
  | .own _ (.replicate _ call) _ => [call]
  | _ => []

variable [Conv]

/-- One move. -/
def step (S : Setting) (w : Deployment) : Move → Option Deployment
  | .restart id clock =>
    let n := w.raft.node id
    match Service.start n.disk.machine.file clock with
    | none => none
    | some svc =>
      let w' := w.raft.set id ⟨{ n with disk := { n.disk with machine := svc } }, (w.raft.host id).up⟩
      (w'.step S.cluster S.machine (.restart id)).map w.moved
  | .raft a =>
    if w.foreign a then
      (w.raft.step S.cluster S.machine a).map fun raft =>
        { w.moved raft with calls := newCalls a ++ w.calls }
    else none
  | .begin id req newChunkID txnID view ctxDone =>
    if (w.raft.host id).up ∧ id ∈ S.cluster.ids ∧ w.writes txnID = none ∧ isUuid txnID ∧
        isUuid newChunkID then
      some (w.begin S id req newChunkID txnID view ctxDone)
    else none
  | .fetch txnID view lost now =>
    match w.active txnID with
    | some wr =>
      match wr.phase with
      | .reading todo => some (w.fetch S wr view lost now todo)
      | _ => none
    | none => none
  | .deliver k fate works now => w.deliver S k fate works now
  | .prepared txnID k lost =>
    match w.active txnID with
    | some wr =>
      match wr.phase with
      | .preparing waiting failures => w.prepared wr waiting failures k lost
      | _ => none
    | none => none
  | .proceed txnID ctxDone mtime now call fates =>
    match w.active txnID with
    | some wr =>
      match wr.phase with
      | .preparing [] failures =>
        if call ∉ w.calls then some (w.proceed S wr failures ctxDone mtime now call fates) else none
      | _ => none
    | none => none
  | .returned txnID err =>
    match w.active txnID with
    | some wr =>
      match wr.phase with
      | .replicating call _ =>
        if .notified call err ∈ (w.raft.node wr.node).events then
          match err with
          | none => some (w.commitWrite wr)
          | some err => some (w.abortWrite wr (.commitFailed err))
        else none
      | _ => none
    | none => none
  | .expired txnID =>
    match w.active txnID with
    | some wr =>
      match wr.phase with
      | .replicating call entryIndex => some (w.expire wr call entryIndex)
      | _ => none
    | none => none
  | .stopped txnID =>
    match w.active txnID with
    | some wr =>
      match wr.phase with
      | .replicating _ _ => some (w.abortWrite wr (.commitFailed .contextDone))
      | _ => none
    | none => none

end Deployment

end Sandstore.Server
