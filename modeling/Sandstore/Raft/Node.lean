import Sandstore.Lib.Proc
import Sandstore.Raft.Stores

/-!
# A node

The state of `DurableRaftReplicator` and the parts every one of its critical sections is built
from: the durable writes, the apply loop, stepping down, and the client's side of `Replicate`.

A program of this and the next two modules is what the source runs under `r.mu`, so no two of them
interleave on one node. What a goroutine does without that lock is not part of it: a critical
section answers the requests its goroutines are going to send, and their replies come back as
critical sections of their own. A store call is one atomic step, as it holds the store's lock from
its first line to the end of its write.

The node's `events` are its observable outputs: applier calls, results handed to clients, elections
won. They outlive a crash, being what an observer wrote down and not what the node remembers.
Clocks, metrics and the log service are left out. `Locked` is dropped from the source's names.
-/

namespace Sandstore.Raft

open Lib Lib.Proc

/-! ## State -/

/-- The identity of one `Replicate` call, that is, of its result channel. -/
abbrev CallId := Nat

inductive Event (δ : Type) where
  | applied (index : Nat) (data : δ) -- the applier was called
  | notified (call : CallId) (err : Option Err) -- a Replicate call got its result
  | becameLeader (term : Nat)
  deriving DecidableEq

/-- The variables the goroutines of one election share, and the peers whose goroutine has not yet
taken its reply. -/
structure Election where
  savedTerm : Nat
  votesReceived : Nat
  quorum : Nat
  waiting : List NodeId
  deriving DecidableEq

/-- `DurableRaftReplicator`, with the in-memory part of its log store. -/
structure Replicator (δ : Type) where
  state : RaftState := .follower
  currentTerm : Nat := 0
  votedFor : NodeId := ""
  commitIndex : Nat := 0
  lastApplied : Nat := 0
  lastIncludedIndex : Nat := 0
  lastIncludedTerm : Nat := 0
  nextIndex : NodeId → Nat := fun _ => 0
  matchIndex : NodeId → Nat := fun _ => 0
  leaderID : NodeId := ""
  logStore : FileLogStore δ := FileLogStore.empty
  pendingBatch : List (LogEntry δ) := []
  pendingClients : OrdMap Int CallId := ∅
  election : Option Election := none

/-- The files of a node, and the state machine behind it. -/
structure Disk (δ σ : Type) where
  stable : Option StableState
  snapshot : Option SnapshotFile
  wal : Option (WalFile δ)
  machine : σ

structure Node (δ σ : Type) where
  disk : Disk δ σ
  mem : Replicator δ
  events : List (Event δ) := []

variable {δ σ : Type}

/-- Change what the node remembers. -/
def Node.withMem (n : Node δ σ) (f : Replicator δ → Replicator δ) : Node δ σ :=
  { n with mem := f n.mem }

/-- Change the in-memory part of the log store. -/
def Node.withLog (n : Node δ σ) (s : FileLogStore δ) : Node δ σ :=
  n.withMem fun r => { r with logStore := s }

/-- Write down one output. -/
def Node.emit (n : Node δ σ) (e : Event δ) : Node δ σ := { n with events := n.events ++ [e] }

/-- Send a result on the channel registered at an index, close it and forget it. -/
def Node.notify (n : Node δ σ) (index : Int) (err : Option Err) : Node δ σ :=
  match n.mem.pendingClients.get index with
  | some call =>
    (n.withMem fun r => { r with pendingClients := r.pendingClients.erase index }).emit
      (.notified call err)
  | none => n

/-- `failAllPendingLocked`. -/
def Node.failAllPending (n : Node δ σ) (err : Err) : Node δ σ :=
  { n with
    mem := { n.mem with pendingBatch := [], pendingClients := ∅ }
    events := n.events ++ n.mem.pendingClients.values.map (fun call => .notified call (some err)) }

/-! ## Stable state -/

/-- The write of `SetState` with the term and the vote in memory. -/
def Node.putStable (n : Node δ σ) : Node δ σ :=
  { n with disk := { n.disk with stable := some ⟨n.mem.currentTerm, n.mem.votedFor⟩ } }

/-- `persistStableLocked`: whether the write returned without an error. -/
def persistStable : Proc (Node δ σ) Bool := write Node.putStable

/-- `handleStableStoreFailureLocked`. -/
def handleStableStoreFailure (err : Err) : Proc (Node δ σ) (Option Err) := do
  update fun n =>
    (n.withMem fun r => { r with state := .follower }).failAllPending .stableStoreFailure
  return some err

/-- The assignments of `stepDownLocked`, made before its write. -/
def Node.demote (n : Node δ σ) (newTerm : Nat) (leaderID : NodeId) : Node δ σ :=
  (n.withMem fun r =>
    { r with
      state := .follower
      currentTerm := newTerm
      votedFor := ""
      leaderID := if leaderID ≠ "" then leaderID else r.leaderID }).failAllPending
    .leadershipChanged

/-- `stepDownLocked`. A failing write leaves the new term and the empty vote in memory. -/
def stepDown (newTerm : Nat) (leaderID : NodeId) : Proc (Node δ σ) (Option Err) := do
  update fun n => n.demote newTerm leaderID
  if ← persistStable then return none
  else handleStableStoreFailure (.stableStoreWrite newTerm)

/-! ## Log and snapshot -/

/-- The write of the log store's `persistLocked`. -/
def Node.putWal [Conv] (n : Node δ σ) : Node δ σ :=
  { n with disk := { n.disk with wal := some n.mem.logStore.file } }

/-- `FileLogStore.StoreLogs`: the map is changed first, and a failing write does not undo it. -/
def storeLogs [Conv] (entries : List (LogEntry δ)) : Proc (Node δ σ) (Option Err) :=
  .step
    (fun n =>
      (n.withLog (n.mem.logStore.storeLoop entries).1,
        match (n.mem.logStore.storeLoop entries).2 with
        | some _ => none
        | none => some Node.putWal))
    fun n wrote => .ret <|
      match (n.mem.logStore.storeLoop entries).2 with
      | some err => some err
      | none => if wrote then none else some .writeFailed

/-- `FileLogStore.DeleteRange`. -/
def deleteRange [Conv] (min : Nat) (max : Option Nat) : Proc (Node δ σ) (Option Err) :=
  .step
    (fun n =>
      match n.mem.logStore.deleteRange min max with
      | none => (n, none)
      | some s => (n.withLog s, some Node.putWal))
    fun _ wrote => .ret (if wrote then none else some .writeFailed)

/-- `FileSnapshotStore.SaveSnapshot`: whether the write returned without an error. -/
def saveSnapshot (snap : SnapshotFile) : Proc (Node δ σ) Bool :=
  write fun n => { n with disk := { n.disk with snapshot := some snap } }

/-- `getLastLogInfoLocked`. -/
def Replicator.getLastLogInfo [Conv] (r : Replicator δ) : Nat × Nat :=
  match r.logStore.lastIndexAndTerm with
  | .error _ => (r.lastIncludedIndex, r.lastIncludedTerm)
  | .ok (idx, term) =>
    if idx = r.lastIncludedIndex ∧ term = 0 then (r.lastIncludedIndex, r.lastIncludedTerm)
    else (idx, term)

/-! ## Applying -/

/-- The applier's call for one entry. Its transaction is a durable write of its own; the client
waiting at the entry's index gets its result. -/
def applyEntry (M : Machine δ σ) (nextIndex : Nat) (entry : LogEntry δ) : Proc (Node δ σ) Unit :=
  .step
    (fun n =>
      ((n.withMem fun r => { r with lastApplied := nextIndex }).emit
          (.applied nextIndex entry.data),
        some fun n =>
          { n with disk := { n.disk with machine := (M.apply entry.data n.disk.machine).1 } }))
    fun n wrote => update fun n' =>
      n'.notify entry.index
        (if wrote then (M.apply entry.data n.disk.machine).2 else some .writeFailed)

/-- The loop of `applyLogsLocked`, for at most `fuel` rounds. -/
def applyLoop (M : Machine δ σ) : Nat → Proc (Node δ σ) Unit
  | 0 => return
  | fuel + 1 => do
    let n ← read
    if n.mem.lastApplied < n.mem.commitIndex then
      let nextIndex := n.mem.lastApplied + 1
      if nextIndex ≤ n.mem.lastIncludedIndex then do
        update fun n => n.withMem fun r => { r with lastApplied := nextIndex }
        applyLoop M fuel
      else
        match n.mem.logStore.getLog nextIndex with
        | .error _ => return
        | .ok entry => do
          applyEntry M nextIndex entry
          applyLoop M fuel
    else return

/-- `applyLogsLocked`. Every round raises `lastApplied`, so the distance to `commitIndex` is fuel
enough. -/
def applyLogs (M : Machine δ σ) : Proc (Node δ σ) Unit := do
  let n ← read
  applyLoop M (n.mem.commitIndex - n.mem.lastApplied)

/-! ## Client commands -/

/-- Hand one error to every client waiting at one of these entries. -/
def Node.notifyAll (n : Node δ σ) (batch : List (LogEntry δ)) (err : Err) : Node δ σ :=
  batch.foldl (fun n entry => n.notify entry.index (some err)) n

/-- What `flushPendingBatchLocked` does with the batch it has taken, less the broadcast it starts. -/
def storeBatch [Conv] (batch : List (LogEntry δ)) : Proc (Node δ σ) Unit := do
  if batch = [] then return
  else
    match ← storeLogs batch with
    | some err => update fun n => n.notifyAll batch err
    | none => return

/-- `flushPendingBatchLocked`. -/
def flushPendingBatch [Conv] : Proc (Node δ σ) Unit := do
  let n ← read
  update fun n => n.withMem fun r => { r with pendingBatch := [] }
  storeBatch n.mem.pendingBatch

/-- `findLeaderAddrLocked`. -/
def findLeaderAddr (env : Env) (leaderID : NodeId) : String :=
  if leaderID = "" then ""
  else
    match env.getAllNodes with
    | none => ""
    | some nodes =>
      match nodes.find? (fun n => n.id = leaderID) with
      | some n => n.address
      | none => ""

/-- The entry `Replicate` makes of its data when the log ends at `lastIdx`. -/
def Replicator.entryFor [Conv] (r : Replicator δ) (lastIdx : Nat) (data : δ) : LogEntry δ :=
  ⟨int64 (uint64 (int64 lastIdx + r.pendingBatch.length + 1)), int64 r.currentTerm, data⟩

/-- `Replicate` up to the wait for its result; an error where it returns at once. -/
def replicate [Conv] (env : Env) (data : δ) (call : CallId) : Proc (Node δ σ) (Option Err) := do
  let n ← read
  if n.mem.state ≠ .leader then
    return some (.notLeader n.mem.leaderID (findLeaderAddr env n.mem.leaderID))
  else
    match n.mem.logStore.lastIndexAndTerm with
    | .error err => return some err
    | .ok (lastIdx, _) => do
      let entry := n.mem.entryFor lastIdx data
      update fun n => n.withMem fun r =>
        { r with
          pendingBatch := r.pendingBatch ++ [entry]
          pendingClients := r.pendingClients.insert entry.index call }
      if env.maxBatchSize ≤ 1 ∨ env.maxBatchSize ≤ n.mem.pendingBatch.length + 1 then do
        flushPendingBatch
        return none
      else return none

/-- The branch of `Replicate` taken when the caller's context is done first. -/
def cancel (entryIndex : Int) (call : CallId) : Proc (Node δ σ) Unit :=
  update fun n =>
    (n.withMem fun r => { r with pendingClients := r.pendingClients.erase entryIndex }).emit
      (.notified call (some .contextDone))

end Sandstore.Raft
