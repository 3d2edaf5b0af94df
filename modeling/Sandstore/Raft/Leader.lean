import Sandstore.Raft.Node

/-!
# Candidates and leaders

The critical sections a node enters on its own account: starting an election, taking a vote reply,
building the work of one broadcast, taking an append or a snapshot reply, and moving the commit
index.

The goroutines of an election share `votesReceived`, and each of them takes one reply and ends.
`Election.waiting` is the set of those still alive, so a reply that the network delivers twice is
counted once. Nothing of the kind protects the replies of a broadcast, and nothing has to: every
broadcast starts goroutines of its own, and a reply only ever raises a `matchIndex`.
-/

namespace Sandstore.Raft

open Lib Lib.Proc

variable {δ σ : Type} [Conv]

/-! ## Elections -/

/-- The assignments of `becomeLeaderLocked`. -/
def Replicator.lead (r : Replicator δ) (id : NodeId) (nodes : List ClusterNode) : Replicator δ :=
  let lastIdx := r.getLastLogInfo.1
  { r with
    state := .leader
    leaderID := id
    nextIndex := fun p => if p ∈ nodes.map (·.id) then succ64 lastIdx else r.nextIndex p
    matchIndex := fun p =>
      if p = id then lastIdx
      else if p ∈ nodes.map (·.id) then r.lastIncludedIndex
      else r.matchIndex p }

/-- `becomeLeaderLocked`, less the broadcast it starts. The batch of its flush is taken with the
other assignments. -/
def becomeLeader (env : Env) (nodes : List ClusterNode) : Proc (Node δ σ) Unit := do
  let n ← read
  update fun n => (n.withMem fun r => { r.lead env.id nodes with pendingBatch := [] }).emit
    (.becameLeader n.mem.currentTerm)
  storeBatch n.mem.pendingBatch

/-- The peers of a node: every other node of the cluster view. -/
def peersOf (id : NodeId) (nodes : List ClusterNode) : List NodeId :=
  (nodes.map (·.id)).filter (· ≠ id)

/-- The request of the election a candidate has just started. -/
def Replicator.voteRequest (r : Replicator δ) (id : NodeId) : RequestVoteArgs :=
  ⟨int64 r.currentTerm, id, int64 r.getLastLogInfo.1, int64 r.getLastLogInfo.2⟩

/-- `startElectionLocked`: the requests its goroutines are going to send, each with its peer. -/
def startElection (env : Env) : Proc (Node δ σ) (List (NodeId × RequestVoteArgs)) := do
  update fun n => n.withMem fun r =>
    { r with state := .candidate, currentTerm := succ64 r.currentTerm, votedFor := env.id }
  let n ← read
  if ← persistStable then
    match env.getAllNodes with
    | none => return []
    | some nodes =>
      if nodes.length = 1 then do
        becomeLeader env nodes
        return []
      else do
        let peers := peersOf env.id nodes
        update fun n => n.withMem fun r =>
          { r with election := some ⟨r.currentTerm, 1, nodes.length / 2 + 1, peers⟩ }
        return peers.map fun p => (p, n.mem.voteRequest env.id)
  else do
    let _ ← handleStableStoreFailure (.stableStoreWrite n.mem.currentTerm)
    return []

/-- The reply of `peer` reaches its goroutine of the election at `savedTerm`. The cluster view the
goroutine holds is the one its election was started with. -/
def handleVoteReply (env : Env) (peer : NodeId) (savedTerm : Nat) (reply : RequestVoteReply) :
    Proc (Node δ σ) Unit := do
  let n ← read
  match n.mem.election with
  | none => return
  | some el =>
    if el.savedTerm ≠ savedTerm ∨ peer ∉ el.waiting then return
    else do
      let el := { el with waiting := el.waiting.erase peer }
      update fun n => n.withMem fun r => { r with election := some el }
      if n.mem.state ≠ .candidate ∨ n.mem.currentTerm ≠ savedTerm then return
      else if reply.term > int64 n.mem.currentTerm then do
        let _ ← stepDown (uint64 reply.term) ""
        return
      else if reply.voteGranted then do
        let votes := el.votesReceived + 1
        update fun n => n.withMem fun r =>
          { r with election := some { el with votesReceived := votes } }
        if votes ≥ el.quorum then becomeLeader env (env.getAllNodes.getD [])
        else return
      else return

/-! ## Broadcasts -/

/-- `appendWork`. -/
structure AppendWork (δ : Type) where
  node : NodeId
  prevLogIndex : Int
  prevLogTerm : Int
  entries : List (LogEntry δ)
  term : Nat
  commitIndex : Nat
  deriving DecidableEq

/-- `snapshotWork`. -/
structure SnapshotWork where
  node : NodeId
  req : InstallSnapshotRequest
  term : Nat
  deriving DecidableEq

/-- What one broadcast has to do for one peer. -/
inductive Work (δ : Type) where
  | append (w : AppendWork δ)
  | snapshot (w : SnapshotWork)
  deriving DecidableEq

omit [Conv] in
/-- The entries of the log from `idx` on, at most `count` of them, up to the first one missing. -/
def FileLogStore.slice (s : FileLogStore δ) : Nat → Nat → List (LogEntry δ)
  | _, 0 => []
  | idx, count + 1 =>
    match s.getLog idx with
    | .error _ => []
    | .ok entry => entry :: s.slice (idx + 1) count

omit [Conv] in
/-- Every entry of a slice is in the log. -/
theorem FileLogStore.getLog_of_mem_slice {s : FileLogStore δ} {idx count : Nat} {e : LogEntry δ} (h : e ∈ s.slice idx count) :
    ∃ k, s.getLog k = .ok e := by
  induction count generalizing idx with
  | zero => cases h
  | succ count ih =>
    rw [FileLogStore.slice] at h
    cases hget : s.getLog idx with
    | error err => simp [hget] at h
    | ok entry =>
      rw [hget] at h
      rcases List.mem_cons.mp h with rfl | hrest
      · exact ⟨idx, hget⟩
      · exact ih hrest

/-- The snapshot work for a peer, from the snapshot on disk. -/
def Node.snapshotWork (n : Node δ σ) (id peer : NodeId) : Work δ :=
  let (snapshotMeta, snapshotData) := loadSnapshot n.disk.snapshot
  .snapshot
    { node := peer
      req := ⟨int64 n.mem.currentTerm, id, int64 snapshotMeta.lastIncludedIndex,
        int64 snapshotMeta.lastIncludedTerm, snapshotData⟩
      term := n.mem.currentTerm }

/-- The append work for a peer whose next index is `nextIdx`, given the term before it. -/
def Replicator.appendWork (r : Replicator δ) (peer : NodeId) (nextIdx : Nat) (prevLogTerm : Int) :
    Work δ :=
  .append
    { node := peer
      prevLogIndex := int64 (nextIdx - 1)
      prevLogTerm := prevLogTerm
      entries := r.logStore.slice nextIdx (r.getLastLogInfo.1 + 1 - nextIdx)
      term := r.currentTerm
      commitIndex := r.commitIndex }

/-- The next index a broadcast starts from. A peer the leader has no index for starts after the
snapshot. -/
def Replicator.nextFor (r : Replicator δ) (peer : NodeId) : Nat :=
  if r.nextIndex peer = 0 then succ64 r.lastIncludedIndex else r.nextIndex peer

/-- One round of the loop of `broadcastAppendEntries`; nothing where the source skips the peer. -/
def Node.workFor (n : Node δ σ) (id peer : NodeId) : Option (Work δ) :=
  let r := n.mem
  let (snapshotMeta, snapshotData) := loadSnapshot n.disk.snapshot
  let nextIdx := r.nextFor peer
  if nextIdx ≤ r.lastIncludedIndex then
    if snapshotMeta.lastIncludedIndex = 0 ∨ snapshotData = [] then none
    else some (n.snapshotWork id peer)
  else if nextIdx - 1 = r.lastIncludedIndex then
    some (r.appendWork peer nextIdx (int64 r.lastIncludedTerm))
  else if nextIdx - 1 > 0 then
    match r.logStore.getLog (nextIdx - 1) with
    | .ok entry => some (r.appendWork peer nextIdx entry.term)
    | .error err =>
      if err = .logCompacted ∧ snapshotMeta.lastIncludedIndex > 0 then
        some (n.snapshotWork id peer)
      else none
  else some (r.appendWork peer nextIdx 0)

/-- `broadcastAppendEntries`: the work its goroutines are going to do. It changes nothing. -/
def broadcastAppendEntries (env : Env) (n : Node δ σ) : List (Work δ) :=
  if n.mem.state ≠ .leader then []
  else
    match env.getAllNodes with
    | none => []
    | some nodes => (peersOf env.id nodes).filterMap (n.workFor env.id)

/-- The request of `replicateAppendEntries`. -/
def AppendWork.request (w : AppendWork δ) (id : NodeId) : AppendEntriesRequest δ :=
  { term := int64 w.term
    leaderID := id
    prevLogIndex := w.prevLogIndex
    prevLogTerm := w.prevLogTerm
    entries := some w.entries
    leaderCommit := int64 w.commitIndex }

/-! ## Replies -/

omit [Conv] in
/-- The nodes that hold the log up to `n` by the leader's own count: itself, and every peer whose
match index has come this far. -/
def Replicator.matchCount (r : Replicator δ) (id : NodeId) (nodes : List ClusterNode) (n : Nat) :
    Nat :=
  1 + ((peersOf id nodes).filter fun p => r.matchIndex p ≥ n).length

/-- Whether `advanceCommitIndexLocked` may commit up to `n`. -/
def Replicator.committable (r : Replicator δ) (id : NodeId) (nodes : List ClusterNode) (n : Nat) :
    Bool :=
  match r.logStore.getLog n with
  | .error _ => false
  | .ok entry => entry.term = int64 r.currentTerm ∧ r.matchCount id nodes n > nodes.length / 2

/-- The search of `advanceCommitIndexLocked`: the first index it may commit, from `n` down to the
one above `commitIndex`. -/
def Replicator.commitFrom (r : Replicator δ) (id : NodeId) (nodes : List ClusterNode) :
    Nat → Option Nat
  | 0 => none
  | n + 1 =>
    if n + 1 > r.commitIndex then
      if r.committable id nodes (n + 1) then some (n + 1) else r.commitFrom id nodes n
    else none

/-- `advanceCommitIndexLocked`. -/
def advanceCommitIndex (env : Env) (M : Machine δ σ) : Proc (Node δ σ) Unit := do
  let n ← read
  match n.mem.logStore.lastIndexAndTerm, env.getAllNodes with
  | .ok (lastIdx, _), some nodes =>
    if nodes = [] then return
    else
      match n.mem.commitFrom env.id nodes lastIdx with
      | some c => do
        update fun n => n.withMem fun r => { r with commitIndex := c }
        applyLogs M
      | none => return
  | _, _ => return

omit [Conv] in
/-- Set what the leader believes of one peer. -/
def Replicator.setPeer (r : Replicator δ) (peer : NodeId) (matchIndex nextIndex : Nat) :
    Replicator δ :=
  { r with
    matchIndex := fun p => if p = peer then matchIndex else r.matchIndex p
    nextIndex := fun p => if p = peer then nextIndex else r.nextIndex p }

/-- The index a successful reply to this work vouches for. -/
def AppendWork.newMatchIndex (w : AppendWork δ) : Nat :=
  match w.entries.getLast? with
  | some entry => uint64 entry.index
  | none => uint64 w.prevLogIndex

/-- The reply to one append work, as the end of `replicateAppendEntries` takes it. -/
def handleAppendReply (env : Env) (M : Machine δ σ) (w : AppendWork δ)
    (reply : AppendEntriesReply) : Proc (Node δ σ) Unit := do
  let n ← read
  if n.mem.state ≠ .leader ∨ n.mem.currentTerm ≠ w.term then return
  else if reply.term > int64 n.mem.currentTerm then do
    let _ ← stepDown (uint64 reply.term) ""
    return
  else if reply.success then
    if w.newMatchIndex > n.mem.matchIndex w.node then do
      update fun n => n.withMem (·.setPeer w.node w.newMatchIndex (succ64 w.newMatchIndex))
      advanceCommitIndex env M
    else return
  else if reply.conflictIndex > 0 then
    update fun n => n.withMem fun r =>
      r.setPeer w.node (r.matchIndex w.node)
        (if uint64 reply.conflictIndex < 1 then 1 else uint64 reply.conflictIndex)
  else if n.mem.nextIndex w.node > 1 then
    update fun n => n.withMem fun r =>
      r.setPeer w.node (r.matchIndex w.node) (r.nextIndex w.node - 1)
  else return

/-- The reply to one snapshot work, as the end of `replicateSnapshot` takes it. -/
def handleSnapshotReply (w : SnapshotWork) (reply : InstallSnapshotReply) :
    Proc (Node δ σ) Unit := do
  let n ← read
  if n.mem.state ≠ .leader ∨ n.mem.currentTerm ≠ w.term then return
  else if reply.term > int64 n.mem.currentTerm then do
    let _ ← stepDown (uint64 reply.term) ""
    return
  else if reply.success then
    let idx := uint64 w.req.lastIncludedIndex
    update fun n => n.withMem (·.setPeer w.node idx (succ64 idx))
  else return

end Sandstore.Raft
