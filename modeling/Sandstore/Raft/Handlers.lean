import Sandstore.Raft.Leader

/-!
# Followers: the three RPC handlers, compaction and start-up

`HandleRequestVote`, `HandleAppendEntries` and `HandleInstallSnapshot` as programs that answer the
reply and the error the source returns, `checkCompaction` in the three pieces its locking cuts it
into, and `Start`.

`HandleAppendEntries` is cut along its own paragraphs: the consistency check (`mismatch`), the scan
that decides what is new (`scan`), the two store calls (`appendNew`) and the commit index
(`commitTarget`).
-/

namespace Sandstore.Raft

open Lib Lib.Proc

variable {δ σ : Type} [Conv]

/-! ## RequestVote -/

/-- `logIsUpToDate`. -/
def Replicator.logIsUpToDate (r : Replicator δ) (req : RequestVoteArgs) : Bool :=
  req.lastLogTerm > int64 r.getLastLogInfo.2 ∨
    (req.lastLogTerm = int64 r.getLastLogInfo.2 ∧ req.lastLogIndex ≥ int64 r.getLastLogInfo.1)

/-- The part of `HandleRequestVote` after the terms have been compared. -/
def decideVote (req : RequestVoteArgs) : Proc (Node δ σ) (RequestVoteReply × Option Err) := do
  let n ← read
  if (n.mem.votedFor = "" ∨ n.mem.votedFor = req.candidateID) ∧ n.mem.logIsUpToDate req then do
    update fun n => n.withMem fun r => { r with votedFor := req.candidateID }
    if ← persistStable then return (⟨int64 n.mem.currentTerm, true⟩, none)
    else do
      let err ← handleStableStoreFailure (.stableStoreWrite n.mem.currentTerm)
      return (⟨int64 n.mem.currentTerm, false⟩, err)
  else return (⟨int64 n.mem.currentTerm, false⟩, none)

/-- `HandleRequestVote`. -/
def handleRequestVote (req : RequestVoteArgs) :
    Proc (Node δ σ) (RequestVoteReply × Option Err) := do
  let n ← read
  if req.term < int64 n.mem.currentTerm then return (⟨int64 n.mem.currentTerm, false⟩, none)
  else if req.term > int64 n.mem.currentTerm then do
    match ← stepDown (uint64 req.term) "" with
    | some err =>
      let n ← read
      return (⟨int64 n.mem.currentTerm, false⟩, some err)
    | none => decideVote req
  else decideVote req

/-! ## AppendEntries -/

/-- The consistency check of `HandleAppendEntries` on the entry before the request's own: the
conflict index and term it replies, or nothing where the check passes. -/
def Replicator.mismatch (r : Replicator δ) (req : AppendEntriesRequest δ) : Option (Int × Int) :=
  if uint64 req.prevLogIndex < r.lastIncludedIndex then
    some (int64 (succ64 r.lastIncludedIndex), 0)
  else if req.prevLogIndex = int64 r.lastIncludedIndex then
    if req.prevLogTerm ≠ int64 r.lastIncludedTerm then
      some (int64 r.lastIncludedIndex, int64 r.lastIncludedTerm)
    else none
  else if req.prevLogIndex > 0 then
    match r.logStore.getLog (uint64 req.prevLogIndex) with
    | .error _ =>
      match r.logStore.lastIndexAndTerm with
      | .ok (lastIdx, _) => some (int64 (succ64 lastIdx), 0)
      | .error _ => some (int64 (succ64 0), 0)
    | .ok prevEntry =>
      if prevEntry.term ≠ req.prevLogTerm then some (req.prevLogIndex, prevEntry.term) else none
  else none

/-- What the scan over a request's entries decides: nothing is new, the entries from here on are
new, or they are and the log has to be cut at an index first. -/
inductive Merge (δ : Type) where
  | upToDate
  | append (newLogs : List (LogEntry δ))
  | conflict (index : Nat) (newLogs : List (LogEntry δ))
  deriving DecidableEq

/-- The loop of `HandleAppendEntries` over the request's entries. -/
def Replicator.scan (r : Replicator δ) : List (LogEntry δ) → Merge δ
  | [] => .upToDate
  | entry :: entries =>
    if uint64 entry.index ≤ r.lastIncludedIndex then r.scan entries
    else
      match r.logStore.getLog (uint64 entry.index) with
      | .ok existing =>
        if existing.term ≠ entry.term then .conflict (uint64 entry.index) (entry :: entries)
        else r.scan entries
      | .error _ => .append (entry :: entries)

/-- The store calls of `HandleAppendEntries`, and the error of the one that failed. -/
def appendNew : Merge δ → Proc (Node δ σ) (Option Err)
  | .upToDate => return none
  | .append newLogs => storeLogs newLogs
  | .conflict index newLogs => do
    match ← deleteRange index none with
    | some err => return some err
    | none => storeLogs newLogs

/-- The commit index `HandleAppendEntries` moves to when the leader's is ahead. -/
def Replicator.commitTarget (r : Replicator δ) (leaderCommit lastIdx : Nat) : Nat :=
  let targetCommit := if leaderCommit > lastIdx then lastIdx else leaderCommit
  if targetCommit < r.lastIncludedIndex then r.lastIncludedIndex else targetCommit

/-- The part of `HandleAppendEntries` after the entries are in the log. -/
def followCommit (M : Machine δ σ) (req : AppendEntriesRequest δ) :
    Proc (Node δ σ) AppendEntriesReply := do
  let n ← read
  match n.mem.logStore.lastIndexAndTerm with
  | .error _ => return ⟨int64 n.mem.currentTerm, false, 0, 0⟩
  | .ok (lastIdx, _) =>
    if uint64 req.leaderCommit > n.mem.commitIndex then do
      update fun n => n.withMem fun r =>
        { r with commitIndex := r.commitTarget (uint64 req.leaderCommit) lastIdx }
      applyLogs M
      return ⟨int64 n.mem.currentTerm, true, 0, 0⟩
    else return ⟨int64 n.mem.currentTerm, true, 0, 0⟩

/-- The part of `HandleAppendEntries` after the terms have been compared. -/
def acceptEntries (M : Machine δ σ) (req : AppendEntriesRequest δ) :
    Proc (Node δ σ) AppendEntriesReply := do
  update fun n => n.withMem fun r => { r with state := .follower, leaderID := req.leaderID }
  let n ← read
  match n.mem.mismatch req with
  | some (conflictIndex, conflictTerm) =>
    return ⟨int64 n.mem.currentTerm, false, conflictIndex, conflictTerm⟩
  | none =>
    match req.entries with
    | none => return ⟨int64 n.mem.currentTerm, false, 0, 0⟩
    | some entries => do
      match ← appendNew (n.mem.scan entries) with
      | some _ => return ⟨int64 n.mem.currentTerm, false, 0, 0⟩
      | none => followCommit M req

/-- `HandleAppendEntries`. -/
def handleAppendEntries (M : Machine δ σ) (req : AppendEntriesRequest δ) :
    Proc (Node δ σ) (AppendEntriesReply × Option Err) := do
  let n ← read
  if req.term < int64 n.mem.currentTerm then
    return (⟨int64 n.mem.currentTerm, false, 0, 0⟩, none)
  else if req.term > int64 n.mem.currentTerm then do
    match ← stepDown (uint64 req.term) req.leaderID with
    -- the reply still carries the term from before the step-down
    | some err => return (⟨int64 n.mem.currentTerm, false, 0, 0⟩, some err)
    | none => return (← acceptEntries M req, none)
  else return (← acceptEntries M req, none)

/-! ## InstallSnapshot -/

/-- `retainSuffix`: whether the log holds the snapshot's last entry. -/
def Replicator.retainSuffix (r : Replicator δ) (incomingIndex incomingTerm : Nat) : Bool :=
  match r.logStore.getLog incomingIndex with
  | .ok entry => uint64 entry.term = incomingTerm
  | .error _ => false

/-- `RestoreSnapshot` of the state machine: whether it returned without an error. -/
def restoreSnapshot (M : Machine δ σ) (data : Bytes) : Proc (Node δ σ) Bool :=
  .step
    (fun n => (n, some fun n =>
      { n with disk := { n.disk with machine := (M.restoreSnapshot data n.disk.machine).1 } }))
    fun n wrote => .ret (wrote && (M.restoreSnapshot data n.disk.machine).2)

/-- The discard branch of `HandleInstallSnapshot`: whether it got to its end. -/
def discardLog (M : Machine δ σ) (data : Bytes) : Proc (Node δ σ) Bool := do
  let n ← read
  match n.mem.logStore.lastIndexAndTerm with
  | .error _ => return false
  | .ok (lastIdx, _) =>
    match ← deleteRange 0 (some lastIdx) with
    | some _ => return false
    | none => restoreSnapshot M data

/-- The retain branch of `HandleInstallSnapshot`: whether it got to its end. -/
def retainLog (incomingIndex : Nat) : Proc (Node δ σ) Bool := do
  match ← deleteRange 0 (some incomingIndex) with
  | some _ => return false
  | none => return true

/-- The two branches of `HandleInstallSnapshot`. -/
def settleLog (M : Machine δ σ) (retainSuffix : Bool) (incomingIndex : Nat) (data : Bytes) :
    Proc (Node δ σ) Bool :=
  if retainSuffix then retainLog incomingIndex else discardLog M data

omit [Conv] in
/-- The assignments at the end of `HandleInstallSnapshot`. -/
def Replicator.adopt (r : Replicator δ) (incomingIndex incomingTerm : Nat) : Replicator δ :=
  { r with
    lastIncludedIndex := incomingIndex
    lastIncludedTerm := incomingTerm
    commitIndex := if r.commitIndex < incomingIndex then incomingIndex else r.commitIndex
    lastApplied := if r.lastApplied < incomingIndex then incomingIndex else r.lastApplied }

/-- The part of `HandleInstallSnapshot` after the terms have been compared. -/
def acceptSnapshot (M : Machine δ σ) (req : InstallSnapshotRequest) :
    Proc (Node δ σ) InstallSnapshotReply := do
  update fun n => n.withMem fun r => { r with state := .follower, leaderID := req.leaderID }
  let n ← read
  let incomingIndex := uint64 req.lastIncludedIndex
  let incomingTerm := uint64 req.lastIncludedTerm
  if incomingIndex ≤ n.mem.lastIncludedIndex then return ⟨int64 n.mem.currentTerm, true⟩
  else
    if ← saveSnapshot ⟨⟨incomingIndex, incomingTerm⟩, req.data⟩ then do
      if ← settleLog M (n.mem.retainSuffix incomingIndex incomingTerm) incomingIndex req.data then do
        update fun n => n.withMem (·.adopt incomingIndex incomingTerm)
        return ⟨int64 n.mem.currentTerm, true⟩
      else return ⟨int64 n.mem.currentTerm, false⟩
    else return ⟨int64 n.mem.currentTerm, false⟩

/-- `HandleInstallSnapshot`. -/
def handleInstallSnapshot (M : Machine δ σ) (req : InstallSnapshotRequest) :
    Proc (Node δ σ) (InstallSnapshotReply × Option Err) := do
  let n ← read
  if req.term < int64 n.mem.currentTerm then return (⟨int64 n.mem.currentTerm, false⟩, none)
  else if req.term > int64 n.mem.currentTerm then do
    match ← stepDown (uint64 req.term) req.leaderID with
    | some err => return (⟨int64 n.mem.currentTerm, false⟩, some err)
    | none => return (← acceptSnapshot M req, none)
  else return (← acceptSnapshot M req, none)

/-! ## Compaction -/

/-- The first locked section of `checkCompaction`: the index and term it is going to label its
snapshot with, if it takes one. -/
def Replicator.chooseSnapshot (r : Replicator δ) (snapshotThresholdLogs : Nat) :
    Option (Nat × Nat) :=
  if snapshotThresholdLogs = 0 then none
  else if r.lastApplied ≤ r.lastIncludedIndex then none
  else if r.lastApplied - r.lastIncludedIndex < snapshotThresholdLogs then none
  else
    match r.logStore.getLog r.lastApplied with
    | .ok entry => some (r.lastApplied, uint64 entry.term)
    | .error _ => some (r.lastApplied, r.lastIncludedTerm)

/-- What `checkCompaction` does with the serialized state, without the lock: whether it got to its
end. -/
def keepSnapshot (snapshotIndex snapshotTerm : Nat) (snapshotData : Bytes) :
    Proc (Node δ σ) Bool := do
  if ← saveSnapshot ⟨⟨snapshotIndex, snapshotTerm⟩, snapshotData⟩ then
    match ← deleteRange 0 (some snapshotIndex) with
    | some _ => return false
    | none => return true
  else return false

/-- What `checkCompaction` does without the lock. -/
def compact (M : Machine δ σ) (snapshotIndex snapshotTerm : Nat) : Proc (Node δ σ) Bool := do
  let n ← read
  match M.serializeSnapshot n.disk.machine with
  | none => return false
  | some snapshotData => keepSnapshot snapshotIndex snapshotTerm snapshotData

omit [Conv] in
/-- The last locked section of `checkCompaction`. -/
def Replicator.publish (r : Replicator δ) (snapshotIndex snapshotTerm : Nat) : Replicator δ :=
  if snapshotIndex > r.lastIncludedIndex then
    { r with lastIncludedIndex := snapshotIndex, lastIncludedTerm := snapshotTerm }
  else r

/-- `checkCompaction` with nobody else moving. -/
def checkCompaction (env : Env) (M : Machine δ σ) : Proc (Node δ σ) Unit := do
  let n ← read
  match n.mem.chooseSnapshot env.snapshotThresholdLogs with
  | none => return
  | some (snapshotIndex, snapshotTerm) =>
    if ← compact M snapshotIndex snapshotTerm then
      update fun n => n.withMem (·.publish snapshotIndex snapshotTerm)
    else return

/-! ## Start -/

/-- The errors of `Start` on readable files. -/
inductive StartErr where
  | snapshotWithoutData -- "snapshot meta exists without snapshot data"
  | loadLogState (err : Err) -- "load log state: %w"
  | walBehindSnapshot (lastIdx lastIncluded : Nat) -- "wal behind snapshot: ..."
  deriving DecidableEq, Repr

/-- What `Start` has read before it looks at the log. -/
def recovered (d : Disk δ σ) : Replicator δ :=
  let r : Replicator δ :=
    { currentTerm := (getState d.stable).term
      votedFor := (getState d.stable).votedFor
      logStore := FileLogStore.load d.wal }
  let snapshotMeta := (loadSnapshot d.snapshot).1
  if snapshotMeta.lastIncludedIndex > 0 then
    { r with
      lastIncludedIndex := snapshotMeta.lastIncludedIndex
      lastIncludedTerm := snapshotMeta.lastIncludedTerm
      commitIndex := snapshotMeta.lastIncludedIndex
      lastApplied := snapshotMeta.lastIncludedIndex }
  else r

/-- `Start` of a replicator over freshly opened stores. -/
def start (d : Disk δ σ) : Except StartErr (Replicator δ) :=
  let (snapshotMeta, snapshotData) := loadSnapshot d.snapshot
  if snapshotMeta.lastIncludedIndex > 0 ∧ snapshotData = [] then .error .snapshotWithoutData
  else
    let r := recovered d
    match r.logStore.lastIndexAndTerm with
    | .error err => .error (.loadLogState err)
    | .ok (lastIdx, _) =>
      if lastIdx < r.lastIncludedIndex then
        .error (.walBehindSnapshot lastIdx r.lastIncludedIndex)
      else .ok r

end Sandstore.Raft
