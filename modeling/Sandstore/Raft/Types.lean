import Mathlib.Algebra.Group.Int.Defs
import Mathlib.Algebra.Group.Nat.Defs
import Mathlib.Data.Int.Basic

/-!
# The replicator's data

The types `durable_raft` shares with the wire: log entries, the three RPCs with their replies, the
configuration, and the integers they are made of.

**Integers.** A node keeps terms and indices as `uint64` and the wire carries them as `int64`, so
almost every comparison of the source goes through a conversion. The state keeps them as `Nat`, the
messages as `Int`, and the conversions are the two functions of `Conv`, written where the source
writes them. `Conv.go` is what the machine computes. `Conv.exact` does not wrap; the two agree on
every value below `2 ^ 63`, and the counters start at zero and move by one, so a law about whole
clusters is stated over `Conv.exact` and a law about one handler over every `Conv`.

**Bytes.** A request carries its entries as JSON. The model carries what decoding answers, nothing
where the bytes do not decode. Entry timestamps are left out: nothing reads them.
-/

namespace Sandstore.Raft

/-! ## Integers -/

/-- The conversions between `uint64` (here `Nat`) and `int64` (here `Int`). `uint64` of an integer
is also the result of `uint64` arithmetic whose exact value is that integer. -/
class Conv where
  int64 : Nat → Int
  uint64 : Int → Nat

export Conv (int64 uint64)

/-- The conversions of the machine: two's complement at 64 bits. -/
@[reducible] def Conv.go : Conv where
  int64 n := if n % 2 ^ 64 < 2 ^ 63 then (n % 2 ^ 64 : Nat) else (n % 2 ^ 64 : Nat) - 2 ^ 64
  uint64 z := (z % 2 ^ 64).toNat

/-- The conversions on values that stay inside both types. -/
@[reducible] def Conv.exact : Conv where
  int64 n := n
  uint64 z := z.toNat

/-- `n + 1` in `uint64` arithmetic. -/
def succ64 [Conv] (n : Nat) : Nat := uint64 (n + 1)

/-! ## Identities, bytes and errors -/

/-- A node's ID. The empty string stands for no node, as in the source. -/
abbrev NodeId := String

abbrev Byte := Fin 256

-- byte literals need this proof; with a name it is the same one in every module
instance byteNeZero : @NeZero Nat Zero.ofOfNat0 256 := Nat.instNeZeroSucc

abbrev Bytes := List Byte

/-- An entry of the cluster view. -/
structure ClusterNode where
  id : NodeId
  address : String
  deriving DecidableEq, Repr

/-- The errors the modelled code returns or hands to a waiting client. -/
inductive Err where
  | logNotFound -- "log entry not found"
  | logCompacted -- "log entry compacted"
  | lastLogMissing (last : Nat) -- "last log index %d missing"
  | appendCompacted (idx compactedUntil : Nat) -- "cannot append compacted index %d <= %d"
  | writeFailed -- a step of writeFileAtomically
  | stableStoreWrite (term : Nat) -- "stable store write failed (term=%d)"
  | stableStoreFailure -- "stable store persistence failure"
  | leadershipChanged -- "leadership changed during replication"
  | notLeader (leaderID : NodeId) (leaderAddr : String) -- ErrNotLeader
  | contextDone -- the error of a caller's context
  | notFound -- inmemoryms.ErrNotFound
  | alreadyExists -- inmemoryms.ErrAlreadyExists
  | notDir -- inmemoryms.ErrNotDir
  | notEmpty -- inmemoryms.ErrNotEmpty
  | missingChild (inodeID name : Bytes) -- "missing child inode for dentry parent=%q name=%q"
  | decodeChild (parent name : Bytes) (got : Nat) -- "… invalid inode key length: got %d"
  | encodeInodeID (what : String) (inodeID : Bytes) -- "encode %s %q: %w"
  | notInitialized -- "bolt metadata service is not initialized"
  | undecodable -- the error of json.Unmarshal
  | missingOperation -- "missing metadata operation in raft envelope"
  | missingIntent -- "missing chunk intent operation in raft envelope"
  | unknownOperation (code : Int) -- "unknown operation type: %v"
  | unknownEnvelope (code : Int) -- "unknown envelope type: %v"
  | panicked -- no error: the call has panicked
  | other (text : String)
  deriving DecidableEq, Repr

/-! ## The log and the RPCs -/

/-- The role of a node. -/
inductive RaftState where
  | follower
  | candidate
  | leader
  deriving DecidableEq, Repr

/-- A replicated command at its position. -/
structure LogEntry (δ : Type) where
  index : Int
  term : Int
  data : δ
  deriving DecidableEq, Repr

structure RequestVoteArgs where
  term : Int
  candidateID : NodeId
  lastLogIndex : Int
  lastLogTerm : Int
  deriving DecidableEq, Repr

structure RequestVoteReply where
  term : Int
  voteGranted : Bool
  deriving DecidableEq, Repr

/-- `entries` is what decoding the request's JSON answers. -/
structure AppendEntriesRequest (δ : Type) where
  term : Int
  leaderID : NodeId
  prevLogIndex : Int
  prevLogTerm : Int
  entries : Option (List (LogEntry δ))
  leaderCommit : Int
  deriving DecidableEq, Repr

structure AppendEntriesReply where
  term : Int
  success : Bool
  conflictIndex : Int := 0
  conflictTerm : Int := 0
  deriving DecidableEq, Repr

structure InstallSnapshotRequest where
  term : Int
  leaderID : NodeId
  lastIncludedIndex : Int
  lastIncludedTerm : Int
  data : Bytes
  deriving DecidableEq, Repr

structure InstallSnapshotReply where
  term : Int
  success : Bool
  deriving DecidableEq, Repr

/-! ## Configuration -/

/-- What a replicator is built with: its ID, the answer of its cluster service (nothing where
`GetAllNodes` fails), and the parts of `RaftConfig` that are not durations. -/
structure Env where
  id : NodeId
  getAllNodes : Option (List ClusterNode)
  maxBatchSize : Int
  snapshotThresholdLogs : Nat
  deriving DecidableEq, Repr

/-- The state machine behind the replicator: the applier, and the two calls of
`SnapshotableStateMachine`. `restoreSnapshot` answers the state it leaves and whether it returned
without an error. -/
structure Machine (δ σ : Type) where
  apply : δ → σ → σ × Option Err
  serializeSnapshot : σ → Option Bytes
  restoreSnapshot : Bytes → σ → σ × Bool

end Sandstore.Raft
