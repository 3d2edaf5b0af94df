import Sandstore.Lib.Exec
import Sandstore.Raft.Handlers

/-!
# One node and its inputs

Everything that can happen to a node is an `Input`, and `program` is the critical section it runs
for it. `step` runs one input under a list of fates for its durable writes; a node that dies in one
of them, or is crashed between two inputs, comes back through `Start` over the files it left. A
`step` that answers nothing is a node that `Start` refuses.
-/

namespace Sandstore.Raft

open Lib Lib.Proc

variable {δ σ : Type}

/-- What a node reacts to. -/
inductive Input (δ : Type) where
  | electionTimeout
  | batchTick
  | replicate (data : δ) (call : CallId)
  | cancel (entryIndex : Int) (call : CallId)
  | requestVote (req : RequestVoteArgs)
  | appendEntries (req : AppendEntriesRequest δ)
  | installSnapshot (req : InstallSnapshotRequest)
  | voteReply (peer : NodeId) (savedTerm : Nat) (reply : RequestVoteReply)
  | appendReply (w : AppendWork δ) (reply : AppendEntriesReply)
  | snapshotReply (w : SnapshotWork) (reply : InstallSnapshotReply)
  | checkCompaction

/-- What a critical section answers. -/
inductive Output where
  | nothing
  | campaign (requests : List (NodeId × RequestVoteArgs))
  | replicated (err : Option Err)
  | voted (reply : RequestVoteReply) (err : Option Err)
  | appended (reply : AppendEntriesReply) (err : Option Err)
  | installed (reply : InstallSnapshotReply) (err : Option Err)
  deriving DecidableEq

/-- The term of a reply that grants or succeeds. -/
def Output.acknowledged : Output → Option Int
  | .voted reply _ => if reply.voteGranted then some reply.term else none
  | .appended reply _ => if reply.success then some reply.term else none
  | .installed reply _ => if reply.success then some reply.term else none
  | _ => none

variable [Conv]

/-- The election ticker: a leader broadcasts instead of standing for election. -/
def electionTick (env : Env) : Proc (Node δ σ) Output := do
  let n ← read
  if n.mem.state = .leader then return .nothing
  else return .campaign (← startElection env)

/-- The batch ticker. -/
def batchTick : Proc (Node δ σ) Unit := do
  let n ← read
  if n.mem.state = .leader then flushPendingBatch else return

/-- The critical section run for an input. -/
def program (env : Env) (M : Machine δ σ) : Input δ → Proc (Node δ σ) Output
  | .electionTimeout => electionTick env
  | .batchTick => do batchTick; return .nothing
  | .replicate data call => return .replicated (← replicate env data call)
  | .cancel entryIndex call => do cancel entryIndex call; return .nothing
  | .requestVote req => do
    let (reply, err) ← handleRequestVote req
    return .voted reply err
  | .appendEntries req => do
    let (reply, err) ← handleAppendEntries M req
    return .appended reply err
  | .installSnapshot req => do
    let (reply, err) ← handleInstallSnapshot M req
    return .installed reply err
  | .voteReply peer savedTerm reply => do handleVoteReply env peer savedTerm reply; return .nothing
  | .appendReply w reply => do handleAppendReply env M w reply; return .nothing
  | .snapshotReply w reply => do handleSnapshotReply w reply; return .nothing
  | .checkCompaction => do checkCompaction env M; return .nothing

/-- A node as `Start` leaves it over the files of another, the observer's record carried on. -/
def reboot (n : Node δ σ) : Option (Node δ σ) :=
  match start n.disk with
  | .ok r => some { n with mem := r }
  | .error _ => none

/-- What can be done to one node: an input with the fates of its writes, or a crash. -/
inductive Act (δ : Type) where
  | input (i : Input δ) (fates : List Fate)
  | crash

/-- One step of one node. -/
def step (env : Env) (M : Machine δ σ) (n : Node δ σ) : Act δ → Option (Node δ σ)
  | .input i fates =>
    match (program env M i).run n fates with
    | .back _ n' => some n'
    | .died n' => reboot n'
  | .crash => reboot n

/-- A node that `Start` has just started over some files. -/
def Started (n : Node δ σ) : Prop := start n.disk = .ok n.mem

theorem reboot_eq {n n' : Node δ σ} (h : reboot n = some n') :
    start n.disk = .ok n'.mem ∧ n'.disk = n.disk ∧ n'.events = n.events := by
  unfold reboot at h
  cases hs : start n.disk with
  | error e =>
    rw [hs] at h
    cases h
  | ok r =>
    rw [hs] at h
    cases h
    exact ⟨rfl, rfl, rfl⟩

theorem start_eq {d : Disk δ σ} {r : Replicator δ} (h : start d = .ok r) : r = recovered d := by
  unfold start at h
  dsimp only at h
  split at h
  · cases h
  · split at h
    · cases h
    · split at h
      · cases h
      · cases h
        rfl

/-- What every input and every restart preserves, a step preserves. -/
theorem step_cases {env : Env} {M : Machine δ σ} {ok : Fate → Prop} {n n' : Node δ σ} {a : Act δ}
    {R : Node δ σ → Node δ σ → Prop} (hs : step env M n a = some n')
    (hfates : ∀ i fates, a = .input i fates → ∀ f ∈ fates, ok f) (hback : ∀ i, Within ok R (program env M i) n)
    (hrefl : R n n) (hreboot : ∀ m, R n m → reboot m = some n' → R n n') : R n n' := by
  cases a with
  | crash => exact hreboot n hrefl hs
  | input i fates =>
    have hrun := (hback i).run (hfates i fates rfl)
    simp only [step] at hs
    cases hr : (program env M i).run n fates with
    | back out m =>
      rw [hr] at hs hrun
      cases hs
      exact hrun
    | died m =>
      rw [hr] at hs hrun
      exact hreboot m hrun hs

/-! ## A node to compute with -/

/-- A state machine that writes down its commands. Its snapshot is the tape behind a header byte. -/
def tape : Machine Byte Bytes where
  apply b t := (t ++ [b], none)
  serializeSnapshot t := some (0 :: t)
  restoreSnapshot data t :=
    match data with
    | [] => (t, false)
    | _ :: t' => (t', true)

/-- A node over no files. -/
def Node.fresh (machine : σ) : Node δ σ := ⟨⟨none, none, none, machine⟩, {}, []⟩

theorem fresh_started (machine : σ) : Started (Node.fresh machine : Node δ σ) := rfl

/-- The node "a" of a cluster of three, without batching and without compaction. -/
def demoEnv : Env := ⟨"a", some [⟨"a", "a:1"⟩, ⟨"b", "b:1"⟩, ⟨"c", "c:1"⟩], 1, 0⟩

/-- The leader "b" of term 1 sends its first entry. -/
def firstAppend : AppendEntriesRequest Byte := ⟨1, "b", 0, 0, some [⟨1, 1, 7⟩], 0⟩

end Sandstore.Raft
