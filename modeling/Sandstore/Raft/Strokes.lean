import Mathlib.Logic.Relation
import Sandstore.Lib.Watch
import Sandstore.Raft.Service

/-!
# What critical sections are made of

`Stroke` lists the atomic changes the critical sections of a node make, each with the tests the source has
made by then. The programs are read once, here, and `program_strokes` is the result: **every state a critical
section passes comes from strokes**, whatever becomes of its writes. An invariant that each stroke keeps is
kept by every program (`program_keeps`), and a relation that each stroke is in holds from the start of a
program to its end (`program_within`).

Two pairs of changes are strokes from the state before the first of them: the batch that is taken and then
stored, and the entry that is applied and whose client is then told. What a program may count on beyond its
tests is in its `Charter`: its input, what is known of the states it applies entries in, which entries a
call may make, and whether a leader may be told to follow by a request of its own term.
-/

namespace Sandstore.Raft

open Lib Lib.Proc

variable {δ σ : Type}

/-! ## Inputs -/

/-- The term a request claims, and for whom. -/
def Input.claim : Input δ → Option (Int × NodeId)
  | .appendEntries req => some (req.term, req.leaderID)
  | .installSnapshot req => some (req.term, req.leaderID)
  | _ => none

/-- The inputs after which the apply loop runs. -/
def Input.commits : Input δ → Bool
  | .appendEntries _ | .appendReply _ _ => true
  | _ => false

/-- The inputs after which a snapshot is saved. -/
def Input.snapshots : Input δ → Bool
  | .installSnapshot _ | .checkCompaction => true
  | _ => false

/-- The replies to a leader's requests. -/
def Input.answers : Input δ → Bool
  | .appendReply _ _ | .snapshotReply _ _ => true
  | _ => false

/-- The inputs that have to do with an election of the node's own. -/
def Input.seeksOffice : Input δ → Bool
  | .electionTimeout => true
  | .voteReply _ _ _ => true
  | _ => false

/-- The inputs after which the batch is stored. -/
def Input.flushes : Input δ → Bool
  | .batchTick | .replicate _ _ => true
  | i => i.seeksOffice

theorem Input.flushes_of_seeksOffice {i : Input δ} (h : i.seeksOffice = true) : i.flushes = true := by
  cases i with
  | electionTimeout | voteReply => rfl
  | _ => cases h

/-! ## Strokes -/

/-- What a critical section may count on. -/
structure Charter (δ σ : Type) where
  input : Input δ
  machine : Machine δ σ
  seen : Node δ σ → Prop
  may : CallId → LogEntry δ → Prop
  deposes : Prop

/-- A charter that promises nothing. -/
def Charter.plain (M : Machine δ σ) (i : Input δ) : Charter δ σ := ⟨i, M, fun _ => True, fun _ _ => True, True⟩

/-- The applier has been called on the next entry, and its machine is in this state. -/
def Node.applied (n : Node δ σ) (entry : LogEntry δ) (m : σ) : Node δ σ :=
  { (n.withMem fun r => { r with lastApplied := n.mem.lastApplied + 1 }).emit
      (.applied (n.mem.lastApplied + 1) entry.data) with
    disk := { n.disk with machine := m } }

/-- The next entry is applied, and the applier's write has left its machine in this state. -/
structure Applies (c : Charter δ σ) (n : Node δ σ) (entry : LogEntry δ) (m : σ) : Prop where
  input : c.input.commits = true
  seen : c.seen n
  below : n.mem.lastApplied < n.mem.commitIndex
  beyond : ¬ n.mem.lastApplied + 1 ≤ n.mem.lastIncludedIndex
  get : n.mem.logStore.getLog (n.mem.lastApplied + 1) = .ok entry
  machine : m = n.disk.machine ∨ m = (c.machine.apply entry.data n.disk.machine).1

variable [Conv]

/-- An atomic change that elections do not notice. -/
inductive LogStroke (c : Charter δ σ) : Node δ σ → Node δ σ → Prop where
  | skip (n : Node δ σ) (hi : c.input.commits = true) (hbelow : n.mem.lastApplied < n.mem.commitIndex)
      (h : n.mem.lastApplied + 1 ≤ n.mem.lastIncludedIndex) :
      LogStroke c n (n.withMem fun r => { r with lastApplied := n.mem.lastApplied + 1 })
  | apply (n : Node δ σ) (entry : LogEntry δ) (m : σ) (h : Applies c n entry m) :
      LogStroke c n (n.applied entry m)
  | answer (n : Node δ σ) (entry : LogEntry δ) (m : σ) (err : Option Err) (h : Applies c n entry m)
      (hnil : err = none → (c.machine.apply entry.data n.disk.machine).2 = none) :
      LogStroke c n ((n.applied entry m).notify entry.index err)
  | refuse (n : Node δ σ) (hi : c.input.flushes = true) (index : Int) (err : Err) :
      LogStroke c n (n.notify index (some err))
  | enqueue (n : Node δ σ) (lastIdx term : Nat) (data : δ) (call : CallId)
      (hi : c.input = .replicate data call) (hrole : n.mem.state = .leader)
      (hlast : n.mem.logStore.lastIndexAndTerm = .ok (lastIdx, term))
      (hmay : c.may call (n.mem.entryFor lastIdx data)) :
      LogStroke c n (n.withMem fun r =>
        { r with
          pendingBatch := r.pendingBatch ++ [n.mem.entryFor lastIdx data]
          pendingClients := r.pendingClients.insert (n.mem.entryFor lastIdx data).index call })
  | take (n : Node δ σ) (hi : c.input.flushes = true) (hrole : n.mem.state = .leader) :
      LogStroke c n (n.withMem fun r => { r with pendingBatch := [] })
  | flush (n : Node δ σ) (hi : c.input.flushes = true) (hrole : n.mem.state = .leader) :
      LogStroke c n ((n.withMem fun r => { r with pendingBatch := [] }).withLog
        (n.mem.logStore.storeLoop n.mem.pendingBatch).1)
  | follow (n : Node δ σ) (term : Int) (leaderID : NodeId) (hi : c.input.claim = some (term, leaderID))
      (hrole : n.mem.state = .leader → c.deposes) :
      LogStroke c n (n.withMem fun r => { r with state := .follower, leaderID := leaderID })
  | store (n : Node δ σ) (req : AppendEntriesRequest δ) (all new : List (LogEntry δ))
      (hi : c.input = .appendEntries req) (hall : req.entries = some all) (hnew : ∀ e ∈ new, e ∈ all)
      (hrole : n.mem.state = .follower) : LogStroke c n (n.withLog (n.mem.logStore.storeLoop new).1)
  | cut (n : Node δ σ) (req : AppendEntriesRequest δ) (index : Nat) (s : FileLogStore δ)
      (hi : c.input = .appendEntries req) (hrole : n.mem.state = .follower)
      (hs : n.mem.logStore.deleteRange index none = some s) : LogStroke c n (n.withLog s)
  | trim (n : Node δ σ) (k : Nat) (s : FileLogStore δ) (hi : c.input.snapshots = true)
      (hs : n.mem.logStore.deleteRange 0 (some k) = some s) : LogStroke c n (n.withLog s)
  | putWal (n : Node δ σ) : LogStroke c n n.putWal
  | save (n : Node δ σ) (snap : SnapshotFile) (hi : c.input.snapshots = true) :
      LogStroke c n { n with disk := { n.disk with snapshot := some snap } }
  | restore (n : Node δ σ) (data : Bytes) (hi : c.input.snapshots = true) :
      LogStroke c n
        { n with disk := { n.disk with machine := (c.machine.restoreSnapshot data n.disk.machine).1 } }
  | adopt (n : Node δ σ) (index term : Nat) (hi : c.input.snapshots = true) :
      LogStroke c n (n.withMem (·.adopt index term))
  | publish (n : Node δ σ) (index term index' term' : Nat) (hi : c.input.snapshots = true)
      (h : n.mem.publish index term = { n.mem with lastIncludedIndex := index', lastIncludedTerm := term' }) :
      LogStroke c n (n.withMem fun r => { r with lastIncludedIndex := index', lastIncludedTerm := term' })
  | commit (n : Node δ σ) (index : Nat) (hi : c.input.commits = true) :
      LogStroke c n (n.withMem fun r => { r with commitIndex := index })

/-- An atomic change of a critical section. -/
inductive Stroke (c : Charter δ σ) : Node δ σ → Node δ σ → Prop where
  | log (n n' : Node δ σ) (h : LogStroke c n n') : Stroke c n n'
  | demote (n : Node δ σ) (term : Int) (leaderID : NodeId) (hnew : term > int64 n.mem.currentTerm) :
      Stroke c n (n.demote (uint64 term) leaderID)
  | fail (n : Node δ σ) :
      Stroke c n ((n.withMem fun r => { r with state := .follower }).failAllPending .stableStoreFailure)
  | persist (n : Node δ σ) : Stroke c n n.putStable
  | vote (n : Node δ σ) (req : RequestVoteArgs) (hi : c.input = .requestVote req)
      (hfree : n.mem.votedFor = "" ∨ n.mem.votedFor = req.candidateID) :
      Stroke c n (n.withMem fun r => { r with votedFor := req.candidateID })
  | stand (n : Node δ σ) (id : NodeId) (hi : c.input.seeksOffice = true) (hrole : n.mem.state ≠ .leader) :
      Stroke c n (n.withMem fun r =>
        { r with state := .candidate, currentTerm := succ64 r.currentTerm, votedFor := id })
  | campaign (n : Node δ σ) (el : Election) (hi : c.input.seeksOffice = true) :
      Stroke c n (n.withMem fun r => { r with election := some el })
  | lead (n : Node δ σ) (id : NodeId) (nodes : List ClusterNode) (hi : c.input.seeksOffice = true)
      (hrole : n.mem.state = .candidate) :
      Stroke c n ((n.withMem fun r => r.lead id nodes).emit (.becameLeader n.mem.currentTerm))
  | setPeer (n : Node δ σ) (peer : NodeId) (matched next : Nat) (hi : c.input.answers = true) :
      Stroke c n (n.withMem (·.setPeer peer matched next))
  | cancel (n : Node δ σ) (index : Int) (call : CallId) (hi : c.input = .cancel index call) :
      Stroke c n ((n.withMem fun r => { r with pendingClients := r.pendingClients.erase index }).emit
        (.notified call (some .contextDone)))

/-- Any number of strokes. -/
def Strokes (c : Charter δ σ) : Node δ σ → Node δ σ → Prop := Relation.ReflTransGen (Stroke c)

/-- Every state the program passes comes from strokes of `n₀`. -/
abbrev Stroking {α : Type} (ok : Fate → Prop) (c : Charter δ σ) (n₀ : Node δ σ) (p : Proc (Node δ σ) α)
    (n : Node δ σ) (Q : α → Node δ σ → Prop) : Prop :=
  Watched ok c.seen (Strokes c n₀) p n Q

theorem Strokes.log {c : Charter δ σ} {n₀ n n' : Node δ σ} (h : Strokes c n₀ n) (hs : LogStroke c n n') :
    Strokes c n₀ n' := h.tail (.log n n' hs)

variable {ok : Fate → Prop} {c : Charter δ σ} {n₀ n : Node δ σ} {α : Type}

/-! ## The log side

What these programs do, only the log and the clients notice: an invariant has to be kept by the strokes of
the log. -/

/-- The entries a decision of the scan is about. -/
def Merge.new : Merge δ → List (LogEntry δ)
  | .upToDate => []
  | .append new => new
  | .conflict _ new => new

theorem mem_of_scan (r : Replicator δ) {entries : List (LogEntry δ)} {e : LogEntry δ}
    (he : e ∈ (r.scan entries).new) : e ∈ entries := by
  induction entries with
  | nil => exact he
  | cons entry entries ih =>
    unfold Replicator.scan at he
    split at he
    · exact List.mem_cons_of_mem entry (ih he)
    · split at he
      · split at he
        · exact he
        · exact List.mem_cons_of_mem entry (ih he)
      · exact he

omit [Conv] in
theorem publish_eq (r : Replicator δ) (index term : Nat) : ∃ index' term',
    r.publish index term = { r with lastIncludedIndex := index', lastIncludedTerm := term' } := by
  unfold Replicator.publish
  split
  · exact ⟨_, _, rfl⟩
  · exact ⟨r.lastIncludedIndex, r.lastIncludedTerm, rfl⟩

/-- What compaction chooses: everything applied, if that is more than the last snapshot holds. -/
theorem chooseSnapshot_some {r : Replicator δ} {threshold : Nat} {label : Nat × Nat}
    (h : r.chooseSnapshot threshold = some label) : r.lastIncludedIndex < r.lastApplied ∧ label.1 = r.lastApplied ∧
      ∀ e, r.logStore.getLog r.lastApplied = .ok e → label.2 = uint64 e.term := by
  unfold Replicator.chooseSnapshot at h
  split at h
  · cases h
  · split at h
    · cases h
    · next hnew =>
      split at h
      · cases h
      · refine ⟨Nat.lt_of_not_le hnew, ?_⟩
        split at h
        · next entry hget =>
          cases h
          exact ⟨rfl, fun e he => by rw [Except.ok.inj (hget.symm.trans he)]⟩
        · next hget =>
          cases h
          exact ⟨rfl, fun e he => by cases hget.symm.trans he⟩
section LogPrograms

variable {I : Node δ σ → Prop} (hI : ∀ {n n' : Node δ σ}, I n → LogStroke c n n' → I n')

include hI

theorem applyEntry_strokes (h : I n) {entry : LogEntry δ}
    (hentry : c.seen n → ∀ m, m = n.disk.machine ∨ m = (c.machine.apply entry.data n.disk.machine).1 →
      Applies c n entry m) :
    Watched ok c.seen I (applyEntry c.machine (n.mem.lastApplied + 1) entry) n fun _ _ => True := by
  refine watched_seen fun hseen => ?_
  have hold := hentry hseen _ (.inl rfl)
  have hnew := hentry hseen _ (.inr rfl)
  have happlied : I ((n.withMem fun r => { r with lastApplied := n.mem.lastApplied + 1 }).emit
      (.applied (n.mem.lastApplied + 1) entry.data)) := hI h (.apply n entry _ hold)
  have hnil : ∀ wrote : Bool, (if wrote then (c.machine.apply entry.data n.disk.machine).2
      else some .writeFailed) = none → (c.machine.apply entry.data n.disk.machine).2 = none := by
    intro wrote herr
    cases wrote with
    | true => exact herr
    | false => cases herr
  refine watched_step rfl happlied (fun commit hc => ?_) fun _ wrote m hm => ?_
  · cases hc
    exact hI h (.apply n entry _ hnew)
  · rcases hm with rfl | ⟨commit, hc, rfl⟩
    · exact watched_update (hI h (.answer n entry _ _ hold (hnil wrote))) trivial
    · cases hc
      exact watched_update (hI h (.answer n entry _ _ hnew (hnil wrote))) trivial

theorem applyLoop_strokes (hi : c.input.commits = true) (fuel : Nat) (h : I n) :
    Watched ok c.seen I (applyLoop c.machine fuel) n fun _ _ => True := by
  induction fuel generalizing n with
  | zero => exact watched_pure trivial
  | succ fuel ih =>
    refine watched_read_bind h fun _ => watched_ite (fun hbelow => ?_) fun _ => watched_pure trivial
    refine watched_ite (fun hskip => ?_) fun hbeyond => ?_
    · have hskipped := hI h (.skip n hi hbelow hskip)
      exact watched_update_bind hskipped (ih hskipped)
    · cases hget : n.mem.logStore.getLog (n.mem.lastApplied + 1) with
      | error _ => exact watched_pure trivial
      | ok entry =>
        refine (applyEntry_strokes hI h fun hseen m hm => ?_).bind h fun _ _ hm _ => ih hm
        exact ⟨hi, hseen, hbelow, hbeyond, hget, hm⟩

theorem applyLogs_strokes (hi : c.input.commits = true) (h : I n) :
    Watched ok c.seen I (applyLogs c.machine) n fun _ _ => True :=
  watched_read_bind h fun _ => applyLoop_strokes hI hi _ h

theorem advanceCommitIndex_strokes (env : Env) (hi : c.input.commits = true) (h : I n) :
    Watched ok c.seen I (advanceCommitIndex env c.machine) n fun _ _ => True := by
  refine watched_read_bind h fun _ => ?_
  split
  · refine watched_ite (fun _ => watched_pure trivial) fun _ => ?_
    split
    · next index _ =>
      have hcommitted := hI h (.commit n index hi)
      exact watched_update_bind hcommitted (applyLogs_strokes hI hi hcommitted)
    · exact watched_pure trivial
  · exact watched_pure trivial

theorem notifyAll_strokes (hi : c.input.flushes = true) (batch : List (LogEntry δ)) (err : Err)
    (h : I n) : I (n.notifyAll batch err) :=
  List.foldlRecOn batch _ h fun m hm entry _ => hI hm (.refuse m hi entry.index err)

/-- What becomes of a batch that has been taken. -/
theorem storeBatch_strokes (hi : c.input.flushes = true) (hrole : n.mem.state = .leader) (h : I n) :
    Watched ok c.seen I (storeBatch n.mem.pendingBatch) (n.withMem fun r => { r with pendingBatch := [] })
      fun _ _ => True := by
  have hflushed := hI h (.flush n hi hrole)
  refine watched_ite (fun _ => watched_pure trivial) fun _ => watched_bind ?_
  refine watched_step rfl hflushed (fun commit hc => ?_) fun _ _ m hm => watched_pure ?_
  · split at hc <;> cases hc
    exact hI hflushed (.putWal _)
  · have hm' : I m := by
      rcases hm with rfl | ⟨commit, hc, rfl⟩
      · exact hflushed
      · split at hc <;> cases hc
        exact hI hflushed (.putWal _)
    split
    · exact watched_update (notifyAll_strokes hI hi _ _ hm') trivial
    · exact watched_pure trivial

theorem flushPendingBatch_strokes (hi : c.input.flushes = true) (hrole : n.mem.state = .leader)
    (h : I n) : Watched ok c.seen I flushPendingBatch n fun _ _ => True :=
  watched_read_bind h fun _ => watched_update_bind (hI h (.take n hi hrole)) (storeBatch_strokes hI hi hrole h)

theorem replicate_strokes (env : Env) {data : δ} {call : CallId} (hi : c.input = .replicate data call)
    (hmay : ∀ lastIdx term, n.mem.state = .leader → n.mem.logStore.lastIndexAndTerm = .ok (lastIdx, term) →
      c.may call (n.mem.entryFor lastIdx data))
    (h : I n) : Watched ok c.seen I (replicate env data call) n fun _ _ => True := by
  refine watched_read_bind h fun _ => watched_ite (fun _ => watched_pure trivial) fun hrole => ?_
  have hleads : n.mem.state = .leader := Decidable.not_not.mp hrole
  cases hlast : n.mem.logStore.lastIndexAndTerm with
  | error err => exact watched_pure trivial
  | ok last =>
    have hadded := hI h (.enqueue n last.1 last.2 data call hi hleads hlast (hmay _ _ hleads hlast))
    refine watched_update_bind hadded (watched_ite (fun _ => ?_) fun _ => watched_pure trivial)
    have hflushes : c.input.flushes = true := by
      rw [hi]
      rfl
    exact (flushPendingBatch_strokes hI hflushes (by exact hleads) hadded).ends hadded

variable {req : AppendEntriesRequest δ}

theorem storeLogs_strokes {all new : List (LogEntry δ)} (hi : c.input = .appendEntries req)
    (hall : req.entries = some all) (hnew : ∀ e ∈ new, e ∈ all) (hrole : n.mem.state = .follower) (h : I n) :
    Watched ok c.seen I (storeLogs new) n fun _ _ => True := by
  have hstored := hI h (.store n req all new hi hall hnew hrole)
  refine watched_step rfl hstored (fun commit hc => ?_) fun _ _ _ _ => watched_pure trivial
  split at hc <;> cases hc
  exact hI hstored (.putWal _)

theorem deleteRange_strokes {min : Nat} {max : Option Nat} (h : I n)
    (hs : ∀ s, n.mem.logStore.deleteRange min max = some s → LogStroke c n (n.withLog s)) :
    Watched ok c.seen I (deleteRange min max) n fun _ m => m.mem.state = n.mem.state := by
  cases hd : n.mem.logStore.deleteRange min max with
  | none => exact watched_quiet (by rw [hd]) h fun _ => watched_pure rfl
  | some s =>
    have hdeleted := hI h (hs s hd)
    refine watched_step (by rw [hd]) hdeleted (fun commit hc => ?_) fun _ _ m hm => watched_pure ?_
    · cases hc
      exact hI hdeleted (.putWal _)
    · rcases hm with rfl | ⟨_, hc, rfl⟩
      · rfl
      · cases hc
        rfl

theorem appendNew_strokes {all : List (LogEntry δ)}
    (hi : c.input = .appendEntries req) (hall : req.entries = some all) (hrole : n.mem.state = .follower)
    (h : I n) : Watched ok c.seen I (appendNew (n.mem.scan all)) n fun _ _ => True := by
  have hnew : ∀ e ∈ (n.mem.scan all).new, e ∈ all := fun e he => mem_of_scan n.mem he
  cases hscan : n.mem.scan all with
  | upToDate => exact watched_pure trivial
  | append new =>
    rw [hscan] at hnew
    exact storeLogs_strokes hI hi hall hnew hrole h
  | conflict index new =>
    rw [hscan] at hnew
    refine (deleteRange_strokes hI h fun s hs => .cut n req index s hi hrole hs).bind h fun err m hm hstate => ?_
    cases err with
    | some _ => exact watched_pure trivial
    | none => exact storeLogs_strokes hI hi hall hnew (hstate.trans hrole) hm

/-- The reply carries the term of a state on the way. -/
theorem followCommit_strokes (req : AppendEntriesRequest δ) (hi : c.input.commits = true) (h : I n) :
    Watched ok c.seen I (followCommit c.machine req) n
      fun reply _ => ∃ m, I m ∧ reply.term = int64 m.mem.currentTerm := by
  refine watched_read_bind h fun _ => ?_
  cases n.mem.logStore.lastIndexAndTerm with
  | error _ => exact watched_pure ⟨n, h, rfl⟩
  | ok last =>
    refine watched_ite (fun _ => ?_) fun _ => watched_pure ⟨n, h, rfl⟩
    have hcommitted := hI h (.commit n (n.mem.commitTarget (uint64 req.leaderCommit) last.1) hi)
    refine watched_update_bind hcommitted ?_
    exact (applyLogs_strokes hI hi hcommitted).bind hcommitted fun _ _ _ _ => watched_pure ⟨n, h, rfl⟩

theorem acceptEntries_strokes (hi : c.input = .appendEntries req)
    (hrole : n.mem.state = .leader → c.deposes) (h : I n) : Watched ok c.seen I (acceptEntries c.machine req) n
      fun reply _ => ∃ m, I m ∧ reply.term = int64 m.mem.currentTerm := by
  have hclaim : c.input.claim = some (req.term, req.leaderID) := by
    rw [hi]
    rfl
  have hcommits : c.input.commits = true := by
    rw [hi]
    rfl
  have hfollows := hI h (.follow n req.term req.leaderID hclaim hrole)
  refine watched_update_bind hfollows (watched_read_bind hfollows fun _ => ?_)
  split
  · exact watched_pure ⟨n, h, rfl⟩
  · cases hall : req.entries with
    | none => exact watched_pure ⟨n, h, rfl⟩
    | some all =>
      refine (appendNew_strokes hI hi hall rfl hfollows).bind hfollows fun err m hm _ => ?_
      cases err with
      | some _ => exact watched_pure ⟨n, h, rfl⟩
      | none => exact followCommit_strokes hI req hcommits hm

theorem saveSnapshot_strokes (snap : SnapshotFile) (hi : c.input.snapshots = true) (h : I n) :
    Watched ok c.seen I (saveSnapshot snap) n fun _ _ => True :=
  watched_write h (hI h (.save n snap hi)) fun _ _ _ => trivial

theorem retainLog_strokes (k : Nat) (hi : c.input.snapshots = true) (h : I n) :
    Watched ok c.seen I (retainLog k) n fun _ _ => True := by
  refine (deleteRange_strokes hI h fun s hs => .trim n k s hi hs).bind h fun err m _ _ => ?_
  cases err <;> exact watched_pure trivial

theorem settleLog_strokes (retain : Bool) (k : Nat) (data : Bytes) (hi : c.input.snapshots = true)
    (h : I n) : Watched ok c.seen I (settleLog c.machine retain k data) n fun _ _ => True := by
  refine watched_ite (fun _ => retainLog_strokes hI k hi h) fun _ => watched_read_bind h fun _ => ?_
  cases n.mem.logStore.lastIndexAndTerm with
  | error _ => exact watched_pure trivial
  | ok last =>
    refine (deleteRange_strokes hI h fun s hs => .trim n last.1 s hi hs).bind h fun err m hm _ => ?_
    cases err with
    | some _ => exact watched_pure trivial
    | none =>
      refine watched_step rfl hm (fun commit hc => ?_) fun _ _ _ _ => watched_pure trivial
      cases hc
      exact hI hm (.restore m data hi)

theorem acceptSnapshot_strokes {req : InstallSnapshotRequest} (hi : c.input = .installSnapshot req)
    (hrole : n.mem.state = .leader → c.deposes) (h : I n) : Watched ok c.seen I (acceptSnapshot c.machine req) n
      fun reply _ => ∃ m, I m ∧ reply.term = int64 m.mem.currentTerm := by
  have hclaim : c.input.claim = some (req.term, req.leaderID) := by
    rw [hi]
    rfl
  have hsnapshots : c.input.snapshots = true := by
    rw [hi]
    rfl
  have hfollows := hI h (.follow n req.term req.leaderID hclaim hrole)
  refine watched_update_bind hfollows (watched_read_bind hfollows fun _ => ?_)
  refine watched_ite (fun _ => watched_pure ⟨n, h, rfl⟩) fun _ => ?_
  refine (saveSnapshot_strokes hI _ hsnapshots hfollows).bind hfollows fun saved m hm _ => ?_
  refine watched_ite (fun _ => ?_) fun _ => watched_pure ⟨n, h, rfl⟩
  refine (settleLog_strokes hI _ _ req.data hsnapshots hm).bind hm fun settled m' hm' _ => ?_
  refine watched_ite (fun _ => ?_) fun _ => watched_pure ⟨n, h, rfl⟩
  exact watched_update_bind (hI hm' (.adopt m' _ _ hsnapshots)) (watched_pure ⟨n, h, rfl⟩)

theorem checkCompaction_strokes (env : Env) (hi : c.input.snapshots = true) (h : I n) :
    Watched ok c.seen I (checkCompaction env c.machine) n fun _ _ => True := by
  refine watched_read_bind h fun _ => ?_
  cases n.mem.chooseSnapshot env.snapshotThresholdLogs with
  | none => exact watched_pure trivial
  | some label =>
    have hcompact : Watched ok c.seen I (compact c.machine label.1 label.2) n fun _ _ => True := by
      refine watched_read_bind h fun _ => ?_
      cases c.machine.serializeSnapshot n.disk.machine with
      | none => exact watched_pure trivial
      | some data =>
        refine (saveSnapshot_strokes hI _ hi h).bind h fun saved m hm _ => ?_
        exact watched_ite (fun _ => retainLog_strokes hI _ hi hm) fun _ => watched_pure trivial
    refine hcompact.bind h fun finished m hm _ => watched_ite (fun _ => ?_) fun _ => watched_pure trivial
    obtain ⟨index', term', heq⟩ := publish_eq m.mem label.1 label.2
    refine watched_update ?_ trivial
    rw [Node.withMem, heq]
    exact hI hm (.publish m label.1 label.2 index' term' hi heq)

end LogPrograms

/-! ## Leaving office, and voting -/

theorem persistStable_strokes (h : Strokes c n₀ n) : Stroking ok c n₀ persistStable n fun _ m => m.mem = n.mem := by
  refine watched_write h (h.tail (.persist n)) fun _ m hm => ?_
  rcases hm with rfl | rfl <;> rfl

theorem handleStableStoreFailure_strokes (h : Strokes c n₀ n) (err : Err) :
    Stroking ok c n₀ (handleStableStoreFailure err) n fun _ m => m.mem.state = .follower :=
  watched_update_bind (h.tail (.fail n)) (watched_pure rfl)

theorem stepDown_strokes (h : Strokes c n₀ n) {term : Int} (hnew : term > int64 n.mem.currentTerm)
    (leaderID : NodeId) :
    Stroking ok c n₀ (stepDown (uint64 term) leaderID) n fun _ m => m.mem.state = .follower := by
  have hdemoted := h.tail (.demote n term leaderID hnew)
  refine watched_update_bind hdemoted ((persistStable_strokes hdemoted).bind hdemoted fun wrote m hm hmem => ?_)
  refine watched_ite (fun _ => watched_pure ?_) fun _ => handleStableStoreFailure_strokes hm _
  rw [hmem]
  rfl

theorem decideVote_strokes {req : RequestVoteArgs} (hi : c.input = .requestVote req) (h : Strokes c n₀ n) :
    Stroking ok c n₀ (decideVote req) n fun _ _ => True := by
  refine watched_read_bind h fun _ => watched_ite (fun hcan => ?_) fun _ => watched_pure trivial
  have hvoted := h.tail (.vote n req hi hcan.1)
  refine watched_update_bind hvoted ((persistStable_strokes hvoted).bind hvoted fun wrote m hm _ => ?_)
  refine watched_ite (fun _ => watched_pure trivial) fun _ => ?_
  exact (handleStableStoreFailure_strokes hm _).ends hm

theorem handleRequestVote_strokes {req : RequestVoteArgs} (hi : c.input = .requestVote req)
    (h : Strokes c n₀ n) : Stroking ok c n₀ (handleRequestVote req) n fun _ _ => True := by
  refine watched_read_bind h fun _ => watched_ite (fun _ => watched_pure trivial) fun _ => ?_
  refine watched_ite (fun hnew => ?_) fun _ => decideVote_strokes hi h
  refine (stepDown_strokes h hnew "").bind h fun err m hm _ => ?_
  cases err with
  | some err => exact watched_read_bind hm fun _ => watched_pure trivial
  | none => exact decideVote_strokes hi hm

/-! ## Elections -/

theorem becomeLeader_strokes (env : Env) (nodes : List ClusterNode) (hi : c.input.seeksOffice = true)
    (hrole : n.mem.state = .candidate) (h : Strokes c n₀ n) :
    Stroking ok c n₀ (becomeLeader env nodes) n fun _ _ => True := by
  have hflushes := Input.flushes_of_seeksOffice hi
  have hled : Strokes c n₀ _ := h.tail (.lead n env.id nodes hi hrole)
  exact watched_read_bind h fun _ => watched_update_bind (hled.log (.take _ hflushes rfl))
    (storeBatch_strokes Strokes.log hflushes rfl hled)

theorem startElection_strokes (env : Env) (hi : c.input.seeksOffice = true) (hrole : n.mem.state ≠ .leader)
    (h : Strokes c n₀ n) : Stroking ok c n₀ (startElection env) n fun _ _ => True := by
  have hstood := h.tail (.stand n env.id hi hrole)
  refine watched_update_bind hstood (watched_read_bind hstood fun _ => ?_)
  refine (persistStable_strokes hstood).bind hstood fun wrote m hm hmem => watched_ite (fun _ => ?_) fun _ => ?_
  · cases env.getAllNodes with
    | none => exact watched_pure trivial
    | some nodes =>
      refine watched_ite (fun _ => ?_) fun _ => ?_
      · have hcandidate : m.mem.state = .candidate := hmem ▸ rfl
        exact (becomeLeader_strokes env nodes hi hcandidate hm).ends hm
      · exact watched_update_bind (hm.tail (.campaign m _ hi)) (watched_pure trivial)
  · exact (handleStableStoreFailure_strokes hm _).ends hm

theorem handleVoteReply_strokes (env : Env) (peer : NodeId) (savedTerm : Nat) (reply : RequestVoteReply)
    (hi : c.input.seeksOffice = true) (h : Strokes c n₀ n) :
    Stroking ok c n₀ (handleVoteReply env peer savedTerm reply) n fun _ _ => True := by
  refine watched_read_bind h fun _ => ?_
  cases n.mem.election with
  | none => exact watched_pure trivial
  | some el =>
    refine watched_ite (fun _ => watched_pure trivial) fun _ => ?_
    have hheard : ∀ el', Strokes c n₀ (n.withMem fun r => { r with election := some el' }) :=
      fun el' => h.tail (.campaign n el' hi)
    refine watched_update_bind (hheard _) (watched_ite (fun _ => watched_pure trivial) fun hstands => ?_)
    have hcandidate : n.mem.state = .candidate := Decidable.not_not.mp (not_or.mp hstands).1
    refine watched_ite (fun hnew => ?_) fun _ => watched_ite (fun _ => ?_) fun _ => watched_pure trivial
    · exact (stepDown_strokes (hheard _) hnew "").ends (hheard _)
    · refine watched_update_bind (hheard _) (watched_ite (fun _ => ?_) fun _ => watched_pure trivial)
      exact becomeLeader_strokes env _ hi hcandidate (hheard _)

/-! ## Replies -/

theorem handleAppendReply_strokes (env : Env) (w : AppendWork δ) (reply : AppendEntriesReply)
    (hi : c.input = .appendReply w reply) (h : Strokes c n₀ n) :
    Stroking ok c n₀ (handleAppendReply env c.machine w reply) n fun _ _ => True := by
  have hanswers : c.input.answers = true := by
    rw [hi]
    rfl
  refine watched_read_bind h fun _ => watched_ite (fun _ => watched_pure trivial) fun _ => ?_
  refine watched_ite (fun hnew => ?_) fun _ => watched_ite (fun _ => ?_) fun _ => ?_
  · exact (stepDown_strokes h hnew "").ends h
  · refine watched_ite (fun _ => ?_) fun _ => watched_pure trivial
    have hset := h.tail (.setPeer n w.node w.newMatchIndex (succ64 w.newMatchIndex) hanswers)
    exact watched_update_bind hset (advanceCommitIndex_strokes Strokes.log env (by rw [hi]; rfl) hset)
  · refine watched_ite (fun _ => watched_update (h.tail (.setPeer n _ _ _ hanswers)) trivial) fun _ => ?_
    exact watched_ite (fun _ => watched_update (h.tail (.setPeer n _ _ _ hanswers)) trivial) fun _ =>
      watched_pure trivial

theorem handleSnapshotReply_strokes (w : SnapshotWork) (reply : InstallSnapshotReply)
    (hi : c.input.answers = true) (h : Strokes c n₀ n) :
    Stroking ok c n₀ (handleSnapshotReply w reply) n fun _ _ => True := by
  refine watched_read_bind h fun _ => watched_ite (fun _ => watched_pure trivial) fun _ => ?_
  refine watched_ite (fun hnew => ?_) fun _ => watched_ite (fun _ => ?_) fun _ => watched_pure trivial
  · exact (stepDown_strokes h hnew "").ends h
  · exact watched_update (h.tail (.setPeer n _ _ _ hi)) trivial

/-! ## Programs -/

/-- The term handling that `HandleAppendEntries` and `HandleInstallSnapshot` share: a request of an old term
is answered at once, one of a new term makes the node step down first. -/
abbrev underTerm (n : Node δ σ) (reqTerm : Int) (leaderID : NodeId) (stale : α) (failed : Err → α)
    (body : Proc (Node δ σ) α) : Proc (Node δ σ) α :=
  if reqTerm < int64 n.mem.currentTerm then pure stale
  else if reqTerm > int64 n.mem.currentTerm then
    stepDown (uint64 reqTerm) leaderID >>= fun
      | some err => pure (failed err)
      | none => body
  else body

theorem handled_strokes {reqTerm : Int} {leaderID : NodeId} {body : Proc (Node δ σ) α} {stale : α}
    {failed : Err → α} (h : Strokes c n₀ n) (hclaim : c.input.claim = some (reqTerm, leaderID))
    (hdeposes : ∀ leaderID, c.input.claim = some (int64 n.mem.currentTerm, leaderID) →
      n.mem.state = .leader → c.deposes)
    (hbody : ∀ m : Node δ σ, (m.mem.state = .leader → c.deposes) → Strokes c n₀ m →
      Stroking ok c n₀ body m fun _ _ => True) :
    Stroking ok c n₀ (underTerm n reqTerm leaderID stale failed body) n fun _ _ => True := by
  refine watched_ite (fun _ => watched_pure trivial) fun hfresh => watched_ite (fun hnew => ?_) fun hsame => ?_
  · refine (stepDown_strokes h hnew leaderID).bind h fun err m hm hstate => ?_
    cases err with
    | some err => exact watched_pure trivial
    | none => exact hbody m (fun hleads => by cases hstate.symm.trans hleads) hm
  · obtain rfl := Int.le_antisymm (Int.not_lt.mp hsame) (Int.not_lt.mp hfresh)
    exact hbody n (hdeposes leaderID hclaim) h

/-- **Critical sections consist of strokes.** -/
theorem program_strokes (env : Env) (c : Charter δ σ) (n : Node δ σ)
    (hmay : ∀ data call lastIdx term, c.input = .replicate data call → n.mem.state = .leader →
      n.mem.logStore.lastIndexAndTerm = .ok (lastIdx, term) → c.may call (n.mem.entryFor lastIdx data))
    (hdeposes : ∀ leaderID, c.input.claim = some (int64 n.mem.currentTerm, leaderID) →
      n.mem.state = .leader → c.deposes) : Stroking ok c n (program env c.machine c.input) n fun _ _ => True := by
  have h : Strokes c n n := .refl
  cases hi : c.input with
  | electionTimeout =>
    refine watched_read_bind h fun _ => watched_ite (fun _ => watched_pure trivial) fun hrole => ?_
    exact (startElection_strokes env (by rw [hi]; rfl) hrole h).ends h
  | batchTick =>
    refine Watched.ends (Q := fun _ _ => True) (watched_read_bind h fun _ => ?_) h
    refine watched_ite (fun hrole => ?_) fun _ => watched_pure trivial
    exact flushPendingBatch_strokes Strokes.log (by rw [hi]; rfl) hrole h
  | replicate data call =>
    exact (replicate_strokes Strokes.log env hi (fun lastIdx term => hmay data call lastIdx term hi) h).ends h
  | cancel index call => exact watched_update_bind (h.tail (.cancel n index call hi)) (watched_pure trivial)
  | requestVote req => exact (handleRequestVote_strokes hi h).ends h
  | appendEntries req =>
    refine Watched.ends (watched_read_bind h fun _ => handled_strokes h (by rw [hi]; rfl) hdeposes ?_) h
    exact fun m hrole hm => (acceptEntries_strokes Strokes.log hi hrole hm).ends hm
  | installSnapshot req =>
    refine Watched.ends (watched_read_bind h fun _ => handled_strokes h (by rw [hi]; rfl) hdeposes ?_) h
    exact fun m hrole hm => (acceptSnapshot_strokes Strokes.log hi hrole hm).ends hm
  | voteReply peer savedTerm reply =>
    exact (handleVoteReply_strokes env peer savedTerm reply (by rw [hi]; rfl) h).ends h
  | appendReply w reply => exact (handleAppendReply_strokes env w reply hi h).ends h
  | snapshotReply w reply => exact (handleSnapshotReply_strokes w reply (by rw [hi]; rfl) h).ends h
  | checkCompaction => exact (checkCompaction_strokes Strokes.log env (by rw [hi]; rfl) h).ends h

variable {I : Node δ σ → Prop}

theorem Strokes.keeps {n n' : Node δ σ} (h : Strokes c n n') (hn : I n)
    (hstroke : ∀ m m', I m → Stroke c m m' → I m') : I n' := by
  induction h with
  | refl => exact hn
  | tail _ hs ih => exact hstroke _ _ ih hs

theorem Stroking.stays {M : Machine δ σ} {i : Input δ} {p : Proc (Node δ σ) α}
    {Q : α → Node δ σ → Prop} (h : Stroking ok (.plain M i) n p n Q) (hn : I n)
    (hstroke : ∀ m m', I m → Stroke (.plain M i) m m' → I m') : Stays ok I p n :=
  (h.imp .refl (fun _ h => h) (fun _ h => h.keeps hn hstroke) fun _ _ _ h => h).stays (fun _ => trivial) hn

theorem program_keeps (env : Env) (M : Machine δ σ) (i : Input δ) (hn : I n)
    (hstroke : ∀ m m', I m → Stroke (.plain M i) m m' → I m') : Stays ok I (program env M i) n :=
  (program_strokes env (.plain M i) n (fun _ _ _ _ _ _ _ => trivial) fun _ _ _ => trivial).stays hn hstroke

theorem program_within {R : Node δ σ → Node δ σ → Prop} (env : Env) (M : Machine δ σ) (i : Input δ)
    (hrefl : ∀ m, R m m) (htrans : ∀ a b c, R a b → R b c → R a c)
    (hstroke : ∀ m m', Stroke (.plain M i) m m' → R m m') : Within ok R (program env M i) n :=
  program_keeps env M i (hrefl n) fun m m' hm hs => htrans n m m' hm (hstroke m m' hs)

end Sandstore.Raft
