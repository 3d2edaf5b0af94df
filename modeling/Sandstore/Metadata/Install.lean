import Sandstore.Metadata.Bolt
import Sandstore.Raft.Effects

/-!
# A failed `InstallSnapshot`

`HandleInstallSnapshot` saves the snapshot, compacts the log, replaces the state machine and only then
adopts the position, and after each of the first three it returns where the call has failed. Nothing is
put back: a request that is refused at one of them has done all that came before. `Stop` says where that
was, `Stop.leaves` what the node is left with, and `Stop.Harmless` when that is what it had.

The handler is the replicator's, for any state machine behind it. `RestoreSnapshot` of the bolt service
is taken through its own steps in turn (`RestoreFault`): the temp file, closing the database, the
rename, reopening it. From the second on a failure leaves the service without a database.
-/

namespace Sandstore.Raft

open Lib Lib.Proc

variable {δ σ : Type} [Conv]

/-! ## Where the handler stops -/

/-- The call that failed, and what it left of its own: whether the file it was writing is the new one,
and the state machine a failed restore leaves. -/
inductive Stop (σ : Type) where
  | saving (written : Bool) -- SaveSnapshot
  | naming -- LastIndexAndTerm
  | deleting (written : Bool) -- DeleteRange
  | restoring (machine : σ) -- RestoreSnapshot

/-- The file of the request's snapshot. -/
def InstallSnapshotRequest.file (req : InstallSnapshotRequest) : SnapshotFile :=
  ⟨⟨uint64 req.lastIncludedIndex, uint64 req.lastIncludedTerm⟩, req.data⟩

/-- Whether the request finds its last entry in the log. -/
def InstallSnapshotRequest.retains (req : InstallSnapshotRequest) (n : Node δ σ) : Bool :=
  n.mem.retainSuffix (uint64 req.lastIncludedIndex) (uint64 req.lastIncludedTerm)

/-- The index the request compacts the log to. -/
def InstallSnapshotRequest.drops (req : InstallSnapshotRequest) (n : Node δ σ) : Nat :=
  if req.retains n then uint64 req.lastIncludedIndex
  else
    match n.mem.logStore.lastIndexAndTerm with
    | .ok (lastIdx, _) => lastIdx
    | .error _ => 0

/-- The log store in memory once `DeleteRange` has been called. -/
def InstallSnapshotRequest.trimmed (req : InstallSnapshotRequest) (n : Node δ σ) : FileLogStore δ :=
  (n.mem.logStore.deleteRange 0 (some (req.drops n))).getD n.mem.logStore

/-- The state machine after a `RestoreSnapshot` whose write had this fate. -/
def restoredWith (M : Machine δ σ) (data : Bytes) (machine : σ) : Fate → σ
  | .failedOld => machine
  | _ => (M.restoreSnapshot data machine).1

/-- Where a failing request stops once its snapshot is saved, with the fates of the writes to come. -/
def settleStop (M : Machine δ σ) (req : InstallSnapshotRequest) (n : Node δ σ) (fates : List Fate) : Stop σ :=
  if req.retains n then .deleting ((next fates).1 = .failedNew)
  else
    match n.mem.logStore.lastIndexAndTerm with
    | .error _ => .naming
    | .ok _ =>
      match n.mem.logStore.deleteRange 0 (some (req.drops n)), (next fates).1 with
      | none, fate => .restoring (restoredWith M req.data n.disk.machine fate)
      | some _, .failedOld => .deleting false
      | some _, .failedNew => .deleting true
      | some _, _ => .restoring (restoredWith M req.data n.disk.machine (next (next fates).2).1)

/-- Where a failing request stops once the terms have been compared. -/
def acceptStop (M : Machine δ σ) (req : InstallSnapshotRequest) (n : Node δ σ) (fates : List Fate) : Stop σ :=
  match (next fates).1 with
  | .failedOld => .saving false
  | .failedNew => .saving true
  | _ => settleStop M req n (next fates).2

/-- Where a failing request stops; nothing where it was answered before it had begun. -/
def installStop (M : Machine δ σ) (req : InstallSnapshotRequest) (n : Node δ σ) (fates : List Fate) :
    Option (Stop σ) :=
  if req.term < int64 n.mem.currentTerm then none
  else if req.term > int64 n.mem.currentTerm then
    if (next fates).1 = .done then some (acceptStop M req n (next fates).2) else none
  else some (acceptStop M req n fates)

/-- What the node is left with. -/
def Stop.leaves (req : InstallSnapshotRequest) (n : Node δ σ) : Stop σ → LogSide δ σ
  | .saving written => { n.logSide with snapshot := if written then some req.file else n.disk.snapshot }
  | .naming => { n.logSide with snapshot := some req.file }
  | .deleting written =>
    { n.logSide with
      snapshot := some req.file
      logStore := req.trimmed n
      wal := if written then some (req.trimmed n).file else n.disk.wal }
  | .restoring machine =>
    { n.logSide with
      snapshot := some req.file
      logStore := req.trimmed n
      wal := if (n.mem.logStore.deleteRange 0 (some (req.drops n))).isSome
        then some (req.trimmed n).file else n.disk.wal
      machine := machine }

/-- What is left is what was there. -/
def Stop.Harmless (req : InstallSnapshotRequest) (n : Node δ σ) : Stop σ → Prop
  | .saving written => written = true → n.disk.snapshot = some req.file
  | .naming => n.disk.snapshot = some req.file
  | .deleting written =>
    n.disk.snapshot = some req.file ∧ req.trimmed n = n.mem.logStore ∧
      (written = true → n.disk.wal = some n.mem.logStore.file)
  | .restoring machine =>
    n.disk.snapshot = some req.file ∧ req.trimmed n = n.mem.logStore ∧
      (n.mem.logStore.deleteRange 0 (some (req.drops n)) ≠ none → n.disk.wal = some n.mem.logStore.file) ∧
      machine = n.disk.machine

theorem Stop.leaves_eq_iff (req : InstallSnapshotRequest) (n : Node δ σ) (stop : Stop σ) :
    stop.leaves req n = n.logSide ↔ stop.Harmless req n := by
  have hside : n.logSide = ⟨n.mem.logStore, n.disk.wal, n.disk.snapshot, n.disk.machine, n.mem.commitIndex,
    n.mem.lastApplied, n.mem.lastIncludedIndex, n.mem.lastIncludedTerm⟩ := rfl
  cases stop with
  | saving written =>
    simp only [Stop.leaves, Stop.Harmless, hside, LogSide.mk.injEq, and_true, true_and]
    cases written with
    | false => simp
    | true => simp [eq_comm]
  | naming =>
    simp only [Stop.leaves, Stop.Harmless, hside, LogSide.mk.injEq, and_true, true_and]
    exact eq_comm
  | deleting written =>
    simp only [Stop.leaves, Stop.Harmless, hside, LogSide.mk.injEq, and_true]
    constructor
    · rintro ⟨hlog, hwal, hsnapshot⟩
      refine ⟨hsnapshot.symm, hlog, ?_⟩
      rintro rfl
      rw [if_pos rfl, hlog] at hwal
      exact hwal.symm
    · rintro ⟨hsnapshot, hlog, hwal⟩
      refine ⟨hlog, ?_, hsnapshot.symm⟩
      cases written with
      | false => rfl
      | true => rw [if_pos rfl, hlog, hwal rfl]
  | restoring machine =>
    simp only [Stop.leaves, Stop.Harmless, hside, LogSide.mk.injEq, and_true]
    constructor
    · rintro ⟨hlog, hwal, hsnapshot, hmachine⟩
      refine ⟨hsnapshot.symm, hlog, fun hsome => ?_, hmachine⟩
      rw [if_pos (Option.isSome_iff_ne_none.mpr hsome), hlog] at hwal
      exact hwal.symm
    · rintro ⟨hsnapshot, hlog, hwal, hmachine⟩
      refine ⟨hlog, ?_, hsnapshot.symm, hmachine⟩
      split
      · next hsome => rw [hlog, hwal (Option.isSome_iff_ne_none.mp hsome)]
      · rfl

section Congr

variable {m n : Node δ σ}

theorem retains_congr (h : m.logSide = n.logSide) (req : InstallSnapshotRequest) : req.retains m = req.retains n := by
  have hlog : m.mem.logStore = n.mem.logStore := congrArg LogSide.logStore h
  simp only [InstallSnapshotRequest.retains, Replicator.retainSuffix, hlog]

theorem drops_congr (h : m.logSide = n.logSide) (req : InstallSnapshotRequest) : req.drops m = req.drops n := by
  have hlog : m.mem.logStore = n.mem.logStore := congrArg LogSide.logStore h
  simp only [InstallSnapshotRequest.drops, retains_congr h, hlog]

/-- Where a request stops depends on the log side alone. -/
theorem acceptStop_congr (M : Machine δ σ) (h : m.logSide = n.logSide) (req : InstallSnapshotRequest)
    (fates : List Fate) : acceptStop M req m fates = acceptStop M req n fates := by
  have hlog : m.mem.logStore = n.mem.logStore := congrArg LogSide.logStore h
  have hmachine : m.disk.machine = n.disk.machine := congrArg LogSide.machine h
  simp only [acceptStop, settleStop, retains_congr h, drops_congr h, hlog, hmachine]

theorem leaves_congr (h : m.logSide = n.logSide) (req : InstallSnapshotRequest) (stop : Stop σ) :
    stop.leaves req m = stop.leaves req n := by
  have hlog : m.mem.logStore = n.mem.logStore := congrArg LogSide.logStore h
  have hwal : m.disk.wal = n.disk.wal := congrArg LogSide.wal h
  have hsnapshot : m.disk.snapshot = n.disk.snapshot := congrArg LogSide.snapshot h
  cases stop <;>
    simp only [Stop.leaves, InstallSnapshotRequest.trimmed, drops_congr h, h, hlog, hwal, hsnapshot]

end Congr

/-! ## The calls, one fate at a time -/

theorem runLeft_deleteRange (min : Nat) (max : Option Nat) (n : Node δ σ) (fates : List Fate) :
    (deleteRange min max).runLeft n fates = match n.mem.logStore.deleteRange min max with
      | none => .back (none, fates) n
      | some s =>
        match (next fates).1 with
        | .done => .back (none, (next fates).2) (n.withLog s).putWal
        | .failedOld => .back (some .writeFailed, (next fates).2) (n.withLog s)
        | .failedNew => .back (some .writeFailed, (next fates).2) (n.withLog s).putWal
        | .diedOld => .died (n.withLog s)
        | .diedNew => .died (n.withLog s).putWal := by
  cases hd : n.mem.logStore.deleteRange min max with
  | none => simp only [deleteRange, runLeft, outcome, draw, hd, if_true]
  | some s =>
    cases fates with
    | nil => simp only [deleteRange, runLeft, outcome, draw, next, hd, if_true]
    | cons fate fates => cases fate <;> simp only [deleteRange, runLeft, outcome, draw, next, hd] <;> rfl

omit [Conv] in
theorem runLeft_saveSnapshot (snap : SnapshotFile) (n : Node δ σ) (fates : List Fate) :
    (saveSnapshot snap).runLeft n fates = match (next fates).1 with
      | .done => .back (true, (next fates).2) { n with disk := { n.disk with snapshot := some snap } }
      | .failedOld => .back (false, (next fates).2) n
      | .failedNew => .back (false, (next fates).2) { n with disk := { n.disk with snapshot := some snap } }
      | .diedOld => .died n
      | .diedNew => .died { n with disk := { n.disk with snapshot := some snap } } := by
  cases fates with
  | nil => rfl
  | cons fate fates => cases fate <;> rfl

variable {fates left : List Fate} {M : Machine δ σ} {n n' : Node δ σ}

omit [Conv] in
/-- A restore that does not come back with success leaves one of two state machines. -/
theorem runLeft_restoreSnapshot {data : Bytes} (h : (restoreSnapshot M data).runLeft n fates = .back (false, left) n') :
    n' = { n with disk := { n.disk with machine := restoredWith M data n.disk.machine (next fates).1 } } := by
  cases fates with
  | nil =>
    obtain ⟨-, rfl⟩ := Ran.back.inj h
    rfl
  | cons fate fates =>
    cases fate with
    | done | failedOld | failedNew =>
      obtain ⟨-, rfl⟩ := Ran.back.inj h
      rfl
    | diedOld | diedNew => cases h

omit [Conv] in
/-- A step-down comes back without an error exactly if its write does, and leaves the log side alone. -/
theorem runLeft_stepDown {newTerm : Nat} {leaderID : NodeId} {err : Option Err} (h : (stepDown newTerm leaderID).runLeft n fates = .back (err, left) n') :
    (err = none ↔ (next fates).1 = .done) ∧ left = (next fates).2 ∧ n'.logSide = n.logSide := by
  cases fates with
  | nil =>
    cases h
    exact ⟨iff_of_true rfl rfl, rfl, rfl⟩
  | cons fate fates =>
    cases fate with
    | done =>
      cases h
      exact ⟨iff_of_true rfl rfl, rfl, rfl⟩
    | failedOld | failedNew =>
      cases h
      exact ⟨iff_of_false nofun nofun, rfl, rfl⟩
    | diedOld | diedNew => cases h

/-! ## The handler -/

variable {req : InstallSnapshotRequest}

/-- What a request leaves that fails once its snapshot is saved. -/
theorem settleLog_stops {m : Node δ σ}
    (h : (settleLog M (req.retains n) (uint64 req.lastIncludedIndex) req.data).runLeft
      { n with disk := { n.disk with snapshot := some req.file } } fates = .back (false, left) m) :
    m.logSide = (settleStop M req n fates).leaves req n := by
  unfold settleLog at h
  unfold settleStop
  cases hretains : req.retains n with
  | true =>
    have hdrops : req.drops n = uint64 req.lastIncludedIndex := by
      rw [InstallSnapshotRequest.drops, hretains]
      rfl
    rw [hretains, if_pos rfl, retainLog, runLeft_bind, runLeft_deleteRange] at h
    cases hd : n.mem.logStore.deleteRange 0 (some (uint64 req.lastIncludedIndex)) with
    | none =>
      rw [hd] at h
      cases h
    | some s =>
      have htrimmed : req.trimmed n = s := by
        rw [InstallSnapshotRequest.trimmed, hdrops, hd]
        rfl
      rw [hd] at h
      cases hfate : (next fates).1 with
      | done | diedOld | diedNew =>
        rw [hfate] at h
        cases h
      | failedOld | failedNew =>
        rw [hfate] at h
        cases h
        simp only [Stop.leaves, htrimmed]
        rfl
  | false =>
    rw [hretains, if_neg Bool.false_ne_true, discardLog, runLeft_read_bind] at h
    rw [if_neg Bool.false_ne_true]
    cases hlast : n.mem.logStore.lastIndexAndTerm with
    | error err =>
      rw [hlast] at h
      cases h
      rfl
    | ok last =>
      have hdrops : req.drops n = last.1 := by
        rw [InstallSnapshotRequest.drops, hretains, if_neg Bool.false_ne_true, hlast]
      rw [hlast] at h
      dsimp only at h ⊢
      rw [runLeft_bind, runLeft_deleteRange] at h
      rw [hdrops]
      cases hd : n.mem.logStore.deleteRange 0 (some last.1) with
      | none =>
        rw [hd] at h
        rw [runLeft_restoreSnapshot h]
        simp only [Stop.leaves, InstallSnapshotRequest.trimmed, hdrops, hd]
        rfl
      | some s =>
        have htrimmed : req.trimmed n = s := by
          rw [InstallSnapshotRequest.trimmed, hdrops, hd]
          rfl
        rw [hd] at h
        cases hfate : (next fates).1 with
        | diedOld | diedNew =>
          rw [hfate] at h
          cases h
        | failedOld | failedNew =>
          rw [hfate] at h
          cases h
          simp only [Stop.leaves, htrimmed]
          rfl
        | done =>
          rw [hfate] at h
          rw [runLeft_restoreSnapshot h]
          simp only [Stop.leaves, htrimmed, hdrops, hd]
          rfl

/-- What a request leaves that fails once the terms have been compared. -/
theorem acceptSnapshot_stops {reply : InstallSnapshotReply}
    (h : (acceptSnapshot M req).run n fates = .back reply n') (hfail : reply.success = false) :
    n'.logSide = (acceptStop M req n fates).leaves req n := by
  have hside : (n.withMem fun r => { r with state := .follower, leaderID := req.leaderID }).logSide = n.logSide := rfl
  rw [acceptSnapshot, run_update_bind, run_read_bind] at h
  rw [← acceptStop_congr M hside, ← leaves_congr hside]
  generalize n.withMem (fun r => { r with state := .follower, leaderID := req.leaderID }) = m at h ⊢
  dsimp only at h
  split at h
  · cases h
    cases hfail
  · rw [run_bind, runLeft_saveSnapshot] at h
    unfold acceptStop
    cases hfate : (next fates).1 with
    | diedOld | diedNew =>
      rw [hfate] at h
      cases h
    | failedOld | failedNew =>
      rw [hfate] at h
      cases h
      rfl
    | done =>
      rw [hfate] at h
      dsimp only at h ⊢
      rw [if_pos rfl, run_bind] at h
      split at h
      · next finished left m' hsettle =>
        cases finished with
        | true =>
          cases h
          cases hfail
        | false =>
          cases h
          exact settleLog_stops hsettle
      · cases h

/-- **What a failed `InstallSnapshot` leaves.** A request that is not answered with success leaves the log
side as it was if it was answered before it had begun, and otherwise what the call that failed, and those
before it, had left. -/
theorem handleInstallSnapshot_stops {reply : InstallSnapshotReply} {err : Option Err}
    (h : (handleInstallSnapshot M req).run n fates = .back (reply, err) n') (hfail : reply.success = false) :
    n'.logSide = match installStop M req n fates with
      | none => n.logSide
      | some stop => stop.leaves req n := by
  have haccept : ∀ {m : Node δ σ} {fates : List Fate}, m.logSide = n.logSide →
      ((acceptSnapshot M req) >>= fun reply => pure (reply, (none : Option Err))).run m fates =
        .back (reply, err) n' → n'.logSide = (acceptStop M req n fates).leaves req n := by
    intro m fates hside hrun
    rw [run_bind] at hrun
    split at hrun
    · next reply' left m' hleft =>
      have hback : (acceptSnapshot M req).run m fates = .back reply' m' := by
        rw [run_eq_runLeft, hleft]
      cases hrun
      rw [← acceptStop_congr M hside, ← leaves_congr hside]
      exact acceptSnapshot_stops hback hfail
    · cases hrun
  rw [handleInstallSnapshot, run_read_bind] at h
  unfold installStop
  split at h
  · next hstale =>
    cases h
    rw [if_pos hstale]
  · next hstale =>
    rw [if_neg hstale]
    split at h
    · next hnewer =>
      rw [if_pos hnewer]
      rw [run_bind] at h
      split at h
      · next err' left m hdown =>
        obtain ⟨hdone, rfl, hside⟩ := runLeft_stepDown hdown
        cases err' with
        | none =>
          rw [if_pos (hdone.mp rfl)]
          exact haccept hside h
        | some err' =>
          rw [if_neg fun hfate => nomatch hdone.mpr hfate]
          cases h
          exact hside
      · cases h
    · next hsame =>
      rw [if_neg hsame]
      exact haccept rfl h

end Sandstore.Raft

namespace Sandstore.Metadata

open Lib
open Raft (Bytes Conv InstallSnapshotRequest InstallSnapshotReply)

/-! ## With the bolt service behind it -/

/-- The step of `RestoreSnapshot` that fails. -/
inductive RestoreFault where
  | writeTemp -- "failed to write snapshot to temp file: %w"
  | close -- "failed to close current db during snapshot restore: %w"
  | rename -- "failed to atomic rename snapshot file: %w"
  | reopen -- "failed to reopen bolt metadata db %q: %w", whatever is in the file
  deriving DecidableEq

/-- `RestoreSnapshot` with one of its steps failing. A bolt database that fails to close is no longer
open. -/
def Service.restoreFailing (fault : Option RestoreFault) (deserialize : Bytes → Option Store) (data : Bytes)
    (svc : Service) : Service × Bool :=
  if svc.isOpen then
    match fault with
    | none => svc.restoreSnapshot deserialize data
    | some .writeTemp => (svc, false)
    | some .close => ({ svc with isOpen := false }, false)
    | some .rename => ({ svc with isOpen := false }, false)
    | some .reopen => ({ svc with file := deserialize data, isOpen := false }, false)
  else (svc, false)

/-- The service as the replicator sees it, with a failing step in `RestoreSnapshot`. -/
def boltMachineFailing (fault : Option RestoreFault) (serialize : Store → Bytes)
    (deserialize : Bytes → Option Store) : Raft.Machine Command Service :=
  { boltMachine serialize deserialize with restoreSnapshot := Service.restoreFailing fault deserialize }

/-- A failed restore leaves the service as it was exactly if there was no database to close or it failed
before it closed it. -/
theorem Service.restoreFailing_eq_iff {fault : Option RestoreFault} {deserialize : Bytes → Option Store}
    {data : Bytes} {svc : Service} (h : (svc.restoreFailing fault deserialize data).2 = false) :
    (svc.restoreFailing fault deserialize data).1 = svc ↔ svc.isOpen = false ∨ fault = some .writeTemp := by
  obtain ⟨file, isOpen, clock⟩ := svc
  cases isOpen with
  | false => exact iff_of_true rfl (.inl rfl)
  | true =>
    have hclosed : ∀ {f : Option Store}, (⟨f, false, clock⟩ : Service) ≠ ⟨file, true, clock⟩ :=
      fun heq => Bool.false_ne_true (congrArg Service.isOpen heq)
    cases fault with
    | none =>
      have hnone : (deserialize data).isSome = false := h
      refine iff_of_false (fun heq => ?_) nofun
      have hopen : (deserialize data).isSome = true := congrArg Service.isOpen heq
      exact Bool.false_ne_true (hnone.symm.trans hopen)
    | some fault =>
      cases fault with
      | writeTemp => exact iff_of_true rfl (.inr rfl)
      | close | rename | reopen => exact iff_of_false hclosed nofun

section Install

variable [Conv]

end Install

section InstallDemo

attribute [local instance] Conv.go

/-- A follower with one entry in its log and an open database. -/
def openFollower : Raft.Node Command Service where
  disk := ⟨none, none, some ⟨0, 0, [⟨1, 1, none⟩]⟩, ⟨some {}, true, fun _ => 0⟩⟩
  mem := { logStore := Raft.FileLogStore.load (some ⟨0, 0, [⟨1, 1, none⟩]⟩) }

/-- A snapshot up to index 5, of no bytes that bolt could open. -/
def garbledSnapshot : InstallSnapshotRequest := ⟨0, "b", 5, 1, []⟩

end InstallDemo

end Sandstore.Metadata
