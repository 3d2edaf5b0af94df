import Sandstore.Metadata.Replay
import Sandstore.Orchestrators.Commit
import Sandstore.Raft.Provenance
import Sandstore.Server.Write

/-!
# A committed write is not aborted

`handleWrite` takes an error from `CommitFileWrite` for a decision and aborts. It is one only if the
proposal is gone: `Replicate` also returns an error when its context is done, when its replicator stops,
steps down or fails to store the batch, or when the applier fails, and the entry may be in a log by then
and be committed by whoever leads next (`committed_and_aborted`).

The law of this module is about the runs in which an error is a decision (`Decided`): when the error of
a waiting `Replicate` call reaches `handleWrite`, its envelope is in no log, no WAL, no pending batch
and no append request. In them, a transaction whose intent any replica has applied has no abort on its
way, and no chunk service has removed its data (`committed_never_aborted`).
-/

namespace Sandstore.Server

open Lib Lib.Proc Metadata Orchestrators
open Chunk (ChunkService tempFileName)
open Raft (Bytes NodeId CallId World Conv Sources Only)

/-- The transaction of a chunk intent. -/
def txnOf (data : Command) : Option Bytes :=
  data.bind fun envelope =>
    if envelope.type = .chunkIntent then envelope.chunkIntent.map (·.txnID) else none

/-- No command of the raft group belongs to the transaction. -/
def Absent (txnID : Bytes) (raft : World Command Service) : Prop :=
  Sources (fun data => txnOf data ≠ some txnID) raft

/-- An abort of the transaction has been sent. -/
def Deployment.Aborted (w : Deployment) (txnID : Bytes) : Prop :=
  ∃ chunkID, .abort txnID chunkID ∈ w.wire.map (·.message)

/-- The transaction has not called `Replicate`, and may still do so. -/
def Deployment.Open (w : Deployment) (txnID : Bytes) : Prop :=
  ∀ wr, w.writes txnID = some wr →
    (∃ todo, wr.phase = .reading todo) ∨ ∃ waiting failures, wr.phase = .preparing waiting failures

/-- An error of `Replicate` reaches `handleWrite` only after the proposal has gone. -/
def Decided (w : Deployment) : Move → Prop
  | .returned txnID (some _) => Absent txnID w.raft
  | .expired txnID => Absent txnID w.raft
  | .stopped txnID => Absent txnID w.raft
  | _ => True

/-- What holds of a deployment in which every error was a decision. -/
structure Atomic (w : Deployment) : Prop where
  keyed : ∀ txnID wr, w.writes txnID = some wr → wr.ctx.txnID = txnID ∧ isUuid txnID = true
  fresh : ∀ txnID, w.Open txnID → Absent txnID w.raft ∧ ¬ w.Aborted txnID
  gone : ∀ txnID, w.Aborted txnID → Absent txnID w.raft
  indexed : ∀ id, (w.chunks id).Indexed
  removed : ∀ id path, .removed path ∈ (w.chunks id).events →
    ∃ txnID chunkID, path = tempFileName chunkID txnID ∧ isUuid txnID = true ∧ w.Aborted txnID

variable {S : Setting} {w w' : Deployment}

theorem isUuid_underscore {id : Bytes} (h : isUuid id = true) : 95 ∉ id := by
  intro hmem
  have := List.all_eq_true.mp h 95 hmem
  revert this
  decide

theorem atomic_init : Atomic .init where
  keyed := fun _ _ h => (nomatch h)
  fresh := fun _ _ => ⟨Raft.sources_init _, fun ⟨_, hmem⟩ => (nomatch hmem)⟩
  gone := fun _ ⟨_, hmem⟩ => (nomatch hmem)
  indexed := fun _ _ _ h => (nomatch h)
  removed := fun _ _ h => (nomatch h)

/-! ## The parts of a move -/

variable {wr : Write} {txnID : Bytes}

section Parts

variable (h : Atomic w)

include h

/-- The raft group moves, and takes in nothing of a transaction that is open or has been aborted. -/
theorem Atomic.moved {raft : World Command Service}
    (hraft : ∀ txnID, (w.moved raft).Open txnID ∨ w.Aborted txnID → Absent txnID w.raft →
      Absent txnID raft) : Atomic (w.moved raft) where
  keyed := by
    intro txnID wr hwr
    obtain ⟨wr', hwr', rfl⟩ := Option.map_eq_some_iff.mp hwr
    have hkey := h.keyed txnID wr' hwr'
    split
    · exact hkey
    · exact hkey
  fresh := by
    intro txnID hopen
    have hopen' : w.Open txnID := by
      intro wr hwr
      have hphase := hopen _ (Option.map_eq_some_iff.mpr ⟨wr, hwr, rfl⟩)
      split at hphase
      · exact hphase
      · -- a request that has died is not open
        cases hold : wr.phase <;> simp [Phase.crash, hold] at hphase
    exact (h.fresh txnID hopen').imp (hraft txnID (.inl hopen)) id
  gone := fun txnID haborted => hraft txnID (.inr haborted) (h.gone txnID haborted)
  indexed := by
    intro id
    dsimp only [Deployment.moved]
    split
    · exact h.indexed id
    · exact fun _ _ hget => (nomatch hget)
  removed := by
    intro id path hpath
    refine h.removed id path ?_
    dsimp only [Deployment.moved] at hpath
    split at hpath
    · exact hpath
    · exact hpath

theorem Atomic.setWrite (hkey : wr.ctx.txnID = txnID)
    (huuid : isUuid txnID = true) (hopen : (w.setWrite txnID wr).Open txnID → w.Open txnID) :
    Atomic (w.setWrite txnID wr) where
  keyed := by
    intro t wr' hwr'
    dsimp only [Deployment.setWrite] at hwr'
    split at hwr'
    · next heq =>
      cases hwr'
      exact ⟨hkey.trans heq.symm, heq ▸ huuid⟩
    · exact h.keyed t wr' hwr'
  fresh := by
    intro t ht
    by_cases heq : t = txnID
    · subst heq
      exact h.fresh t (hopen ht)
    · exact h.fresh t fun wr' hwr' => ht wr' (by simp [Deployment.setWrite, heq, hwr'])
  gone := h.gone
  indexed := h.indexed
  removed := h.removed

theorem Atomic.goesOn {wr' : Write} (hkey : wr'.ctx.txnID = wr.ctx.txnID)
    (hwr : w.writes wr.ctx.txnID = some wr) (hopen : w.Open wr.ctx.txnID) : Atomic (w.setWrite wr.ctx.txnID wr') :=
  h.setWrite hkey (h.keyed _ _ hwr).2 fun _ => hopen

theorem Atomic.ends {wr' : Write} (hkey : wr'.ctx.txnID = wr.ctx.txnID)
    (hwr : w.writes wr.ctx.txnID = some wr) {result : Except Orchestrators.Err Int}
    (hphase : wr'.phase = .finished result) : Atomic (w.setWrite wr.ctx.txnID wr') := by
  refine h.setWrite hkey (h.keyed _ _ hwr).2 fun hopen => ?_
  have := hopen wr' (by simp [Deployment.setWrite])
  simp [hphase] at this

theorem Atomic.rewire {wire : List Letter}
    (hsame : ∀ txnID, Deployment.Aborted { w with wire := wire } txnID ↔ w.Aborted txnID) :
    Atomic { w with wire := wire } where
  keyed := h.keyed
  fresh := fun txnID hopen => (h.fresh txnID hopen).imp id fun hnot haborted => hnot ((hsame txnID).mp haborted)
  gone := fun txnID haborted => h.gone txnID ((hsame txnID).mp haborted)
  indexed := h.indexed
  removed := fun id path hpath => by
    obtain ⟨txnID, chunkID, heq, huuid, haborted⟩ := h.removed id path hpath
    exact ⟨txnID, chunkID, heq, huuid, (hsame txnID).mpr haborted⟩

theorem Atomic.send {letters : List Letter}
    (hletters : ∀ l ∈ letters, ∀ txnID chunkID, l.message ≠ .abort txnID chunkID) : Atomic (w.send letters) := by
  refine h.rewire fun txnID => exists_congr fun chunkID => ?_
  rw [List.map_append, List.mem_append, or_iff_left]
  intro hmem
  obtain ⟨l, hl, hmessage⟩ := List.mem_map.mp hmem
  exact hletters l hl txnID chunkID hmessage

/-- Aborting a transaction whose proposal is gone. -/
theorem Atomic.abortWrite (hwr : w.writes wr.ctx.txnID = some wr)
    (habsent : Absent wr.ctx.txnID w.raft) (err : Orchestrators.Err) : Atomic (w.abortWrite wr err) := by
  have hmore : ∀ t, (w.abortWrite wr err).Aborted t → w.Aborted t ∨ t = wr.ctx.txnID := by
    rintro t ⟨chunkID, hmem⟩
    simp only [Deployment.abortWrite, Deployment.setWrite, Deployment.send, List.map_append, List.mem_append] at hmem
    refine hmem.imp (fun hmem => ⟨chunkID, hmem⟩) fun hmem => ?_
    simp only [List.map_map, List.mem_map, Function.comp_apply] at hmem
    obtain ⟨target, _, hmessage⟩ := hmem
    cases hmessage
    rfl
  have hends : Atomic (w.setWrite wr.ctx.txnID { wr with phase := .finished (.error err) }) := h.ends rfl hwr rfl
  exact
    { keyed := hends.keyed
      fresh := fun t hopen => by
        refine (hends.fresh t hopen).imp id fun hnot haborted => ?_
        rcases hmore t haborted with haborted | rfl
        · exact hnot haborted
        · have := hopen { wr with phase := .finished (.error err) }
            (by simp [Deployment.abortWrite, Deployment.setWrite])
          simp at this
      gone := fun t haborted => (hmore t haborted).elim (h.gone t) fun heq => heq ▸ habsent
      indexed := h.indexed
      removed := fun id path hpath => by
        obtain ⟨txnID, chunkID, heq, huuid, chunkID', hmem⟩ := h.removed id path hpath
        refine ⟨txnID, chunkID, heq, huuid, chunkID', ?_⟩
        simp only [Deployment.abortWrite, Deployment.setWrite, Deployment.send, List.map_append, List.mem_append]
        exact .inl hmem }

theorem Atomic.setChunks {id : NodeId} {cs : ChunkService} (hindexed : cs.Indexed)
    (hremoved : ∀ path, .removed path ∈ cs.events → .removed path ∈ (w.chunks id).events ∨
      ∃ txnID chunkID, path = tempFileName chunkID txnID ∧ isUuid txnID = true ∧ w.Aborted txnID) :
    Atomic (w.setChunks id cs) where
  keyed := h.keyed
  fresh := h.fresh
  gone := h.gone
  indexed := by
    intro j
    dsimp only [Deployment.setChunks]
    split
    · exact hindexed
    · exact h.indexed j
  removed := by
    intro j path hpath
    dsimp only [Deployment.setChunks] at hpath
    split at hpath
    · exact (hremoved path hpath).elim (h.removed id path) fun hnew => hnew
    · exact h.removed j path hpath

theorem Atomic.panic (id : NodeId) : Atomic (w.panic id) :=
  h.moved fun _ _ habsent => habsent.set (habsent.node id) false

theorem Atomic.sendPrepares (huuid : isUuid wr.ctx.txnID = true)
    (hopen : w.Open wr.ctx.txnID) (view : ClusterView) (finalData : Bytes) :
    Atomic (w.sendPrepares S view wr finalData) := by
  refine (h.send fun l hl txnID chunkID => ?_).setWrite rfl huuid fun _ => hopen
  obtain ⟨address, _, rfl⟩ := List.mem_map.mp hl
  exact fun hmessage => (nomatch hmessage)

theorem Atomic.executeWrite (huuid : isUuid wr.ctx.txnID = true)
    (hopen : w.Open wr.ctx.txnID) (view : ClusterView) (existingData : Bytes) :
    Atomic (w.executeWrite S view wr existingData) := by
  unfold Deployment.executeWrite
  split
  · exact h.sendPrepares huuid hopen view _
  · exact h.panic wr.node

theorem Atomic.begin {id : NodeId} {req : WriteRequest} {newChunkID : Bytes}
    (hnew : w.writes txnID = none) (huuid : isUuid txnID = true) (view : ClusterView)
    (ctxDone : Bool) : Atomic (w.begin S id req newChunkID txnID view ctxDone) := by
  have hopen : w.Open txnID := fun wr hwr => absurd hwr (by simp [hnew])
  unfold Deployment.begin
  split
  · exact h.panic id
  · exact h.setWrite rfl huuid fun _ => hopen
  · next ctx hctx =>
    obtain ⟨inode, chunkList, _, hplans⟩ := prepareFileWrite_ok hctx
    obtain rfl := hplans.txnID
    split
    · exact h.setWrite rfl huuid fun _ => hopen
    · exact h.executeWrite huuid hopen view []

theorem Atomic.fetch (hwr : w.writes wr.ctx.txnID = some wr)
    (hopen : w.Open wr.ctx.txnID) (view : ClusterView) (lost : Bool) (now : Int)
    (todo : List ChunkLocation) : Atomic (w.fetch S wr view lost now todo) := by
  have huuid := (h.keyed _ _ hwr).2
  unfold Deployment.fetch
  split
  · exact h.abortWrite hwr (h.fresh _ hopen).1 _
  · dsimp only
    split
    · exact h.goesOn rfl hwr hopen
    · next id hid =>
      split
      · exact h.goesOn rfl hwr hopen
      · -- a chunk service without a metadata service only reads
        have hread := (w.chunks id).readChunk_unconfigured true now wr.ctx.chunkID
        have hsame : Atomic (w.setChunks id (w.chunks id)) := h.setChunks (h.indexed id) fun path hpath => .inl hpath
        split
        · next cs existingData heq =>
          rw [heq] at hread
          cases hread
          exact hsame.executeWrite huuid hopen view existingData
        · next cs err heq =>
          rw [heq] at hread
          cases hread
          exact hsame.goesOn rfl hwr hopen

theorem Atomic.uuid_of_aborted (haborted : w.Aborted txnID) : isUuid txnID = true := by
  cases hwr : w.writes txnID with
  | none =>
    have hopen : w.Open txnID := fun wr hsome => absurd hsome (by simp [hwr])
    exact absurd haborted (h.fresh txnID hopen).2
  | some wr => exact (h.keyed txnID wr hwr).2

theorem Atomic.handleMessage {l : Letter} (hl : l ∈ w.wire) (id : NodeId)
    (fate : Chunk.WriteFate) (works : Bool) (now : Int) :
    Atomic (w.setChunks id (Deployment.handleMessage S (w.chunks id) fate works now l.message).1) := by
  have hindexed := h.indexed id
  cases hmessage : l.message with
  | prepare txnID chunkID data checksum =>
    refine h.setChunks (hindexed.perform _ (.prepare _ _ _ _ _ _)) fun path hpath => ?_
    exact ((ChunkService.prepareChunk_outcome _ _ _).removed_mem hpath).imp_right fun ⟨_, _, _, hup, _⟩ => by cases hup
  | commit txnID chunkID =>
    refine h.setChunks (hindexed.perform S.calculateChecksum (.commit _ _ _)) fun path hpath => ?_
    exact ((ChunkService.perform_outcome S.calculateChecksum _ (.commit _ _ _)).removed_mem hpath).imp_right
      fun ⟨_, _, _, hup, _⟩ => by cases hup
  | abort txnID chunkID =>
    have haborted : w.Aborted txnID := ⟨chunkID, List.mem_map.mpr ⟨l, hl, hmessage⟩⟩
    refine h.setChunks (hindexed.perform S.calculateChecksum (.abort _ _ _)) fun path hpath => ?_
    refine ((ChunkService.perform_outcome S.calculateChecksum _ (.abort _ _ _)).removed_mem hpath).imp_right ?_
    rintro ⟨_, entry, hentry, hup, rfl⟩
    cases hup
    exact ⟨entry.txnID, chunkID, hindexed chunkID entry hentry, h.uuid_of_aborted haborted, haborted⟩

theorem Atomic.answered {k : Nat} {l : Letter} (hk : w.wire[k]? = some l) (answer : Option (Option Chunk.Err)) :
    Atomic { w with wire := w.wire.set k { l with answer := answer } } := by
  have hmessages : (w.wire.set k { l with answer := answer }).map (·.message) = w.wire.map (·.message) := by
    obtain ⟨hlt, rfl⟩ := List.getElem?_eq_some_iff.mp hk
    refine List.ext_getElem? fun j => ?_
    by_cases hj : j = k
    · simp [hj, hlt]
    · simp [List.getElem?_set_ne (Ne.symm hj)]
  exact h.rewire fun txnID => by rw [Deployment.Aborted, hmessages, Deployment.Aborted]

theorem Atomic.deliver {k : Nat} {fate : Chunk.WriteFate} {works : Bool} {now : Int}
    (hs : w.deliver S k fate works now = some w') : Atomic w' := by
  unfold Deployment.deliver at hs
  split at hs
  · next address message hk =>
    split at hs
    · cases hs
    · next id _ =>
      split at hs
      · cases hs
        exact (h.handleMessage (List.mem_of_getElem? hk) id fate works now).answered hk _
      · cases hs
  · cases hs

theorem Atomic.prepared (hwr : w.writes wr.ctx.txnID = some wr)
    (hopen : w.Open wr.ctx.txnID) {waiting : List Nat} {failures k : Nat} {lost : Bool}
    (hs : w.prepared wr waiting failures k lost = some w') : Atomic w' := by
  unfold Deployment.prepared at hs
  split at hs
  · dsimp only at hs
    split at hs
    · cases hs
      exact h.goesOn rfl hwr hopen
    · split at hs
      · cases hs
        exact h.goesOn rfl hwr hopen
      · cases hs
  · cases hs

end Parts

/-! ## Calling Replicate -/

theorem Deployment.active_eq (h : w.active txnID = some wr) :
    w.writes txnID = some wr ∧ (w.raft.host wr.node).up = true := by
  unfold Deployment.active at h
  split at h
  · split at h
    · cases h
      exact ⟨by assumption, by assumption⟩
    · cases h
  · cases h

theorem Deployment.moved_writes (hwr : w.writes txnID = some wr) (n : Raft.Node Command Service) :
    (w.moved (w.raft.set wr.node ⟨n, true⟩)).writes txnID = some wr := by simp [Deployment.moved, hwr, World.set]

/-- Writing down how a request goes on, before or after its process has gone on. -/
theorem Deployment.moved_setWrite {raft : World Command Service}
    (hup : (raft.host wr.node).up = true) (txnID : Bytes) :
    (w.moved raft).setWrite txnID wr = (w.setWrite txnID wr).moved raft := by
  have hwrites : ((w.moved raft).setWrite txnID wr).writes = ((w.setWrite txnID wr).moved raft).writes := by
    ext1 t
    by_cases ht : t = txnID <;> simp [Deployment.moved, Deployment.setWrite, ht, hup]
  exact congrArg (fun writes => { w.moved raft with writes := writes }) hwrites

section Run

variable [Conv]

variable {wr : Write}

theorem Atomic.propose (h : Atomic w) (hwr : w.writes wr.ctx.txnID = some wr)
    (hopen : w.Open wr.ctx.txnID) {envelope : RaftCommandEnvelope}
    (henvelope : txnOf (some envelope) = some wr.ctx.txnID) (call : CallId) (fates : List Fate) :
    Atomic (w.propose S wr envelope call fates) := by
  have hcalled : Atomic { w with calls := call :: w.calls, writeCalls := call :: w.writeCalls } := { h with }
  obtain ⟨habsent, hnot⟩ := h.fresh _ hopen
  -- the proposal brings nothing of another transaction
  have hother : ∀ t, t ≠ wr.ctx.txnID → Absent t w.raft → Stays (fun _ => True) (Only fun data => txnOf data ≠ some t)
        (Raft.replicate (S.cluster.env wr.node) (some envelope) call) (w.raft.node wr.node) := by
    intro t ht hsources
    refine Raft.replicate_only _ S.machine (hsources.node wr.node) ?_ call
    simpa [henvelope] using Ne.symm ht
  unfold Deployment.propose
  dsimp only
  split
  · next err n' hrun =>
    have hsources : Absent wr.ctx.txnID (w.raft.set wr.node ⟨n', true⟩) :=
      habsent.set ((Raft.replicate_refused _ _ _ (habsent.node wr.node)).back
        (fun _ _ => trivial) hrun rfl) true
    refine (hcalled.moved fun t _ ht => ?_).abortWrite (Deployment.moved_writes hwr n') hsources _
    by_cases heq : t = wr.ctx.txnID
    · exact heq ▸ hsources
    · exact ht.set ((hother t heq ht).back (fun _ _ => trivial) hrun) true
  · next n' hrun =>
    rw [Deployment.moved_setWrite (by simp [World.set])]
    generalize Deployment.entryIndex _ _ = entryIndex
    have hcalls : Atomic (Deployment.setWrite
        { w with calls := call :: w.calls, writeCalls := call :: w.writeCalls } wr.ctx.txnID
        { wr with phase := .replicating call entryIndex }) :=
      hcalled.goesOn rfl hwr hopen
    refine hcalls.moved fun t hcase ht => ?_
    by_cases heq : t = wr.ctx.txnID
    · -- it has called `Replicate`, and nobody has aborted it
      subst heq
      rcases hcase with hstill | haborted
      · have := hstill { wr with phase := .replicating call entryIndex }
          (by simp [Deployment.moved, Deployment.setWrite, World.set])
        simp at this
      · exact absurd haborted hnot
    · exact ht.set ((hother t heq ht).back (fun _ _ => trivial) hrun) true
  · next n' hrun =>
    refine hcalled.moved fun t hcase ht => ?_
    by_cases heq : t = wr.ctx.txnID
    · -- the request died with its process
      subst heq
      rcases hcase with hstill | haborted
      · have hphase := hstill { wr with phase := wr.phase.crash }
          (by simp [Deployment.moved, hwr, World.set])
        cases hold : wr.phase <;> simp [Phase.crash, hold] at hphase
      · exact absurd haborted hnot
    · exact ht.set ((hother t heq ht).died (fun _ _ => trivial) hrun) false

theorem Atomic.proceed (h : Atomic w) (hwr : w.writes wr.ctx.txnID = some wr)
    (hopen : w.Open wr.ctx.txnID) (failures : Nat) (ctxDone : Bool) (mtime now : Int) (call : CallId)
    (fates : List Fate) : Atomic (w.proceed S wr failures ctxDone mtime now call fates) := by
  have habsent := (h.fresh _ hopen).1
  unfold Deployment.proceed
  split
  · exact h.abortWrite hwr habsent _
  · split
    · exact h.abortWrite hwr habsent _
    · next envelope henvelope =>
      obtain ⟨inode, chunkList, _, rfl⟩ := commitFileWrite_ok henvelope
      exact h.propose hwr hopen rfl call fates

/-! ## Moves -/

omit [Conv] in
theorem Atomic.commitWrite (h : Atomic w) (hwr : w.writes wr.ctx.txnID = some wr) : Atomic (w.commitWrite wr) := by
  refine (h.send fun l hl txnID chunkID => ?_).ends rfl hwr rfl
  obtain ⟨target, _, rfl⟩ := List.mem_map.mp hl
  exact fun hmessage => (nomatch hmessage)

omit [Conv] in
theorem Atomic.expire (h : Atomic w) (hwr : w.writes wr.ctx.txnID = some wr)
    (habsent : Absent wr.ctx.txnID w.raft) (call : CallId) (entryIndex : Int) :
    Atomic (w.expire wr call entryIndex) := by
  have hcancelled : ∀ t, Absent t w.raft → Stays (fun _ => True) (Only fun data => txnOf data ≠ some t)
      (Raft.cancel entryIndex call) (w.raft.node wr.node) :=
    fun t ht => Raft.cancel_only (ht.node wr.node) entryIndex call
  have hends : ∀ n', (∀ t, Absent t w.raft → Only (fun data => txnOf data ≠ some t) n') →
      Atomic ((w.moved (w.raft.set wr.node ⟨n', true⟩)).abortWrite wr (.commitFailed .contextDone)) :=
    fun n' hn' => (h.moved fun t _ ht => ht.set (hn' t ht) true).abortWrite
      (Deployment.moved_writes hwr n') (habsent.set (hn' _ habsent) true) _
  unfold Deployment.expire
  split
  · next n' hrun => exact hends n' fun t ht => (hcancelled t ht).back (fun _ _ => trivial) hrun
  · next n' hrun => exact hends n' fun t ht => (hcancelled t ht).died (fun _ _ => trivial) hrun

omit [Conv] in
/-- Nobody but `handleWrite` proposes a chunk intent. -/
theorem txnOf_of_foreign {a : Raft.Action Command} (h : w.foreign a = true) (txnID : Bytes) :
    a.Only fun data => txnOf data ≠ some txnID := by
  cases a with
  | own id i fates =>
    cases i with
    | replicate data call =>
      intro htxn
      simp only [Deployment.foreign, decide_eq_true_eq] at h
      refine h.1 ?_
      cases data with
      | none => simp [txnOf] at htxn
      | some envelope =>
        simp only [txnOf, Option.bind_some] at htxn
        split at htxn
        · simpa [isChunkIntent]
        · cases htxn
    | _ => trivial
  | _ => trivial

/-- **An error that is a decision keeps a transaction from being both committed and aborted.** -/
theorem Atomic.step (h : Atomic w) {m : Move} (hm : Decided w m)
    (hs : Deployment.step S w m = some w') : Atomic w' := by
  have hof : ∀ {txnID wr}, w.active txnID = some wr → wr.ctx.txnID = txnID ∧ w.writes wr.ctx.txnID = some wr := by
    intro txnID wr hactive
    have hwr := (Deployment.active_eq hactive).1
    have hkey := (h.keyed txnID wr hwr).1
    exact ⟨hkey, hkey.symm ▸ hwr⟩
  cases m with
  | restart id clock =>
    dsimp only [Deployment.step] at hs
    split at hs
    · cases hs
    · next svc _ =>
      obtain ⟨raft, hraft, rfl⟩ := Option.map_eq_some_iff.mp hs
      refine h.moved fun t _ ht => ?_
      have hset : Only (fun data => txnOf data ≠ some t) { w.raft.node id with
          disk := { (w.raft.node id).disk with machine := svc } } :=
        { ht.node id with }
      exact (ht.set hset _).step (a := .restart id) trivial hraft
  | raft a =>
    dsimp only [Deployment.step] at hs
    split at hs
    · next hforeign =>
      obtain ⟨raft, hraft, rfl⟩ := Option.map_eq_some_iff.mp hs
      have hmoved : Atomic (w.moved raft) := h.moved fun t _ ht => ht.step (txnOf_of_foreign hforeign t) hraft
      exact { hmoved with }
    · cases hs
  | begin id req newChunkID txnID view ctxDone =>
    dsimp only [Deployment.step] at hs
    split at hs
    · next hguard =>
      cases hs
      exact h.begin hguard.2.2.1 hguard.2.2.2.1 view ctxDone
    · cases hs
  | fetch txnID view lost now =>
    dsimp only [Deployment.step] at hs
    split at hs
    · next wr hactive =>
      obtain ⟨rfl, hwr⟩ := hof hactive
      split at hs
      · next todo hphase =>
        cases hs
        refine h.fetch hwr (fun wr' hwr' => ?_) view lost now todo
        cases hwr.symm.trans hwr'
        exact .inl ⟨todo, hphase⟩
      · cases hs
    · cases hs
  | deliver k fate works now => exact h.deliver hs
  | prepared txnID k lost =>
    dsimp only [Deployment.step] at hs
    split at hs
    · next wr hactive =>
      obtain ⟨rfl, hwr⟩ := hof hactive
      split at hs
      · next waiting failures hphase =>
        refine h.prepared hwr (fun wr' hwr' => ?_) hs
        cases hwr.symm.trans hwr'
        exact .inr ⟨waiting, failures, hphase⟩
      · cases hs
    · cases hs
  | proceed txnID ctxDone mtime now call fates =>
    dsimp only [Deployment.step] at hs
    split at hs
    · next wr hactive =>
      obtain ⟨rfl, hwr⟩ := hof hactive
      split at hs
      · next failures hphase =>
        split at hs
        · cases hs
          refine h.proceed hwr (fun wr' hwr' => ?_) failures ctxDone mtime now call fates
          cases hwr.symm.trans hwr'
          exact .inr ⟨[], failures, hphase⟩
        · cases hs
      · cases hs
    · cases hs
  | returned txnID err =>
    dsimp only [Deployment.step] at hs
    split at hs
    · next wr hactive =>
      obtain ⟨rfl, hwr⟩ := hof hactive
      split at hs
      · split at hs
        · cases err with
          | none =>
            cases hs
            exact h.commitWrite hwr
          | some err =>
            cases hs
            exact h.abortWrite hwr hm _
        · cases hs
      · cases hs
    · cases hs
  | expired txnID =>
    dsimp only [Deployment.step] at hs
    split at hs
    · next wr hactive =>
      obtain ⟨rfl, hwr⟩ := hof hactive
      split at hs
      · cases hs
        exact h.expire hwr hm _ _
      · cases hs
    · cases hs
  | stopped txnID =>
    dsimp only [Deployment.step] at hs
    split at hs
    · next wr hactive =>
      obtain ⟨rfl, hwr⟩ := hof hactive
      split at hs
      · cases hs
        exact h.abortWrite hwr hm _
      · cases hs
    · cases hs

/-- **Atomic commitment.** In every run in which each error of `Replicate` that reaches `handleWrite` is
a decision: if any node has applied the chunk intent of a transaction, in whatever state, then no abort
of it has been sent, and no participant has removed what it prepared for it. -/
theorem committed_never_aborted (S : Setting) (moves : List Move)
    (hdecided : Along (Deployment.step S) Decided .init moves) {w : Deployment}
    (hrun : exec (Deployment.step S) .init moves = some w) {id : NodeId} {index : Nat}
    {envelope : RaftCommandEnvelope} (happlied : .applied index (some envelope) ∈ (w.raft.node id).events)
    (htype : envelope.type = .chunkIntent) {intent : ChunkIntentOperation}
    (hintent : envelope.chunkIntent = some intent) :
    (∀ l ∈ w.wire, ∀ chunkID, l.message ≠ .abort intent.txnID chunkID) ∧
      ∀ participant chunkID,
        .removed (tempFileName chunkID intent.txnID) ∉ (w.chunks participant).events := by
  have hatomic : Atomic w :=
    exec_along (fun s m s' h hm hs => h.step hm hs) moves atomic_init hdecided hrun
  have htxn : txnOf (some envelope) = some intent.txnID := by simp [txnOf, htype, hintent]
  -- the envelope is in the record of an applier, so its proposal is not gone
  have hpresent : ¬ Absent intent.txnID w.raft :=
    fun habsent => (habsent.node id).applied index _ happlied htxn
  have hnot : ¬ w.Aborted intent.txnID := fun haborted => hpresent (hatomic.gone _ haborted)
  have huuid : isUuid intent.txnID = true := by
    cases hwr : w.writes intent.txnID with
    | none =>
      have hopen : w.Open intent.txnID := fun wr hsome => absurd hsome (by simp [hwr])
      exact absurd (hatomic.fresh _ hopen).1 hpresent
    | some wr => exact (hatomic.keyed _ wr hwr).2
  constructor
  · intro l hl chunkID hmessage
    exact hnot ⟨chunkID, List.mem_map.mpr ⟨l, hl, hmessage⟩⟩
  · intro participant chunkID hremoved
    obtain ⟨txnID, chunkID', hname, huuid', haborted⟩ := hatomic.removed participant _ hremoved
    have heq := (Chunk.tempFileName_inj (isUuid_underscore huuid) (isUuid_underscore huuid') hname).2
    exact hnot (heq ▸ haborted)

end Run

section Examples

attribute [local instance] Conv.go

/-- Two nodes, one replica of a chunk, and chunks of four bytes. -/
def twoNodes : Setting where
  cluster :=
    { nodes := [⟨"a", "a:1"⟩, ⟨"b", "b:1"⟩]
      distinct := by decide
      named := by decide
      maxBatchSize := fun _ => 1
      snapshotThresholdLogs := 0 }
  config := { chunkSize := 4, replicaCount := 1, positive := four_positive }
  calculateChecksum := fun data => data
  serialize := fun _ => []
  deserialize := fun _ => none

def twoNodes.view : ClusterView := ⟨some twoNodes.cluster.nodes, some twoNodes.cluster.nodes⟩

/-- "a" leads, the file `f` is created, and its first write is prepared and proposed at index 2. -/
def proposeWrite : List Move :=
  [.restart "a" fun _ => 0, .restart "b" fun _ => 0, .raft (.own "a" .electionTimeout []),
    .raft (.deliver 0 []), .raft (.deliver 1 []),
    .raft (.own "a" (.replicate createF 0) []), .raft (.broadcast "a"), .raft (.deliver 2 []),
    .raft (.deliver 3 []),
    .begin "a" ⟨[49], 0, [1, 2]⟩ [99] [102] twoNodes.view false, .deliver 0 .done true 0,
    .prepared [102] 0 false, .proceed [102] false 7 7 1 []]

/-- "b" stores the proposal and answers, and "a" commits and applies it. -/
def commitProposal : List Move :=
  [.raft (.broadcast "a"), .raft (.deliver 4 []), .raft (.deliver 5 [])]

def firstIntent : ChunkIntentOperation := ⟨[102], [99], ["a"], .committed, 7⟩

/-- The envelope of that write. -/
def firstWrite : RaftCommandEnvelope where
  type := .chunkIntent
  posixMeta := some
    { type := .updateInode
      inodeID := [49]
      newSize := some 2
      newChunkList := some [⟨[99], [⟨"a", "a:1"⟩]⟩]
      setMTime := some 7
      timestamp := 7 }
  chunkIntent := some firstIntent

theorem committed_never_aborted_first : ∃ w,
    exec (Deployment.step twoNodes) .init (proposeWrite ++ commitProposal ++ [.returned [102] none]) =
        some w ∧
      .applied 2 (some firstWrite) ∈ (w.raft.node "a").events ∧
      (∀ l ∈ w.wire, ∀ chunkID, l.message ≠ .abort [102] chunkID) ∧
      ∀ participant chunkID, .removed (tempFileName chunkID [102]) ∉ (w.chunks participant).events := by
  have hdecided : Along (Deployment.step twoNodes) Decided .init
      (proposeWrite ++ commitProposal ++ [.returned [102] none]) := by
    refine along_of_mem _ _ fun m hm w => ?_
    simp only [proposeWrite, commitProposal, List.cons_append, List.nil_append, List.mem_cons,
      List.not_mem_nil, or_false] at hm
    rcases hm with rfl | rfl | rfl | rfl | rfl | rfl | rfl | rfl | rfl | rfl | rfl | rfl | rfl | rfl | rfl |
      rfl | rfl <;> trivial
  obtain ⟨w, hrun, happlied⟩ : ∃ w,
      exec (Deployment.step twoNodes) .init (proposeWrite ++ commitProposal ++ [.returned [102] none]) =
          some w ∧
        .applied 2 (some firstWrite) ∈ (w.raft.node "a").events := by
    refine ⟨_, rfl, ?_⟩
    exact List.mem_of_getElem? (i := 3) rfl
  exact ⟨w, hrun, happlied,
    committed_never_aborted twoNodes _ hdecided hrun happlied rfl
      (show firstWrite.chunkIntent = some firstIntent from rfl)⟩

/-- The context of the write is done while its proposal is in the log of "a": its data is removed, and
the proposal is committed and applied. -/
theorem committed_and_aborted : ∃ w,
    exec (Deployment.step twoNodes) .init
        (proposeWrite ++ [.expired [102], .deliver 1 .done true 0] ++ commitProposal) = some w ∧
      .applied 2 (some firstWrite) ∈ (w.raft.node "a").events ∧
      ⟨"a:1", .abort [102] [99], some none⟩ ∈ w.wire ∧
      .removed (tempFileName [99] [102]) ∈ (w.chunks "a").events := by
  refine ⟨_, rfl, ?_, ?_, ?_⟩
  · exact List.mem_of_getElem? (i := 4) rfl
  · exact List.mem_of_getElem? (i := 1) rfl
  · exact List.mem_of_getElem? (i := 1) rfl

end Examples

end Sandstore.Server
