import Sandstore.Chunk.Slot
import Sandstore.Lib.Newest
import Sandstore.Server.Read

/-!
# The replicas of one chunk

Writes of one chunk as its replicas see them. A write reads the chunk from one replica, unless it need
not, and works out its payload; each target gets the payload in a prepare; when all have it, raft may
decide the transaction and `handleWrite` returns; and some time after that each target gets the commit,
once or never. A write that fails sends aborts instead. Notices arrive in any order, those of different
writes mixed, and a prepare may be late. The nodes are up and their files do as they are told. What each
replica got is on record, for the observer.

`Tracks` holds of every run: a replica shows what its record says, a commit is sent after the decision,
and a decision comes after all prepares.

A read is served from the chunk's own name. So **a write that has returned is seen by a read from any
replica that has got its commit** (`committed_write_visible`), if no prepare came between the prepare and
the commit of another write there. A replica that waits for a commit still serves what it had.
-/

namespace Sandstore.Server

open Lib
open Metadata (ChunkLocation)
open Orchestrators
open Chunk (ChunkService Slot tempFileName indexed_handle)
open Raft (Bytes NodeId)

/-! ## The system -/

/-- A write of the chunk, with what its prepares carry. -/
structure ChunkWrite where
  txnID : Bytes
  offset : Nat
  data : Bytes
  payload : Bytes
  deriving DecidableEq

inductive Notice where
  | prepare (x : ChunkWrite)
  | commit (x : ChunkWrite)
  | abort (x : ChunkWrite)
  deriving DecidableEq

/-- What does not change: the chunk, where it is placed, and whether it is there from the start. -/
structure Placement where
  chunkSize : Nat
  calculateChecksum : Bytes → Bytes
  chunkID : Bytes
  targets : List NodeId
  existing : Bool

/-- The services of the targets and their records, the writes that have begun, in that order, those that
have returned success and those that have failed. -/
structure Replicas where
  nodes : NodeId → ChunkService
  record : NodeId → List Notice := fun _ => []
  writes : List ChunkWrite := []
  decided : List ChunkWrite := []
  failed : List ChunkWrite := []

inductive ReplicaStep where
  | begin (txnID : Bytes) (offset : Nat) (data : Bytes) (source : NodeId)
  | decide (x : ChunkWrite)
  | fail (x : ChunkWrite)
  | deliver (notice : Notice) (target : NodeId) (now : Int)
  deriving DecidableEq

/-- A notice at a service. -/
def Placement.handle (P : Placement) (now : Int) (cs : ChunkService) : Notice → ChunkService
  | .prepare x =>
    (cs.prepareChunk P.calculateChecksum .done now x.txnID P.chunkID x.payload
      (P.calculateChecksum x.payload)).1
  | .commit x => (cs.commitChunk true x.txnID P.chunkID).1
  | .abort x => (cs.abortChunk true x.txnID P.chunkID).1

namespace Replicas

def deliver (P : Placement) (w : Replicas) (notice : Notice) (target : NodeId) (now : Int) : Replicas :=
  { w with
    nodes := fun j => if j = target then P.handle now (w.nodes j) notice else w.nodes j
    record := fun j => if j = target then w.record j ++ [notice] else w.record j }

/-- What has been sent. -/
def sent (w : Replicas) : Notice → Bool
  | .prepare x => x ∈ w.writes
  | .commit x => x ∈ w.decided
  | .abort x => x ∈ w.failed

/-- The payload of a write that starts now, and reads from `source` if it reads. -/
def payload (P : Placement) (w : Replicas) (offset : Nat) (data : Bytes) (source : NodeId) : Option Bytes :=
  let isNewChunk := ¬ P.existing ∧ w.writes = []
  let existingData :=
    if readsFirst P.chunkSize offset data isNewChunk then
      ((w.nodes source).readChunk none true 0 P.chunkID).2.toOption
    else some []
  existingData.bind fun existingData =>
    (prepareWritePayload P.chunkSize offset data isNewChunk existingData).toOption

/-- Whether a write may begin. It lies in the chunk, and its ID is new. A chunk that was not there from
the start is created by its first write, and found by others once that one is decided. -/
def mayBegin (P : Placement) (w : Replicas) (txnID : Bytes) (offset : Nat) (data : Bytes)
    (source : NodeId) : Bool :=
  source ∈ P.targets ∧ (∀ x ∈ w.writes, x.txnID ≠ txnID) ∧
    (∀ target ∈ P.targets, (w.nodes target).files.get (tempFileName P.chunkID txnID) = none) ∧
    offset % P.chunkSize + data.length ≤ P.chunkSize ∧
    (P.existing ∨ ∀ x ∈ w.writes.head?, x ∈ w.decided)

/-- One step. -/
def step (P : Placement) (w : Replicas) : ReplicaStep → Option Replicas
  | .begin txnID offset data source =>
    if w.mayBegin P txnID offset data source then
      (w.payload P offset data source).map fun payload =>
        { w with writes := w.writes ++ [⟨txnID, offset, data, payload⟩] }
    else none
  | .decide x =>
    if x ∈ w.writes ∧ x ∉ w.failed ∧ ∀ target ∈ P.targets, .prepare x ∈ w.record target then
      some { w with decided := x :: w.decided }
    else none
  | .fail x =>
    if x ∈ w.writes ∧ x ∉ w.decided then some { w with failed := x :: w.failed } else none
  | .deliver notice target now =>
    if w.sent notice ∧ target ∈ P.targets ∧ notice ∉ w.record target then
      some (w.deliver P notice target now)
    else none

/-- `sendReadRPC` to a target that can be reached or not. -/
def sendReadRPC (w : Replicas) (reachable : NodeId → Bool) (target : ChunkLocation) (chunkID : Bytes) :
    Option Bytes :=
  if reachable target.logicalNodeAlias then
    ((w.nodes target.logicalNodeAlias).readChunk none true 0 chunkID).2.toOption
  else none

end Replicas

/-- What a step does, with its guards. -/
inductive Took (P : Placement) (w : Replicas) : ReplicaStep → Replicas → Prop
  | begin {txnID : Bytes} {offset : Nat} {data : Bytes} {source : NodeId} {payload : Bytes}
      (hmay : w.mayBegin P txnID offset data source) (hpayload : w.payload P offset data source = some payload) :
      Took P w (.begin txnID offset data source)
        { w with writes := w.writes ++ [⟨txnID, offset, data, payload⟩] }
  | decide {x : ChunkWrite} (hx : x ∈ w.writes) (hfailed : x ∉ w.failed)
      (hprepared : ∀ target ∈ P.targets, .prepare x ∈ w.record target) :
      Took P w (.decide x) { w with decided := x :: w.decided }
  | fail {x : ChunkWrite} (hx : x ∈ w.writes) (hdecided : x ∉ w.decided) :
      Took P w (.fail x) { w with failed := x :: w.failed }
  | deliver {notice : Notice} {target : NodeId} {now : Int} (hsent : w.sent notice)
      (htarget : target ∈ P.targets) (hnew : notice ∉ w.record target) :
      Took P w (.deliver notice target now) (w.deliver P notice target now)

theorem took_of_step {P : Placement} {w w' : Replicas} {a : ReplicaStep} (hs : w.step P a = some w') :
    Took P w a w' := by
  cases a <;> simp only [Replicas.step] at hs <;> split at hs
  case begin.isTrue hmay =>
    obtain ⟨payload, hpayload, rfl⟩ := Option.map_eq_some_iff.mp hs
    exact .begin hmay hpayload
  case decide.isTrue hguard =>
    cases hs
    exact .decide hguard.1 hguard.2.1 hguard.2.2
  case fail.isTrue hguard =>
    cases hs
    exact .fail hguard.1 hguard.2
  case deliver.isTrue hguard =>
    cases hs
    exact .deliver hguard.1 hguard.2.1 hguard.2.2
  all_goals cases hs

/-! ## What a notice does -/

variable {P : Placement} {w w' : Replicas} {notice : Notice} {target : NodeId} {now : Int}

/-- A notice at a slot. -/
def Notice.apply (s : Slot) : Notice → Slot
  | .prepare x => s.prepare x.txnID x.payload
  | .commit x => s.commit x.txnID
  | .abort x => s.abort x.txnID

/-- The transaction a notice prepares has no temp file. -/
def Unprepared (P : Placement) (cs : ChunkService) (notice : Notice) : Prop :=
  ∀ x, notice = .prepare x → cs.files.get (tempFileName P.chunkID x.txnID) = none

section Service

variable {cs : ChunkService}

theorem indexed_notice (h : cs.Indexed) : (P.handle now cs notice).Indexed := by
  cases notice with
  | prepare x => exact h.perform _ (.prepare _ _ _ _ _ _)
  | commit x => exact h.perform id (.commit _ _ _)
  | abort x => exact h.perform id (.abort _ _ _)

theorem slot_notice (h : cs.Indexed) (hnew : Unprepared P cs notice) :
    (P.handle now cs notice).slot P.chunkID = notice.apply (cs.slot P.chunkID) := by
  cases notice with
  | prepare x => exact ChunkService.slot_prepareChunk _ _ (by simp [hnew x rfl])
  | commit x => exact ChunkService.slot_commitChunk h
  | abort x => exact ChunkService.slot_abortChunk h

theorem temp_notice {t : Bytes} (hnew : Unprepared P cs notice) (hne : ∀ x, notice = .prepare x → t ≠ x.txnID)
    (ht : cs.files.get (tempFileName P.chunkID t) = none) :
    (P.handle now cs notice).files.get (tempFileName P.chunkID t) = none := by
  cases notice with
  | prepare x => exact (ChunkService.temp_prepareChunk (hne x rfl) _ _ (by simp [hnew x rfl])).trans ht
  | commit x => exact ChunkService.temp_commitChunk ht
  | abort x => exact ChunkService.temp_abortChunk ht

end Service

@[simp] theorem mem_record_deliver {j : NodeId} {m : Notice} :
    m ∈ (w.deliver P notice target now).record j ↔ m ∈ w.record j ∨ (j = target ∧ m = notice) := by
  by_cases hj : j = target <;> simp [Replicas.deliver, hj]

@[simp] theorem writes_deliver : (w.deliver P notice target now).writes = w.writes := rfl

@[simp] theorem decided_deliver : (w.deliver P notice target now).decided = w.decided := rfl

@[simp] theorem failed_deliver : (w.deliver P notice target now).failed = w.failed := rfl

theorem sent_deliver (m : Notice) : (w.deliver P notice target now).sent m = w.sent m := by cases m <;> rfl

/-! ## What holds of every run -/

/-- What the records say is so, and they are in order. -/
structure Tracks (P : Placement) (w : Replicas) : Prop where
  distinct : (w.writes.map (·.txnID)).Nodup
  indexed : ∀ target, (w.nodes target).Indexed
  fresh : ∀ x ∈ w.writes, ∀ target ∈ P.targets, .prepare x ∉ w.record target →
    (w.nodes target).files.get (tempFileName P.chunkID x.txnID) = none
  sent : ∀ target, ∀ notice ∈ w.record target, w.sent notice
  begun : ∀ x ∈ w.decided ++ w.failed, x ∈ w.writes
  prepared : ∀ x ∈ w.decided, ∀ target ∈ P.targets, .prepare x ∈ w.record target
  undecided : ∀ x ∈ w.failed, x ∉ w.decided

theorem Tracks.start {nodes : NodeId → ChunkService} (h : ∀ target, (nodes target).Indexed) :
    Tracks P { nodes := nodes } where
  distinct := List.nodup_nil
  indexed := h
  fresh := by simp
  sent := by simp
  begun := by simp
  prepared := by simp
  undecided := by simp

variable {x : ChunkWrite}

theorem Tracks.eq_of_txnID (h : Tracks P w) {y : ChunkWrite} (hx : x ∈ w.writes) (hy : y ∈ w.writes)
    (heq : x.txnID = y.txnID) : x = y := List.inj_on_of_nodup_map h.distinct hx hy heq

theorem Tracks.nodup (h : Tracks P w) : w.writes.Nodup := h.distinct.of_map _

theorem Tracks.decided_of_commit (h : Tracks P w) (hx : .commit x ∈ w.record target) : x ∈ w.decided := by
  simpa [Replicas.sent] using h.sent target _ hx

theorem Tracks.begun_of_decided (h : Tracks P w) (hx : x ∈ w.decided) : x ∈ w.writes :=
  h.begun x (List.mem_append_left _ hx)

/-- A prepare that has been sent and has not arrived finds no temp file. -/
theorem Tracks.unprepared (h : Tracks P w) (hsent : w.sent notice) (htarget : target ∈ P.targets)
    (hnew : notice ∉ w.record target) : Unprepared P (w.nodes target) notice := by
  rintro x rfl
  exact h.fresh x (by simpa [Replicas.sent] using hsent) target htarget hnew

theorem Tracks.slot_deliver (h : Tracks P w) (hsent : w.sent notice) (htarget : target ∈ P.targets)
    (hnew : notice ∉ w.record target) (now : Int) (j : NodeId) :
    ((w.deliver P notice target now).nodes j).slot P.chunkID =
      if j = target then notice.apply ((w.nodes j).slot P.chunkID) else (w.nodes j).slot P.chunkID := by
  by_cases hj : j = target
  · subst hj
    simp [Replicas.deliver, slot_notice (h.indexed j) (h.unprepared hsent htarget hnew)]
  · simp [Replicas.deliver, hj]

theorem Tracks.begin (h : Tracks P w) {txnID : Bytes} {offset : Nat} {data : Bytes} {source : NodeId}
    (hmay : w.mayBegin P txnID offset data source) (payload : Bytes) :
    Tracks P { w with writes := w.writes ++ [⟨txnID, offset, data, payload⟩] } := by
  simp only [Replicas.mayBegin, decide_eq_true_eq] at hmay
  obtain ⟨_, hid, htemp, _, _⟩ := hmay
  refine { h with distinct := ?_, fresh := fun x hx target htarget hnew => ?_, sent := ?_, begun := ?_ }
  · rw [List.map_append, List.nodup_append]
    refine ⟨h.distinct, by simp, ?_⟩
    simpa using hid
  · rcases List.mem_append.mp hx with hx | hx
    · exact h.fresh x hx target htarget hnew
    · cases List.mem_singleton.mp hx
      exact htemp target htarget
  · intro target notice hnotice
    have := h.sent target notice hnotice
    cases notice <;> simp_all [Replicas.sent]
  · exact fun x hx => List.mem_append_left _ (h.begun x hx)

theorem Tracks.deliver (h : Tracks P w) (hsent : w.sent notice) (htarget : target ∈ P.targets)
    (hnew : notice ∉ w.record target) (now : Int) : Tracks P (w.deliver P notice target now) where
  distinct := h.distinct
  indexed j := by
    by_cases hj : j = target
    · simpa [Replicas.deliver, hj] using indexed_notice (h.indexed target)
    · simpa [Replicas.deliver, hj] using h.indexed j
  fresh x hx j hj hunprepared := by
    simp only [mem_record_deliver, not_or, not_and] at hunprepared
    have hbefore := h.fresh x hx j hj hunprepared.1
    by_cases heq : j = target
    · subst heq
      simp only [Replicas.deliver, if_true]
      refine temp_notice (h.unprepared hsent htarget hnew) ?_ hbefore
      rintro y rfl htxn
      have hy : y ∈ w.writes := by simpa [Replicas.sent] using hsent
      exact hunprepared.2 rfl (congrArg _ (h.eq_of_txnID hx hy htxn))
    · simpa [Replicas.deliver, heq] using hbefore
  sent j m hm := by
    rw [sent_deliver]
    rcases mem_record_deliver.mp hm with hm | ⟨_, rfl⟩
    · exact h.sent j m hm
    · exact hsent
  begun := h.begun
  prepared x hx j hj := mem_record_deliver.mpr (.inl (h.prepared x hx j hj))
  undecided := h.undecided

theorem Tracks.step {a : ReplicaStep} (h : Tracks P w) (hs : w.step P a = some w') : Tracks P w' := by
  cases took_of_step hs with
  | begin hmay hpayload => exact h.begin hmay _
  | @decide x hx hfailed hprepared =>
    refine { h with sent := ?_, begun := ?_, prepared := ?_, undecided := ?_ }
    · intro target notice hnotice
      have := h.sent target notice hnotice
      cases notice <;> simp_all [Replicas.sent]
    · simpa [hx] using h.begun
    · simpa using ⟨hprepared, h.prepared⟩
    · intro y hy
      have hne : y ≠ x := fun heq => hfailed (heq ▸ hy)
      simp [hne, h.undecided y hy]
  | @fail x hx hdecided =>
    refine { h with sent := ?_, begun := ?_, undecided := ?_ }
    · intro target notice hnotice
      have := h.sent target notice hnotice
      cases notice <;> simp_all [Replicas.sent]
    · intro y hy
      have := h.begun y
      simp only [List.mem_append, List.mem_cons] at hy this
      rcases hy with hy | rfl | hy
      · exact this (.inl hy)
      · exact hx
      · exact this (.inr hy)
    · simpa [hdecided] using h.undecided
  | deliver hsent htarget hnew => exact h.deliver hsent htarget hnew _

/-! ## Visibility -/

/-- The writes follow one another, and no prepare takes the slot from a write that is not over there. -/
def InTurn (w : Replicas) : ReplicaStep → Prop
  | .begin _ _ _ _ => ∀ y ∈ w.writes, y ∈ w.decided ∨ y ∈ w.failed
  | .deliver (.prepare _) target _ =>
    ∀ y ∈ w.writes, .prepare y ∈ w.record target → y ∈ w.failed ∨ .commit y ∈ w.record target
  | _ => True

/-- The commit of a write has arrived. -/
def CommittedAt (w : Replicas) (target : NodeId) (x : ChunkWrite) : Prop := .commit x ∈ w.record target

/-- A write that waits has the slot, writes come to an end in their order, and a replica shows the newest
write that it has the commit of. -/
structure Shows (P : Placement) (w : Replicas) : Prop extends Tracks P w where
  waiting : ∀ x ∈ w.writes, ∀ target ∈ P.targets, .prepare x ∈ w.record target → x ∉ w.failed →
    ¬ CommittedAt w target x → ((w.nodes target).slot P.chunkID).prepared = some (x.txnID, x.payload)
  finished : ∀ front x back, w.writes = front ++ x :: back → back ≠ [] → x ∈ w.decided ∨ x ∈ w.failed
  ordered : ∀ front x back, w.writes = front ++ x :: back → ∀ y ∈ back, ∀ target ∈ P.targets,
    .prepare y ∈ w.record target → x ∈ w.failed ∨ CommittedAt w target x
  shown : ∀ target ∈ P.targets, ∀ x, Newest (CommittedAt w target) w.writes x →
    ((w.nodes target).slot P.chunkID).final = some x.payload

/-- A list with one more element, taken apart before its end. -/
theorem snoc_split {α : Type} {l front back : List α} {x z : α} (h : l ++ [z] = front ++ x :: back)
    (hback : back ≠ []) : ∃ back', l = front ++ x :: back' ∧ back = back' ++ [z] := by
  obtain ⟨back', z', rfl⟩ := (List.eq_nil_or_concat back).resolve_left hback
  rw [List.concat_eq_append, ← List.cons_append, ← List.append_assoc] at h
  obtain ⟨rfl, hz⟩ := List.append_inj' h rfl
  cases hz
  exact ⟨back', rfl, by simp⟩

theorem Shows.begin (h : Shows P w) {z : ChunkWrite} (hz : z ∉ w.writes)
    (hover : ∀ y ∈ w.writes, y ∈ w.decided ∨ y ∈ w.failed) (htracks : Tracks P { w with writes := w.writes ++ [z] }) :
    Shows P { w with writes := w.writes ++ [z] } := by
  have hunknown : ∀ target, .prepare z ∉ w.record target ∧ .commit z ∉ w.record target := by
    refine fun target => ⟨fun hmem => hz ?_, fun hmem => hz ?_⟩
    · simpa [Replicas.sent] using h.sent target _ hmem
    · exact h.begun_of_decided (h.decided_of_commit hmem)
  refine { htracks with waiting := ?_, finished := ?_, ordered := ?_, shown := ?_ }
  · intro x hx target htarget hprepared
    rcases List.mem_append.mp hx with hx | hx
    · exact h.waiting x hx target htarget hprepared
    · cases List.mem_singleton.mp hx
      exact absurd hprepared (hunknown target).1
  · intro front x back heq hback
    obtain ⟨back', heq, _⟩ := snoc_split heq hback
    exact hover x (by simp [heq])
  · intro front x back heq y hy target htarget hprepared
    obtain ⟨back', hbefore, rfl⟩ := snoc_split heq (List.ne_nil_of_mem hy)
    rcases List.mem_append.mp hy with hy | hy
    · exact h.ordered front x back' hbefore y hy target htarget hprepared
    · cases List.mem_singleton.mp hy
      exact absurd hprepared (hunknown target).1
  · intro target htarget x hnewest
    rcases newest_snoc.mp hnewest with ⟨hcommit, _⟩ | ⟨_, hnewest⟩
    · exact absurd hcommit (hunknown target).2
    · exact h.shown target htarget x hnewest

/-- The prepare of a write finds every earlier one over. -/
theorem Shows.prepare (h : Shows P w) (hsent : w.sent (.prepare x))
    (htarget : target ∈ P.targets) (hnew : .prepare x ∉ w.record target)
    (hfree : ∀ y ∈ w.writes, .prepare y ∈ w.record target → y ∈ w.failed ∨ CommittedAt w target y)
    (now : Int) : Shows P (w.deliver P (.prepare x) target now) := by
  have hslot := h.slot_deliver hsent htarget hnew now
  have hsame : ∀ j y, CommittedAt (w.deliver P (.prepare x) target now) j y ↔ CommittedAt w j y := by
    simp [CommittedAt]
  refine { h.deliver hsent htarget hnew now with waiting := ?_, finished := h.finished, ordered := ?_, shown := ?_ }
  · intro y hy j hj hprepared hfailed hcommit
    rw [hslot]
    rw [hsame] at hcommit
    rcases mem_record_deliver.mp hprepared with hbefore | ⟨rfl, heq⟩
    · have hother : j ≠ target := by
        rintro rfl
        exact (hfree y hy hbefore).elim hfailed hcommit
      rw [if_neg hother]
      exact h.waiting y hy j hj hbefore hfailed hcommit
    · cases heq
      simp [Notice.apply]
  · intro front y back heq z hz j hj hprepared
    rw [hsame]
    rcases mem_record_deliver.mp hprepared with hbefore | ⟨rfl, hzx⟩
    · exact h.ordered front y back heq z hz j hj hbefore
    · rcases h.finished front y back heq (List.ne_nil_of_mem hz) with hdecided | hfailed
      · exact hfree y (h.begun_of_decided hdecided) (h.prepared y hdecided j hj)
      · exact .inl hfailed
  · intro j hj y hnewest
    have hfinal := h.shown j hj y (hnewest.congr fun z _ => hsame j z)
    rw [hslot]
    split <;> simpa [Notice.apply] using hfinal

/-- The commit of a write finds it in the slot, and nothing newer under the chunk's name. -/
theorem Shows.commit (h : Shows P w) (hsent : w.sent (.commit x))
    (htarget : target ∈ P.targets) (hnew : .commit x ∉ w.record target) (now : Int) :
    Shows P (w.deliver P (.commit x) target now) := by
  have hslot := h.slot_deliver hsent htarget hnew now
  have hdecided : x ∈ w.decided := by simpa [Replicas.sent] using hsent
  have hx := h.begun_of_decided hdecided
  have hfailed : x ∉ w.failed := fun hmem => h.undecided x hmem hdecided
  have hwaits := h.waiting x hx target htarget (h.prepared x hdecided target htarget) hfailed hnew
  refine { h.deliver hsent htarget hnew now with waiting := ?_, finished := h.finished, ordered := ?_, shown := ?_ }
  · intro y hy j hj hprepared hyfailed hcommit
    simp only [CommittedAt, mem_record_deliver, not_or, not_and] at hcommit
    have hbefore : .prepare y ∈ w.record j := by simpa using hprepared
    have hwaits' := h.waiting y hy j hj hbefore hyfailed hcommit.1
    rw [hslot]
    split
    · next heq =>
      have hne : y.txnID ≠ x.txnID := fun htxn => hcommit.2 heq (congrArg _ (h.eq_of_txnID hy hx htxn))
      rw [Notice.apply, Slot.commit_other hwaits' hne, hwaits']
    · exact hwaits'
  · intro front y back heq z hz j hj hprepared
    have hbefore : .prepare z ∈ w.record j := by simpa using hprepared
    exact (h.ordered front y back heq z hz j hj hbefore).imp_right fun hc => mem_record_deliver.mpr (.inl hc)
  · intro j hj y hnewest
    rw [hslot]
    split
    · next heq =>
      subst heq
      have hadd : ∀ z, CommittedAt (w.deliver P (.commit x) j now) j z ↔ CommittedAt w j z ∨ z = x := by
        simp [CommittedAt]
      obtain ⟨front, back, hwrites⟩ := List.append_of_mem hx
      have hback : ∀ z ∈ back, ¬ CommittedAt w j z := by
        intro z hz hcommit
        have hprepared := h.prepared z (h.decided_of_commit hcommit) j hj
        exact (h.ordered front x back hwrites z hz j hj hprepared).elim hfailed hnew
      have hx' : Newest (CommittedAt (w.deliver P (.commit x) j now) j) w.writes x :=
        hwrites ▸ newest_add hadd (hwrites ▸ h.nodup) hback
      rw [writes_deliver] at hnewest
      cases hnewest.unique hx'
      rw [Notice.apply, Slot.commit_own hwaits]
    · next hother =>
      refine h.shown j hj y (hnewest.congr fun z _ => ?_)
      simp [CommittedAt, hother]

/-- An abort frees the slot if its write has it. -/
theorem Shows.abort (h : Shows P w) (hsent : w.sent (.abort x))
    (htarget : target ∈ P.targets) (hnew : .abort x ∉ w.record target) (now : Int) :
    Shows P (w.deliver P (.abort x) target now) := by
  have hslot := h.slot_deliver hsent htarget hnew now
  have hfailed : x ∈ w.failed := by simpa [Replicas.sent] using hsent
  have hsame : ∀ j y, CommittedAt (w.deliver P (.abort x) target now) j y ↔ CommittedAt w j y := by
    simp [CommittedAt]
  refine { h.deliver hsent htarget hnew now with waiting := ?_, finished := h.finished, ordered := ?_, shown := ?_ }
  · intro y hy j hj hprepared hyfailed hcommit
    have hwaits := h.waiting y hy j hj (by simpa using hprepared) hyfailed ((hsame j y).not.mp hcommit)
    rw [hslot]
    split
    · have hne : y.txnID ≠ x.txnID := by
        intro htxn
        exact hyfailed (h.eq_of_txnID hy (h.begun x (List.mem_append_right _ hfailed)) htxn ▸ hfailed)
      rw [Notice.apply, Slot.abort_other hwaits hne, hwaits]
    · exact hwaits
  · intro front y back heq z hz j hj hprepared
    rw [hsame]
    exact h.ordered front y back heq z hz j hj (by simpa using hprepared)
  · intro j hj y hnewest
    have hfinal := h.shown j hj y (hnewest.congr fun z _ => hsame j z)
    rw [hslot]
    split <;> simpa [Notice.apply] using hfinal

theorem Shows.step {a : ReplicaStep} (h : Shows P w) (hok : InTurn w a) (hs : w.step P a = some w') : Shows P w' := by
  have htracks := h.toTracks.step hs
  cases took_of_step hs with
  | begin hmay hpayload =>
    refine h.begin (fun hz => ?_) hok htracks
    simp only [Replicas.mayBegin, decide_eq_true_eq] at hmay
    exact hmay.2.1 _ hz rfl
  | decide hx hfailed hprepared =>
    exact { htracks with
      waiting := h.waiting
      finished := fun front x back heq hback => (h.finished front x back heq hback).imp_left (List.mem_cons_of_mem _)
      ordered := h.ordered
      shown := h.shown }
  | fail hx hdecided =>
    exact { htracks with
      waiting := fun x hx target htarget hprepared hfailed =>
        h.waiting x hx target htarget hprepared fun hmem => hfailed (List.mem_cons_of_mem _ hmem)
      finished := fun front x back heq hback => (h.finished front x back heq hback).imp_right (List.mem_cons_of_mem _)
      ordered := fun front x back heq y hy target htarget hprepared =>
        (h.ordered front x back heq y hy target htarget hprepared).imp_left (List.mem_cons_of_mem _)
      shown := h.shown }
  | @deliver notice target now hsent htarget hnew =>
    cases notice with
    | prepare x => exact h.prepare hsent htarget hnew hok now
    | commit x => exact h.commit hsent htarget hnew now
    | abort x => exact h.abort hsent htarget hnew now

theorem Shows.start {nodes : NodeId → ChunkService} (h : ∀ target, (nodes target).Indexed) :
    Shows P { nodes := nodes } where
  toTracks := .start h
  waiting := by simp
  finished := by simp
  ordered := by simp
  shown := fun _ _ _ hnewest => nomatch hnewest.mem

/-- A read of replicas that each serve something gets one of these. -/
theorem executeRead_reachable {reachable : NodeId → Bool} {chunkID : Bytes} {Good : Bytes → Prop}
    {locations : List ChunkLocation} (hserves : ∀ target ∈ locations, reachable target.logicalNodeAlias →
      ∃ data, ((w.nodes target.logicalNodeAlias).slot chunkID).final = some data ∧ Good data)
    (hsome : ∃ target ∈ locations, reachable target.logicalNodeAlias) :
    ∃ data, executeRead (w.sendReadRPC reachable) chunkID locations = .ok data ∧ Good data := by
  induction locations with
  | nil => simp at hsome
  | cons target targets ih =>
    by_cases hreach : reachable target.logicalNodeAlias
    · obtain ⟨data, hfinal, hgood⟩ := hserves target List.mem_cons_self hreach
      refine ⟨data, ?_, hgood⟩
      simp [executeRead, Replicas.sendReadRPC, hreach, (ChunkService.readChunk_slot true 0 data).mpr hfinal,
        Except.toOption]
    · obtain ⟨data, hread, hgood⟩ := ih (fun t ht => hserves t (List.mem_cons_of_mem _ ht)) (by
        simpa [hreach] using hsome)
      exact ⟨data, by simp [executeRead, Replicas.sendReadRPC, hreach, ← hread], hgood⟩

/-- **Visibility.** The writes of a client follow one another, and no prepare reaches a replica that still
has another write to commit. Then a read gets the content of a write that has returned, or of a later one
that has, if the replicas it can reach have that write's commit, and there are any. -/
theorem committed_write_visible (P : Placement) {nodes : NodeId → ChunkService}
    (hindexed : ∀ target, (nodes target).Indexed) {steps : List ReplicaStep} {w : Replicas}
    (hok : Along (Replicas.step P) InTurn { nodes := nodes } steps)
    (hrun : exec (Replicas.step P) { nodes := nodes } steps = some w) {x : ChunkWrite} (hx : x ∈ w.decided)
    (locations : List ChunkLocation) (hlocations : ∀ target ∈ locations, target.logicalNodeAlias ∈ P.targets)
    (reachable : NodeId → Bool) (hsome : ∃ target ∈ locations, reachable target.logicalNodeAlias)
    (hcommit : ∀ target ∈ locations, reachable target.logicalNodeAlias →
      .commit x ∈ w.record target.logicalNodeAlias) :
    ∃ y ∈ w.decided, NotBefore w.writes x y ∧
      executeRead (w.sendReadRPC reachable) P.chunkID locations = .ok y.payload := by
  have h : Shows P w := exec_along (fun _ _ _ h hok hs => h.step hok hs) steps (.start hindexed) hok hrun
  have hbegun := h.begun_of_decided hx
  have hserves : ∀ target ∈ locations, reachable target.logicalNodeAlias →
      ∃ data, ((w.nodes target.logicalNodeAlias).slot P.chunkID).final = some data ∧
        ∃ y ∈ w.decided, NotBefore w.writes x y ∧ data = y.payload := by
    intro target htarget hreach
    have hx' : CommittedAt w target.logicalNodeAlias x := hcommit target htarget hreach
    obtain ⟨y, hy⟩ := exists_newest (p := CommittedAt w target.logicalNodeAlias) hbegun hx'
    exact ⟨y.payload, h.shown _ (hlocations target htarget) y hy, y, h.decided_of_commit hy.holds,
      hy.notBefore hbegun hx', rfl⟩
  obtain ⟨_, hread, y, hy, hlater, rfl⟩ := executeRead_reachable hserves hsome
  exact ⟨y, hy, hlater, hread⟩

/-! ### A write and an overwrite -/

section Overwrite

/-- One replica of a chunk of four bytes. -/
def onePlace : Placement := ⟨4, fun _ => [], [99], ["a"], false⟩

def atOne : List ChunkLocation := [⟨"a", "a:1"⟩]

def createChunk : ChunkWrite := ⟨[49], 0, [1, 1], [1, 1]⟩

def overwriteChunk : ChunkWrite := ⟨[50], 0, [2, 2], [2, 2]⟩

/-- The chunk is created; its prepare, its decision and its commit. -/
def created : List ReplicaStep :=
  [.begin [49] 0 [1, 1] "a", .deliver (.prepare createChunk) "a" 0, .decide createChunk,
    .deliver (.commit createChunk) "a" 0]

/-- It is overwritten, and the write returns. -/
def overwritten : List ReplicaStep :=
  created ++ [.begin [50] 0 [2, 2] "a", .deliver (.prepare overwriteChunk) "a" 0, .decide overwriteChunk]

theorem committed_write_visible_created :
    ∃ w, exec (Replicas.step onePlace) { nodes := fun _ => {} } created = some w ∧
      executeRead (w.sendReadRPC fun _ => true) onePlace.chunkID atOne = .ok [1, 1] := by
  obtain ⟨w, hrun, hdecided, hwrites, hrecord⟩ : ∃ w,
      exec (Replicas.step onePlace) { nodes := fun _ => {} } created = some w ∧ w.decided = [createChunk] ∧
        w.writes = [createChunk] ∧ .commit createChunk ∈ w.record "a" :=
    ⟨_, rfl, rfl, rfl, by decide⟩
  have hok : Along (Replicas.step onePlace) InTurn { nodes := fun _ => {} } created := by
    refine along_cons (by simp [InTurn]) rfl (along_cons ?_ rfl (along_cons trivial rfl
      (along_cons trivial rfl trivial)))
    simp [InTurn]
  have hindexed : ∀ target, ((fun _ => {} : NodeId → ChunkService) target).Indexed :=
    fun _ _ _ h => (nomatch h)
  have hcommit : ∀ target ∈ atOne, true = true → .commit createChunk ∈ w.record target.logicalNodeAlias := by
    simpa [atOne] using hrecord
  obtain ⟨y, hy, _, hread⟩ := committed_write_visible onePlace hindexed hok hrun
    (hdecided ▸ List.mem_cons_self) atOne (by decide) (fun _ => true) (by decide) hcommit
  rw [hdecided, List.mem_singleton] at hy
  subst hy
  exact ⟨w, hrun, hread⟩

/-- Before its commit has arrived, the write that created the chunk cannot be read, and a read after an
overwrite gets the old content. -/
theorem committed_write_not_visible :
    (∃ w, exec (Replicas.step onePlace) { nodes := fun _ => {} } (created.take 3) = some w ∧
      createChunk ∈ w.decided ∧
      executeRead (w.sendReadRPC fun _ => true) onePlace.chunkID atOne =
        .error (.allReplicasFailed onePlace.chunkID)) ∧
    ∃ w, exec (Replicas.step onePlace) { nodes := fun _ => {} } overwritten = some w ∧
      overwriteChunk ∈ w.decided ∧
      executeRead (w.sendReadRPC fun _ => true) onePlace.chunkID atOne = .ok createChunk.payload :=
  ⟨⟨_, rfl, List.mem_of_getElem? (i := 0) rfl, rfl⟩, ⟨_, rfl, List.mem_of_getElem? (i := 0) rfl, rfl⟩⟩

end Overwrite

end Sandstore.Server
