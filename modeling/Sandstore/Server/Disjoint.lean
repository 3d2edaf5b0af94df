import Sandstore.Server.Replicas

/-!
# Writes to disjoint ranges of a chunk

A write carries the whole chunk: what it read, with its own bytes in it. Nothing says which state of the
chunk it read, and the slot keeps the payload that was prepared last. So a write takes with it every
earlier write that it has read, and no other.

Where each write reads from a replica that has the commits of all before it (`AfterCommits`), all but the
newest write are decided, the newest prepare at a replica is the newest write's or the one's before it,
and each payload is the one before it with one more range written (`Serial`). So **once everything is
delivered, every replica has the bytes of all writes**, if these are apart (`disjoint_writes_kept`).
-/

namespace Sandstore.Server

open Lib Orchestrators
open Chunk (ChunkService Slot)
open Raft (Bytes NodeId)

variable {P : Placement} {w w' : Replicas} {target : NodeId} {content : Bytes}

/-- A write begins once every write before it is committed at the replica it reads from. -/
def AfterCommits (w : Replicas) : ReplicaStep → Prop
  | .begin _ _ _ source => ∀ y ∈ w.writes, CommittedAt w source y
  | _ => True

def PreparedAt (w : Replicas) (target : NodeId) (x : ChunkWrite) : Prop := .prepare x ∈ w.record target

/-- What the chunk is to hold after these writes. -/
def lastPayload (content : Bytes) (writes : List ChunkWrite) : Bytes :=
  (writes.getLast?.map (·.payload)).getD content

@[simp] theorem lastPayload_snoc (writes : List ChunkWrite) (x : ChunkWrite) :
    lastPayload content (writes ++ [x]) = x.payload := by simp [lastPayload]

/-- Each payload is the one before it, with one more range written. -/
def Chained (chunkSize : Nat) (content : Bytes) (writes : List ChunkWrite) : Prop :=
  ∀ front x back, writes = front ++ x :: back →
    x.payload = writeAt 0 (lastPayload content front) (x.offset % chunkSize) x.data

variable {writes : List ChunkWrite} {x : ChunkWrite}

theorem Chained.front {chunkSize : Nat} (h : Chained chunkSize content (writes ++ [x])) : Chained chunkSize content writes := by
  rintro front y back rfl
  exact h front y (back ++ [x]) (by simp)

theorem Chained.snoc {chunkSize : Nat} (h : Chained chunkSize content writes)
    (hx : x.payload = writeAt 0 (lastPayload content writes) (x.offset % chunkSize) x.data) :
    Chained chunkSize content (writes ++ [x]) := by
  intro front y back heq
  by_cases hback : back = []
  · subst hback
    obtain ⟨rfl, hy⟩ := List.append_inj' heq rfl
    cases hy
    exact hx
  · obtain ⟨back', hwrites, _⟩ := snoc_split heq hback
    exact h front y back' hwrites

/-- Two writes to disjoint ranges. -/
def Apart (chunkSize : Nat) (x y : ChunkWrite) : Prop :=
  x.offset % chunkSize + x.data.length ≤ y.offset % chunkSize ∨
    y.offset % chunkSize + y.data.length ≤ x.offset % chunkSize

/-- The last payload of a chain has the bytes of all its writes, if these are apart. -/
theorem Chained.hasAt {chunkSize : Nat} (h : Chained chunkSize content writes)
    (hapart : writes.Pairwise (Apart chunkSize)) :
    ∀ x ∈ writes, HasAt (lastPayload content writes) (x.offset % chunkSize) x.data := by
  induction writes using List.reverseRecOn with
  | nil => simp
  | append_singleton writes z ih =>
    rw [List.pairwise_append] at hapart
    intro x hx
    rw [lastPayload_snoc, h writes z [] rfl]
    rcases List.mem_append.mp hx with hx | hx
    · exact (ih h.front hapart.1 x hx).writeAt (hapart.2.2 x hx z List.mem_cons_self)
    · cases List.mem_singleton.mp hx
      exact hasAt_writeAt _ _ _

/-! ## Serial writes -/

/-- The chunk starts with `content` and is written by one write after the other. -/
structure Serial (P : Placement) (content : Bytes) (w : Replicas) : Prop extends Tracks P w where
  early : ∀ front x back, w.writes = front ++ x :: back → back ≠ [] → x ∈ w.decided
  chained : Chained P.chunkSize content w.writes
  bounded : (lastPayload content w.writes).length ≤ P.chunkSize
  unwritten : ∀ target ∈ P.targets, (∀ x ∈ w.writes, ¬ PreparedAt w target x) →
    ((w.nodes target).slot P.chunkID).final = some content
  waiting : ∀ target ∈ P.targets, ∀ x, Newest (PreparedAt w target) w.writes x → ¬ CommittedAt w target x →
    ((w.nodes target).slot P.chunkID).prepared = some (x.txnID, x.payload)
  settled : ∀ target ∈ P.targets, ∀ x, Newest (PreparedAt w target) w.writes x → CommittedAt w target x →
    (w.nodes target).slot P.chunkID = ⟨some x.payload, none⟩

/-- A replica that has all commits has the newest payload under the chunk's name. -/
theorem Serial.final (h : Serial P content w) (htarget : target ∈ P.targets)
    (hall : ∀ y ∈ w.writes, CommittedAt w target y) :
    ((w.nodes target).slot P.chunkID).final = some (lastPayload content w.writes) := by
  rcases List.eq_nil_or_concat w.writes with hnone | ⟨front, x, hwrites⟩
  · rw [hnone]
    exact h.unwritten target htarget (by simp [hnone])
  · rw [List.concat_eq_append] at hwrites
    have hcommit := hall x (by simp [hwrites])
    have hprepared := h.prepared x (h.decided_of_commit hcommit) target htarget
    have hnewest : Newest (PreparedAt w target) w.writes x := ⟨front, [], hwrites, hprepared, by simp⟩
    rw [h.settled target htarget x hnewest hcommit, hwrites, lastPayload_snoc]

/-- The payload of a write that reads after all commits. -/
theorem Serial.payload (h : Serial P content w) (hpos : 0 < P.chunkSize) (hsize : P.chunkSize < 2 ^ 63)
    (hexisting : P.existing = true) {offset : Nat} {data payload : Bytes}
    (hfits : offset % P.chunkSize + data.length ≤ P.chunkSize) (htarget : target ∈ P.targets)
    (hall : ∀ y ∈ w.writes, CommittedAt w target y) (hpayload : w.payload P offset data target = some payload) :
    payload = writeAt 0 (lastPayload content w.writes) (offset % P.chunkSize) data := by
  have hold : decide (¬ P.existing = true ∧ w.writes = []) = false := by simp [hexisting]
  have hread := (ChunkService.readChunk_slot true 0 _).mpr (h.final htarget hall)
  have hok : prepareWritePayload P.chunkSize offset data false (lastPayload content w.writes) =
      .ok (writeAt 0 (lastPayload content w.writes) (offset % P.chunkSize) data) :=
    prepareWritePayload_ok hpos hsize hfits fun _ => h.bounded
  simp only [Replicas.payload, hold, hread, Except.toOption] at hpayload
  split at hpayload
  · simp only [Option.bind_some, hok] at hpayload
    simpa using hpayload.symm
  · next hunread =>
    rw [Option.bind_some, prepareWritePayload_unread (Bool.eq_false_iff.mpr hunread) [] _, hok] at hpayload
    simpa using hpayload.symm

theorem Serial.begin (h : Serial P content w) {z : ChunkWrite} (hz : z ∉ w.writes)
    (hfits : z.offset % P.chunkSize + z.data.length ≤ P.chunkSize)
    (hpayload : z.payload = writeAt 0 (lastPayload content w.writes) (z.offset % P.chunkSize) z.data)
    (hdecided : ∀ y ∈ w.writes, y ∈ w.decided) (htracks : Tracks P { w with writes := w.writes ++ [z] }) :
    Serial P content { w with writes := w.writes ++ [z] } := by
  have hunknown : ∀ target, ¬ PreparedAt w target z := by
    intro target hmem
    exact hz (by simpa [Replicas.sent] using h.sent target _ hmem)
  have hnewest : ∀ {target x}, Newest (PreparedAt w target) (w.writes ++ [z]) x →
      Newest (PreparedAt w target) w.writes x := by
    intro target x hnewest
    rcases newest_snoc.mp hnewest with ⟨hprepared, _⟩ | ⟨_, hnewest⟩
    · exact absurd hprepared (hunknown target)
    · exact hnewest
  refine { htracks with
    early := ?_, chained := h.chained.snoc hpayload, bounded := ?_, unwritten := ?_, waiting := ?_
    settled := ?_ }
  · intro front x back heq hback
    obtain ⟨back', hwrites, _⟩ := snoc_split heq hback
    exact hdecided x (by simp [hwrites])
  · have := h.bounded
    simp only [lastPayload_snoc, hpayload, length_writeAt]
    omega
  · exact fun target htarget hnone => h.unwritten target htarget fun x hx => hnone x (by simp [hx])
  · exact fun target htarget x hx => h.waiting target htarget x (hnewest hx)
  · exact fun target htarget x hx => h.settled target htarget x (hnewest hx)

/-- A prepare that arrives is the newest write's. -/
theorem Serial.prepare (h : Serial P content w) (hsent : w.sent (.prepare x))
    (htarget : target ∈ P.targets) (hnew : .prepare x ∉ w.record target) (now : Int) :
    Serial P content (w.deliver P (.prepare x) target now) := by
  have hslot := h.slot_deliver hsent htarget hnew now
  have hx : x ∈ w.writes := by simpa [Replicas.sent] using hsent
  have hundecided : x ∉ w.decided := fun hmem => hnew (h.prepared x hmem target htarget)
  obtain ⟨front, back, hwrites⟩ := List.append_of_mem hx
  have hlast : back = [] := by
    by_contra hback
    exact hundecided (h.early front x back hwrites hback)
  subst hlast
  have hcommits : ∀ j y, CommittedAt (w.deliver P (.prepare x) target now) j y ↔ CommittedAt w j y := by
    simp [CommittedAt]
  have hnewest : Newest (PreparedAt (w.deliver P (.prepare x) target now) target) w.writes x :=
    ⟨front, [], hwrites, mem_record_deliver.mpr (.inr ⟨rfl, rfl⟩), by simp⟩
  have hother : ∀ j y, j ≠ target → (PreparedAt (w.deliver P (.prepare x) target now) j y ↔ PreparedAt w j y) := by
    intro j y hj
    simp [PreparedAt, hj]
  refine { h.deliver hsent htarget hnew now with
    early := h.early, chained := h.chained, bounded := h.bounded, unwritten := ?_, waiting := ?_
    settled := ?_ }
  · intro j hj hnone
    have hne : j ≠ target := by
      rintro rfl
      exact hnone x hx hnewest.holds
    rw [hslot, if_neg hne]
    exact h.unwritten j hj fun y hy => (hother j y hne).not.mp (hnone y hy)
  · intro j hj y hy hcommit
    rw [hslot]
    by_cases heq : j = target
    · subst heq
      cases hy.unique hnewest
      simp [Notice.apply]
    · rw [if_neg heq]
      exact h.waiting j hj y (hy.congr fun z _ => hother j z heq) ((hcommits j y).not.mp hcommit)
  · intro j hj y hy hcommit
    rw [hcommits] at hcommit
    by_cases heq : j = target
    · subst heq
      cases hy.unique hnewest
      exact absurd (h.decided_of_commit hcommit) hundecided
    · rw [hslot, if_neg heq]
      exact h.settled j hj y (hy.congr fun z _ => hother j z heq) hcommit

/-- A commit settles the slot if its write has it, and does nothing otherwise. -/
theorem Serial.commit (h : Serial P content w) (hsent : w.sent (.commit x))
    (htarget : target ∈ P.targets) (hnew : .commit x ∉ w.record target) (now : Int) :
    Serial P content (w.deliver P (.commit x) target now) := by
  have hslot := h.slot_deliver hsent htarget hnew now
  have hdecided : x ∈ w.decided := by simpa [Replicas.sent] using hsent
  have hx := h.begun_of_decided hdecided
  have hprepared := h.prepared x hdecided target htarget
  have hsame : ∀ j y, PreparedAt (w.deliver P (.commit x) target now) j y ↔ PreparedAt w j y := by
    simp [PreparedAt]
  have hne : ∀ y ∈ w.writes, y ≠ x → y.txnID ≠ x.txnID := fun y hy hyx htxn => hyx (h.eq_of_txnID hy hx htxn)
  refine { h.deliver hsent htarget hnew now with
    early := h.early, chained := h.chained, bounded := h.bounded, unwritten := ?_, waiting := ?_
    settled := ?_ }
  · intro j hj hnone
    have hother : j ≠ target := by
      rintro rfl
      exact hnone x hx ((hsame j x).mpr hprepared)
    rw [hslot, if_neg hother]
    exact h.unwritten j hj fun y hy => (hsame j y).not.mp (hnone y hy)
  · intro j hj y hy hcommit
    have hy' := hy.congr fun z _ => hsame j z
    simp only [CommittedAt, mem_record_deliver, not_or, not_and] at hcommit
    have hwaits := h.waiting j hj y hy' hcommit.1
    rw [hslot]
    split
    · next heq =>
      have hyx : y ≠ x := fun hyx => hcommit.2 heq (congrArg _ hyx)
      rw [Notice.apply, Slot.commit_other hwaits (hne y hy.mem hyx), hwaits]
    · exact hwaits
  · intro j hj y hy hcommit
    have hy' := hy.congr fun z _ => hsame j z
    rw [hslot]
    rcases mem_record_deliver.mp hcommit with hbefore | ⟨rfl, heq⟩
    · have hsettled := h.settled j hj y hy' hbefore
      split
      · rw [Notice.apply, Slot.commit_none (by rw [hsettled]), hsettled]
      · exact hsettled
    · cases heq
      rw [if_pos rfl, Notice.apply, Slot.commit_own (h.waiting j hj x hy' hnew)]

theorem Serial.step (hpos : 0 < P.chunkSize) (hsize : P.chunkSize < 2 ^ 63) (hexisting : P.existing = true)
    {a : ReplicaStep} (h : Serial P content w) (hok : AfterCommits w a) (hs : w.step P a = some w')
    (hfailed : w'.failed = []) : Serial P content w' := by
  have htracks := h.toTracks.step hs
  cases took_of_step hs with
  | begin hmay hpayload =>
    simp only [Replicas.mayBegin, decide_eq_true_eq] at hmay
    obtain ⟨hsource, hid, _, hfits, _⟩ := hmay
    refine h.begin (fun hz => hid _ hz rfl) hfits ?_ (fun y hy => h.decided_of_commit (hok y hy)) htracks
    exact h.payload hpos hsize hexisting hfits hsource hok hpayload
  | decide hx hfailed hprepared =>
    exact { htracks with
      early := fun front x back heq hback => List.mem_cons_of_mem _ (h.early front x back heq hback)
      chained := h.chained
      bounded := h.bounded
      unwritten := h.unwritten
      waiting := h.waiting
      settled := h.settled }
  | fail hx hdecided => cases hfailed
  | @deliver notice target now hsent htarget hnew =>
    cases notice with
    | prepare x => exact h.prepare hsent htarget hnew now
    | commit x => exact h.commit hsent htarget hnew now
    | abort x =>
      have hx : x ∈ w.failed := by simpa [Replicas.sent] using hsent
      rw [failed_deliver] at hfailed
      simp [hfailed] at hx

theorem failed_of_step {a : ReplicaStep} (hs : w.step P a = some w') (hfailed : w'.failed = []) : w.failed = [] := by
  cases took_of_step hs with
  | begin | decide | deliver => exact hfailed
  | fail => cases hfailed

/-- **No bytes are lost to another write.** The chunk has one content on all its targets. Writes to
disjoint ranges of it all return success, each having read from a replica that had the commits of those
begun before it. Once all commits are delivered, every target has the bytes of every write. -/
theorem disjoint_writes_kept (P : Placement) (hpos : 0 < P.chunkSize) (hsize : P.chunkSize < 2 ^ 63)
    (hexisting : P.existing = true) {nodes : NodeId → ChunkService} (hindexed : ∀ target, (nodes target).Indexed)
    {content : Bytes} (hcontent : ∀ target ∈ P.targets, (nodes target).files.get P.chunkID = some content)
    (hlength : content.length ≤ P.chunkSize) {steps : List ReplicaStep} {w : Replicas}
    (hok : Along (Replicas.step P) AfterCommits { nodes := nodes } steps)
    (hrun : exec (Replicas.step P) { nodes := nodes } steps = some w)
    (hapart : w.writes.Pairwise (Apart P.chunkSize)) (hdecided : ∀ x ∈ w.writes, x ∈ w.decided)
    (hdelivered : ∀ x ∈ w.writes, ∀ target ∈ P.targets, .commit x ∈ w.record target) :
    ∀ target ∈ P.targets, ∃ final, (w.nodes target).files.get P.chunkID = some final ∧
      ∀ x ∈ w.writes, HasAt final (x.offset % P.chunkSize) x.data := by
  have hstart : Serial P content { nodes := nodes } := {
    Tracks.start hindexed with
    early := by simp
    chained := by simp [Chained]
    bounded := hlength
    unwritten := fun target htarget _ => hcontent target htarget
    waiting := fun _ _ _ hnewest => nomatch hnewest.mem
    settled := fun _ _ _ hnewest => nomatch hnewest.mem }
  have h : w.failed = [] → Serial P content w := by
    refine exec_along (I := fun w => w.failed = [] → Serial P content w) ?_ steps (fun _ => hstart) hok hrun
    intro w a w' h hok hs hfailed
    exact (h (failed_of_step hs hfailed)).step hpos hsize hexisting hok hs hfailed
  have htracks : Tracks P w := exec_invariant (fun _ _ _ h hs => h.step hs) steps hstart.toTracks hrun
  have hnone : w.failed = [] := by
    refine List.eq_nil_iff_forall_not_mem.mpr fun x hx => htracks.undecided x hx ?_
    exact hdecided x (htracks.begun x (List.mem_append_right _ hx))
  intro target htarget
  refine ⟨lastPayload content w.writes, ?_, (h hnone).chained.hasAt hapart⟩
  exact (h hnone).final htarget fun x hx => hdelivered x hx target htarget

/-! ### Two writes -/

section Two

/-- A chunk of four zeros on one replica. -/
def zeros : Placement := ⟨4, fun _ => [], [99], ["a"], true⟩

def zerosAt (_ : NodeId) : ChunkService := { files := OrdMap.insert ∅ [99] [0, 0, 0, 0] }

/-- The first byte is written. -/
def firstByte : ChunkWrite := ⟨[49], 0, [1], [1, 0, 0, 0]⟩

/-- The third byte is written, after the first or beside it. -/
def thirdByte : Bool → ChunkWrite
  | true => ⟨[50], 2, [2], [1, 0, 2, 0]⟩
  | false => ⟨[50], 2, [2], [0, 0, 2, 0]⟩

/-- The second write begins after the first has returned, and before or after its commit has arrived. -/
def twoWrites : Bool → List ReplicaStep
  | true =>
    [.begin [49] 0 [1] "a", .deliver (.prepare firstByte) "a" 0, .decide firstByte,
      .deliver (.commit firstByte) "a" 0, .begin [50] 2 [2] "a", .deliver (.prepare (thirdByte true)) "a" 0,
      .decide (thirdByte true), .deliver (.commit (thirdByte true)) "a" 0]
  | false =>
    [.begin [49] 0 [1] "a", .deliver (.prepare firstByte) "a" 0, .decide firstByte, .begin [50] 2 [2] "a",
      .deliver (.commit firstByte) "a" 0, .deliver (.prepare (thirdByte false)) "a" 0,
      .decide (thirdByte false), .deliver (.commit (thirdByte false)) "a" 0]

theorem zerosAt_indexed (target : NodeId) : (zerosAt target).Indexed := fun _ _ h => (nomatch h)

theorem disjoint_writes_kept_two :
    ∃ w, exec (Replicas.step zeros) { nodes := zerosAt } (twoWrites true) = some w ∧
      w.writes = [firstByte, thirdByte true] ∧
      ∃ final, (w.nodes "a").files.get [99] = some final ∧ HasAt final 0 [1] ∧ HasAt final 2 [2] := by
  obtain ⟨w, hrun, hwrites, hdecided, hrecord⟩ : ∃ w,
      exec (Replicas.step zeros) { nodes := zerosAt } (twoWrites true) = some w ∧
        w.writes = [firstByte, thirdByte true] ∧ w.decided = [thirdByte true, firstByte] ∧
        ∀ x ∈ [firstByte, thirdByte true], .commit x ∈ w.record "a" :=
    ⟨_, rfl, rfl, rfl, by decide⟩
  have hok : Along (Replicas.step zeros) AfterCommits { nodes := zerosAt } (twoWrites true) := by
    refine along_cons (by simp [AfterCommits]) rfl (along_cons trivial rfl (along_cons trivial rfl
      (along_cons trivial rfl (along_cons ?_ rfl (along_cons trivial rfl (along_cons trivial rfl
      (along_cons trivial rfl trivial)))))))
    exact fun y hy => List.mem_singleton.mp hy ▸ List.mem_of_getElem? (i := 1) rfl
  have hcontent : ∀ target ∈ zeros.targets, (zerosAt target).files.get zeros.chunkID = some [0, 0, 0, 0] :=
    fun _ _ => rfl
  have hapart : w.writes.Pairwise (Apart zeros.chunkSize) := by
    rw [hwrites]
    simp [Apart, firstByte, thirdByte, zeros]
  obtain ⟨final, hfinal, hhas⟩ := disjoint_writes_kept zeros (by decide) (by decide) rfl zerosAt_indexed
    hcontent (by decide) hok hrun hapart (by simp [hwrites, hdecided])
    (by rw [hwrites]; simpa [zeros] using hrecord) "a" List.mem_cons_self
  rw [hwrites] at hhas
  exact ⟨w, hrun, hwrites, final, hfinal, hhas firstByte (by simp), hhas (thirdByte true) (by simp)⟩

/-- The second write has read the chunk before the first was there, and takes its byte away. -/
theorem disjoint_write_lost :
    ∃ w, exec (Replicas.step zeros) { nodes := zerosAt } (twoWrites false) = some w ∧
      w.decided = [thirdByte false, firstByte] ∧
      (∀ x ∈ w.writes, .commit x ∈ w.record "a") ∧
      (w.nodes "a").files.get [99] = some [0, 0, 2, 0] ∧ ¬ HasAt [0, 0, 2, 0] 0 firstByte.data :=
  ⟨_, rfl, rfl, by decide, rfl, by simp [HasAt, firstByte]⟩

end Two

end Sandstore.Server
