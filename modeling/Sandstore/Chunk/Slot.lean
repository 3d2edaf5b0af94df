import Sandstore.Chunk.Calls

/-!
# One chunk on one replica

Of everything a chunk service keeps, one chunk needs two things: the data under its own name, and the
transaction in its slot with the data that waits for it. `Slot` is that view, and the operations of the
service are those of the slot where the files do as they are told: `slot_prepareChunk`,
`slot_commitChunk`, `slot_abortChunk`, `readChunk_slot`. A chunk no transaction waits for stays as it is while another one is
written (`Settled`).

A slot has room for one transaction. Whoever prepares last has it, and a commit of anybody else is
refused and not repeated. So a replica ends with the data of the transaction it heard of last, whatever
was decided first: **replicas converge just if the same transaction was prepared last on all of them, or
it makes no difference** (`replicas_converge_iff`).
-/

namespace Sandstore.Chunk

open Lib
open Raft (Byte Bytes)

/-- What a replica has of one chunk. -/
structure Slot where
  final : Option Bytes
  prepared : Option (Bytes × Bytes)
  deriving DecidableEq

namespace Slot

def prepare (s : Slot) (txnID data : Bytes) : Slot := { s with prepared := some (txnID, data) }

def commit (s : Slot) (txnID : Bytes) : Slot :=
  match s.prepared with
  | some (t, data) => if t = txnID then ⟨some data, none⟩ else s
  | none => s

def abort (s : Slot) (txnID : Bytes) : Slot :=
  match s.prepared with
  | some (t, _) => if t = txnID then { s with prepared := none } else s
  | none => s

@[simp] theorem prepare_final (s : Slot) (txnID data : Bytes) : (s.prepare txnID data).final = s.final := rfl

@[simp] theorem prepare_prepared (s : Slot) (txnID data : Bytes) :
    (s.prepare txnID data).prepared = some (txnID, data) := rfl

theorem commit_own {s : Slot} {txnID data : Bytes} (h : s.prepared = some (txnID, data)) :
    s.commit txnID = ⟨some data, none⟩ := by simp [commit, h]

theorem commit_none {s : Slot} (h : s.prepared = none) (txnID : Bytes) : s.commit txnID = s := by simp [commit, h]

theorem commit_other {s : Slot} {t txnID data : Bytes} (h : s.prepared = some (t, data))
    (hne : t ≠ txnID) : s.commit txnID = s := by simp [commit, h, hne]

@[simp] theorem abort_final (s : Slot) (txnID : Bytes) : (s.abort txnID).final = s.final := by
  unfold abort
  repeat' split
  all_goals rfl

theorem abort_other {s : Slot} {t txnID data : Bytes} (h : s.prepared = some (t, data))
    (hne : t ≠ txnID) : s.abort txnID = s := by simp [abort, h, hne]

end Slot

/-! ## The slot of a chunk service -/

namespace ChunkService

def slot (cs : ChunkService) (chunkID : Bytes) : Slot where
  final := cs.files.get chunkID
  prepared := (cs.preparedIndex.get chunkID).bind fun entry =>
    (cs.files.get entry.tempFilePath).map fun data => (entry.txnID, data)

theorem tempFileName_ne (chunkID txnID : Bytes) : chunkID ≠ tempFileName chunkID txnID := by
  intro h
  have := congrArg List.length h
  simp only [tempFileName, List.length_append, List.length_cons] at this
  omega

theorem tempFileName_txn {chunkID t txnID : Bytes} (h : tempFileName chunkID t = tempFileName chunkID txnID) :
    t = txnID := by simpa [tempFileName] using h

variable {cs : ChunkService} {txnID chunkID data : Bytes}

/-- A prepare that finds no other data in its temp file leaves its own there, and takes the slot. -/
theorem prepareChunk_eq (calculateChecksum : Bytes → Bytes) (now : Int)
    (hfresh : ∀ existing, cs.files.get (tempFileName chunkID txnID) = some existing → existing = data) :
    ∃ cs' : ChunkService, cs.prepareChunk calculateChecksum .done now txnID chunkID data (calculateChecksum data) =
        (cs'.addToPreparedIndex txnID chunkID (tempFileName chunkID txnID) now, none) ∧
      cs'.files = cs.files.insert (tempFileName chunkID txnID) data ∧ cs'.preparedIndex = cs.preparedIndex := by
  unfold prepareChunk
  dsimp only
  cases hfile : cs.files.get (tempFileName chunkID txnID) with
  | none => exact ⟨cs.put (tempFileName chunkID txnID) data, rfl, rfl, rfl⟩
  | some existing =>
    cases hfresh existing hfile
    exact ⟨cs, by simp, (OrdMap.insert_of_get hfile).symm, rfl⟩

theorem slot_prepareChunk (calculateChecksum : Bytes → Bytes) (now : Int)
    (hfresh : ∀ existing, cs.files.get (tempFileName chunkID txnID) = some existing → existing = data) :
    (cs.prepareChunk calculateChecksum .done now txnID chunkID data (calculateChecksum data)).1.slot
      chunkID = (cs.slot chunkID).prepare txnID data := by
  obtain ⟨cs', heq, hfiles, _⟩ := prepareChunk_eq calculateChecksum now hfresh
  rw [heq]
  simp [slot, Slot.prepare, addToPreparedIndex, hfiles, OrdMap.get_insert_ne _ _ (tempFileName_ne _ _)]

theorem slot_commitChunk (hindexed : cs.Indexed) :
    (cs.commitChunk true txnID chunkID).1.slot chunkID = (cs.slot chunkID).commit txnID := by
  cases hentry : cs.preparedIndex.get chunkID with
  | none =>
    rw [Slot.commit_none (by simp [slot, hentry])]
    unfold commitChunk
    rw [hentry]
    dsimp only
    split <;> rfl
  | some entry =>
    have hpath := hindexed chunkID entry hentry
    cases hfile : cs.files.get entry.tempFilePath with
    | none =>
      rw [Slot.commit_none (by simp [slot, hentry, hfile])]
      unfold commitChunk
      rw [hentry]
      dsimp only
      rw [hfile]
      split <;> rfl
    | some waiting =>
      have hslot : (cs.slot chunkID).prepared = some (entry.txnID, waiting) := by
        simp [slot, hentry, hfile]
      by_cases htxn : entry.txnID = txnID
      · rw [Slot.commit_own (htxn ▸ hslot)]
        simp [commitChunk, hentry, htxn, hfile, slot, rename, removeFromPreparedIndex]
      · rw [Slot.commit_other hslot htxn]
        simp [commitChunk, hentry, htxn]

theorem slot_abortChunk (hindexed : cs.Indexed) :
    (cs.abortChunk true txnID chunkID).1.slot chunkID = (cs.slot chunkID).abort txnID := by
  cases hentry : cs.preparedIndex.get chunkID with
  | none => simp [abortChunk, hentry, slot, Slot.abort]
  | some entry =>
    have hpath : chunkID ≠ entry.tempFilePath := hindexed chunkID entry hentry ▸ tempFileName_ne _ _
    cases hfile : cs.files.get entry.tempFilePath <;> by_cases htxn : entry.txnID = txnID <;>
      simp [abortChunk, hentry, htxn, hfile, slot, Slot.abort, remove, removeFromPreparedIndex,
        OrdMap.get_erase_ne _ hpath]

/-- Without a metadata service, a replica serves what is under the chunk's name, or an error. -/
theorem readChunk_slot (works : Bool) (now : Int) (data : Bytes) :
    (cs.readChunk none works now chunkID).2 = .ok data ↔ (cs.slot chunkID).final = some data := by
  unfold readChunk
  cases hfile : cs.files.get chunkID with
  | some found => simp [slot, hfile]
  | none => cases cs.preparedIndex.get chunkID <;> simp [slot, hfile]

/-! ## Temp files -/

theorem file_prepareChunk {path : Bytes} (hne : path ≠ tempFileName chunkID txnID) (calculateChecksum : Bytes → Bytes)
    (now : Int) (hfresh : ∀ existing, cs.files.get (tempFileName chunkID txnID) = some existing → existing = data) :
    (cs.prepareChunk calculateChecksum .done now txnID chunkID data (calculateChecksum data)).1.files.get path =
      cs.files.get path := by
  obtain ⟨cs', heq, hfiles, _⟩ := prepareChunk_eq calculateChecksum now hfresh
  rw [heq]
  simp [addToPreparedIndex, hfiles, OrdMap.get_insert_ne _ _ hne]

theorem temp_prepareChunk {t : Bytes} (hne : t ≠ txnID) (calculateChecksum : Bytes → Bytes) (now : Int)
    (hfresh : ∀ existing, cs.files.get (tempFileName chunkID txnID) = some existing → existing = data) :
    (cs.prepareChunk calculateChecksum .done now txnID chunkID data (calculateChecksum data)).1.files.get
      (tempFileName chunkID t) = cs.files.get (tempFileName chunkID t) :=
  file_prepareChunk (fun h => hne (tempFileName_txn h)) calculateChecksum now hfresh

theorem file_commitChunk {path : Bytes} (hne : path ≠ chunkID) (hfresh : cs.files.get path = none) :
    (cs.commitChunk true txnID chunkID).1.files.get path = none := by
  unfold commitChunk
  repeat' split
  all_goals try exact hfresh
  simp [rename, removeFromPreparedIndex, OrdMap.get_insert_ne _ _ hne, OrdMap.get_erase, hfresh]

theorem temp_commitChunk {t : Bytes} (hfresh : cs.files.get (tempFileName chunkID t) = none) :
    (cs.commitChunk true txnID chunkID).1.files.get (tempFileName chunkID t) = none :=
  file_commitChunk (tempFileName_ne chunkID t).symm hfresh

theorem temp_abortChunk {t : Bytes} (hfresh : cs.files.get (tempFileName chunkID t) = none) :
    (cs.abortChunk true txnID chunkID).1.files.get (tempFileName chunkID t) = none := by
  unfold abortChunk
  repeat' split
  all_goals try exact hfresh
  simp [remove, removeFromPreparedIndex, OrdMap.get_erase, hfresh]

/-! ## Settled chunks -/

/-- The chunk has this content, and no transaction waits. -/
def Settled (cs : ChunkService) (chunkID content : Bytes) : Prop :=
  cs.files.get chunkID = some content ∧ cs.preparedIndex.get chunkID = none

theorem settled_commitChunk (h : (cs.slot chunkID).prepared = some (txnID, data)) :
    (cs.commitChunk true txnID chunkID).1.Settled chunkID data := by
  cases hentry : cs.preparedIndex.get chunkID with
  | none => simp [slot, hentry] at h
  | some entry =>
    cases hfile : cs.files.get entry.tempFilePath with
    | none => simp [slot, hentry, hfile] at h
    | some waiting =>
      simp only [slot, hentry, hfile, Option.bind_some, Option.map_some, Option.some.injEq, Prod.mk.injEq] at h
      obtain ⟨rfl, rfl⟩ := h
      simp [commitChunk, hentry, hfile, Settled, rename, removeFromPreparedIndex]

theorem Settled.commitChunk (h : cs.Settled chunkID data) (txnID : Bytes) :
    (cs.commitChunk true txnID chunkID).1 = cs := by simp [ChunkService.commitChunk, h.1, h.2]

section Other

variable {other content : Bytes}

theorem ne_tempFileName (h : 95 ∉ other) (chunkID txnID : Bytes) : other ≠ tempFileName chunkID txnID := by
  intro heq
  exact h (heq ▸ by simp [tempFileName])

theorem Settled.of_prepareChunk (h : cs.Settled other content) (hne : other ≠ chunkID) (hname : 95 ∉ other)
    (calculateChecksum : Bytes → Bytes) (now : Int)
    (hfresh : ∀ existing, cs.files.get (tempFileName chunkID txnID) = some existing → existing = data) :
    (cs.prepareChunk calculateChecksum .done now txnID chunkID data
      (calculateChecksum data)).1.Settled other content := by
  obtain ⟨cs', heq, hfiles, hindex⟩ := prepareChunk_eq calculateChecksum now hfresh
  rw [heq]
  constructor
  · simp [addToPreparedIndex, hfiles, OrdMap.get_insert_ne _ _ (ne_tempFileName hname _ _), h.1]
  · simp [addToPreparedIndex, hindex, OrdMap.get_insert_ne _ _ hne, h.2]

theorem Settled.of_commitChunk (h : cs.Settled other content) (hne : other ≠ chunkID) (hname : 95 ∉ other)
    (hindexed : cs.Indexed) : (cs.commitChunk true txnID chunkID).1.Settled other content := by
  unfold ChunkService.commitChunk
  split
  · split <;> exact h
  · next entry hentry =>
    have hpath : other ≠ entry.tempFilePath := hindexed chunkID entry hentry ▸ ne_tempFileName hname _ _
    repeat' split
    all_goals try exact h
    constructor
    · simp [rename, removeFromPreparedIndex, OrdMap.get_insert_ne _ _ hne, OrdMap.get_erase_ne _ hpath, h.1]
    · simp [rename, removeFromPreparedIndex, OrdMap.get_erase_ne _ hne, h.2]

end Other

end ChunkService

/-! ## Deliveries -/

/-- A message about the chunk. -/
inductive Delivery where
  | prepare (txnID data : Bytes)
  | commit (txnID : Bytes)
  deriving DecidableEq, Repr

/-- The transaction a message prepares. -/
def Delivery.preparing : Delivery → Option Bytes
  | .prepare txnID _ => some txnID
  | .commit _ => none

def Slot.handle (s : Slot) : Delivery → Slot
  | .prepare txnID data => s.prepare txnID data
  | .commit txnID => s.commit txnID

/-- A message at the service, whose files do as they are told. -/
def ChunkService.handle (calculateChecksum : Bytes → Bytes) (clock : Delivery → Int) (chunkID : Bytes)
    (cs : ChunkService) : Delivery → ChunkService
  | .prepare txnID data =>
    (cs.prepareChunk calculateChecksum .done (clock (.prepare txnID data)) txnID chunkID data
      (calculateChecksum data)).1
  | .commit txnID => (cs.commitChunk true txnID chunkID).1

section Handle

variable {calculateChecksum : Bytes → Bytes} {clock : Delivery → Int} {chunkID : Bytes} {cs : ChunkService}
  {message : Delivery}

theorem indexed_handle (hindexed : cs.Indexed) : (cs.handle calculateChecksum clock chunkID message).Indexed := by
  cases message with
  | prepare txnID data => exact hindexed.perform _ (.prepare _ _ _ _ _ _)
  | commit txnID => exact hindexed.perform id (.commit _ _ _)

theorem slot_handle (hindexed : cs.Indexed)
    (hfresh : ∀ t, message.preparing = some t → cs.files.get (tempFileName chunkID t) = none) :
    (cs.handle calculateChecksum clock chunkID message).slot chunkID = (cs.slot chunkID).handle message := by
  cases message with
  | prepare txnID data => exact ChunkService.slot_prepareChunk _ _ (by simp [hfresh txnID rfl])
  | commit txnID => exact ChunkService.slot_commitChunk hindexed

theorem fresh_handle (hfresh : ∀ t, message.preparing = some t → cs.files.get (tempFileName chunkID t) = none)
    {t : Bytes} (hne : message.preparing ≠ some t) (ht : cs.files.get (tempFileName chunkID t) = none) :
    (cs.handle calculateChecksum clock chunkID message).files.get (tempFileName chunkID t) = none := by
  cases message with
  | prepare txnID data =>
    have hother : t ≠ txnID := fun heq => hne (heq ▸ rfl)
    exact (ChunkService.temp_prepareChunk hother _ _ (by simp [hfresh txnID rfl])).trans ht
  | commit txnID => exact ChunkService.temp_commitChunk ht

/-- **The service follows its slot**, through messages that prepare each transaction once. -/
theorem slot_handle_all (calculateChecksum : Bytes → Bytes) (clock : Delivery → Int) (messages : List Delivery)
    (hindexed : cs.Indexed) (honce : (messages.filterMap Delivery.preparing).Nodup)
    (hfresh : ∀ t ∈ messages.filterMap Delivery.preparing, cs.files.get (tempFileName chunkID t) = none) :
    (messages.foldl (ChunkService.handle calculateChecksum clock chunkID) cs).slot chunkID =
      messages.foldl Slot.handle (cs.slot chunkID) := by
  induction messages generalizing cs with
  | nil => rfl
  | cons message messages ih =>
    have hown : ∀ t, message.preparing = some t → cs.files.get (tempFileName chunkID t) = none :=
      fun t ht => hfresh t (List.mem_filterMap.mpr ⟨message, List.mem_cons_self, ht⟩)
    have hrest : ∀ t ∈ messages.filterMap Delivery.preparing, t ∈ (message :: messages).filterMap
        Delivery.preparing := by
      intro t ht
      rw [List.filterMap_cons]
      split
      · exact ht
      · exact List.mem_cons_of_mem _ ht
    rw [List.foldl_cons, List.foldl_cons, ← slot_handle hindexed hown]
    refine ih (indexed_handle hindexed) ?_ fun t ht => ?_
    · exact honce.sublist ((List.sublist_cons_self message messages).filterMap _)
    · refine fresh_handle hown (fun heq => ?_) (hfresh t (hrest t ht))
      rw [List.filterMap_cons_some heq, List.nodup_cons] at honce
      exact honce.1 ht

end Handle

/-! ## Two transactions -/

section Converge

variable {t₁ t₂ d₁ d₂ : Bytes}

/-- The messages of a transaction, in their order. -/
def deliveries (txnID data : Bytes) : List Delivery := [.prepare txnID data, .commit txnID]

/-- The transaction that was prepared last. -/
def lastPrepared (messages : List Delivery) : Option Bytes :=
  (messages.filterMap Delivery.preparing).getLast?

/-- In whatever order the messages of two transactions arrive, one of them is prepared last, and its
data stays. -/
theorem final_of_interleaving (hne : t₁ ≠ t₂) {messages : List Delivery}
    (h : Interleaving (deliveries t₁ d₁) (deliveries t₂ d₂) messages) (s : Slot) :
    (messages.filterMap Delivery.preparing = [t₁, t₂] ∧ (messages.foldl Slot.handle s).final = some d₂) ∨
      (messages.filterMap Delivery.preparing = [t₂, t₁] ∧ (messages.foldl Slot.handle s).final = some d₁) := by
  rcases h.two with rfl | rfl | rfl | rfl | rfl | rfl
  all_goals
    simp [List.filterMap_cons, Delivery.preparing, Slot.handle, Slot.commit, Slot.prepare, hne, Ne.symm hne]

/-- What a replica holds under the chunk's name once it has handled the messages. -/
def contentAfter (calculateChecksum : Bytes → Bytes) (clock : Delivery → Int) (chunkID : Bytes)
    (cs : ChunkService) (messages : List Delivery) : Option Bytes :=
  (messages.foldl (ChunkService.handle calculateChecksum clock chunkID) cs).files.get chunkID

/-- The content of one replica is the data of the transaction it saw prepared last. -/
theorem contentAfter_eq (calculateChecksum : Bytes → Bytes) (clock : Delivery → Int) {chunkID : Bytes}
    (hne : t₁ ≠ t₂) {cs : ChunkService} (hindexed : cs.Indexed)
    (hfresh : ∀ t ∈ [t₁, t₂], cs.files.get (tempFileName chunkID t) = none) {messages : List Delivery}
    (h : Interleaving (deliveries t₁ d₁) (deliveries t₂ d₂) messages) :
    (lastPrepared messages = some t₁ ∨ lastPrepared messages = some t₂) ∧
      contentAfter calculateChecksum clock chunkID cs messages =
        some (if lastPrepared messages = some t₁ then d₁ else d₂) := by
  have hfollows : (messages.filterMap Delivery.preparing).Perm [t₁, t₂] →
      contentAfter calculateChecksum clock chunkID cs messages =
        (messages.foldl Slot.handle (cs.slot chunkID)).final := by
    intro hperm
    rw [← slot_handle_all calculateChecksum clock messages hindexed]
    · rfl
    · exact hperm.nodup_iff.mpr (by simp [hne])
    · exact fun t ht => hfresh t (hperm.mem_iff.mp ht)
  rcases final_of_interleaving hne h (cs.slot chunkID) with ⟨hpreparing, hfinal⟩ | ⟨hpreparing, hfinal⟩
  · have hlast : lastPrepared messages = some t₂ := by simp [lastPrepared, hpreparing]
    rw [hfollows (hpreparing ▸ .refl _), hfinal, hlast]
    simp [Ne.symm hne]
  · have hlast : lastPrepared messages = some t₁ := by simp [lastPrepared, hpreparing]
    rw [hfollows (hpreparing ▸ .swap _ _ _), hfinal, hlast]
    simp

/-- **Convergence.** Two transactions on one chunk are prepared and committed on every replica, in any
order on each that has a transaction's prepare before its commit. Once all is delivered, the replicas
hold the same content just if the two write the same data, or the same of them was prepared last
everywhere. -/
theorem replicas_converge_iff {ι : Type} (calculateChecksum : Bytes → Bytes) (clock : ι → Delivery → Int)
    (chunkID : Bytes) (hne : t₁ ≠ t₂) (replicas : ι → ChunkService) (hindexed : ∀ i, (replicas i).Indexed)
    (hfresh : ∀ i, ∀ t ∈ [t₁, t₂], (replicas i).files.get (tempFileName chunkID t) = none)
    (order : ι → List Delivery) (horder : ∀ i, Interleaving (deliveries t₁ d₁) (deliveries t₂ d₂) (order i)) :
    (∀ i j, contentAfter calculateChecksum (clock i) chunkID (replicas i) (order i) =
        contentAfter calculateChecksum (clock j) chunkID (replicas j) (order j)) ↔
      d₁ = d₂ ∨ ∀ i j, lastPrepared (order i) = lastPrepared (order j) := by
  have hcontent := fun i => contentAfter_eq calculateChecksum (clock i) hne (hindexed i)
    (hfresh i) (horder i)
  constructor
  · intro hsame
    by_cases hdata : d₁ = d₂
    · exact .inl hdata
    · refine .inr fun i j => ?_
      have hij := hsame i j
      rw [(hcontent i).2, (hcontent j).2, Option.some_inj] at hij
      rcases (hcontent i).1 with hi | hi <;> rcases (hcontent j).1 with hj | hj <;>
        simp [hi, hj, Ne.symm hne, hdata, Ne.symm hdata] at hij ⊢
  · rintro (rfl | hlast) i j
    · rw [(hcontent i).2, (hcontent j).2, ite_self, ite_self]
    · rw [(hcontent i).2, (hcontent j).2, hlast i j]

/-- The second transaction is prepared last, before or after the first is committed. -/
def secondLast : Bool → List Delivery
  | true => [.prepare [49] [1], .commit [49], .prepare [50] [2], .commit [50]]
  | false => [.prepare [49] [1], .prepare [50] [2], .commit [49], .commit [50]]

theorem replicas_converge_last :
    contentAfter id (fun _ => 0) [99] {} (secondLast true) =
      contentAfter id (fun _ => 0) [99] {} (secondLast false) := by
  have hne : ([49] : Bytes) ≠ [50] := by decide
  have horder : ∀ i, Interleaving (deliveries [49] [1]) (deliveries [50] [2]) (secondLast i) := by
    rintro (_ | _)
    · exact .left (.right (.left (.right .nil)))
    · exact .left (.left (.right (.right .nil)))
  refine (replicas_converge_iff id (fun _ _ => 0) [99] hne (fun _ => {}) ?_ ?_ secondLast horder).mpr ?_
    true false
  · exact fun _ _ _ h => (nomatch h)
  · exact fun _ _ _ => rfl
  · exact .inr (by decide)

/-- Two replicas that see the transactions prepared in different orders keep different data. -/
theorem replicas_diverge :
    contentAfter id (fun _ => 0) [99] {}
        [.prepare [49] [1], .prepare [50] [2], .commit [49], .commit [50]] = some [2] ∧
      contentAfter id (fun _ => 0) [99] {}
        [.prepare [50] [2], .prepare [49] [1], .commit [49], .commit [50]] = some [1] ∧
      Interleaving (deliveries [49] [1]) (deliveries [50] [2])
        [.prepare [49] [1], .prepare [50] [2], .commit [49], .commit [50]] ∧
      Interleaving (deliveries [49] [1]) (deliveries [50] [2])
        [.prepare [50] [2], .prepare [49] [1], .commit [49], .commit [50]] :=
  ⟨rfl, rfl, .left (.right (.left (.right .nil))), .right (.left (.left (.right .nil)))⟩

end Converge

end Sandstore.Chunk
