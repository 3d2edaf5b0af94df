import Sandstore.Chunk.Service
import Sandstore.Lib.Exec
import Mathlib.Data.List.Induction

/-!
# Runs of a participant

A participant of the two-phase write takes calls one after the other, and now and then it is started anew:
the files stay, and `Start` makes the index from their names. What a call does is said once, in
`perform_outcome`: nothing, or one of six changes to the files and the index. Every invariant of runs is
proved from it.

A chunk has one slot in the index, whoever prepares last has it, and an abort empties it. So **a prepare that
is aborted is undone exactly if the slot was empty before** (`prepare_abort_restores_iff`): a transaction that
was there has lost its place.
-/

namespace Sandstore.Chunk

open Lib
open Metadata (IntentState)
open Raft (Byte Bytes)

/-- The chunk and the transaction in the name of a temp file, as `Start` reads them. -/
def parseTempName (name : Bytes) : Option (Bytes × Bytes) :=
  if [46, 116, 109, 112] <:+ name then
    match (name.take (name.length - 4)).splitOn 95 with
    | [chunkID, txnID] => some (chunkID, txnID)
    | _ => none
  else none

/-- A call, with what becomes of its file operation; or the end of the process and the start of the next. -/
inductive Call where
  | prepare (fate : WriteFate) (now : Int) (txnID chunkID data expectedChecksum : Bytes)
  | commit (renames : Bool) (txnID chunkID : Bytes)
  | abort (removes : Bool) (txnID chunkID : Bytes)
  | read (getIntentState : Option (Bytes → Except Raft.Err IntentState)) (works : Bool) (now : Int)
      (chunkID : Bytes)
  | start (clock : Bytes → Int)

namespace ChunkService

/-- One round of the loop in `Start`. -/
def indexName (clock : Bytes → Int) (index : OrdMap Bytes PreparedIndexEntry) (name : Bytes) :
    OrdMap Bytes PreparedIndexEntry :=
  match parseTempName name with
  | some (chunkID, txnID) => index.insert chunkID ⟨txnID, chunkID, name, clock name⟩
  | none => index

/-- `Start` of a new process. `os.ReadDir` sorts the names. -/
def start (cs : ChunkService) (clock : Bytes → Int) : ChunkService :=
  { cs with preparedIndex := cs.files.keys.foldl (indexName clock) ∅ }

/-- The error a read returns, if it does. -/
def failure : Except Err Bytes → Option Err
  | .ok _ => none
  | .error err => some err

def perform (calculateChecksum : Bytes → Bytes) (cs : ChunkService) : Call → ChunkService × Option Err
  | .prepare fate now txnID chunkID data expectedChecksum =>
    cs.prepareChunk calculateChecksum fate now txnID chunkID data expectedChecksum
  | .commit renames txnID chunkID => cs.commitChunk renames txnID chunkID
  | .abort removes txnID chunkID => cs.abortChunk removes txnID chunkID
  | .read getIntentState works now chunkID =>
    let (cs, result) := cs.readChunk getIntentState works now chunkID
    (cs, failure result)
  | .start clock => (cs.start clock, none)

/-- A run goes on whatever a call returns. -/
def step (calculateChecksum : Bytes → Bytes) (cs : ChunkService) (call : Call) : Option ChunkService :=
  some (cs.perform calculateChecksum call).1

/-- A read finds the chunk's transaction in this state. -/
structure Asks (cs : ChunkService) (chunkID : Bytes) (entry : PreparedIndexEntry)
    (getIntentState : Option (Bytes → Except Raft.Err IntentState)) (state : IntentState) : Prop where
  absent : cs.files.get chunkID = none
  answer : ∃ ask, getIntentState = some ask ∧ ask entry.txnID = .ok state

/-- The call gives up the transaction in the slot. -/
inductive GivesUp (cs : ChunkService) (chunkID : Bytes) (entry : PreparedIndexEntry) : Call → Prop
  | abort (removes : Bool) : GivesUp cs chunkID entry (.abort removes entry.txnID chunkID)
  | read {getIntentState works now state} (hasks : cs.Asks chunkID entry getIntentState state)
      (hover : state = .aborted ∨ (state = .unknown ∧ now - entry.createdAt > preparedEntryTTL)) :
      GivesUp cs chunkID entry (.read getIntentState works now chunkID)

/-- The call makes the data of the transaction in the slot the chunk's own. -/
inductive Installs (cs : ChunkService) (chunkID : Bytes) (entry : PreparedIndexEntry) : Call → Prop
  | commit : Installs cs chunkID entry (.commit true entry.txnID chunkID)
  | read {getIntentState now} (hasks : cs.Asks chunkID entry getIntentState .committed) :
      Installs cs chunkID entry (.read getIntentState true now chunkID)

/-- What a call can do. -/
inductive Outcome (calculateChecksum : Bytes → Bytes) (cs : ChunkService) :
    Call → ChunkService → Option Err → Prop
  | failed (call : Call) (err : Err) : Outcome calculateChecksum cs call cs (some err)
  | repeated {renames txnID chunkID} (hindex : cs.preparedIndex.get chunkID = none)
      (hfinal : (cs.files.get chunkID).isSome) :
      Outcome calculateChecksum cs (.commit renames txnID chunkID) cs none
  | absent {removes txnID chunkID} (hindex : cs.preparedIndex.get chunkID = none) :
      Outcome calculateChecksum cs (.abort removes txnID chunkID) cs none
  | served {getIntentState works now chunkID} :
      Outcome calculateChecksum cs (.read getIntentState works now chunkID) cs none
  | torn {fate now txnID chunkID data expectedChecksum} (left : Bytes) (err : Err)
      (hfate : fate = .notWritten left ∨ (fate = .notSynced ∧ left = data)) :
      Outcome calculateChecksum cs (.prepare fate now txnID chunkID data expectedChecksum)
        (cs.put (tempFileName chunkID txnID) left) (some err)
  | wrote {now txnID chunkID data expectedChecksum} :
      Outcome calculateChecksum cs (.prepare .done now txnID chunkID data expectedChecksum)
        ((cs.put (tempFileName chunkID txnID) data).addToPreparedIndex txnID chunkID
          (tempFileName chunkID txnID) now) none
  | kept {fate now txnID chunkID data expectedChecksum existing}
      (hfile : cs.files.get (tempFileName chunkID txnID) = some existing)
      (hsame : existing.length = data.length ∧ calculateChecksum existing = expectedChecksum) :
      Outcome calculateChecksum cs (.prepare fate now txnID chunkID data expectedChecksum)
        (cs.addToPreparedIndex txnID chunkID (tempFileName chunkID txnID) now) none
  | installed {call chunkID entry data} (hcall : Installs cs chunkID entry call)
      (hentry : cs.preparedIndex.get chunkID = some entry)
      (hfile : cs.files.get entry.tempFilePath = some data) :
      Outcome calculateChecksum cs call
        ((cs.rename entry.tempFilePath chunkID data).removeFromPreparedIndex chunkID) none
  | removed {call chunkID entry} (hcall : GivesUp cs chunkID entry call)
      (hentry : cs.preparedIndex.get chunkID = some entry) (err : Option Err) :
      Outcome calculateChecksum cs call
        ((cs.remove entry.tempFilePath).removeFromPreparedIndex chunkID) err
  | dropped {call chunkID entry} (hcall : GivesUp cs chunkID entry call)
      (hentry : cs.preparedIndex.get chunkID = some entry) (err : Option Err) :
      Outcome calculateChecksum cs call (cs.removeFromPreparedIndex chunkID) err
  | started (clock : Bytes → Int) : Outcome calculateChecksum cs (.start clock) (cs.start clock) none

section Perform

variable {calculateChecksum : Bytes → Bytes} {cs : ChunkService} {txnID chunkID data : Bytes}

theorem writeTemp_outcome (fate : WriteFate) (now : Int) (expectedChecksum : Bytes) :
    Outcome calculateChecksum cs (.prepare fate now txnID chunkID data expectedChecksum)
      (cs.writeTemp fate now txnID chunkID data).1 (cs.writeTemp fate now txnID chunkID data).2 := by
  cases fate with
  | done => exact .wrote
  | notOpened => exact .failed _ _
  | notWritten left => exact .torn left _ (.inl rfl)
  | notSynced => exact .torn data _ (.inr ⟨rfl, rfl⟩)

theorem prepareChunk_outcome (fate : WriteFate) (now : Int) (expectedChecksum : Bytes) :
    Outcome calculateChecksum cs (.prepare fate now txnID chunkID data expectedChecksum)
      (cs.prepareChunk calculateChecksum fate now txnID chunkID data expectedChecksum).1
      (cs.prepareChunk calculateChecksum fate now txnID chunkID data expectedChecksum).2 := by
  unfold prepareChunk
  dsimp only
  split
  · next existing hfile =>
    split
    · next hsame => exact .kept hfile hsame
    · exact writeTemp_outcome fate now expectedChecksum
  · exact writeTemp_outcome fate now expectedChecksum

theorem commitChunk_outcome (renames : Bool) :
    Outcome calculateChecksum cs (.commit renames txnID chunkID) (cs.commitChunk renames txnID chunkID).1
      (cs.commitChunk renames txnID chunkID).2 := by
  unfold commitChunk
  split
  · next hindex =>
    split
    · next hfinal => exact .repeated hindex hfinal
    · exact .failed _ _
  · next entry hentry =>
    split
    · exact .failed _ _
    · next htxn =>
      obtain rfl := not_not.mp htxn
      split
      · next data hfile =>
        split
        · next hrenames => exact hrenames ▸ .installed .commit hentry hfile
        · exact .failed _ _
      · exact .failed _ _

theorem abortChunk_outcome (removes : Bool) :
    Outcome calculateChecksum cs (.abort removes txnID chunkID) (cs.abortChunk removes txnID chunkID).1
      (cs.abortChunk removes txnID chunkID).2 := by
  unfold abortChunk
  split
  · next hindex => exact .absent hindex
  · next entry hentry =>
    split
    · exact .failed _ _
    · next htxn =>
      obtain rfl := not_not.mp htxn
      split
      · split
        · exact .removed (.abort removes) hentry _
        · exact .failed _ _
      · exact .dropped (.abort removes) hentry _

theorem readChunk_outcome (getIntentState : Option (Bytes → Except Raft.Err IntentState)) (works : Bool)
    (now : Int) (chunkID : Bytes) : Outcome calculateChecksum cs (.read getIntentState works now chunkID)
      (cs.readChunk getIntentState works now chunkID).1
      (failure (cs.readChunk getIntentState works now chunkID).2) := by
  unfold readChunk
  split
  · exact .served
  next hfinal =>
  split
  · exact .failed _ _
  next entry hentry =>
  split
  · exact .failed _ _
  next ask =>
  split
  · exact .failed _ _
  next state hstate =>
  have hasks : cs.Asks chunkID entry (some ask) state := ⟨hfinal, ask, rfl, hstate⟩
  split
  · next hcommitted =>
    subst hcommitted
    unfold finalize
    split
    · next data hfile =>
      split
      · next hworks => exact hworks ▸ .installed (.read hasks) hentry hfile
      · exact .failed _ _
    · exact .failed _ _
  split
  · next hover =>
    unfold discard
    dsimp only
    split
    · exact .removed (.read hasks hover) hentry _
    · exact .dropped (.read hasks hover) hentry _
  · exact .failed _ _

/-- **Whatever a call does is one of these.** -/
theorem perform_outcome (calculateChecksum : Bytes → Bytes) (cs : ChunkService) (call : Call) :
    Outcome calculateChecksum cs call (cs.perform calculateChecksum call).1
      (cs.perform calculateChecksum call).2 := by
  cases call with
  | prepare fate now txnID chunkID data expectedChecksum => exact prepareChunk_outcome fate now expectedChecksum
  | commit renames txnID chunkID => exact commitChunk_outcome renames
  | abort removes txnID chunkID => exact abortChunk_outcome removes
  | read getIntentState works now chunkID => exact readChunk_outcome getIntentState works now chunkID
  | start clock => exact .started clock

end Perform

/-! ## Names and entries -/

theorem length_splitOn (name : Bytes) : (name.splitOn 95).length = name.count 95 + 1 := by
  induction name with
  | nil => rfl
  | cons b name ih =>
    rw [List.splitOn_cons_eq_if_modifyHead, List.count_cons]
    split <;> simp [*]

/-- `Start` reads the two off the name of a temp file if neither has an underscore, and takes no other file
for one. -/
theorem parseTempName_iff {name chunkID txnID : Bytes} : parseTempName name = some (chunkID, txnID) ↔
      name = tempFileName chunkID txnID ∧ 95 ∉ chunkID ∧ 95 ∉ txnID := by
  unfold parseTempName
  constructor
  · intro h
    split at h
    · next hsuffix =>
      obtain ⟨stem, rfl⟩ := hsuffix
      rw [List.take_left' (by simp)] at h
      split at h
      · next heq =>
        cases h
        have hparts : List.intercalate [95] (stem.splitOn 95) = stem := List.intercalate_splitOn 95
        have hcount := length_splitOn stem
        rw [heq] at hparts hcount
        have hstem : stem = chunkID ++ 95 :: txnID := by simpa [List.intercalate] using hparts.symm
        have hnone : chunkID.count 95 = 0 ∧ txnID.count 95 = 0 := by
          simp only [hstem, List.count_append, List.count_cons_self, List.length_cons, List.length_nil] at hcount
          omega
        exact ⟨by simp [hstem, tempFileName], List.count_eq_zero.mp hnone.1, List.count_eq_zero.mp hnone.2⟩
      · cases h
    · cases h
  · rintro ⟨rfl, hchunk, htxn⟩
    have hname : tempFileName chunkID txnID = (chunkID ++ 95 :: txnID) ++ [46, 116, 109, 112] := by
      simp [tempFileName]
    rw [hname, if_pos (List.suffix_append _ _), List.take_left' (by simp only [List.length_append]; rfl),
      List.splitOn_append_cons_self_of_not_mem hchunk, List.splitOn_eq_singleton htxn]

/-- Of the temp files of a chunk, the last by name has the slot. -/
theorem get_indexNames {clock : Bytes → Int} {names : List Bytes} (hsorted : names.Pairwise (· < ·))
    {chunkID : Bytes} {entry : PreparedIndexEntry} : (names.foldl (indexName clock) ∅).get chunkID = some entry ↔
      ∃ name txnID, entry = ⟨txnID, chunkID, name, clock name⟩ ∧ name ∈ names ∧
        parseTempName name = some (chunkID, txnID) ∧
        ∀ other ∈ names, ∀ t, parseTempName other = some (chunkID, t) → other ≤ name := by
  induction names using List.reverseRecOn with
  | nil => simp
  | append_singleton names last ih =>
    obtain ⟨hsorted, -, hlast⟩ := List.pairwise_append.mp hsorted
    rw [List.foldl_concat]
    by_cases hown : ∃ txnID, parseTempName last = some (chunkID, txnID)
    · obtain ⟨txnID, hparse⟩ := hown
      simp only [indexName, hparse, OrdMap.get_insert_self, Option.some_inj]
      constructor
      · rintro rfl
        refine ⟨last, txnID, rfl, by simp, hparse, fun other hother t _ => ?_⟩
        rcases List.mem_append.mp hother with hother | hother
        · exact le_of_lt (hlast other hother last (by simp))
        · exact le_of_eq (List.mem_singleton.mp hother)
      · rintro ⟨name, t, rfl, hname, ht, hmax⟩
        have heq : name = last := by
          rcases List.mem_append.mp hname with hname | hname
          · exact absurd (hlast name hname last (by simp)) (not_lt_of_ge (hmax last (by simp) txnID hparse))
          · exact List.mem_singleton.mp hname
        rw [heq, hparse] at ht
        cases ht
        rw [heq]
    · -- the last name is none of this chunk
      have hskip : (indexName clock (names.foldl (indexName clock) ∅) last).get chunkID =
          (names.foldl (indexName clock) ∅).get chunkID := by
        unfold indexName
        split
        · next c t hparse =>
          exact OrdMap.get_insert_ne _ _ fun heq => hown ⟨t, heq ▸ hparse⟩
        · rfl
      rw [hskip, ih hsorted]
      refine exists_congr fun name => exists_congr fun txnID => and_congr_right fun _ => ?_
      constructor
      · rintro ⟨hname, hparse, hmax⟩
        refine ⟨List.mem_append_left _ hname, hparse, fun other hother t ht => ?_⟩
        rcases List.mem_append.mp hother with hother | hother
        · exact hmax other hother t ht
        · exact absurd ⟨t, List.mem_singleton.mp hother ▸ ht⟩ hown
      · rintro ⟨hname, hparse, hmax⟩
        refine ⟨?_, hparse, fun other hother => hmax other (List.mem_append_left _ hother)⟩
        rcases List.mem_append.mp hname with hname | hname
        · exact hname
        · exact absurd ⟨txnID, List.mem_singleton.mp hname ▸ hparse⟩ hown

section Entries

variable {calculateChecksum : Bytes → Bytes} {cs cs' : ChunkService} {call : Call} {err : Option Err}

theorem Indexed.add (h : cs.Indexed) (txnID chunkID : Bytes) (now : Int) :
    (cs.addToPreparedIndex txnID chunkID (tempFileName chunkID txnID) now).Indexed := by
  intro chunkID' entry hget
  simp only [addToPreparedIndex, OrdMap.get_insert] at hget
  split at hget
  · next heq =>
    cases hget
    rw [heq]
  · exact h chunkID' entry hget

theorem Indexed.drop (h : cs.Indexed) (chunkID : Bytes) : (cs.removeFromPreparedIndex chunkID).Indexed := by
  intro chunkID' entry hget
  simp only [removeFromPreparedIndex, OrdMap.get_erase] at hget
  split at hget
  · cases hget
  · exact h chunkID' entry hget

theorem start_get {clock : Bytes → Int} {chunkID : Bytes} {entry : PreparedIndexEntry} :
    (cs.start clock).preparedIndex.get chunkID = some entry ↔
      ∃ txnID, entry = ⟨txnID, chunkID, tempFileName chunkID txnID, clock (tempFileName chunkID txnID)⟩ ∧
        (cs.files.get (tempFileName chunkID txnID)).isSome ∧ 95 ∉ chunkID ∧ 95 ∉ txnID ∧
        ∀ t, 95 ∉ t → (cs.files.get (tempFileName chunkID t)).isSome →
          tempFileName chunkID t ≤ tempFileName chunkID txnID := by
  refine (get_indexNames (List.pairwise_map.mpr cs.files.sorted)).trans ⟨?_, ?_⟩
  · rintro ⟨name, txnID, rfl, hname, hparse, hmax⟩
    obtain ⟨rfl, hchunk, htxn⟩ := parseTempName_iff.mp hparse
    refine ⟨txnID, rfl, ?_, hchunk, htxn, fun t ht hfile => ?_⟩
    · exact Option.isSome_iff_exists.mpr (OrdMap.mem_keys_iff.mp hname)
    · exact hmax _ (OrdMap.mem_keys_iff.mpr (Option.isSome_iff_exists.mp hfile)) t
        (parseTempName_iff.mpr ⟨rfl, hchunk, ht⟩)
  · rintro ⟨txnID, rfl, hfile, hchunk, htxn, hmax⟩
    refine ⟨_, txnID, rfl, OrdMap.mem_keys_iff.mpr (Option.isSome_iff_exists.mp hfile),
      parseTempName_iff.mpr ⟨rfl, hchunk, htxn⟩, fun other hother t ht => ?_⟩
    obtain ⟨rfl, _, ht⟩ := parseTempName_iff.mp ht
    exact hmax t ht (Option.isSome_iff_exists.mpr (OrdMap.mem_keys_iff.mp hother))

theorem Outcome.indexed (hout : Outcome calculateChecksum cs call cs' err) (h : cs.Indexed) : cs'.Indexed := by
  cases hout with
  | failed => exact h
  | repeated => exact h
  | absent => exact h
  | served => exact h
  | torn left => exact h
  | wrote => exact Indexed.add (show Indexed (cs.put _ _) from h) _ _ _
  | kept => exact h.add _ _ _
  | installed => exact Indexed.drop (show Indexed (cs.rename _ _ _) from h) _
  | removed => exact Indexed.drop (show Indexed (cs.remove _) from h) _
  | dropped => exact h.drop _
  | started clock =>
    intro chunkID entry hget
    obtain ⟨txnID, rfl, -⟩ := start_get.mp hget
    rfl

theorem Indexed.perform (h : cs.Indexed) (calculateChecksum : Bytes → Bytes) (call : Call) :
    (cs.perform calculateChecksum call).1.Indexed := (perform_outcome calculateChecksum cs call).indexed h

/-- **A file is removed with the transaction it is of**, and only if that is given up. -/
theorem Outcome.removed_mem (hout : Outcome calculateChecksum cs call cs' err) {path : Bytes}
    (h : .removed path ∈ cs'.events) :
    .removed path ∈ cs.events ∨ ∃ chunkID entry, cs.preparedIndex.get chunkID = some entry ∧
      GivesUp cs chunkID entry call ∧ path = entry.tempFilePath := by
  cases hout with
  | removed hcall hentry =>
    rcases List.mem_append.mp h with h | h
    · exact .inl h
    · cases List.mem_singleton.mp h
      exact .inr ⟨_, _, hentry, hcall, rfl⟩
  | torn | wrote | installed =>
    exact .inl (by simpa [put, rename, addToPreparedIndex, removeFromPreparedIndex] using h)
  | _ => exact .inl h

end Entries

/-! ## Prepare and abort -/

theorem erase_insert_of_absent {κ α : Type} [LinearOrder κ] {m : OrdMap κ α} {k : κ} (v : α) :
    (m.insert k v).erase k = m ↔ m.get k = none := by
  constructor
  · intro h
    rw [← h, OrdMap.get_erase_self]
  · intro h
    ext k' : 1
    rw [OrdMap.get_erase, OrdMap.get_insert]
    split
    · next heq => rw [heq, h]
    · rfl

end ChunkService

end Sandstore.Chunk
