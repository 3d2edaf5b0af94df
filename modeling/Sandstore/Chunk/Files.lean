import Sandstore.Chunk.Slot

/-!
# The files of a participant

What a run leaves in the directory. Where no ID has an underscore, a file is a chunk or the temp file of one
transaction (`Plain`), so that `Start` reads off the names what was prepared. It does not read who was
prepared last: a transaction that has lost the slot has left its file behind, and the last name wins. **The
index is made again as it was exactly if every temp file of a chunk is that of the transaction in its slot, or
comes before it** (`start_rebuilds_iff`).

A file is also stamped here with the checksum that came with the call that wrote it. `PrepareChunk` compares
that checksum only with what a temp file has already, never with what it writes. **Every file has the checksum
it came with in a run where the callers pass the right one and no write breaks off** (`checksums_hold`).
-/

namespace Sandstore.Chunk

open Lib
open Raft (Byte Bytes)

/-! ## Names -/

/-- The call names chunks and transactions without an underscore. -/
def Call.Plain : Call → Prop
  | .prepare _ _ txnID chunkID _ _ | .commit _ txnID chunkID | .abort _ txnID chunkID => 95 ∉ chunkID ∧ 95 ∉ txnID
  | .read _ _ _ chunkID => 95 ∉ chunkID
  | .start _ => True

namespace ChunkService

/-- In a run of such calls a file is a chunk or the temp file of a transaction, and an entry is of a temp file
that is there. -/
structure Plain (cs : ChunkService) : Prop where
  named : ∀ path, (cs.files.get path).isSome →
    95 ∉ path ∨ ∃ chunkID txnID, path = tempFileName chunkID txnID ∧ 95 ∉ chunkID ∧ 95 ∉ txnID
  indexed : ∀ chunkID entry, cs.preparedIndex.get chunkID = some entry →
    entry.tempFilePath = tempFileName chunkID entry.txnID ∧ (95 ∉ chunkID ∧ 95 ∉ entry.txnID) ∧
      (cs.files.get entry.tempFilePath).isSome

variable {calculateChecksum : Bytes → Bytes} {cs cs' : ChunkService} {call : Call} {err : Option Err}

theorem plain_init : Plain {} :=
  ⟨fun _ h => absurd h Bool.false_ne_true, fun _ _ h => absurd h (Option.some_ne_none _).symm⟩

theorem Plain.put (h : cs.Plain) {chunkID txnID : Bytes} (hplain : 95 ∉ chunkID ∧ 95 ∉ txnID) (data : Bytes) :
    (cs.put (tempFileName chunkID txnID) data).Plain := by
  refine ⟨fun path hpath => ?_, fun c entry hentry => ?_⟩
  · by_cases heq : path = tempFileName chunkID txnID
    · exact .inr ⟨chunkID, txnID, heq, hplain⟩
    · exact h.named path (by simpa [ChunkService.put, OrdMap.get_insert_ne _ _ heq] using hpath)
  · obtain ⟨hpath, hids, hfile⟩ := h.indexed c entry hentry
    refine ⟨hpath, hids, ?_⟩
    simp only [ChunkService.put, OrdMap.get_insert]
    split
    · rfl
    · exact hfile

theorem Plain.add (h : cs.Plain) {chunkID txnID : Bytes} (hplain : 95 ∉ chunkID ∧ 95 ∉ txnID)
    (hfile : (cs.files.get (tempFileName chunkID txnID)).isSome) (now : Int) :
    (cs.addToPreparedIndex txnID chunkID (tempFileName chunkID txnID) now).Plain := by
  refine ⟨h.named, fun c entry hentry => ?_⟩
  simp only [addToPreparedIndex, OrdMap.get_insert] at hentry
  split at hentry
  · next heq =>
    cases hentry
    subst heq
    exact ⟨rfl, hplain, hfile⟩
  · exact h.indexed c entry hentry

/-- The slot of a chunk is emptied. Its temp file may go, and the chunk may get its content: the other slots
have other temp files. -/
theorem Plain.drop (h : cs.Plain) {chunkID : Bytes} {entry : PreparedIndexEntry}
    (hentry : cs.preparedIndex.get chunkID = some entry) {files : OrdMap Bytes Bytes} {events : List FileEvent}
    (hfiles : ∀ path, path ≠ entry.tempFilePath → path ≠ chunkID → files.get path = cs.files.get path) :
    ChunkService.Plain ⟨files, cs.preparedIndex.erase chunkID, events⟩ := by
  obtain ⟨hpath, hids, hfile⟩ := h.indexed chunkID entry hentry
  refine ⟨fun path hsome => ?_, fun c other hother => ?_⟩
  · by_cases hown : path = chunkID
    · exact .inl (hown ▸ hids.1)
    · by_cases htemp : path = entry.tempFilePath
      · exact .inr ⟨chunkID, entry.txnID, htemp.trans hpath, hids⟩
      · exact h.named path (hfiles path htemp hown ▸ hsome)
  · simp only [OrdMap.get_erase] at hother
    split at hother
    · cases hother
    · next hne =>
      obtain ⟨hpath', hids', hfile'⟩ := h.indexed c other hother
      refine ⟨hpath', hids', ?_⟩
      rw [hfiles]
      · exact hfile'
      · intro heq
        exact hne (tempFileName_inj hids'.2 hids.2 (hpath'.symm.trans (heq.trans hpath))).1
      · exact hpath' ▸ (ne_tempFileName hids.1 _ _).symm

theorem Outcome.plain (hout : Outcome calculateChecksum cs call cs' err) (h : cs.Plain) (hcall : call.Plain) :
    cs'.Plain := by
  cases hout with
  | failed | repeated | absent | served => exact h
  | torn left => exact h.put hcall left
  | wrote => exact (h.put hcall _).add hcall (by simp [ChunkService.put]) _
  | kept hfile => exact h.add hcall (Option.isSome_of_eq_some hfile) _
  | installed _ hentry =>
    exact h.drop hentry fun path htemp hown => (OrdMap.get_insert_ne _ _ hown).trans (OrdMap.get_erase_ne _ htemp)
  | removed _ hentry => exact h.drop hentry fun path htemp _ => OrdMap.get_erase_ne _ htemp
  | dropped _ hentry => exact h.drop hentry fun _ _ _ => rfl
  | started clock =>
    refine ⟨h.named, fun c entry hentry => ?_⟩
    obtain ⟨txnID, rfl, hfile, hc, ht, -⟩ := start_get.mp hentry
    exact ⟨rfl, ⟨hc, ht⟩, hfile⟩

theorem plain_exec {ok : ChunkService → Call → Prop} (hok : ∀ cs call, ok cs call → call.Plain) (calls : List Call)
    (h : cs.Plain) (hcalls : Along (step calculateChecksum) ok cs calls)
    (hrun : exec (step calculateChecksum) cs calls = some cs') : cs'.Plain := by
  refine exec_along ?_ calls h hcalls hrun
  intro cs call cs' h hcall hstep
  cases hstep
  exact (perform_outcome calculateChecksum cs call).plain h (hok cs call hcall)

theorem plain_run {calls : List Call} (hplain : ∀ call ∈ calls, call.Plain)
    (hrun : exec (step calculateChecksum) {} calls = some cs) : cs.Plain :=
  plain_exec (fun _ _ h => h) calls plain_init (along_of_mem calls _ fun call hcall _ => hplain call hcall) hrun

theorem start_ne_none {chunkID txnID : Bytes} (hids : 95 ∉ chunkID ∧ 95 ∉ txnID)
    (hfile : (cs.files.get (tempFileName chunkID txnID)).isSome) (clock : Bytes → Int) :
    (cs.start clock).preparedIndex.get chunkID ≠ none := by
  have hname : tempFileName chunkID txnID ∈ cs.files.keys :=
    OrdMap.mem_keys_iff.mpr (Option.isSome_iff_exists.mp hfile)
  unfold start
  dsimp only
  generalize cs.files.keys = names at hname ⊢
  induction names using List.reverseRecOn with
  | nil => cases hname
  | append_singleton names last ih =>
    rw [List.foldl_concat]
    unfold indexName
    rcases List.mem_append.mp hname with hname | hname
    · split
      · simp only [OrdMap.get_insert]
        split
        · exact Option.some_ne_none _
        · exact ih hname
      · exact ih hname
    · rw [← List.mem_singleton.mp hname, parseTempName_iff.mpr ⟨rfl, hids⟩]
      simp

/-- The transaction a slot is for, and its file. -/
def place (entry : PreparedIndexEntry) : Bytes × Bytes := (entry.txnID, entry.tempFilePath)

/-- **`Start` makes the index as it was, the times aside, exactly if each temp file is of the transaction in
its chunk's slot, or comes before that one's.** -/
theorem start_rebuilds_iff (calculateChecksum : Bytes → Bytes) (calls : List Call)
    (hplain : ∀ call ∈ calls, call.Plain) {cs : ChunkService}
    (hrun : exec (step calculateChecksum) {} calls = some cs) (clock : Bytes → Int) :
    (∀ chunkID, ((cs.start clock).preparedIndex.get chunkID).map place = (cs.preparedIndex.get chunkID).map place) ↔
      ∀ chunkID txnID, 95 ∉ chunkID ∧ 95 ∉ txnID → (cs.files.get (tempFileName chunkID txnID)).isSome →
        ∃ entry, cs.preparedIndex.get chunkID = some entry ∧ tempFileName chunkID txnID ≤ entry.tempFilePath := by
  have h := plain_run hplain hrun
  constructor
  · intro hsame chunkID txnID hids hfile
    obtain ⟨entry, hentry⟩ := Option.ne_none_iff_exists'.mp (start_ne_none hids hfile clock)
    obtain ⟨t, rfl, -, -, -, hmax⟩ := start_get.mp hentry
    have hplace := hsame chunkID
    rw [hentry] at hplace
    obtain ⟨entry, hget, heq⟩ := Option.map_eq_some_iff.mp hplace.symm
    exact ⟨entry, hget, le_of_le_of_eq (hmax txnID hids.2 hfile) (congrArg Prod.snd heq).symm⟩
  · intro hlast chunkID
    cases hentry : cs.preparedIndex.get chunkID with
    | some entry =>
      obtain ⟨hpath, hids, hfile⟩ := h.indexed chunkID entry hentry
      have hstart : (cs.start clock).preparedIndex.get chunkID =
          some ⟨entry.txnID, chunkID, tempFileName chunkID entry.txnID, clock (tempFileName chunkID entry.txnID)⟩ := by
        refine start_get.mpr ⟨_, rfl, hpath ▸ hfile, hids.1, hids.2, fun t ht hother => ?_⟩
        obtain ⟨entry', hentry', hle⟩ := hlast chunkID t ⟨hids.1, ht⟩ hother
        cases hentry.symm.trans hentry'
        exact hpath ▸ hle
      rw [hstart]
      simp [place, hpath]
    | none =>
      cases hstart : (cs.start clock).preparedIndex.get chunkID with
      | none => rfl
      | some entry =>
        obtain ⟨t, rfl, hfile, hids, ht, -⟩ := start_get.mp hstart
        obtain ⟨entry, hsome, -⟩ := hlast chunkID t ⟨hids, ht⟩ hfile
        cases hentry.symm.trans hsome

theorem start_rebuilds_one :
    let cs := (({} : ChunkService).prepareChunk id .done 0 [49] [99] [1] [1]).1
    ((cs.start fun _ => 7).preparedIndex.get [99]).map place = (cs.preparedIndex.get [99]).map place := by
  refine (start_rebuilds_iff id [.prepare .done 0 [49] [99] [1] [1]] ?_ rfl fun _ => 7).mpr ?_ [99]
  · simp [Call.Plain]
  · intro chunkID txnID hids hfile
    have hname : tempFileName chunkID txnID = tempFileName [99] [49] := by
      by_contra hne
      exact absurd (hfile.symm.trans (congrArg _ (OrdMap.get_insert_ne ∅ [1] hne))) (Bool.false_ne_true ∘ Eq.symm)
    obtain ⟨rfl, rfl⟩ := tempFileName_inj hids.2 (by decide) hname
    exact ⟨_, rfl, le_refl _⟩

/-- Two transactions are prepared, the second with the smaller name: `Start` gives the slot to the first. -/
theorem start_confuses :
    let cs := ((({} : ChunkService).prepareChunk id .done 0 [122] [99] [1] [1]).1.prepareChunk id .done 0 [97] [99]
      [2] [2]).1
    (cs.preparedIndex.get [99]).map place = some ([97], tempFileName [99] [97]) ∧
      ((cs.start fun _ => 7).preparedIndex.get [99]).map place = some ([122], tempFileName [99] [122]) ∧
      (cs.commitChunk true [97] [99]).2 = none ∧
      ((cs.start fun _ => 7).commitChunk true [97] [99]).2 = some .txnMismatch := by
  decide

end ChunkService

/-! ## Checksums -/

/-- A participant, with the checksum that each file came with. -/
structure Stamped where
  cs : ChunkService := {}
  stamp : Bytes → Option Bytes := fun _ => none

namespace Stamped

/-- The checksum that comes with a call. -/
def checksum : Call → Option Bytes
  | .prepare _ _ _ _ _ expectedChecksum => some expectedChecksum
  | _ => none

/-- A file that is written gets the checksum of the call, and keeps it under its new name. -/
def mark (sum : Option Bytes) (stamp : Bytes → Option Bytes) : FileEvent → Bytes → Option Bytes
  | .wrote path _ => Function.update stamp path sum
  | .renamed path target => Function.update (Function.update stamp path none) target (stamp path)
  | .removed path => Function.update stamp path none

def step (calculateChecksum : Bytes → Bytes) (s : Stamped) (call : Call) : Option Stamped :=
  let cs := (s.cs.perform calculateChecksum call).1
  some ⟨cs, (cs.events.drop s.cs.events.length).foldl (mark (checksum call)) s.stamp⟩

/-- A prepare comes with the checksum of its data, and no write breaks off. -/
def Checked (calculateChecksum : Bytes → Bytes) : Call → Prop
  | .prepare fate _ _ _ data expectedChecksum =>
    expectedChecksum = calculateChecksum data ∧ ∀ kept, fate ≠ .notWritten kept
  | _ => True

/-- Every file has the checksum it came with. -/
def Valid (calculateChecksum : Bytes → Bytes) (files : OrdMap Bytes Bytes) (stamp : Bytes → Option Bytes) : Prop :=
  ∀ path content, files.get path = some content → stamp path = some (calculateChecksum content)

section Valid

variable {calculateChecksum : Bytes → Bytes} {files : OrdMap Bytes Bytes} {stamp : Bytes → Option Bytes}

theorem Valid.insert (h : Valid calculateChecksum files stamp) (path : Bytes) {data : Bytes} {sum : Option Bytes}
    (hsum : sum = some (calculateChecksum data)) :
    Valid calculateChecksum (files.insert path data) (Function.update stamp path sum) := by
  intro path' content hget
  rw [OrdMap.get_insert] at hget
  rw [Function.update_apply]
  split at hget
  · next heq =>
    cases hget
    rw [if_pos heq, hsum]
  · next hne =>
    rw [if_neg hne]
    exact h path' content hget

theorem Valid.erase (h : Valid calculateChecksum files stamp) (path : Bytes) :
    Valid calculateChecksum (files.erase path) (Function.update stamp path none) := by
  intro path' content hget
  rw [OrdMap.get_erase] at hget
  split at hget
  · cases hget
  · next hne =>
    rw [Function.update_of_ne hne]
    exact h path' content hget

theorem Valid.outcome {cs cs' : ChunkService} {call : Call} {err : Option Err}
    (h : Valid calculateChecksum cs.files stamp) (hcall : Checked calculateChecksum call)
    (hout : ChunkService.Outcome calculateChecksum cs call cs' err) : Valid calculateChecksum cs'.files
      ((cs'.events.drop cs.events.length).foldl (mark (checksum call)) stamp) := by
  cases hout with
  | failed | repeated | absent | served | kept | dropped | started =>
    simpa [ChunkService.addToPreparedIndex, ChunkService.removeFromPreparedIndex, ChunkService.start] using h
  | torn left err hfate =>
    rcases hfate with rfl | ⟨rfl, rfl⟩
    · exact absurd rfl (hcall.2 left)
    · simpa [ChunkService.put, mark, checksum] using h.insert _ (congrArg some hcall.1)
  | wrote =>
    simpa [ChunkService.put, ChunkService.addToPreparedIndex, mark, checksum] using
      h.insert _ (congrArg some hcall.1)
  | @installed _ chunkID entry data _ _ hfile =>
    simpa [ChunkService.rename, ChunkService.removeFromPreparedIndex, mark] using
      (h.erase entry.tempFilePath).insert chunkID (h _ data hfile)
  | removed =>
    simpa [ChunkService.remove, ChunkService.removeFromPreparedIndex, mark] using h.erase _

end Valid

/-- **What is under a chunk's name has the checksum it was prepared with**, where every prepare passes that of
its data and no write breaks off. -/
theorem checksums_hold (calculateChecksum : Bytes → Bytes) (calls : List Call)
    (hcalls : ∀ call ∈ calls, Checked calculateChecksum call) {s : Stamped}
    (hrun : exec (step calculateChecksum) {} calls = some s) (chunkID data : Bytes)
    (hdata : s.cs.files.get chunkID = some data) : s.stamp chunkID = some (calculateChecksum data) := by
  have hinit : Valid calculateChecksum ({} : Stamped).cs.files ({} : Stamped).stamp :=
    fun _ _ h => absurd h (Option.some_ne_none _).symm
  refine exec_along (I := fun s => Valid calculateChecksum s.cs.files s.stamp) (fun s call s' h hcall hstep => ?_)
    calls hinit (along_of_mem calls _ fun call hcall _ => hcalls call hcall) hrun chunkID data hdata
  cases hstep
  exact h.outcome hcall (ChunkService.perform_outcome calculateChecksum s.cs call)

theorem checksums_hold_committed :
    ∃ s, exec (step id) {} [.prepare .done 0 [49] [99] [1] [1], .commit true [49] [99]] = some s ∧
      s.stamp [99] = some [1] := by
  refine ⟨_, rfl, checksums_hold id [.prepare .done 0 [49] [99] [1] [1], .commit true [49] [99]]
    (fun call hcall => ?_) rfl [99] [1] rfl⟩
  simp only [List.mem_cons, List.not_mem_nil, or_false] at hcall
  rcases hcall with rfl | rfl
  · exact ⟨rfl, fun _ h => by cases h⟩
  · trivial

/-- A prepare with a checksum that is not its data's is stored, and committed. -/
theorem checksums_ignored :
    ∃ s, exec (step id) {} [.prepare .done 0 [49] [99] [1] [9], .commit true [49] [99]] = some s ∧
      s.cs.files.get [99] = some [1] ∧ s.stamp [99] = some [9] :=
  ⟨_, rfl, rfl, rfl⟩

end Stamped

end Sandstore.Chunk
