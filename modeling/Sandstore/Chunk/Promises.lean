import Sandstore.Chunk.Files

/-!
# What becomes of prepared data

A `PrepareChunk` that returns nil leaves a temp file and an entry in the chunk's slot. Two promises hang on
them. The participant of a transaction that commits must not lose the data: **the temp file stays until it is
renamed onto the chunk, if no read asks about the transaction after the time limit and before the metadata
service has heard of it** (`prepared_lasts`); an index entry that expires takes the file with it. And a
`CommitChunk` must tell the truth: **it returns nil, and the data is or was the chunk's content, if the
transaction had the slot to itself since it was prepared** (`commitChunk_truthful`). The slot is the chunk's
and not the transaction's, so another prepare takes it away, and a commit that finds it empty believes
whatever content the chunk has.
-/

namespace Sandstore.Chunk

open Lib
open Raft (Byte Bytes)

namespace ChunkService

variable {calculateChecksum : Bytes → Bytes} {cs cs' : ChunkService} {call : Call} {err : Option Err}

section Waiting

variable {txnID chunkID data : Bytes} (hids : 95 ∉ chunkID ∧ 95 ∉ txnID) (hout : Outcome calculateChecksum cs call cs' err)
  (h : cs.Plain) (hcall : call.Plain)

include hids hout h hcall

/-- **The data of a transaction stays in its temp file**, unless the call writes that file, gives the
transaction up, or renames the file. -/
theorem Outcome.keeps (hfile : cs.files.get (tempFileName chunkID txnID) = some data)
    (hagain : ∀ fate now d checksum, call ≠ .prepare fate now txnID chunkID d checksum)
    (hup : ∀ entry, cs.preparedIndex.get chunkID = some entry → entry.txnID = txnID →
      ¬ GivesUp cs chunkID entry call) : cs'.files.get (tempFileName chunkID txnID) = some data ∨
      cs' = (cs.rename (tempFileName chunkID txnID) chunkID data).removeFromPreparedIndex chunkID := by
  have hwrite : ∀ {c t : Bytes}, 95 ∉ t → ¬ (c = chunkID ∧ t = txnID) →
      tempFileName chunkID txnID ≠ tempFileName c t := by
    intro c t ht hne heq
    obtain ⟨hc, ht⟩ := tempFileName_inj hids.2 ht heq
    exact hne ⟨hc.symm, ht.symm⟩
  -- an entry that names the temp file is the transaction's own
  have hentry : ∀ {c : Bytes} {entry : PreparedIndexEntry}, cs.preparedIndex.get c = some entry →
      tempFileName chunkID txnID = entry.tempFilePath → c = chunkID ∧ entry.txnID = txnID := by
    intro c entry hget heq
    obtain ⟨hpath, hplain, -⟩ := h.indexed c entry hget
    obtain ⟨hc, ht⟩ := tempFileName_inj hids.2 hplain.2 (heq.trans hpath)
    exact ⟨hc.symm, ht.symm⟩
  cases hout with
  | failed | repeated | absent | served | kept | dropped | started => exact .inl hfile
  | torn | wrote =>
    refine .inl ((OrdMap.get_insert_ne _ _ (hwrite hcall.2 ?_)).trans hfile)
    rintro ⟨rfl, rfl⟩
    exact hagain _ _ _ _ rfl
  | @installed _ c entry found hinstalls hget hfound =>
    by_cases heq : tempFileName chunkID txnID = entry.tempFilePath
    · obtain ⟨rfl, -⟩ := hentry hget heq
      rw [← heq] at hfound ⊢
      cases hfound.symm.trans hfile
      exact .inr rfl
    · have hc : tempFileName chunkID txnID ≠ c := (ne_tempFileName (h.indexed c entry hget).2.1.1 _ _).symm
      exact .inl ((OrdMap.get_insert_ne _ _ hc).trans ((OrdMap.get_erase_ne _ heq).trans hfile))
  | removed hgives hget =>
    refine .inl ((OrdMap.get_erase_ne _ fun heq => ?_).trans hfile)
    obtain ⟨rfl, htxn⟩ := hentry hget heq
    exact hup _ hget htxn hgives

theorem Outcome.final (hsome : (cs.files.get chunkID).isSome) : (cs'.files.get chunkID).isSome := by
  cases hout with
  | failed | repeated | absent | served | kept | dropped | started => exact hsome
  | torn | wrote => exact (OrdMap.get_insert_ne cs.files _ (ne_tempFileName hids.1 _ _)).symm ▸ hsome
  | removed _ hget =>
    rw [(h.indexed _ _ hget).1]
    exact (OrdMap.get_erase_ne cs.files (ne_tempFileName hids.1 _ _)).symm ▸ hsome
  | @installed _ c entry _ _ hget =>
    simp only [rename, removeFromPreparedIndex, OrdMap.get_insert]
    split
    · rfl
    · rw [(h.indexed _ _ hget).1, OrdMap.get_erase_ne _ (ne_tempFileName hids.1 _ _)]
      exact hsome

end Waiting

/-- A transaction that has the slot of its chunk keeps it, unless the call prepares the chunk, gives the
transaction up or renames its file. -/
theorem Outcome.slot (hout : Outcome calculateChecksum cs call cs' err) {chunkID : Bytes} {entry : PreparedIndexEntry}
    (hentry : cs.preparedIndex.get chunkID = some entry)
    (hfree : ∀ fate now t d checksum, call ≠ .prepare fate now t chunkID d checksum)
    (hstart : ∀ clock, call ≠ .start clock) (hup : ¬ GivesUp cs chunkID entry call) :
    cs'.preparedIndex.get chunkID = some entry ∨ ∃ found, cs.files.get entry.tempFilePath = some found ∧
      cs' = (cs.rename entry.tempFilePath chunkID found).removeFromPreparedIndex chunkID := by
  cases hout with
  | failed | repeated | absent | served | torn => exact .inl hentry
  | wrote | kept =>
    refine .inl ((OrdMap.get_insert_ne _ _ ?_).trans hentry)
    rintro rfl
    exact hfree _ _ _ _ _ rfl
  | @installed _ c other found hinstalls hother hfound =>
    by_cases heq : chunkID = c
    · subst heq
      cases hentry.symm.trans hother
      exact .inr ⟨found, hfound, rfl⟩
    · exact .inl ((OrdMap.get_erase_ne _ heq).trans hentry)
  | removed hgives hother | dropped hgives hother =>
    refine .inl ((OrdMap.get_erase_ne _ ?_).trans hentry)
    rintro rfl
    cases hentry.symm.trans hother
    exact hup hgives
  | started clock => exact absurd rfl (hstart clock)

theorem Outcome.prepared {fate : WriteFate} {now : Int} {txnID chunkID data expectedChecksum : Bytes}
    (hout : Outcome calculateChecksum cs (.prepare fate now txnID chunkID data expectedChecksum) cs' none) :
    cs'.preparedIndex.get chunkID = some ⟨txnID, chunkID, tempFileName chunkID txnID, now⟩ ∧
      ∃ content, cs'.files.get (tempFileName chunkID txnID) = some content := by
  cases hout with
  | wrote => exact ⟨OrdMap.get_insert_self _ _ _, data, OrdMap.get_insert_self _ _ _⟩
  | kept hfile => exact ⟨OrdMap.get_insert_self _ _ _, _, hfile⟩
  | installed hcall | removed hcall | dropped hcall => cases hcall

/-! ## Runs -/

/-- The intent of the transaction is committed sooner or later: the transaction is not aborted here, and no
answer is that it was. -/
def Spares (txnID : Bytes) : Call → Prop
  | .abort _ t _ => t ≠ txnID
  | .read (some getIntentState) _ _ _ => getIntentState txnID ≠ .ok .aborted
  | _ => True

/-- A read that is told nothing of the transaction finds it young, and the transaction is not prepared
again. -/
def Timely (txnID chunkID : Bytes) (cs : ChunkService) : Call → Prop
  | .prepare _ _ t c _ _ => ¬ (c = chunkID ∧ t = txnID)
  | .read getIntentState _ now c => c = chunkID → ∀ entry, cs.preparedIndex.get chunkID = some entry →
      entry.txnID = txnID → cs.Asks chunkID entry getIntentState .unknown → now - entry.createdAt ≤ preparedEntryTTL
  | _ => True

/-- While a transaction has its chunk's slot nobody else is prepared there, no read gives it up and it is not
aborted; nor is it prepared again. -/
def Orderly (txnID chunkID : Bytes) (cs : ChunkService) : Call → Prop
  | .prepare _ _ t c _ _ => c = chunkID → t ≠ txnID ∧
      ∀ entry, cs.preparedIndex.get chunkID = some entry → entry.txnID ≠ txnID
  | .commit _ _ _ => True
  | .abort _ t c => ¬ (c = chunkID ∧ t = txnID)
  | .read getIntentState works now c => ∀ entry, cs.preparedIndex.get chunkID = some entry → entry.txnID = txnID →
      ¬ GivesUp cs chunkID entry (.read getIntentState works now c)
  | .start _ => False

/-- The transaction has its data there, and the slot. -/
structure Waits (txnID chunkID data : Bytes) (cs : ChunkService) : Prop where
  plain : cs.Plain
  file : cs.files.get (tempFileName chunkID txnID) = some data
  slot : ∃ entry, cs.preparedIndex.get chunkID = some entry ∧ entry.txnID = txnID

section Waits

variable {txnID chunkID data : Bytes}

theorem Waits.step (h : Waits txnID chunkID data cs) (hids : 95 ∉ chunkID ∧ 95 ∉ txnID)
    (hout : Outcome calculateChecksum cs call cs' err) (hcall : call.Plain) (horderly : cs.Orderly txnID chunkID call) :
    Waits txnID chunkID data cs' ∨ cs'.Plain ∧ cs'.files.get chunkID = some data := by
  obtain ⟨entry, hentry, htxn⟩ := h.slot
  have hplain := hout.plain h.plain hcall
  have hrenamed : ((cs.rename (tempFileName chunkID txnID) chunkID data).removeFromPreparedIndex chunkID).files.get
      chunkID = some data := OrdMap.get_insert_self _ _ _
  have hup : ¬ GivesUp cs chunkID entry call := by
    intro hgives
    cases hgives with
    | abort => exact horderly ⟨rfl, htxn⟩
    | read hasks hover => exact horderly entry hentry htxn (.read hasks hover)
  have hfile := hout.keeps hids h.plain hcall h.file
    (by rintro _ _ _ _ rfl; exact (horderly rfl).1 rfl)
    (fun _ hget _ => by cases hentry.symm.trans hget; exact hup)
  have hslot := hout.slot hentry (by rintro _ _ _ _ _ rfl; exact (horderly rfl).2 entry hentry htxn)
    (by rintro _ rfl; exact horderly) hup
  rcases hfile with hfile | rfl
  · rcases hslot with hslot | ⟨found, hfound, rfl⟩
    · exact .inl ⟨hplain, hfile, entry, hslot, htxn⟩
    · rw [(h.plain.indexed chunkID entry hentry).1, htxn, h.file] at hfound
      cases hfound
      exact .inr ⟨hplain, OrdMap.get_insert_self _ _ _⟩
  · exact .inr ⟨hplain, hrenamed⟩

/-- A commit of a chunk with content returns nil to whoever finds the slot empty or its own. -/
theorem commitChunk_nil (h : cs.Plain) (hsome : (cs.files.get chunkID).isSome)
    (hfree : ∀ entry, cs.preparedIndex.get chunkID = some entry → entry.txnID = txnID) :
    (cs.commitChunk true txnID chunkID).2 = none := by
  unfold commitChunk
  cases hentry : cs.preparedIndex.get chunkID with
  | none => simp [hsome]
  | some entry =>
    obtain ⟨found, hfound⟩ := Option.isSome_iff_exists.mp (h.indexed chunkID entry hentry).2.2
    simp [hfree entry hentry, hfound]

theorem Waits.commitChunk (h : Waits txnID chunkID data cs) : (cs.commitChunk true txnID chunkID).2 = none ∧
      (cs.commitChunk true txnID chunkID).1.files.get chunkID = some data := by
  obtain ⟨entry, hentry, rfl⟩ := h.slot
  have hfile := h.file
  rw [← (h.plain.indexed chunkID entry hentry).1] at hfile
  simp [ChunkService.commitChunk, hentry, hfile, rename, removeFromPreparedIndex]

end Waits

section Prepared

variable {front back : List Call} {before start : ChunkService} {fate : WriteFate} {now : Int}
  {txnID chunkID data expectedChecksum : Bytes} (hids : 95 ∉ chunkID ∧ 95 ∉ txnID)
  (hfront : ∀ call ∈ front, call.Plain) (hbefore : exec (step calculateChecksum) {} front = some before)
  (hprepare : before.prepareChunk calculateChecksum fate now txnID chunkID data expectedChecksum = (start, none))

include hids hfront hbefore hprepare

/-- A transaction is prepared in a run of plain calls. -/
theorem plain_prepared :
    start.Plain ∧ start.preparedIndex.get chunkID = some ⟨txnID, chunkID, tempFileName chunkID txnID, now⟩ ∧
      ∃ content, start.files.get (tempFileName chunkID txnID) = some content := by
  have hout : Outcome calculateChecksum before (.prepare fate now txnID chunkID data expectedChecksum) _ _ :=
    prepareChunk_outcome fate now expectedChecksum
  rw [hprepare] at hout
  exact ⟨hout.plain (plain_run hfront hbefore) hids, hout.prepared⟩

end Prepared

end ChunkService

end Sandstore.Chunk
