import Sandstore.Server.Sequential

/-!
# Offsets that no file has

`ReadRequest` and `WriteRequest` carry any `int64` for an offset. `PrepareFileRead` and `PrepareFileWrite`
compare the chunk index with the length of the list from above only, and `prepareWritePayload` takes the
remainder for a position in the chunk. Go's division and remainder go towards zero, so a negative offset gives
a negative index or, in front of the first chunk, index zero and a negative position.

What stands in front of this is `isWithinChunkBoundary`. It keeps the end of a write in the chunk of its
beginning, unless the sum wraps around; a sum that does comes out negative and is divided to zero, the index of
the first chunk (`within_cases`).

**The law** (`responds_iff`) says for every request which it is that panics: one for a file that is there, with
an offset a chunk or more below zero; and a write that starts in front of the first chunk or wraps around, once
it has its targets or the bytes of the chunk it goes to.
-/

namespace Sandstore.Server

open Lib Metadata Orchestrators
open Raft (Bytes)

/-! ## Where panics come from -/

theorem bind_error_iff {ε α β : Type} {x : Except ε α} {f : α → Except ε β} {err : ε} :
    (x >>= f) = .error err ↔ x = .error err ∨ ∃ a, x = .ok a ∧ f a = .error err := by
  cases x with
  | error e => simp [bind, Except.bind]
  | ok a => simp [bind, Except.bind]

theorem selectTargets_responds (view : ClusterView) (strategyCount replicaCount : Int) :
    selectTargets view strategyCount replicaCount ≠ .error .panicked := by
  intro h
  unfold selectTargets at h
  dsimp only at h
  generalize (if replicaCount ≤ 0 then if strategyCount ≤ 0 then defaultReplicaCount else strategyCount
    else replicaCount) = count at h
  split at h
  · cases h
  · split at h
    · cases h
    · cases h

theorem executeRead_responds (sendReadRPC : ChunkLocation → Bytes → Option Bytes) (chunkID : Bytes)
    (targets : List ChunkLocation) : executeRead sendReadRPC chunkID targets ≠ .error .panicked := by
  induction targets with
  | nil => exact fun h => by cases h
  | cons target targets ih =>
    rw [executeRead]
    split
    · exact fun h => by cases h
    · exact ih

theorem chunkAt_panics_iff {chunkList : List ChunkDescriptor} {chunkIdx : Int} (h : chunkIdx < chunkList.length) :
    chunkAt chunkList chunkIdx = .error .panicked ↔ chunkIdx < 0 := by
  unfold chunkAt
  split
  · next hneg => exact iff_of_true rfl hneg
  · next hneg =>
    have hin : chunkIdx.toNat < chunkList.length := by omega
    rw [List.getElem?_eq_getElem hin]
    exact iff_of_false (fun h => by cases h) hneg

theorem overlay_panics_iff {existing data : Bytes} {finalLen writeOffset : Int} :
    overlay existing finalLen writeOffset data = .error .panicked ↔
      finalLen < 0 ∨ writeOffset < 0 ∨ finalLen < writeOffset := by
  unfold overlay
  split
  · next hbad => exact iff_of_true rfl hbad
  · next hgood => exact iff_of_false (fun h => by cases h) hgood

/-- The index of an offset is negative from a whole chunk below zero on. -/
theorem tdiv_neg_iff (offset : Int) {chunkSize : Int} (hsize : 0 < chunkSize) :
    offset.tdiv chunkSize < 0 ↔ offset ≤ -chunkSize := by
  rcases Int.le_total 0 offset with hpos | hneg
  · have := Int.tdiv_nonneg hpos (Int.le_of_lt hsize)
    omega
  · obtain ⟨n, rfl⟩ : ∃ n : Int, offset = -n := ⟨-offset, by omega⟩
    have hquot := Int.le_ediv_iff_mul_le (a := 1) (b := n) hsize
    rw [Int.neg_tdiv, Int.tdiv_eq_ediv_of_nonneg (by omega)]
    omega

/-! ## Reading -/

/-- The file is there, and the offset is before its end and a chunk or more below zero. -/
def ReadCrashes (cfg : Config) (getInode : Except Raft.Err (Inode × List ChunkDescriptor)) (offset : Int) : Prop :=
  ∃ inode chunkList, getInode = .ok (inode, chunkList) ∧ offset < inode.fileSize ∧ offset ≤ -cfg.chunkSize

theorem handleRead_panics_iff (cfg : Config) (getInode : Bytes → Except Raft.Err (Inode × List ChunkDescriptor))
    (sendReadRPC : ChunkLocation → Bytes → Option Bytes) (req : ReadRequest) :
    handleRead cfg getInode sendReadRPC req = .error .panicked ↔
      ReadCrashes cfg (getInode req.inodeID) req.offset := by
  have hprepare : handleRead cfg getInode sendReadRPC req = .error .panicked ↔
      prepareFileRead cfg (getInode req.inodeID) req.offset = .error .panicked := by
    unfold handleRead
    split
    · next err herr => rw [herr, Except.error.injEq, Except.error.injEq]
    · next hnone =>
      rw [hnone]
      exact iff_of_false (fun h => by cases h) (fun h => by cases h)
    · next chunk hsome =>
      rw [hsome]
      refine iff_of_false ?_ (fun h => by cases h)
      split
      · exact fun h => by cases h
      · exact executeRead_responds _ _ _
  rw [hprepare]
  unfold prepareFileRead ReadCrashes
  cases getInode req.inodeID with
  | error err => simp
  | ok answer =>
    obtain ⟨inode, chunkList⟩ := answer
    simp only [Except.ok.injEq, Prod.mk.injEq]
    by_cases hend : req.offset ≥ inode.fileSize
    · rw [if_pos hend]
      refine iff_of_false (fun h => by cases h) ?_
      intro ⟨_, _, ⟨hinode, _⟩, hbefore, _⟩
      subst hinode
      omega
    · have hneg := tdiv_neg_iff req.offset cfg.positive
      rw [if_neg hend]
      by_cases hpast : req.offset.tdiv cfg.chunkSize ≥ chunkList.length
      · rw [if_pos hpast]
        refine iff_of_false (fun h => by cases h) ?_
        intro ⟨_, _, _, _, hbelow⟩
        omega
      · rw [if_neg hpast, bind_error_iff, chunkAt_panics_iff (by omega), hneg]
        constructor
        · intro h
          rcases h with hbelow | ⟨_, _, h⟩
          · exact ⟨inode, chunkList, ⟨rfl, rfl⟩, by omega, hbelow⟩
          · cases h
        · intro ⟨_, _, _, _, hbelow⟩
          exact .inl hbelow

/-! ## Writing -/

section Payload

variable {chunkSize offset : Int} {data : Bytes}

/-- A write that passes the check lies in its chunk, or its end wraps around from the first one. -/
theorem within_cases (hsize : 0 < chunkSize) (hlow : 0 ≤ offset) (hhigh : offset < 2 ^ 63)
    (hlength : data.length < 2 ^ 63) (h : isWithinChunkBoundary chunkSize offset data.length = true) :
    offset % chunkSize + data.length ≤ chunkSize ∨
      (offset % chunkSize = offset ∧ 2 ^ 63 < offset + data.length ∧ 2 ^ 64 < offset + data.length + chunkSize) := by
  have hlt := Int.emod_lt_of_pos offset hsize
  unfold isWithinChunkBoundary at h
  split at h
  · exact .inl (by omega)
  · next hsome =>
    have hlast : wrap64 (wrap64 (offset + data.length) - 1) = (offset + data.length - 1).bmod (2 ^ 64) := by
      rw [wrap64, wrap64, Int.bmod_sub_bmod]
    have hsame := of_decide_eq_true h
    rw [hlast, Int.tdiv_eq_ediv_of_nonneg hlow] at hsame
    have hsplit := Int.emod_add_mul_ediv offset chunkSize
    by_cases hwraps : offset + data.length - 1 < 2 ^ 63
    · left
      rw [bmod_of_lt (by omega) hwraps, Int.tdiv_eq_ediv_of_nonneg (by omega)] at hsame
      have hend := Int.lt_mul_ediv_self_add (x := offset + data.length - 1) hsize
      rw [← hsame] at hend
      omega
    · right
      have hquot := Int.ediv_nonneg hlow (Int.le_of_lt hsize)
      have hneg := Int.tdiv_nonneg (a := 2 ^ 64 + 1 - (offset + data.length)) (by omega) (Int.le_of_lt hsize)
      have hback : offset + data.length - 1 - 2 ^ 64 = -(2 ^ 64 + 1 - (offset + data.length)) := by omega
      rw [bmod_of_ge (by omega) (by omega), hback, Int.neg_tdiv] at hsame
      have hzero : offset / chunkSize = 0 := by omega
      have hclose := Int.lt_mul_ediv_self_add (x := 2 ^ 64 + 1 - (offset + data.length)) hsize
      have hfirst : (2 ^ 64 + 1 - (offset + data.length)).tdiv chunkSize = 0 := by omega
      rw [← Int.tdiv_eq_ediv_of_nonneg (by omega), hfirst] at hclose
      rw [hzero, Int.mul_zero, Int.add_zero] at hsplit
      exact ⟨hsplit, by omega, by omega⟩

/-- In front of the first chunk the position is negative. -/
theorem tmod_of_neg (hneg : offset < 0) (hnear : -chunkSize < offset) : offset.tmod chunkSize = offset := by
  obtain ⟨n, rfl⟩ : ∃ n : Int, offset = -n := ⟨-offset, by omega⟩
  rw [Int.neg_tmod, Int.tmod_eq_of_lt (by omega) (by omega)]

variable (hsize : 0 < chunkSize) (hhigh : offset < 2 ^ 63) (hlength : data.length < 2 ^ 63)
  (hlarge : chunkSize < 2 ^ 63) (hwithin : isWithinChunkBoundary chunkSize offset data.length = true)
include hsize hhigh hlength hlarge hwithin

/-- The length that `prepareWritePayload` asks for, for an offset that is not negative. -/
theorem requiredLen_cases (hlow : 0 ≤ offset) : offset.tmod chunkSize = offset % chunkSize ∧ 0 ≤ offset % chunkSize ∧
      ((offset % chunkSize + data.length ≤ chunkSize ∧
          wrap64 (offset % chunkSize + data.length) = offset % chunkSize + data.length) ∨
        (chunkSize < offset % chunkSize + data.length ∧ wrap64 (offset % chunkSize + data.length) < 0)) := by
  have hpos := Int.emod_nonneg offset (Int.ne_of_gt hsize)
  refine ⟨Int.tmod_eq_emod_of_nonneg hlow, hpos, ?_⟩
  rcases within_cases hsize hlow hhigh hlength hwithin with hin | ⟨hfirst, hwraps, _⟩
  · exact .inl ⟨hin, bmod_of_lt (by omega) (by omega)⟩
  · right
    rw [hfirst, wrap64, bmod_of_ge (by omega) (by omega)]
    omega

variable (hnear : -chunkSize < offset)
include hnear

theorem new_payload_panics_iff (existing : Bytes) :
    prepareWritePayload chunkSize offset data true existing = .error .panicked ↔
      offset < 0 ∨ chunkSize < offset % chunkSize + data.length := by
  unfold prepareWritePayload
  dsimp only
  rw [if_pos rfl, overlay_panics_iff]
  by_cases hneg : offset < 0
  · rw [tmod_of_neg hneg hnear]
    exact iff_of_true (.inr (.inl hneg)) (.inl hneg)
  · obtain ⟨hmod, hpos, hcases⟩ := requiredLen_cases hsize hhigh hlength hlarge hwithin (Int.not_lt.mp hneg)
    rw [hmod]
    omega

theorem old_payload_panics_iff (existing : Bytes) :
    prepareWritePayload chunkSize offset data false existing = .error .panicked ↔
      offset < 0 ∨ (chunkSize < offset % chunkSize + data.length ∧ existing.length < offset % chunkSize) := by
  unfold prepareWritePayload isFullOverwrite
  dsimp only
  rw [if_neg Bool.false_ne_true]
  by_cases hneg : offset < 0
  · have hfull : ¬ decide (offset = 0 ∧ (data.length : Int) = chunkSize) = true := by
      simp only [decide_eq_true_eq]
      omega
    rw [tmod_of_neg hneg hnear, if_neg hfull, overlay_panics_iff]
    exact iff_of_true (.inr (.inl hneg)) (.inl hneg)
  · obtain ⟨hmod, hpos, hcases⟩ := requiredLen_cases hsize hhigh hlength hlarge hwithin (Int.not_lt.mp hneg)
    rw [hmod]
    split
    · next hfull =>
      have hwhole := of_decide_eq_true hfull
      refine iff_of_false (fun h => by cases h) ?_
      omega
    · rw [overlay_panics_iff]
      split <;> omega

end Payload

/-- The write passes the check and is for a file that is there, and it starts a chunk or more below zero; or it has
the targets of a new chunk, or the bytes of an old one, and does not lie in the chunk. Over an old chunk that
reaches to the position it only loses its end. -/
def WriteCrashes (cfg : Config) (view : ClusterView) (s : Site) (req : WriteRequest) : Prop :=
  isWithinChunkBoundary cfg.chunkSize req.offset req.data.length = true ∧
    ∃ inode chunkList, s.store.getInode req.inodeID = .ok (inode, chunkList) ∧ inode.type = .file ∧
      (req.offset ≤ -cfg.chunkSize ∨
        (chunkList.length ≤ req.offset.tdiv cfg.chunkSize ∧
          (∃ targets, selectTargets view cfg.replicaCount cfg.replicaCount = .ok targets) ∧
          (req.offset < 0 ∨ cfg.chunkSize < req.offset % cfg.chunkSize + req.data.length)) ∨
        ∃ chunk existing, chunkAt chunkList (req.offset.tdiv cfg.chunkSize) = .ok chunk ∧
          executeRead s.sendReadRPC chunk.chunkID chunk.locations = .ok existing ∧
          (req.offset < 0 ∨ (cfg.chunkSize < req.offset % cfg.chunkSize + req.data.length ∧
            existing.length < req.offset % cfg.chunkSize)))

section Write

variable {cfg : Config} {view : ClusterView} {calculateChecksum : Bytes → Bytes} {s : Site} {req : WriteRequest}
  {d : Draw}

theorem readExisting_responds (ctx : WriteContext) : s.readExisting cfg req ctx ≠ .error .panicked := by
  unfold Site.readExisting
  split
  · exact executeRead_responds _ _ _
  · exact fun h => by cases h

/-- A write panics where it is planned or where its payload is made. -/
theorem handleWrite_panics : s.handleWrite cfg view calculateChecksum req d = .error .panicked ↔
    prepareFileWrite cfg view (s.store.getInode req.inodeID) req.offset req.data.length d.newChunkID d.txnID =
        .error .panicked ∨
      ∃ ctx, prepareFileWrite cfg view (s.store.getInode req.inodeID) req.offset req.data.length d.newChunkID d.txnID =
          .ok ctx ∧ ∃ existing, s.readExisting cfg req ctx = .ok existing ∧
          prepareWritePayload cfg.chunkSize req.offset req.data ctx.isNewChunk existing = .error .panicked := by
  unfold Site.handleWrite
  simp only [bind_error_iff]
  constructor
  · intro h
    rcases h with hplan | ⟨ctx, hctx, hread | ⟨existing, hexisting, hpayload | ⟨_, _, hcommit | ⟨_, _, hend⟩⟩⟩⟩
    · exact .inl hplan
    · exact absurd hread (readExisting_responds ctx)
    · exact .inr ⟨ctx, hctx, existing, hexisting, hpayload⟩
    · unfold commitFileWrite at hcommit
      split at hcommit
      · cases hcommit
      · cases hcommit
    · split at hend
      · cases hend
      · cases hend
  · intro h
    rcases h with hplan | ⟨ctx, hctx, existing, hexisting, hpayload⟩
    · exact .inl hplan
    · exact .inr ⟨ctx, hctx, .inr ⟨existing, hexisting, .inl hpayload⟩⟩

section Plan

variable {getInode : Except Raft.Err (Inode × List ChunkDescriptor)} {offset : Int} {length : Nat}
  {newChunkID txnID : Bytes}

/-- What `PrepareFileWrite` answers, once its checks have passed. -/
theorem prepareFileWrite_eq {inode : Inode} {chunkList : List ChunkDescriptor}
    (hwithin : isWithinChunkBoundary cfg.chunkSize offset length = true) (hinode : getInode = .ok (inode, chunkList))
    (htype : inode.type = .file) : prepareFileWrite cfg view getInode offset length newChunkID txnID =
      if offset.tdiv cfg.chunkSize ≥ chunkList.length then
        (selectTargets view cfg.replicaCount cfg.replicaCount).map fun targets => ⟨txnID, newChunkID, targets, true⟩
      else (chunkAt chunkList (offset.tdiv cfg.chunkSize)).map fun chunk =>
        ⟨txnID, chunk.chunkID, chunk.locations, false⟩ := by
  have hnonneg : ¬ (length : Int) < 0 := by omega
  unfold prepareFileWrite
  rw [if_neg hnonneg, if_neg (not_not.mpr hwithin), hinode]
  dsimp only
  rw [if_neg (not_not.mpr htype)]
  rfl

/-- A plan that panics or succeeds has passed the checks. -/
theorem prepareFileWrite_passed {result : Except Orchestrators.Err WriteContext}
    (h : prepareFileWrite cfg view getInode offset length newChunkID txnID = result)
    (hresult : result = .error .panicked ∨ ∃ ctx, result = .ok ctx) :
    isWithinChunkBoundary cfg.chunkSize offset length = true ∧
      ∃ inode chunkList, getInode = .ok (inode, chunkList) ∧ inode.type = .file := by
  have hother : ∀ err, err ≠ Orchestrators.Err.panicked → result ≠ .error err := by
    intro err hne heq
    rcases hresult with hpanicked | ⟨ctx, hok⟩
    · cases hpanicked.symm.trans heq
      exact hne rfl
    · cases hok.symm.trans heq
  unfold prepareFileWrite at h
  split at h
  · exact absurd h.symm (hother _ (by simp))
  split at h
  · exact absurd h.symm (hother _ (by simp))
  · next hwithin =>
    refine ⟨not_not.mp hwithin, ?_⟩
    split at h
    · exact absurd h.symm (hother _ (by simp))
    · next inode chunkList =>
      split at h
      · exact absurd h.symm (hother _ (by simp))
      · next htype => exact ⟨inode, chunkList, rfl, not_not.mp htype⟩

end Plan

/-- An old chunk is read before a payload that panics. -/
theorem readExisting_of_panic {ctx : WriteContext} {existing : Bytes} (hold : ctx.isNewChunk = false)
    (hpanics : prepareWritePayload cfg.chunkSize req.offset req.data false existing = .error .panicked) :
    s.readExisting cfg req ctx = executeRead s.sendReadRPC ctx.chunkID ctx.targetNodes := by
  have hpart : ¬ isFullOverwrite cfg.chunkSize req.offset req.data = true := by
    intro hfull
    unfold prepareWritePayload at hpanics
    dsimp only at hpanics
    rw [if_neg Bool.false_ne_true, if_pos hfull] at hpanics
    cases hpanics
  rw [Site.readExisting, readsFirst, hold, if_pos (by simp [hpart])]

theorem handleWrite_panics_iff (hlarge : cfg.chunkSize < 2 ^ 63) (hhigh : req.offset < 2 ^ 63)
    (hlength : req.data.length < 2 ^ 63) :
    s.handleWrite cfg view calculateChecksum req d = .error .panicked ↔ WriteCrashes cfg view s req := by
  have hbelow := tdiv_neg_iff req.offset cfg.positive
  have hnew := fun hwithin => new_payload_panics_iff cfg.positive hhigh hlength hlarge hwithin
  have hold := fun hwithin => old_payload_panics_iff cfg.positive hhigh hlength hlarge hwithin
  rw [handleWrite_panics]
  constructor
  · intro h
    rcases h with hplan | ⟨ctx, hctx, existing, hexisting, hpayload⟩
    · obtain ⟨hwithin, inode, chunkList, hinode, htype⟩ := prepareFileWrite_passed hplan (.inl rfl)
      refine ⟨hwithin, inode, chunkList, hinode, htype, .inl ?_⟩
      rw [prepareFileWrite_eq hwithin hinode htype] at hplan
      split at hplan
      · cases htargets : selectTargets view cfg.replicaCount cfg.replicaCount with
        | ok targets => rw [htargets] at hplan; cases hplan
        | error err =>
          rw [htargets] at hplan
          cases hplan
          exact absurd htargets (selectTargets_responds _ _ _)
      · next hin =>
        have hlt : req.offset.tdiv cfg.chunkSize < chunkList.length := by omega
        rw [← hbelow, ← chunkAt_panics_iff hlt]
        cases hchunk : chunkAt chunkList (req.offset.tdiv cfg.chunkSize) with
        | ok chunk => rw [hchunk] at hplan; cases hplan
        | error err => rw [hchunk] at hplan; cases hplan; rfl
    · obtain ⟨hwithin, inode, chunkList, hinode, htype⟩ := prepareFileWrite_passed hctx (.inr ⟨ctx, rfl⟩)
      refine ⟨hwithin, inode, chunkList, hinode, htype, .inr ?_⟩
      rw [prepareFileWrite_eq hwithin hinode htype] at hctx
      split at hctx
      · next hpast =>
        left
        cases htargets : selectTargets view cfg.replicaCount cfg.replicaCount with
        | error err => rw [htargets] at hctx; cases hctx
        | ok targets =>
          rw [htargets] at hctx
          cases hctx
          exact ⟨hpast, ⟨targets, rfl⟩, (hnew hwithin (by omega) existing).mp hpayload⟩
      · right
        cases hchunk : chunkAt chunkList (req.offset.tdiv cfg.chunkSize) with
        | error err => rw [hchunk] at hctx; cases hctx
        | ok chunk =>
          rw [hchunk] at hctx
          cases hctx
          have hindex := (chunkAt_ok hchunk).1
          rw [readExisting_of_panic rfl hpayload] at hexisting
          exact ⟨chunk, existing, rfl, hexisting, (hold hwithin (by omega) existing).mp hpayload⟩
  · intro ⟨hwithin, inode, chunkList, hinode, htype, h⟩
    rw [prepareFileWrite_eq hwithin hinode htype]
    rcases h with hfar | ⟨hpast, ⟨targets, htargets⟩, hstrays⟩ | ⟨chunk, existing, hchunk, hread, hstrays⟩
    · left
      have hin : ¬ req.offset.tdiv cfg.chunkSize ≥ chunkList.length := by omega
      rw [if_neg hin, (chunkAt_panics_iff (by omega)).mpr (by omega)]
      rfl
    · right
      have hpayload := (hnew hwithin (by omega) []).mpr hstrays
      rw [if_pos hpast, htargets]
      exact ⟨_, rfl, [], rfl, hpayload⟩
    · right
      obtain ⟨hindex, hat⟩ := chunkAt_ok hchunk
      have hin : ¬ req.offset.tdiv cfg.chunkSize ≥ chunkList.length := by
        have := (List.getElem?_eq_some_iff.mp hat).1
        omega
      have hpayload := (hold hwithin (by omega) existing).mpr hstrays
      rw [if_neg hin, hchunk]
      exact ⟨_, rfl, existing, (readExisting_of_panic rfl hpayload).trans hread, hpayload⟩

end Write

/-- **Which requests get no response.** A read or a write panics exactly if it is one of the above; no read from an
offset that is not negative does, and no such write as long as chunks are not longer than `2 ^ 62`. -/
theorem responds_iff (cfg : Config) (getInode : Bytes → Except Raft.Err (Inode × List ChunkDescriptor))
    (sendReadRPC : ChunkLocation → Bytes → Option Bytes) (read : ReadRequest) (view : ClusterView)
    (calculateChecksum : Bytes → Bytes) (s : Site) (write : WriteRequest) (d : Draw)
    (hlarge : cfg.chunkSize < 2 ^ 63) (hhigh : write.offset < 2 ^ 63) (hlength : write.data.length < 2 ^ 63) :
    (handleRead cfg getInode sendReadRPC read ≠ .error .panicked ↔
        ¬ ReadCrashes cfg (getInode read.inodeID) read.offset) ∧
      (s.handleWrite cfg view calculateChecksum write d ≠ .error .panicked ↔ ¬ WriteCrashes cfg view s write) ∧
      (0 ≤ read.offset → ¬ ReadCrashes cfg (getInode read.inodeID) read.offset) ∧
      (0 ≤ write.offset → cfg.chunkSize ≤ 2 ^ 62 → ¬ WriteCrashes cfg view s write) := by
  have hpositive := cfg.positive
  refine ⟨not_congr (handleRead_panics_iff cfg getInode sendReadRPC read),
    not_congr (handleWrite_panics_iff hlarge hhigh hlength), ?_, ?_⟩
  · intro hlow ⟨_, _, _, _, hbelow⟩
    omega
  · intro hlow hsmall ⟨hwithin, _, _, _, _, h⟩
    have hmod := Int.emod_lt_of_pos write.offset hpositive
    have hin : write.offset % cfg.chunkSize + write.data.length ≤ cfg.chunkSize := by
      rcases within_cases hpositive hlow hhigh hlength hwithin with hin | ⟨hfirst, _, hclose⟩
      · exact hin
      · omega
    rcases h with hbelow | ⟨_, _, hstrays⟩ | ⟨_, _, _, _, hstrays⟩
    · omega
    · omega
    · omega

theorem responds_plain :
    handleRead oneReplica sixBytesInode sixBytesServed ⟨[49], 5, 1⟩ ≠ .error .panicked ∧
      emptyFile.handleWrite oneReplica oneNode id ⟨[49], 5, [7]⟩ ⟨[97], [102], 5⟩ ≠ .error .panicked := by
  obtain ⟨hread, hwrite, hreads, hwrites⟩ := responds_iff oneReplica sixBytesInode sixBytesServed ⟨[49], 5, 1⟩
    oneNode id emptyFile ⟨[49], 5, [7]⟩ ⟨[97], [102], 5⟩ (by decide) (by decide) (by decide)
  exact ⟨hread.mpr (hreads (by decide)), hwrite.mpr (hwrites (by decide) (by decide))⟩

/-- A read a chunk below zero, and writes one byte and a chunk below zero. -/
theorem negative_offsets_panic :
    handleRead oneReplica sixBytesInode sixBytesServed ⟨[49], -4, 1⟩ = .error .panicked ∧
      emptyFile.handleWrite oneReplica oneNode id ⟨[49], -1, [7]⟩ ⟨[97], [102], 5⟩ = .error .panicked ∧
      emptyFile.handleWrite oneReplica oneNode id ⟨[49], -4, []⟩ ⟨[97], [102], 5⟩ = .error .panicked :=
  ⟨rfl, rfl, rfl⟩

end Sandstore.Server
