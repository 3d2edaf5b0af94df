import Sandstore.Orchestrators.Planes

/-!
# What a write reads and what it leaves

`PrepareFileWrite` turns one read of the inode into a plan, and `CommitFileWrite` turns another into a
proposal that names the whole chunk list and the size. Applying the proposal puts both in place of
whatever is there by then: **what is proposed is what is read afterwards** (`getInode_applied`), and what
was there in between does not matter.
-/

namespace Sandstore.Orchestrators

open Lib Metadata
open Raft (Bytes)

/-! ## Plans -/

/-- The targets of a new chunk are as many as the strategy was built with, and that is at least one. -/
theorem selectTargets_ne_nil {view : ClusterView} {strategyCount replicaCount : Int}
    {targets : List ChunkLocation} (h : selectTargets view strategyCount replicaCount = .ok targets) :
    targets ≠ [] := by
  unfold selectTargets at h
  dsimp only at h
  generalize hcount : (if replicaCount ≤ 0 then
    (if strategyCount ≤ 0 then defaultReplicaCount else strategyCount) else replicaCount) = count at h
  have hpos : 0 < count := by
    rw [← hcount]
    split
    · split
      · decide
      · omega
    · omega
  split at h
  · cases h
  · split at h
    · cases h
    · next nodes _ henough =>
      cases h
      refine List.ne_nil_of_length_pos ?_
      rw [List.length_map, List.length_take, List.length_insertionSort]
      omega

/-- The plan of a write, from the inode it has read. -/
structure Plans (cfg : Config) (inode : Inode) (chunkList : List ChunkDescriptor) (offset : Int)
    (newChunkID txnID : Bytes) (ctx : WriteContext) : Prop where
  file : inode.type = .file
  txnID : ctx.txnID = txnID
  chunk : (ctx.isNewChunk = true ∧ (chunkList.length : Int) ≤ offset.tdiv cfg.chunkSize ∧
      ctx.chunkID = newChunkID ∧ ctx.targetNodes ≠ []) ∨
    (ctx.isNewChunk = false ∧ ∃ chunk, chunkAt chunkList (offset.tdiv cfg.chunkSize) = .ok chunk ∧
      ctx.chunkID = chunk.chunkID ∧ ctx.targetNodes = chunk.locations)

variable {ctx : WriteContext}

theorem prepareFileWrite_ok {cfg : Config} {view : ClusterView}
    {getInode : Except Raft.Err (Inode × List ChunkDescriptor)} {offset length : Int} {newChunkID txnID : Bytes}
    (h : prepareFileWrite cfg view getInode offset length newChunkID txnID = .ok ctx) :
    ∃ inode chunkList, getInode = .ok (inode, chunkList) ∧ Plans cfg inode chunkList offset newChunkID txnID ctx := by
  unfold prepareFileWrite at h
  split at h
  · cases h
  split at h
  · cases h
  split at h
  · cases h
  · next inode chunkList =>
    refine ⟨inode, chunkList, rfl, ?_⟩
    split at h
    · cases h
    · next htype =>
      dsimp only at h
      split at h
      · next hnew =>
        obtain ⟨targets, htargets, hctx⟩ := bind_ok h
        cases hctx
        exact ⟨not_not.mp htype, rfl, .inl ⟨rfl, hnew, rfl, selectTargets_ne_nil htargets⟩⟩
      · obtain ⟨chunk, hchunk, hctx⟩ := bind_ok h
        cases hctx
        exact ⟨not_not.mp htype, rfl, .inr ⟨rfl, chunk, hchunk, rfl, rfl⟩⟩

theorem chunkAt_ok {chunkList : List ChunkDescriptor} {chunkIdx : Int} {chunk : ChunkDescriptor}
    (h : chunkAt chunkList chunkIdx = .ok chunk) : 0 ≤ chunkIdx ∧ chunkList[chunkIdx.toNat]? = some chunk := by
  unfold chunkAt at h
  split at h
  · cases h
  · next hneg =>
    split at h
    · next hat =>
      cases h
      exact ⟨by omega, hat⟩
    · cases h

/-! ## Proposals -/

theorem commitFileWrite_ok {getInode : Except Raft.Err (Inode × List ChunkDescriptor)} {newEOF mtime now : Int}
    {envelope : RaftCommandEnvelope} (h : commitFileWrite getInode ctx newEOF mtime now = .ok envelope) :
    ∃ inode chunkList, getInode = .ok (inode, chunkList) ∧
      envelope = commitEnvelope ctx (metaUpdate inode chunkList ctx newEOF mtime) now := by
  unfold commitFileWrite at h
  split at h
  · cases h
  · cases h
    exact ⟨_, _, rfl, rfl⟩

/-- **What is proposed is what is read afterwards.** -/
theorem getInode_applied {st st' : Store} {clock now : Int} {op : MetadataOperation}
    (hop : op.type = .updateInode) {proposed : List ChunkDescriptor}
    (hlist : op.newChunkList = some proposed) (hfits : proposed.length ≤ 2 ^ 64) {inode : Inode}
    {chunkList : List ChunkDescriptor} (hbefore : st.getInode op.inodeID = .ok (inode, chunkList))
    (h : st.applyTransaction clock (some (commitEnvelope ctx op now)) = .ok st') :
    st'.getInode op.inodeID = .ok (inode.write op clock, proposed) := by
  obtain ⟨inodeKey, hkey, hinode, _⟩ := getInode_ok hbefore
  obtain ⟨updated, hupdated, hst⟩ := bind_ok h
  obtain ⟨inodeKey', inode', hkey', hinode', rfl⟩ := applyMetaUpdate_ok hop hupdated
  cases hkey.symm.trans hkey'
  cases hinode.symm.trans hinode'
  cases hst
  have hchunks : st.chunkMapAfter op inodeKey = replaceChunkList st.chunkMap inodeKey proposed := by
    simp [Store.chunkMapAfter, hlist]
  simp only [Store.getInode, hkey, Store.loadStoredInode, OrdMap.get_insert_self, hchunks,
    loadChunkList_replace st.chunkMap inodeKey hfits, bind, Except.bind, pure, Except.pure]

end Sandstore.Orchestrators
