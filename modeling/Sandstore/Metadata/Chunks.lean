import Sandstore.Metadata.Links

/-!
# Chunks without an inode

The chunks of a file are in a bucket of their own, under the number of its inode. Chunk lists are written
only for inodes that are there. Inodes are deleted in two places, by `ApplyRemove` and by an `ApplyRename` that
writes over an entry, and neither of them looks at the chunk map: `deleteChunkList` is called from
`replaceChunkList` alone. What a file leaves behind there no read ever shows, unless its number is given out
again.

**The law** (`chunks_owned_iff`): the chunk map holds chunks of inodes that are there exactly as long as each
inode that is deleted has none. `Drops` says which inode an entry deletes. It is not always the one that
loses its name: a directory that is the parent of the operation too is written back.
-/

namespace Sandstore.Metadata

open Lib
open Raft (Byte Bytes Err)

/-- The entry deletes the inode at a key. -/
def Drops (st : Store) : Command → Bytes → Prop
  | some ⟨.posixMeta, some op, _⟩, key =>
    op.type = .remove ∧ (∃ parentKey, encodeInodeKey "parent inode id" op.parentID = .ok parentKey ∧
      st.dentries.get (encodeDentryKey parentKey op.name) = some key ∧ key ≠ parentKey) ∨
    op.type = .rename ∧ ∃ srcKey dstKey, encodeInodeKey "source parent inode id" op.parentID = .ok srcKey ∧
      encodeInodeKey "destination parent inode id" op.dstParentID = .ok dstKey ∧
      overwrites st op srcKey dstKey = some key ∧ key ≠ srcKey ∧ key ≠ dstKey
  | _, _ => False

/-- The chunk map has chunks of the inode at a key. -/
def HasChunks (st : Store) (key : Bytes) : Prop := ∃ k c, st.chunkMap.get k = some c ∧ k.take 8 = key

/-- Every chunk is of an inode that is there, and a create under a number that is not there makes a file
without chunks. -/
structure ChunksOwned (st : Store) : Prop where
  live : ∀ k c, st.chunkMap.get k = some c → ∃ inode, st.inodes.get (k.take 8) = some inode
  bare : ∀ op now st' key, op.type = .create →
    st.applyTransaction now (some { type := .posixMeta, posixMeta := some op }) = .ok st' →
    encodeInodeKey "inode id" op.inodeID = .ok key → st.inodes.get key = none →
    ∃ inode, st'.getInode op.inodeID = .ok (inode, [])

section Steps

variable {st st' : Store} {now : Int} {data : Command}

/-! ## What one entry does -/

theorem not_drops_of_keeps (h : ¬ MovesDentries data) (key : Bytes) : ¬ Drops st data key := by
  intro hdrops
  unfold Drops at hdrops
  split at hdrops
  · rcases hdrops with ⟨htype, _⟩ | ⟨htype, _⟩
    · exact h (.inr (.inl htype))
    · exact h (.inr (.inr htype))
  · exact hdrops

variable {key : Bytes}

/-- **An inode that was there is gone exactly if the entry drops it.** -/
theorem Applied.gone_iff (hc : Applied st now data st') {inode : Inode}
    (hget : st.inodes.get key = some inode) : st'.inodes.get key = none ↔ Drops st data key := by
  by_cases hmoves : MovesDentries data
  · cases hc with
    | create op chunkIntent htype parentKey childKey parent hparentKey hchildKey hparent hdir hfree =>
      refine iff_of_false (fun hnone => ?_) (by simp [Drops, htype])
      rw [addDentry_inodes, hget] at hnone
      split_ifs at hnone
    | remove op chunkIntent htype parentKey childKey parent child hparentKey hdentry hparent hchild =>
      have hdrops : Drops st (some ⟨.posixMeta, some op, chunkIntent⟩) key ↔ key ≠ parentKey ∧ key = childKey := by
        simp only [Drops, htype, hparentKey, Except.ok.injEq, true_and, reduceCtorEq, false_and, or_false,
          exists_eq_left', hdentry, Option.some_inj]
        exact ⟨fun h => ⟨h.2, h.1.symm⟩, fun h => ⟨h.2.symm, h.1⟩⟩
      rw [dropDentry_inodes, hget, hdrops]
      by_cases hp : key = parentKey <;> by_cases hk : key = childKey <;> simp [hp, hk]
    | rename op chunkIntent htype srcKey dstKey srcParent dstParent childKey hsrcKey hdstKey hsrc hdst hdentry =>
      have hdrops : Drops st (some ⟨.posixMeta, some op, chunkIntent⟩) key ↔
          overwrites st op srcKey dstKey = some key ∧ key ≠ srcKey ∧ key ≠ dstKey := by
        constructor
        · rintro (⟨hremove, _⟩ | ⟨_, src, dst, hsrc', hdst', hover, hne⟩)
          · cases htype.symm.trans hremove
          · cases hsrcKey.symm.trans hsrc'
            cases hdstKey.symm.trans hdst'
            exact ⟨hover, hne⟩
        · exact fun h => .inr ⟨htype, srcKey, dstKey, hsrcKey, hdstKey, h⟩
      rw [moveDentry_inodes, hget, hdrops]
      split_ifs with hd hs ho
      · simp [hd]
      · simp [hs]
      · simp [hd, hs, ho]
      · simp [ho]
    | setAttr _ _ htype | updateInode _ _ htype => simp [MovesDentries, htype] at hmoves
    | intent | write => cases hmoves
  · obtain ⟨inode', hget', -⟩ := (hc.quiet hmoves).new hget
    rw [hget']
    exact iff_of_false (Option.some_ne_none inode') (not_drops_of_keeps hmoves key)

theorem chunkMapAfter_cases (st : Store) (op : MetadataOperation) (key : Bytes) :
    st.chunkMapAfter op key = st.chunkMap ∨
      ∃ chunkList, st.chunkMapAfter op key = replaceChunkList st.chunkMap key chunkList := by
  unfold Store.chunkMapAfter
  split
  · next chunkList _ => exact .inr ⟨chunkList, rfl⟩
  · exact .inl rfl

/-- A transaction leaves the chunk map, or replaces the chunk list of an inode that is there afterwards. -/
theorem applyTransaction_chunkMap (h : st.applyTransaction now data = .ok st') :
    st'.chunkMap = st.chunkMap ∨ ¬ MovesDentries data ∧ ∃ key chunkList, key.length = 8 ∧
      (∃ inode, st'.inodes.get key = some inode) ∧ st'.chunkMap = replaceChunkList st.chunkMap key chunkList := by
  cases applyTransaction_applied h with
  | create => exact .inl rfl
  | remove => exact .inl rfl
  | rename => exact .inl rfl
  | setAttr => exact .inl rfl
  | updateInode op chunkIntent htype key inode hkey =>
    rcases chunkMapAfter_cases st op key with hsame | ⟨chunkList, hreplaced⟩
    · exact .inl hsame
    · exact .inr ⟨by simp [MovesDentries, htype], key, chunkList, encodeInodeKey_length hkey,
        ⟨_, OrdMap.get_insert_self _ _ _⟩, hreplaced⟩
  | intent => exact .inl rfl
  | write op intent htype key inode hkey =>
    rcases chunkMapAfter_cases st op key with hsame | ⟨chunkList, hreplaced⟩
    · exact .inl hsame
    · exact .inr ⟨id, key, chunkList, encodeInodeKey_length hkey, ⟨_, OrdMap.get_insert_self _ _ _⟩, hreplaced⟩

/-- Where a chunk is after a chunk list has been replaced. -/
theorem get_replaceChunkList_cases {chunkMap : Bucket ChunkDescriptor} {k : Bytes}
    {chunkList : List ChunkDescriptor} {c : ChunkDescriptor}
    (h : (replaceChunkList chunkMap key chunkList).get k = some c) : key <+: k ∨ chunkMap.get k = some c := by
  by_cases hfront : key <+: k
  · exact .inl hfront
  · exact .inr (get_replace_other chunkMap chunkList hfront ▸ h)

/-! ## Ownership -/

theorem take_eq_of_front {k : Bytes} (hlength : key.length = 8) (h : key <+: k) : k.take 8 = key := by
  obtain ⟨rest, rfl⟩ := h
  rw [← hlength, List.take_left]

/-- Where every chunk is of an inode that is there, the chunk list of a new number is empty. -/
theorem bare_of_live (h : ∀ k c, st.chunkMap.get k = some c → ∃ inode, st.inodes.get (k.take 8) = some inode)
    {op : MetadataOperation} (htype : op.type = .create)
    (hok : st.applyTransaction now (some { type := .posixMeta, posixMeta := some op }) = .ok st')
    (hkey : encodeInodeKey "inode id" op.inodeID = .ok key) (hnew : st.inodes.get key = none) :
    ∃ inode, st'.getInode op.inodeID = .ok (inode, []) := by
  simp only [Store.applyTransaction, Store.applyStandardMetadata, htype] at hok
  obtain ⟨parentKey, childKey, parent, _, hchildKey, hparent, _, _, rfl⟩ := applyCreate_ok hok
  cases (encodeInodeKey_as "child inode id" hkey).symm.trans hchildKey
  have hne : key ≠ parentKey := fun heq => Option.some_ne_none _ (hparent.symm.trans (heq ▸ hnew))
  have hscan : Bucket.scan st.chunkMap key = [] := by
    rw [List.eq_nil_iff_forall_not_mem]
    intro e he
    obtain ⟨hget, hfront⟩ := mem_scan.mp he
    obtain ⟨inode, hinode⟩ := h e.1 e.2 hget
    rw [take_eq_of_front (encodeInodeKey_length hkey) hfront, hnew] at hinode
    cases hinode
  have hinode : (st.addDentry op parentKey key parent).loadStoredInode key = .ok op.newInode := by
    apply loadStoredInode_of_get
    rw [addDentry_inodes, if_neg hne, if_pos rfl]
  have hchunks : loadChunkList (st.addDentry op parentKey key parent).chunkMap key = .ok [] := by
    show loadChunkList st.chunkMap key = .ok []
    rw [loadChunkList, hscan]
    rfl
  refine ⟨op.newInode, ?_⟩
  simp only [Store.getInode, hkey, bind, Except.bind, hinode, hchunks]
  rfl

theorem chunksOwned_iff_live : ChunksOwned st ↔
    ∀ k c, st.chunkMap.get k = some c → ∃ inode, st.inodes.get (k.take 8) = some inode :=
  ⟨ChunksOwned.live, fun h => ⟨h, fun _ _ _ _ htype hok hkey hnew => bare_of_live h htype hok hkey hnew⟩⟩

/-- **An entry keeps chunks owned exactly if it drops no inode that has some.** -/
theorem ChunksOwned.step_iff (h : ChunksOwned st) (hok : st.applyTransaction now data = .ok st') :
    ChunksOwned st' ↔ ∀ key, Drops st data key → ¬ HasChunks st key := by
  have hchange := applyTransaction_applied hok
  rw [chunksOwned_iff_live]
  constructor
  · rintro hlive key hdrops ⟨k, c, hget, rfl⟩
    obtain ⟨inode, hinode⟩ := h.live k c hget
    have hgone := (hchange.gone_iff hinode).mpr hdrops
    have hsame : st'.chunkMap = st.chunkMap := by
      rcases applyTransaction_chunkMap hok with hsame | ⟨hkeeps, _⟩
      · exact hsame
      · exact absurd hdrops (not_drops_of_keeps hkeeps _)
    obtain ⟨inode', hinode'⟩ := hlive k c (hsame ▸ hget)
    rw [hgone] at hinode'
    cases hinode'
  · intro hspared k c hget
    -- a chunk that was there before is still of an inode that is there
    have hold : st.chunkMap.get k = some c → ∃ inode, st'.inodes.get (k.take 8) = some inode := by
      intro hbefore
      obtain ⟨inode, hinode⟩ := h.live k c hbefore
      cases hafter : st'.inodes.get (k.take 8) with
      | some inode' => exact ⟨inode', rfl⟩
      | none => exact absurd ⟨k, c, hbefore, rfl⟩ (hspared _ ((hchange.gone_iff hinode).mp hafter))
    rcases applyTransaction_chunkMap hok with hsame | ⟨_, key, chunkList, hlength, hinode, hreplaced⟩
    · exact hold (hsame ▸ hget)
    · rw [hreplaced] at hget
      rcases get_replaceChunkList_cases hget with hfront | hbefore
      · rw [take_eq_of_front hlength hfront]
        exact hinode
      · exact hold hbefore

end Steps

/-! ## Every run -/

theorem chunksOwned_boot (now : Int) : ChunksOwned (Store.boot now) := by
  rw [chunksOwned_iff_live]
  intro k c hget
  cases hget

/-- **Chunks are of inodes that are there exactly as long as no inode with chunks is deleted.** In every
sequence of `ApplyTransaction` calls after `Recover`: the chunk map holds chunks of inodes that are there in
every state passed, and files created under numbers that are not there start without chunks, if and only if
no call that is accepted removes, or renames something over, an inode that has chunks. -/
theorem chunks_owned_iff (now : Int) (calls : List (Int × Command)) :
    (∀ before, before <+: calls → ChunksOwned ((Store.boot now).afterAll before)) ↔
      ∀ before call, before ++ [call] <+: calls →
        (((Store.boot now).afterAll before).applyTransaction call.1 call.2).isOk = true →
        ∀ key, Drops ((Store.boot now).afterAll before) call.2 key →
          ¬ HasChunks ((Store.boot now).afterAll before) key := by
  constructor
  · intro howned before call hfront hok
    have hbefore := howned before ((List.prefix_append before [call]).trans hfront)
    have hafter := howned (before ++ [call]) hfront
    rw [afterAll_snoc] at hafter
    exact (hbefore.step_iff (ok_of_isOk hok)).mp hafter
  · intro hspared before hfront
    -- the first `before.length` calls, one after the other
    induction before using List.reverseRecOn with
    | nil => exact chunksOwned_boot now
    | append_singleton before call ih =>
      have hbefore := ih ((List.prefix_append before [call]).trans hfront)
      rw [afterAll_snoc]
      by_cases hok : (((Store.boot now).afterAll before).applyTransaction call.1 call.2).isOk = true
      · exact (hbefore.step_iff (ok_of_isOk hok)).mpr (hspared before call hfront hok)
      · rwa [after_of_rejected hok]

/-- A file is written and removed, and another is created under its number. -/
def removedWithChunks : List (Int × Command) :=
  [(0, replicateOp (createOp [49] [48] [102] .file 0o644 0 0) 1),
    (0, replicateOp { type := .updateInode, inodeID := [49], newSize := some 3, newChunkList := some [⟨[99], []⟩] } 2),
    (0, replicateOp (removeOp [48] [102]) 3)]

/-- The chunk of the removed file stays in the map, and the new file has it from the start. -/
theorem removed_chunks_left :
    ¬ ChunksOwned ((Store.boot 0).afterAll removedWithChunks) ∧
      ((((Store.boot 0).afterAll removedWithChunks).after 0
        (replicateOp (createOp [49] [48] [103] .file 0o644 0 0) 4)).getInode [49]).toOption.map (·.2) =
          some [⟨[99], []⟩] := by
  refine ⟨fun howned => ?_, by decide +kernel⟩
  have hchunk : ((Store.boot 0).afterAll removedWithChunks).chunkMap.get (encodeChunkMapKey (uint64BE 1) 0) =
      some ⟨[99], []⟩ := by decide +kernel
  obtain ⟨inode, hinode⟩ := howned.live _ _ hchunk
  have hgone : ((Store.boot 0).afterAll removedWithChunks).inodes.get
      ((encodeChunkMapKey (uint64BE 1) 0).take 8) = none := by decide +kernel
  exact Option.some_ne_none inode (hinode.symm.trans hgone)

end Sandstore.Metadata
