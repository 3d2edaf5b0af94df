import Sandstore.Lib.Rooted
import Sandstore.Metadata.Links

/-!
# Renames and the tree

The inodes of a node should form a tree: the root reaches every inode, each under one name (`IsTree`, a
`Rooted` hierarchy whose edges are the dentries). `ApplyRename` moves a dentry and deletes the inode that
it writes over. It asks for both parents and for the source, and for nothing else: neither where in the tree
the two places lie, nor what the inode that goes has below it. It does not ask for the new parent's type
either. That is the one thing that `Rename` looks at, on its own node and before the operation is sent.

**The law** (`rename_tree_iff`): a rename that is applied to a tree leaves one exactly if the new parent is
neither what is moved nor below it, and what is written over has no entries. That entries stay in
directories takes the new parent to be one, and no more. Over whole runs of all operations, it takes this of
each rename, and of each remove that what goes has no entries (`tree_run_iff`).
-/

namespace Sandstore.Metadata

open Lib
open Raft (Byte Bytes Err)

/-- The key of the directory that a dentry is in. -/
def homeOf (dentryKey : Bytes) : Bytes := dentryKey.take 8

/-- The dentries are a tree on the inodes, from the root. -/
def IsTree (st : Store) : Prop :=
  Rooted homeOf rootKey (fun key => ∃ inode, st.inodes.get key = some inode) st.dentries.get

/-- Only directories have entries. -/
def InDirs (st : Store) : Prop := ∀ k c, st.dentries.get k = some c → st.isDir (homeOf k) = true

/-- The second inode is the first or below it. -/
def Store.Under (st : Store) (top key : Bytes) : Prop := Below homeOf st.dentries.get top key

/-- No dentry is in the inode at a key. -/
def NoEntries (st : Store) (key : Bytes) : Prop := ∀ k c, st.dentries.get k = some c → homeOf k ≠ key

/-- What it takes for a rename to leave a tree, the parents and the source being at these keys. -/
structure FitsAt (st : Store) (op : MetadataOperation) (srcKey dstKey childKey : Bytes) : Prop where
  apart : ¬ st.Under childKey dstKey
  bare : ∀ o ∈ overwrites st op srcKey dstKey, NoEntries st o

/-- The new parent is neither what is moved nor below it, and what is written over has no entries. -/
def Fits (st : Store) (op : MetadataOperation) : Prop :=
  ∀ src ∈ parseUint op.parentID, ∀ dst ∈ parseUint op.dstParentID, ∀ childKey ∈ st.named op,
    FitsAt st op (uint64BE src) (uint64BE dst) childKey

/-- The new parent is a directory. -/
def IntoDir (st : Store) (op : MetadataOperation) : Prop :=
  ∀ dst ∈ parseUint op.dstParentID, st.isDir (uint64BE dst) = true

instance (st : Store) : Decidable (InDirs st) :=
  decidable_of_iff (∀ e ∈ st.dentries.entries, st.isDir (homeOf e.1) = true)
    ⟨fun h k c hk => h (k, c) (OrdMap.get_eq_some_iff.mp hk), fun h e he => h e.1 e.2 (OrdMap.get_eq_some_iff.mpr he)⟩

instance (st : Store) (key : Bytes) : Decidable (NoEntries st key) :=
  decidable_of_iff (∀ e ∈ st.dentries.entries, homeOf e.1 ≠ key)
    ⟨fun h k c hk => h (k, c) (OrdMap.get_eq_some_iff.mp hk), fun h e he => h e.1 e.2 (OrdMap.get_eq_some_iff.mpr he)⟩

theorem homeOf_dentry {p : Bytes} (hp : p.length = 8) (name : Bytes) : homeOf (encodeDentryKey p name) = p := by
  rw [homeOf, encodeDentryKey, ← hp, List.take_left]

/-! ## Moving a dentry -/

section Move

variable {st : Store} {op : MetadataOperation} {srcKey dstKey childKey : Bytes} {srcParent dstParent : Inode}

theorem overwrites_eq_displaced (st : Store) (op : MetadataOperation) (srcKey dstKey : Bytes) :
    overwrites st op srcKey dstKey =
      displaced st.dentries.get (encodeDentryKey srcKey op.name) (encodeDentryKey dstKey op.dstName) := by
  rw [overwrites, displaced, OrdMap.get_erase]
  split_ifs <;> rfl

theorem moveDentry_nodes (hsrcKey : srcKey.length = 8) (hdstKey : dstKey.length = 8) (v : Bytes) :
    (∃ inode, (st.moveDentry op srcKey dstKey srcParent dstParent childKey).inodes.get v = some inode) ↔
      moveNodes homeOf st.dentries.get (fun key => ∃ inode, st.inodes.get key = some inode)
        (encodeDentryKey srcKey op.name) (encodeDentryKey dstKey op.dstName) v := by
  rw [moveDentry_inodes, moveNodes, homeOf_dentry hsrcKey, homeOf_dentry hdstKey, overwrites_eq_displaced]
  by_cases hdst : v = dstKey
  · simp [hdst]
  · by_cases hsrc : v = srcKey
    · rw [if_neg hdst, if_pos hsrc]
      simp [hsrc]
    · rw [if_neg hdst, if_neg hsrc]
      split
      · next hover => simp [hover, hdst, hsrc]
      · next hover => simp [hover, hdst, hsrc]

/-- A rename that is applied to a tree leaves one exactly if it fits. -/
theorem IsTree.move_iff (h : IsTree st) (hsrcKey : srcKey.length = 8) (hdstKey : dstKey.length = 8)
    (hdst : st.inodes.get dstKey = some dstParent)
    (hdentry : st.dentries.get (encodeDentryKey srcKey op.name) = some childKey) :
    IsTree (st.moveDentry op srcKey dstKey srcParent dstParent childKey) ↔ FitsAt st op srcKey dstKey childKey := by
  have hmove := Rooted.move_iff (K := Bytes) h hdentry
    (show ∃ inode, st.inodes.get (homeOf (encodeDentryKey dstKey op.dstName)) = some inode from
      ⟨dstParent, by rw [homeOf_dentry hdstKey, hdst]⟩)
  rw [← overwrites_eq_displaced, homeOf_dentry hdstKey] at hmove
  have hnodes : (fun v => ∃ inode,
      (st.moveDentry op srcKey dstKey srcParent dstParent childKey).inodes.get v = some inode) =
        moveNodes homeOf st.dentries.get (fun key => ∃ inode, st.inodes.get key = some inode)
          (encodeDentryKey srcKey op.name) (encodeDentryKey dstKey op.dstName) :=
    funext fun v => propext (moveDentry_nodes hsrcKey hdstKey v)
  have hedges : (st.moveDentry op srcKey dstKey srcParent dstParent childKey).dentries.get =
      moveEdge st.dentries.get (encodeDentryKey srcKey op.name) (encodeDentryKey dstKey op.dstName) childKey :=
    funext fun k => moveDentry_dentries st op srcKey dstKey srcParent dstParent childKey k
  rw [IsTree, hnodes, hedges, hmove]
  exact ⟨fun ⟨hapart, hbare⟩ => ⟨hapart, hbare⟩, fun hfits => ⟨hfits.apart, hfits.bare⟩⟩

/-- The entries stay in directories if the new parent is one. -/
theorem InDirs.move_iff (h : InDirs st) (hfits : FitsAt st op srcKey dstKey childKey) (hdstKey : dstKey.length = 8)
    (hsrc : st.inodes.get srcKey = some srcParent) (hdst : st.inodes.get dstKey = some dstParent) :
    InDirs (st.moveDentry op srcKey dstKey srcParent dstParent childKey) ↔ st.isDir dstKey = true := by
  have hhome := homeOf_dentry hdstKey op.dstName
  constructor
  · intro hin
    have hd := hin (encodeDentryKey dstKey op.dstName) childKey (by rw [moveDentry_dentries, if_pos rfl])
    rwa [hhome, isDir_rename hsrc hdst (.inl rfl)] at hd
  · intro hd k c hk
    rw [moveDentry_dentries] at hk
    split at hk
    · next heq => rwa [heq, hhome, isDir_rename hsrc hdst (.inl rfl)]
    · split at hk
      · cases hk
      · rw [isDir_rename hsrc hdst (.inr (.inr fun hover => hfits.bare _ hover k c hk rfl))]
        exact h k c hk

end Move

/-! ## Growing the tree -/

theorem isTree_boot (now : Int) : IsTree (Store.boot now) := by
  refine ⟨⟨Store.rootInode now, OrdMap.get_insert_self _ _ _⟩, ?_, ?_, ?_, ?_⟩
  · exact fun _ _ hk => nomatch hk
  · exact fun _ _ _ hk => nomatch hk
  · exact fun _ hk => nomatch hk
  · rintro v ⟨inode, hv⟩
    rw [(boot_inodes hv).1]

variable {st : Store}

/-- A create with a new number hangs a new inode on the tree. -/
theorem IsTree.create {op : MetadataOperation} {parentKey childKey : Bytes} {parent : Inode}
    (h : IsTree st) (hparentKey : parentKey.length = 8) (hparent : st.inodes.get parentKey = some parent)
    (hfree : st.dentries.get (encodeDentryKey parentKey op.name) = none) (hnew : st.inodes.get childKey = none) :
    IsTree (st.addDentry op parentKey childKey parent) := by
  have hadd := Rooted.add (K := Bytes) h (c := childKey) hfree
    ⟨parent, by rw [homeOf_dentry hparentKey, hparent]⟩ (by simp [hnew])
  have hnodes : (fun v => ∃ inode, (st.addDentry op parentKey childKey parent).inodes.get v = some inode) =
      fun v => v = childKey ∨ ∃ inode, st.inodes.get v = some inode := by
    ext v
    rw [addDentry_inodes]
    by_cases hp : v = parentKey
    · simp [hp, hparent]
    · rw [if_neg hp]
      by_cases hc : v = childKey <;> simp [hc]
  have hedges : (st.addDentry op parentKey childKey parent).dentries.get =
      fun k => if k = encodeDentryKey parentKey op.name then some childKey else st.dentries.get k :=
    funext fun k => addDentry_dentries st op parentKey childKey parent k
  rw [IsTree, hnodes, hedges]
  exact hadd

theorem IsTree.after_create (h : IsTree st) {newID parentInodeID name : Bytes} {fileType : InodeType}
    {mode uid gid n : Nat} {now timestamp : Int} (hn : parseUint newID = some n)
    (hnew : st.inodes.get (uint64BE n) = none) :
    IsTree (st.after now (replicateOp (createOp newID parentInodeID name fileType mode uid gid) timestamp)) := by
  unfold Store.after
  cases happly : st.applyTransaction now
      (replicateOp (createOp newID parentInodeID name fileType mode uid gid) timestamp) with
  | error err => exact h
  | ok st' =>
    obtain ⟨parentKey, childKey, parent, hparentKey, hchildKey, hparent, -, hfree, rfl⟩ := applyCreate_ok happly
    obtain ⟨m, hm, rfl⟩ := encodeInodeKey_ok hchildKey
    cases hn.symm.trans hm
    exact h.create (encodeInodeKey_length hparentKey) hparent hfree hnew

/-! ## What a rename leaves -/

theorem fits_iff {op : MetadataOperation} {srcKey dstKey childKey : Bytes}
    (hsrcKey : encodeInodeKey "source parent inode id" op.parentID = .ok srcKey)
    (hdstKey : encodeInodeKey "destination parent inode id" op.dstParentID = .ok dstKey)
    (hdentry : st.dentries.get (encodeDentryKey srcKey op.name) = some childKey) :
    Fits st op ↔ FitsAt st op srcKey dstKey childKey := by
  have hnamed := named_of_get hsrcKey hdentry
  obtain ⟨src, hsrcID, rfl⟩ := encodeInodeKey_ok hsrcKey
  obtain ⟨dst, hdstID, rfl⟩ := encodeInodeKey_ok hdstKey
  simp only [Fits, hsrcID, hdstID, hnamed, Option.mem_def, Option.some_inj, forall_eq']

/-- A rename that is applied to a tree leaves one exactly if it fits, and keeps entries in directories
exactly if it is into one as well. -/
theorem applyRename_tree_iff {st' : Store} (op : MetadataOperation) (htree : IsTree st)
    (happly : st.applyRename op = .ok st') :
    (IsTree st' ↔ Fits st op) ∧ (InDirs st → (IsTree st' ∧ InDirs st' ↔ Fits st op ∧ IntoDir st op)) := by
  obtain ⟨srcKey, dstKey, srcParent, dstParent, childKey, hsrcKey, hdstKey, hsrc, hdst, hdentry, rfl⟩ :=
    applyRename_ok happly
  have hlength := encodeInodeKey_length hdstKey
  have hmove : IsTree (st.moveDentry op srcKey dstKey srcParent dstParent childKey) ↔ _ :=
    htree.move_iff (encodeInodeKey_length hsrcKey) hlength hdst hdentry
  have hfits := fits_iff hsrcKey hdstKey hdentry
  obtain ⟨dst, hdstID, rfl⟩ := encodeInodeKey_ok hdstKey
  have hinto : IntoDir st op ↔ st.isDir (uint64BE dst) = true := by
    simp only [IntoDir, hdstID, Option.mem_def, Option.some_inj, forall_eq']
  rw [hmove, hfits, hinto]
  exact ⟨Iff.rfl, fun hin => and_congr_right fun h => hin.move_iff h hlength hsrc hdst⟩

/-- The time of a rename plays no part. -/
theorem fits_stamp {op : MetadataOperation} (timestamp : Int) :
    Fits st { op with timestamp := timestamp } ↔ Fits st op := by
  constructor <;> exact fun h src hsrc dst hdst childKey hchild =>
    ⟨(h src hsrc dst hdst childKey hchild).apart, (h src hsrc dst hdst childKey hchild).bare⟩

/-- **A rename that is applied to a tree leaves one exactly if it fits**, and keeps entries in
directories exactly if it is into one as well. -/
theorem rename_tree_iff {st st' : Store} {now timestamp : Int} {srcParentID srcName dstParentID dstName : Bytes}
    (htree : IsTree st) (happly : st.applyTransaction now
      (replicateOp (renameOp srcParentID srcName dstParentID dstName) timestamp) = .ok st') :
    (IsTree st' ↔ Fits st (renameOp srcParentID srcName dstParentID dstName)) ∧
      (InDirs st → (IsTree st' ∧ InDirs st' ↔
        Fits st (renameOp srcParentID srcName dstParentID dstName) ∧
          IntoDir st (renameOp srcParentID srcName dstParentID dstName))) := by
  have h := applyRename_tree_iff { renameOp srcParentID srcName dstParentID dstName with timestamp := timestamp }
    htree happly
  rw [fits_stamp] at h
  exact h

/-! ## Every run -/

theorem IsTree.remove_iff {op : MetadataOperation} {parentKey childKey : Bytes} {parent child : Inode} (h : IsTree st)
    (hparentKey : parentKey.length = 8) (hparent : st.inodes.get parentKey = some parent)
    (hdentry : st.dentries.get (encodeDentryKey parentKey op.name) = some childKey) :
    IsTree (st.dropDentry op parentKey childKey parent child) ↔ NoEntries st childKey := by
  have hne : childKey ≠ parentKey := by
    rintro rfl
    have hloop := Rooted.acyclic (K := Bytes) h hdentry
    rw [homeOf_dentry hparentKey] at hloop
    exact hloop .refl
  have hnodes : (fun v => ∃ inode, (st.dropDentry op parentKey childKey parent child).inodes.get v = some inode) =
      fun v => (∃ inode, st.inodes.get v = some inode) ∧ v ≠ childKey := by
    ext v
    rw [dropDentry_inodes]
    by_cases hp : v = parentKey
    · simp [hp, hparent, hne.symm]
    · rw [if_neg hp]
      by_cases hc : v = childKey <;> simp [hc]
  have hedges : (st.dropDentry op parentKey childKey parent child).dentries.get =
      fun k => if k = encodeDentryKey parentKey op.name then none else st.dentries.get k :=
    funext fun k => dropDentry_dentries st op parentKey childKey parent child k
  rw [IsTree, hnodes, hedges]
  exact Rooted.remove_iff (K := Bytes) h hdentry

theorem IsTree.quiet {st' : Store} (h : IsTree st) (hq : Quiet st st') : IsTree st' := by
  have hnodes : (fun key => ∃ inode, st'.inodes.get key = some inode) =
      fun key => ∃ inode, st.inodes.get key = some inode := by
    ext key
    constructor
    · intro ⟨_, hget⟩
      obtain ⟨inode, hold, _⟩ := hq.old hget
      exact ⟨inode, hold⟩
    · intro ⟨_, hget⟩
      obtain ⟨inode', hnew, _⟩ := hq.new hget
      exact ⟨inode', hnew⟩
  rw [IsTree, hnodes, hq.dentries]
  exact h

/-- A remove is of an inode without entries, and a rename fits. -/
def Shapely (st : Store) : Command → Prop
  | some ⟨.posixMeta, some op, _⟩ =>
    (op.type = .remove → ∀ childKey ∈ st.named op, NoEntries st childKey) ∧ (op.type = .rename → Fits st op)
  | _ => True

theorem shapely_of_keeps {data : Command} (h : ¬ MovesDentries data) : Shapely st data := by
  unfold Shapely
  split
  · exact ⟨fun hremove => absurd (.inr (.inl hremove)) h, fun hrename => absurd (.inr (.inr hrename)) h⟩
  · trivial

theorem IsTree.change {st' : Store} {used : List Nat} {data : Command} {now : Int} (h : IsTree st)
    (hground : Grounded used st) (hc : Applied st now data st')
    (hnew : ∀ n, createdNumber data = some n → n ≠ 0 ∧ n ∉ used) : IsTree st' ↔ Shapely st data := by
  by_cases hmoves : MovesDentries data
  · cases hc with
    | create op chunkIntent htype parentKey childKey parent hparentKey hchildKey hparent hdir hfree =>
      obtain ⟨-, -, hunknown⟩ := createdNumber_fresh htype hchildKey hnew
      have hnone : st.inodes.get childKey = none := by
        cases hget : st.inodes.get childKey with
        | none => rfl
        | some inode => exact absurd (hground.known childKey inode hget) hunknown
      exact iff_of_true (h.create (encodeInodeKey_length hparentKey) hparent hfree hnone) (by simp [Shapely, htype])
    | remove op chunkIntent htype parentKey childKey parent child hparentKey hdentry hparent hchild =>
      rw [h.remove_iff (encodeInodeKey_length hparentKey) hparent hdentry]
      simp [Shapely, htype, named_of_get hparentKey hdentry]
    | rename op chunkIntent htype srcKey dstKey srcParent dstParent childKey hsrcKey hdstKey hsrc hdst hdentry =>
      rw [h.move_iff (encodeInodeKey_length hsrcKey) (encodeInodeKey_length hdstKey) hdst hdentry,
        ← fits_iff hsrcKey hdstKey hdentry]
      simp [Shapely, htype]
    | setAttr _ _ htype | updateInode _ _ htype => simp [MovesDentries, htype] at hmoves
    | intent | write => cases hmoves
  · exact iff_of_true (h.quiet (hc.quiet hmoves)) (shapely_of_keeps hmoves)

/-- **The inodes are a tree all along a run if and only if its removes are of inodes without entries and its
renames fit.** The run is any sequence of `ApplyTransaction` calls that succeed, with creates of new numbers. -/
theorem tree_run_iff (now : Int) {calls : List (Int × Command)} {last : Store}
    (hnew : (createdNumbers calls).Nodup) (hroot : 0 ∉ createdNumbers calls)
    (hrun : exec Store.transact (Store.boot now) calls = some last) :
    (∀ front st, front <+: calls → exec Store.transact (Store.boot now) front = some st → IsTree st) ↔
      Along Store.transact (fun st c => Shapely st c.2) (Store.boot now) calls := by
  refine exec_along_iff calls (J := fun before st => Grounded (createdNumbers before) st ∧ IsTree st)
    ⟨grounded_boot now, isTree_boot now⟩ (fun before st h => h.2) ?_ hrun
  intro before st call st' hfront _ ⟨hground, htree⟩ hstep
  have hfresh := createdNumbers_new hnew hroot hfront
  rw [createdNumbers_append]
  exact ⟨htree.change hground (transact_applied hstep) hfresh,
    fun htree' => ⟨hground.change (transact_applied hstep) hfresh, htree'⟩⟩

theorem tree_run_created :
    ∃ last, exec Store.transact (Store.boot 0) (tidyCalls.take 3) = some last ∧ IsTree last := by
  obtain ⟨last, hlast⟩ := Option.isSome_iff_exists.mp
    (show (exec Store.transact (Store.boot 0) (tidyCalls.take 3)).isSome = true by decide +kernel)
  have hlaw := tree_run_iff 0 (by decide +kernel) (by decide +kernel) hlast
  refine ⟨last, hlast, hlaw.mpr (along_of_mem _ _ fun c hc st => ?_) _ last List.prefix_rfl hlast⟩
  simp only [tidyCalls, List.take, List.mem_cons, List.not_mem_nil, or_false] at hc
  rcases hc with rfl | rfl | rfl <;> simp [Shapely, replicateOp, createOp]

/-! ## Two directories, one in the other -/

/-- Directory 1 is in the root, and directory 2 in directory 1. -/
def nested : Store :=
  ((Store.boot 0).after 0 (replicateOp (createOp [49] [48] [97] .directory 0o755 0 0) 1)).after 0
    (replicateOp (createOp [50] [49] [98] .directory 0o755 0 0) 2)

theorem isTree_nested : IsTree nested := by
  have hone : IsTree ((Store.boot 0).after 0 (replicateOp (createOp [49] [48] [97] .directory 0o755 0 0) 1)) :=
    (isTree_boot 0).after_create (n := 1) rfl rfl
  exact hone.after_create (n := 2) rfl (by decide +kernel)

/-- Directory 2 moves to the root. -/
theorem rename_tree_nested :
    IsTree (nested.after 0 (replicateOp (renameOp [49] [98] [48] [99]) 3)) ∧
      InDirs (nested.after 0 (replicateOp (renameOp [49] [98] [48] [99]) 3)) := by
  refine ((rename_tree_iff isTree_nested (ok_of_isOk (by decide +kernel))).2 (by decide +kernel)).mpr ⟨?_, ?_⟩
  · intro src hsrc dst hdst childKey hchild
    cases hsrc
    cases hdst
    obtain rfl : childKey = uint64BE 2 := Option.some_inj.mp (hchild.symm.trans (by decide +kernel))
    have hbare : NoEntries nested (uint64BE 2) := by decide +kernel
    refine ⟨fun hunder => absurd (Rooted.eq_of_below hbare hunder) (by decide +kernel), ?_⟩
    decide +kernel
  · intro dst hdst
    cases hdst
    decide +kernel

/-- A rename is applied, and what it leaves is no tree. -/
def Breaks (st : Store) (op : MetadataOperation) : Prop :=
  ∃ st', st.applyTransaction 0 (replicateOp op 3) = .ok st' ∧ ¬ IsTree st'

theorem breaks_of_not_fits (htree : IsTree st) {srcParentID srcName dstParentID dstName : Bytes}
    (hok : (st.applyTransaction 0 (replicateOp (renameOp srcParentID srcName dstParentID dstName) 3)).isOk = true)
    (h : ¬ Fits st (renameOp srcParentID srcName dstParentID dstName)) :
    Breaks st (renameOp srcParentID srcName dstParentID dstName) := by
  refine ⟨_, ok_of_isOk hok, fun htree' => h ?_⟩
  have hiff := applyRename_tree_iff { renameOp srcParentID srcName dstParentID dstName with timestamp := 3 } htree
    (ok_of_isOk hok)
  exact (fits_stamp 3).mp (hiff.1.mp htree')

/-- Directory 1 renamed into directory 2, which is in it; and directory 2 renamed over the entry of directory
1, which it is in. -/
theorem renames_break_tree :
    IsTree nested ∧ InDirs nested ∧ Breaks nested (renameOp [48] [97] [50] [99]) ∧
      Breaks nested (renameOp [49] [98] [48] [97]) := by
  refine ⟨isTree_nested, by decide +kernel, breaks_of_not_fits isTree_nested (by decide +kernel) fun hfits => ?_,
    breaks_of_not_fits isTree_nested (by decide +kernel) fun hfits => ?_⟩
  · refine (hfits 0 rfl 2 rfl (uint64BE 1) (by decide +kernel)).apart ?_
    exact .single ⟨encodeDentryKey (uint64BE 1) [98], by decide +kernel, by decide +kernel⟩
  · have hbare := (hfits 1 rfl 0 rfl (uint64BE 2) (by decide +kernel)).bare (uint64BE 1) (by decide +kernel)
    revert hbare
    decide +kernel

end Sandstore.Metadata
