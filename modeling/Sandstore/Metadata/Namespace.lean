import Sandstore.Metadata.Replay
import Sandstore.Metadata.Requests

/-!
# The shape of the namespace

A namespace is the two buckets that `Lookup` walks: dentries from a directory and a name to an inode's
key, and the inodes. `Applied` lists what a transaction that succeeds can do. Those that move no dentry are
`Quiet`, and everything about the namespace is proved once for them and once for each of the others.

The first law is that every inode has one name at most. Nothing in the appliers checks it. It holds
because creates bring new numbers, and because a rename takes the old dentry away before it writes the
new one. `SingleLink` is the law and `Grounded` the invariant that carries it: dentries are one to one,
their targets exist, the root is none of them, and every number in either bucket has been seen before.
Which directory a dentry is in plays no part: the law holds of namespaces that are no trees, with
directories renamed into themselves or over the entry of their own parent.
-/

namespace Sandstore.Metadata

open Lib
open Raft (Byte Bytes Err)

/-! ## What a transaction does to it -/

/-- An inode whose attributes have changed, but neither its type nor its link count. -/
structure Inode.SameLinks (inode inode' : Inode) : Prop where
  type : inode'.type = inode.type
  linkCount : inode'.linkCount = inode.linkCount

/-- A command that writes or deletes dentries. -/
def MovesDentries : Command → Prop
  | some ⟨.posixMeta, some op, _⟩ => op.type = .create ∨ op.type = .remove ∨ op.type = .rename
  | _ => False

/-- A transaction that leaves the dentries, and of the inodes changes attributes at most. -/
structure Quiet (st st' : Store) : Prop where
  dentries : st'.dentries = st.dentries
  old : ∀ {key inode'}, st'.inodes.get key = some inode' →
    ∃ inode, st.inodes.get key = some inode ∧ inode.SameLinks inode' ∧ inode'.inodeID = inode.inodeID
  new : ∀ {key inode}, st.inodes.get key = some inode →
    ∃ inode', st'.inodes.get key = some inode' ∧ inode.SameLinks inode'

variable {data : Command} {st st' : Store} {now : Int}

theorem quiet_insert {key : Bytes} {inode inode' : Inode} (hget : st.inodes.get key = some inode)
    (hinodes : st'.inodes = st.inodes.insert key inode') (hdentries : st'.dentries = st.dentries)
    (hsame : inode.SameLinks inode') (hid : inode'.inodeID = inode.inodeID) : Quiet st st' := by
  refine ⟨hdentries, fun {k found} hk => ?_, fun {k found} hk => ?_⟩
  · rw [hinodes, OrdMap.get_insert] at hk
    split at hk
    · next heq =>
      cases hk
      exact ⟨inode, heq ▸ hget, hsame, hid⟩
    · exact ⟨found, hk, ⟨rfl, rfl⟩, rfl⟩
  · rw [hinodes, OrdMap.get_insert]
    split
    · next heq =>
      cases hget.symm.trans (heq ▸ hk)
      exact ⟨inode', rfl, hsame⟩
    · exact ⟨found, hk, rfl, rfl⟩

/-- **Every transaction that moves no dentry is quiet.** -/
theorem Applied.quiet (h : Applied st now data st') (hkeeps : ¬ MovesDentries data) : Quiet st st' := by
  cases h with
  | create _ _ htype => exact absurd (.inl htype) hkeeps
  | remove _ _ htype => exact absurd (.inr (.inl htype)) hkeeps
  | rename _ _ htype => exact absurd (.inr (.inr htype)) hkeeps
  | setAttr _ _ _ _ _ _ hget => exact quiet_insert hget rfl rfl ⟨rfl, rfl⟩ rfl
  | updateInode _ _ _ _ _ _ hget => exact quiet_insert hget rfl rfl ⟨rfl, rfl⟩ rfl
  | intent => exact ⟨rfl, fun hget => ⟨_, hget, ⟨rfl, rfl⟩, rfl⟩, fun hget => ⟨_, hget, rfl, rfl⟩⟩
  | write _ _ _ _ _ _ hget => exact quiet_insert hget rfl rfl ⟨rfl, rfl⟩ rfl

/-! ## Lookups afterwards -/

section Lookups

variable (st : Store) (op : MetadataOperation)

theorem addDentry_inodes (parentKey childKey : Bytes) (parent : Inode) (k : Bytes) :
    (st.addDentry op parentKey childKey parent).inodes.get k =
      if k = parentKey then
        some ({ parent with
          linkCount := if op.fileType = InodeType.directory then parent.linkCount + 1 else parent.linkCount }.touch
            op.timestamp)
      else if k = childKey then some op.newInode else st.inodes.get k := by
  simp only [Store.addDentry, OrdMap.get_insert]
  split_ifs <;> rfl

theorem addDentry_dentries (parentKey childKey : Bytes) (parent : Inode) (k : Bytes) :
    (st.addDentry op parentKey childKey parent).dentries.get k =
      if k = encodeDentryKey parentKey op.name then some childKey else st.dentries.get k := by
  simp only [Store.addDentry, OrdMap.get_insert]
  split_ifs <;> rfl

theorem dropDentry_inodes (parentKey childKey : Bytes) (parent child : Inode) (k : Bytes) :
    (st.dropDentry op parentKey childKey parent child).inodes.get k =
      if k = parentKey then
        some ({ parent with
          linkCount := if child.type = InodeType.directory then parent.linkCount - 1 else parent.linkCount }.touch
            op.timestamp)
      else if k = childKey then none else st.inodes.get k := by
  simp only [Store.dropDentry, OrdMap.get_insert, OrdMap.get_erase]
  split_ifs <;> rfl

theorem dropDentry_dentries (parentKey childKey : Bytes) (parent child : Inode) (k : Bytes) :
    (st.dropDentry op parentKey childKey parent child).dentries.get k =
      if k = encodeDentryKey parentKey op.name then none else st.dentries.get k := by
  simp only [Store.dropDentry, OrdMap.get_erase]
  split_ifs <;> rfl

/-- The entry that a rename writes over. -/
def overwrites (srcParentKey dstParentKey : Bytes) : Option Bytes :=
  (st.dentries.erase (encodeDentryKey srcParentKey op.name)).get (encodeDentryKey dstParentKey op.dstName)

omit st op in
theorem get_overwritten (inodes : Bucket Inode) (overwritten : Option Bytes) (k : Bytes) :
    OrdMap.get (match overwritten with
      | some overwrittenChildKey => inodes.erase overwrittenChildKey
      | none => inodes) k = if overwritten = some k then none else inodes.get k := by
  cases overwritten with
  | none => simp
  | some key =>
    rw [OrdMap.get_erase]
    by_cases hk : k = key
    · simp [hk]
    · rw [if_neg hk, if_neg fun h => hk (Option.some_inj.mp h).symm]

variable {st op} in
theorem get_of_overwrites {srcParentKey dstParentKey overwritten : Bytes}
    (h : overwrites st op srcParentKey dstParentKey = some overwritten) :
    st.dentries.get (encodeDentryKey dstParentKey op.dstName) = some overwritten := by
  rw [overwrites, OrdMap.get_erase] at h
  split at h
  · cases h
  · exact h

theorem moveDentry_inodes (srcParentKey dstParentKey : Bytes) (srcParent dstParent : Inode) (childKey k : Bytes) :
    (st.moveDentry op srcParentKey dstParentKey srcParent dstParent childKey).inodes.get k =
      if k = dstParentKey then some (dstParent.touch op.timestamp)
      else if k = srcParentKey then some (srcParent.touch op.timestamp)
      else if overwrites st op srcParentKey dstParentKey = some k then none else st.inodes.get k := by
  have hover := get_overwritten st.inodes (overwrites st op srcParentKey dstParentKey) k
  by_cases hdst : k = dstParentKey
  · rw [if_pos hdst, hdst]
    exact OrdMap.get_insert_self _ _ _
  · rw [if_neg hdst]
    refine (OrdMap.get_insert_ne _ _ hdst).trans ?_
    by_cases hsrc : k = srcParentKey
    · rw [if_pos hsrc, hsrc]
      exact OrdMap.get_insert_self _ _ _
    · rw [if_neg hsrc, ← hover]
      exact OrdMap.get_insert_ne _ _ hsrc

theorem moveDentry_dentries (srcParentKey dstParentKey : Bytes) (srcParent dstParent : Inode) (childKey k : Bytes) :
    (st.moveDentry op srcParentKey dstParentKey srcParent dstParent childKey).dentries.get k =
      if k = encodeDentryKey dstParentKey op.dstName then some childKey
      else if k = encodeDentryKey srcParentKey op.name then none else st.dentries.get k := by
  simp only [Store.moveDentry, OrdMap.get_insert, OrdMap.get_erase]
  split_ifs <;> rfl

end Lookups

/-! ## Numbers -/

/-- The key of the root inode. -/
def rootKey : Bytes := uint64BE 0

/-- The number that a create carries. -/
def createdNumber : Command → Option Nat
  | some ⟨.posixMeta, some op, _⟩ => if op.type = .create then parseUint op.inodeID else none
  | _ => none

/-- A key whose number is the root's or has been created. -/
def Known (used : List Nat) (key : Bytes) : Prop :=
  key.length = 8 ∧ (uint64OfBE key = 0 ∨ uint64OfBE key ∈ used)

theorem known_rootKey (used : List Nat) : Known used rootKey := ⟨rfl, .inl rfl⟩

variable {key : Bytes}

theorem Known.more {used more : List Nat} (h : Known used key) : Known (used ++ more) key :=
  ⟨h.1, h.2.imp_right (List.mem_append_left _)⟩

theorem createdNumber_key {op : MetadataOperation} (chunkIntent : Option ChunkIntentOperation)
    (htype : op.type = .create) (hkey : encodeInodeKey "child inode id" op.inodeID = .ok key) :
    createdNumber (some ⟨.posixMeta, some op, chunkIntent⟩) = some (uint64OfBE key) ∧ key.length = 8 := by
  have hlength := encodeInodeKey_length hkey
  obtain ⟨n, hn, rfl⟩ := encodeInodeKey_ok hkey
  rw [createdNumber, if_pos htype, hn, uint64OfBE_uint64BE (parseUint_lt hn)]
  exact ⟨rfl, hlength⟩

theorem createdNumber_fresh {used : List Nat} {op : MetadataOperation} {chunkIntent : Option ChunkIntentOperation}
    (htype : op.type = .create) (hkey : encodeInodeKey "child inode id" op.inodeID = .ok key)
    (hnew : ∀ n, createdNumber (some ⟨.posixMeta, some op, chunkIntent⟩) = some n → n ≠ 0 ∧ n ∉ used) :
    createdNumber (some ⟨.posixMeta, some op, chunkIntent⟩) = some (uint64OfBE key) ∧ key.length = 8 ∧
      ¬ Known used key := by
  obtain ⟨hnumber, hlength⟩ := createdNumber_key chunkIntent htype hkey
  obtain ⟨hzero, hunused⟩ := hnew _ hnumber
  exact ⟨hnumber, hlength, fun hk => hk.2.elim hzero hunused⟩

/-- A create that stores this inode under this key, as far as its ID and its type go. -/
def MadeBy (data : Command) (key : Bytes) (inode : Inode) : Prop :=
  ∃ op chunkIntent, data = some ⟨.posixMeta, some op, chunkIntent⟩ ∧ op.type = .create ∧
    encodeInodeKey "inode id" op.inodeID = .ok key ∧ inode.inodeID = op.inodeID ∧ inode.type = op.fileType

theorem MadeBy.number {inode : Inode} (h : MadeBy data key inode) :
    createdNumber data = some (uint64OfBE key) ∧ key.length = 8 := by
  obtain ⟨op, chunkIntent, rfl, htype, hkey, _⟩ := h
  exact createdNumber_key chunkIntent htype (encodeInodeKey_as _ hkey)

/-- An inode has the ID and the type that it was created with. -/
theorem Applied.made (h : Applied st now data st') {inode' : Inode} (hget : st'.inodes.get key = some inode') :
    (∃ inode, st.inodes.get key = some inode ∧ inode'.inodeID = inode.inodeID ∧ inode'.type = inode.type) ∨
      MadeBy data key inode' := by
  by_cases hmoves : MovesDentries data
  · cases h with
    | create op chunkIntent htype parentKey childKey parent hparentKey hchildKey hparent hdir hfree =>
      rw [addDentry_inodes] at hget
      split at hget
      · next hp =>
        cases hget
        exact .inl ⟨parent, hp ▸ hparent, rfl, rfl⟩
      · split at hget
        · next hk =>
          cases hget
          exact .inr ⟨op, chunkIntent, rfl, htype, hk ▸ encodeInodeKey_as _ hchildKey, rfl, rfl⟩
        · exact .inl ⟨inode', hget, rfl, rfl⟩
    | remove op chunkIntent htype parentKey childKey parent child hparentKey hdentry hparent hchild =>
      rw [dropDentry_inodes] at hget
      split at hget
      · next hp =>
        cases hget
        exact .inl ⟨parent, hp ▸ hparent, rfl, rfl⟩
      · split at hget
        · cases hget
        · exact .inl ⟨inode', hget, rfl, rfl⟩
    | rename op chunkIntent htype srcKey dstKey srcParent dstParent childKey hsrcKey hdstKey hsrc hdst hdentry =>
      rw [moveDentry_inodes] at hget
      split_ifs at hget with hd hs hover
      · cases hget
        exact .inl ⟨dstParent, hd ▸ hdst, rfl, rfl⟩
      · cases hget
        exact .inl ⟨srcParent, hs ▸ hsrc, rfl, rfl⟩
      · exact .inl ⟨inode', hget, rfl, rfl⟩
    | setAttr _ _ htype | updateInode _ _ htype => simp [MovesDentries, htype] at hmoves
    | intent | write => cases hmoves
  · obtain ⟨inode, hold, hsame, hid⟩ := (h.quiet hmoves).old hget
    exact .inl ⟨inode, hold, hid, hsame.type⟩

/-! ## One name for each inode -/

/-- The invariant of the namespace. -/
structure Grounded (used : List Nat) (st : Store) : Prop where
  oneToOne : st.dentries.OneToOne
  target : ∀ k c, st.dentries.get k = some c → ∃ inode, st.inodes.get c = some inode
  unrooted : ∀ k, st.dentries.get k ≠ some rootKey
  root : ∃ inode, st.inodes.get rootKey = some inode ∧ inode.type = .directory
  known : ∀ key inode, st.inodes.get key = some inode → Known used key
  parents : ∀ k c, st.dentries.get k = some c → ∃ p name, k = encodeDentryKey p name ∧ Known used p

section Steps

variable {used : List Nat} {st st' : Store} {op : MetadataOperation}

theorem Grounded.more {more : List Nat} (h : Grounded used st) : Grounded (used ++ more) st :=
  { h with
    known := fun k inode hk => (h.known k inode hk).more
    parents := fun k c hk => by
      obtain ⟨p, name, hkey, hp⟩ := h.parents k c hk
      exact ⟨p, name, hkey, hp.more⟩ }

theorem Grounded.quiet (h : Grounded used st) (hq : Quiet st st') : Grounded used st' where
  oneToOne := hq.dentries ▸ h.oneToOne
  target := by
    intro k c hk
    obtain ⟨inode, hget⟩ := h.target k c (hq.dentries ▸ hk)
    obtain ⟨inode', hget', -⟩ := hq.new hget
    exact ⟨inode', hget'⟩
  unrooted := hq.dentries ▸ h.unrooted
  root := by
    obtain ⟨root, hroot, hdir⟩ := h.root
    obtain ⟨root', hroot', hsame⟩ := hq.new hroot
    exact ⟨root', hroot', hsame.type.trans hdir⟩
  known := by
    intro k inode' hk
    obtain ⟨inode, hget, -⟩ := hq.old hk
    exact h.known k inode hget
  parents := hq.dentries ▸ h.parents

variable {childKey : Bytes}

theorem Grounded.create (h : Grounded used st) {parentKey : Bytes} {parent : Inode}
    (hparent : st.inodes.get parentKey = some parent) (hdir : parent.type = .directory)
    (hlength : childKey.length = 8) (hunknown : ¬ Known used childKey) :
    Grounded (used ++ [uint64OfBE childKey]) (st.addDentry op parentKey childKey parent) := by
  have hroot : rootKey ≠ childKey := fun heq => hunknown (heq ▸ known_rootKey used)
  refine ⟨h.oneToOne.insert fun k hk => ?_, ?_, ?_, ?_, ?_, ?_⟩
  · obtain ⟨inode, hget⟩ := h.target k _ hk
    exact absurd (h.known _ inode hget) hunknown
  · intro k c hk
    rw [addDentry_dentries] at hk
    rw [addDentry_inodes]
    split
    · exact ⟨_, rfl⟩
    · split
      · exact ⟨_, rfl⟩
      · next hc =>
        split at hk
        · exact absurd (Option.some_inj.mp hk).symm hc
        · exact h.target k c hk
  · intro k hk
    rw [addDentry_dentries] at hk
    split at hk
    · exact hroot (Option.some_inj.mp hk).symm
    · exact h.unrooted k hk
  · obtain ⟨root, hget, hrootDir⟩ := h.root
    rw [addDentry_inodes, if_neg hroot]
    split
    · exact ⟨_, rfl, hdir⟩
    · exact ⟨root, hget, hrootDir⟩
  · intro k inode hk
    rw [addDentry_inodes] at hk
    split at hk
    · next hkey => exact hkey ▸ (h.known parentKey parent hparent).more
    · split at hk
      · next hkey =>
        subst hkey
        exact ⟨hlength, .inr (List.mem_append_right _ (List.mem_singleton.mpr rfl))⟩
      · exact (h.known k inode hk).more
  · intro k c hk
    rw [addDentry_dentries] at hk
    split at hk
    · next hkey => exact ⟨parentKey, op.name, hkey, (h.known parentKey parent hparent).more⟩
    · obtain ⟨p, name, hkey, hp⟩ := h.parents k c hk
      exact ⟨p, name, hkey, hp.more⟩

theorem Grounded.remove (h : Grounded used st) {parentKey : Bytes} {parent child : Inode}
    (hdentry : st.dentries.get (encodeDentryKey parentKey op.name) = some childKey)
    (hparent : st.inodes.get parentKey = some parent) :
    Grounded used (st.dropDentry op parentKey childKey parent child) := by
  have hroot : rootKey ≠ childKey := fun heq => h.unrooted _ (heq ▸ hdentry)
  have hkept : ∀ k c, (st.dropDentry op parentKey childKey parent child).dentries.get k = some c →
      st.dentries.get k = some c ∧ c ≠ childKey := by
    intro k c hk
    refine ⟨?_, fun heq => h.oneToOne.get_erase_ne hdentry k (heq ▸ hk)⟩
    rw [dropDentry_dentries] at hk
    split at hk
    · cases hk
    · exact hk
  refine ⟨h.oneToOne.erase _, ?_, fun k hk => h.unrooted k (hkept k _ hk).1, ?_, ?_,
    fun k c hk => h.parents k c (hkept k c hk).1⟩
  · intro k c hk
    obtain ⟨hbefore, hne⟩ := hkept k c hk
    rw [dropDentry_inodes, if_neg hne]
    split
    · exact ⟨_, rfl⟩
    · exact h.target k c hbefore
  · obtain ⟨root, hget, hdir⟩ := h.root
    rw [dropDentry_inodes, if_neg hroot]
    split
    · next hkey =>
      rw [← hkey, hget] at hparent
      cases hparent
      exact ⟨_, rfl, hdir⟩
    · exact ⟨root, hget, hdir⟩
  · intro k inode hk
    rw [dropDentry_inodes] at hk
    split at hk
    · next hkey => exact hkey ▸ h.known parentKey parent hparent
    · split at hk
      · cases hk
      · exact h.known k inode hk

theorem Grounded.rename (h : Grounded used st) {srcParentKey dstParentKey : Bytes} {srcParent dstParent : Inode}
    (hsrc : st.inodes.get srcParentKey = some srcParent) (hdst : st.inodes.get dstParentKey = some dstParent)
    (hdentry : st.dentries.get (encodeDentryKey srcParentKey op.name) = some childKey) :
    Grounded used (st.moveDentry op srcParentKey dstParentKey srcParent dstParent childKey) := by
  have hloose := h.oneToOne.get_erase_ne hdentry
  refine ⟨(h.oneToOne.erase _).insert fun k hk => absurd hk (hloose k), ?_, ?_, ?_, ?_, ?_⟩
  · -- a target that is left is neither deleted nor the one that is written over
    have hleft : ∀ c, overwrites st op srcParentKey dstParentKey ≠ some c → (∃ inode, st.inodes.get c = some inode) →
        ∃ inode, (st.moveDentry op srcParentKey dstParentKey srcParent dstParent childKey).inodes.get c =
          some inode := by
      intro c hne hget
      rw [moveDentry_inodes, if_neg hne]
      split
      · exact ⟨_, rfl⟩
      · split
        · exact ⟨_, rfl⟩
        · exact hget
    intro k c hk
    rw [moveDentry_dentries] at hk
    split at hk
    · cases hk
      exact hleft _ (hloose _) (h.target _ _ hdentry)
    · next hdstKey =>
      split at hk
      · cases hk
      · exact hleft c (fun hc => hdstKey (h.oneToOne _ _ c hk (get_of_overwrites hc))) (h.target k c hk)
  · intro k hk
    rw [moveDentry_dentries] at hk
    split at hk
    · exact h.unrooted _ (hdentry.trans hk)
    · split at hk
      · cases hk
      · exact h.unrooted k hk
  · obtain ⟨root, hget, hdir⟩ := h.root
    have hne : overwrites st op srcParentKey dstParentKey ≠ some rootKey :=
      fun hc => h.unrooted _ (get_of_overwrites hc)
    rw [moveDentry_inodes, if_neg hne]
    split
    · next hkey =>
      rw [← hkey, hget] at hdst
      cases hdst
      exact ⟨_, rfl, hdir⟩
    · split
      · next hkey =>
        rw [← hkey, hget] at hsrc
        cases hsrc
        exact ⟨_, rfl, hdir⟩
      · exact ⟨root, hget, hdir⟩
  · intro k inode hk
    rw [moveDentry_inodes] at hk
    split at hk
    · next hkey => exact hkey ▸ h.known dstParentKey dstParent hdst
    · split at hk
      · next hkey => exact hkey ▸ h.known srcParentKey srcParent hsrc
      · split at hk
        · cases hk
        · exact h.known k inode hk
  · intro k c hk
    rw [moveDentry_dentries] at hk
    split at hk
    · next hkey => exact ⟨dstParentKey, op.dstName, hkey, h.known dstParentKey dstParent hdst⟩
    · split at hk
      · cases hk
      · exact h.parents k c hk

/-- **Every transaction keeps the namespace grounded**, if its create is of a new number. -/
theorem Grounded.change {data : Command} (h : Grounded used st) {now : Int} (hc : Applied st now data st')
    (hnew : ∀ n, createdNumber data = some n → n ≠ 0 ∧ n ∉ used) :
    Grounded (used ++ (createdNumber data).toList) st' := by
  by_cases hmoves : MovesDentries data
  · cases hc with
    | create op chunkIntent htype parentKey childKey parent hparentKey hchildKey hparent hdir hfree =>
      obtain ⟨hnumber, hlength, hunknown⟩ := createdNumber_fresh htype hchildKey hnew
      rw [hnumber, Option.toList_some]
      exact h.create hparent hdir hlength hunknown
    | remove op chunkIntent htype parentKey childKey parent child hparentKey hdentry hparent hchild =>
      exact (h.remove hdentry hparent).more
    | rename op chunkIntent htype srcKey dstKey srcParent dstParent childKey hsrcKey hdstKey hsrc hdst hdentry =>
      exact (h.rename hsrc hdst hdentry).more
    | setAttr _ _ htype | updateInode _ _ htype => simp [MovesDentries, htype] at hmoves
    | intent | write => cases hmoves
  · exact (h.quiet (hc.quiet hmoves)).more

end Steps

/-! ## Every sequence of transactions -/

/-- The buckets of a new node, `Recover` having run at the given time. -/
def Store.boot (now : Int) : Store := (Store.recover {} now).2

/-- The buckets after a sequence of `ApplyTransaction` calls, each with what the clock says. -/
def Store.afterAll (st : Store) (calls : List (Int × Command)) : Store :=
  calls.foldl (fun st c => st.after c.1 c.2) st

theorem afterAll_snoc (st : Store) (calls : List (Int × Command)) (call : Int × Command) :
    st.afterAll (calls ++ [call]) = (st.afterAll calls).after call.1 call.2 := by
  rw [Store.afterAll, List.foldl_append]
  rfl

/-- The numbers that a sequence of calls creates. -/
def createdNumbers (calls : List (Int × Command)) : List Nat := calls.filterMap fun c => createdNumber c.2

theorem createdNumbers_append (calls : List (Int × Command)) (call : Int × Command) :
    createdNumbers (calls ++ [call]) = createdNumbers calls ++ (createdNumber call.2).toList := by
  rw [createdNumbers, List.filterMap_append, createdNumbers]
  cases hc : createdNumber call.2 <;> simp [hc]

/-- In a list whose values all differ, a value is none of those before it. -/
theorem filterMap_new {α β : Type} {f : α → Option β} {xs before : List α} {a : α} {b : β}
    (hnodup : (xs.filterMap f).Nodup) (hfront : before ++ [a] <+: xs) (hb : f a = some b) :
    b ∈ xs.filterMap f ∧ b ∉ before.filterMap f := by
  have hsub : (before ++ [a]).filterMap f <+: xs.filterMap f := hfront.filterMap f
  have hlast : (before ++ [a]).filterMap f = before.filterMap f ++ [b] := by simp [hb]
  rw [hlast] at hsub
  obtain ⟨-, -, hdisjoint⟩ := List.nodup_append.mp (hsub.sublist.nodup hnodup)
  exact ⟨hsub.subset (List.mem_append_right _ List.mem_cons_self),
    fun hbefore => hdisjoint b hbefore b List.mem_cons_self rfl⟩

/-- Where the numbers of all calls differ, each call's is none of those before. -/
theorem createdNumbers_new {calls before : List (Int × Command)} {call : Int × Command}
    (hnew : (createdNumbers calls).Nodup) (hroot : 0 ∉ createdNumbers calls) (hfront : before ++ [call] <+: calls) :
    ∀ n, createdNumber call.2 = some n → n ≠ 0 ∧ n ∉ createdNumbers before := by
  intro n hn
  obtain ⟨hmem, hbefore⟩ := filterMap_new hnew hfront hn
  exact ⟨fun hzero => hroot (hzero ▸ hmem), hbefore⟩

/-- The root is the only inode of a new node. -/
theorem boot_inodes {now : Int} {inode : Inode} (hget : (Store.boot now).inodes.get key = some inode) :
    key = rootKey ∧ inode = Store.rootInode now := by
  have hroot : ((∅ : Bucket Inode).insert rootKey (Store.rootInode now)).get key = some inode := hget
  rw [OrdMap.get_insert] at hroot
  split at hroot
  · next hkey => exact ⟨hkey, (Option.some.inj hroot).symm⟩
  · cases hroot

theorem grounded_boot (now : Int) : Grounded [] (Store.boot now) where
  oneToOne := OrdMap.oneToOne_empty
  target := fun _ _ hk => nomatch hk
  unrooted := fun _ hk => nomatch hk
  root := ⟨Store.rootInode now, OrdMap.get_insert_self _ _ _, rfl⟩
  known := by
    intro key inode hk
    exact (boot_inodes hk).1 ▸ known_rootKey []
  parents := fun _ _ hk => nomatch hk

/-- What a call leaves is what it was or what a transaction that succeeds leaves. -/
theorem after_cases (st : Store) (now : Int) (data : Command) :
    st.after now data = st ∨ Applied st now data (st.after now data) := by
  unfold Store.after
  cases h : st.applyTransaction now data with
  | error err => exact .inl rfl
  | ok st' => exact .inr (applyTransaction_applied h)

theorem ok_of_isOk {now : Int} (h : (st.applyTransaction now data).isOk = true) :
    st.applyTransaction now data = .ok (st.after now data) := by
  unfold Store.after
  cases hresult : st.applyTransaction now data with
  | error err =>
    rw [hresult] at h
    cases h
  | ok st' => rfl

theorem after_of_rejected {now : Int}
    (h : ¬ (st.applyTransaction now data).isOk = true) : st.after now data = st := by
  unfold Store.after
  cases hresult : st.applyTransaction now data with
  | error err => rfl
  | ok st' =>
    rw [hresult] at h
    exact absurd rfl h

/-- What every transaction that succeeds keeps, a sequence of calls keeps. -/
theorem afterAll_induct {I : Store → Prop} (h : I st) (calls : List (Int × Command))
    (happlied : ∀ st now data st', I st → (now, data) ∈ calls → Applied st now data st' → I st') :
    I (st.afterAll calls) := by
  refine List.foldlRecOn calls _ h fun st hst c hc => ?_
  rcases after_cases st c.1 c.2 with hsame | hchange
  · rwa [hsame]
  · exact happlied _ _ _ _ hst hc hchange

/-- Every inode is the root or has been made by one of the creates. -/
theorem made_afterAll (now : Int) (calls : List (Int × Command)) {inode : Inode}
    (hget : ((Store.boot now).afterAll calls).inodes.get key = some inode) :
    (key = rootKey ∧ inode.inodeID = [48] ∧ inode.type = .directory) ∨ ∃ c ∈ calls, MadeBy c.2 key inode := by
  refine afterAll_induct (I := fun st => ∀ inode : Inode, st.inodes.get key = some inode →
    (key = rootKey ∧ inode.inodeID = [48] ∧ inode.type = .directory) ∨ ∃ c ∈ calls, MadeBy c.2 key inode)
    (fun inode hboot => ?_) calls (fun st now data st' ih hc happlied inode hget => ?_) inode hget
  · obtain ⟨hkey, rfl⟩ := boot_inodes hboot
    exact .inl ⟨hkey, rfl, rfl⟩
  · rcases happlied.made hget with ⟨old, hold, hid, htype⟩ | hmade
    · simpa only [MadeBy, hid, htype] using ih old hold
    · exact .inr ⟨(now, data), hc, hmade⟩

theorem superblock_afterAll (now : Int) (calls : List (Int × Command)) :
    ((Store.boot now).afterAll calls).superblock = some (Store.superblockAt now) := by
  refine afterAll_induct (I := fun st => st.superblock = some (Store.superblockAt now)) rfl calls ?_
  intro st now data st' hst _ happlied
  cases happlied <;> exact hst

theorem Grounded.after {used : List Nat} (h : Grounded used st) (now : Int)
    (hnew : ∀ n, createdNumber data = some n → n ≠ 0 ∧ n ∉ used) :
    Grounded (used ++ (createdNumber data).toList) (st.after now data) := by
  rcases after_cases st now data with hsame | hchange
  · rw [hsame]
    exact h.more
  · exact h.change hchange hnew

/-- Calls whose creates are all of new numbers keep the namespace grounded. -/
theorem grounded_afterAll (now : Int) (calls : List (Int × Command))
    (hnew : (createdNumbers calls).Nodup) (hroot : 0 ∉ createdNumbers calls) :
    Grounded (createdNumbers calls) ((Store.boot now).afterAll calls) := by
  induction calls using List.reverseRecOn with
  | nil => exact grounded_boot now
  | append_singleton calls c ih =>
    have hfresh := createdNumbers_new hnew hroot List.prefix_rfl
    rw [createdNumbers_append] at hnew hroot ⊢
    have hground := ih (List.nodup_append.mp hnew).1 fun hmem => hroot (List.mem_append_left _ hmem)
    rw [afterAll_snoc]
    exact hground.after c.1 hfresh

/-- Every inode has one name at most, every name leads to an inode, and the root has no name. -/
structure SingleLink (st : Store) : Prop where
  oneName : ∀ k k' c, st.dentries.get k = some c → st.dentries.get k' = some c → k = k'
  target : ∀ k c, st.dentries.get k = some c → ∃ inode, st.inodes.get c = some inode
  unnamedRoot : ∀ k, st.dentries.get k ≠ some rootKey
  root : ∃ inode, st.inodes.get rootKey = some inode ∧ inode.type = .directory
  readDir : ∀ inodeID cookie maxEntries parent name,
    st.readDir inodeID cookie maxEntries ≠ .error (.missingChild parent name)

/-- Where every dentry leads to an inode, the loop of `ReadDir` gets to its end. -/
theorem dirEntries_ok (h : ∀ k c, st.dentries.get k = some c → ∃ inode, st.inodes.get c = some inode)
    (inodeID parentKey : Bytes) : ∃ entries, st.dirEntries inodeID parentKey = .ok entries := by
  unfold Store.dirEntries
  have hmem : ∀ e ∈ Bucket.scan st.dentries parentKey, st.dentries.get e.1 = some e.2 :=
    fun e he => (mem_scan.mp he).1
  generalize Bucket.scan st.dentries parentKey = es at hmem
  induction es with
  | nil => exact ⟨[], rfl⟩
  | cons e es ih =>
    obtain ⟨inode, hinode⟩ := h e.1 e.2 (hmem e List.mem_cons_self)
    obtain ⟨entries, hentries⟩ := ih fun e' he' => hmem e' (List.mem_cons_of_mem _ he')
    refine ⟨⟨e.1.drop parentKey.length, inode.inodeID, inode.type⟩ :: entries, ?_⟩
    rw [List.mapM_cons, hentries, hinode]
    rfl

/-- Where every dentry leads to an inode, `ReadDir` fails only on its directory or by a panic. -/
theorem readDir_error (h : ∀ k c, st.dentries.get k = some c → ∃ inode, st.inodes.get c = some inode)
    {inodeID : Bytes} {cookie maxEntries : Int} {err : Err}
    (herr : st.readDir inodeID cookie maxEntries = .error err) :
    err = .encodeInodeID "parent inode id" inodeID ∨ err = .notFound ∨ err = .notDir ∨ err = .panicked := by
  unfold Store.readDir encodeInodeKey at herr
  split at herr
  · next n hn =>
    simp only [bind, Except.bind, Store.loadStoredInode] at herr
    split at herr
    · next err' hload =>
      split at hload <;> cases hload
      cases herr
      exact .inr (.inl rfl)
    · split at herr
      · cases herr
        exact .inr (.inr (.inl rfl))
      · obtain ⟨entries, hentries⟩ := dirEntries_ok h inodeID (uint64BE n)
        simp only [hentries] at herr
        split at herr
        · cases herr
        · cases herr
          exact .inr (.inr (.inr rfl))
  · cases herr
    exact .inl rfl

/-- **Every inode has one name at most**, after every sequence of `ApplyTransaction` calls whose creates
carry numbers that are new and not the root's. -/
theorem single_link (now : Int) (calls : List (Int × Command)) (hnew : (createdNumbers calls).Nodup)
    (hroot : 0 ∉ createdNumbers calls) : SingleLink ((Store.boot now).afterAll calls) := by
  have h := grounded_afterAll now calls hnew hroot
  refine ⟨h.oneToOne, h.target, h.unrooted, h.root, ?_⟩
  intro inodeID cookie maxEntries parent name herr
  rcases readDir_error h.target herr with heq | heq | heq | heq <;> cases heq

/-- A directory 1 with a directory 2 in it; 2 is renamed over the entry of 1, and then into itself. -/
def knottedCalls : List (Int × Command) :=
  [(0, replicateOp (createOp [49] [48] [97] .directory 0o755 0 0) 1),
    (0, replicateOp (createOp [50] [49] [98] .directory 0o755 0 0) 2),
    (0, replicateOp { type := .rename, parentID := [49], name := [98], dstParentID := [48], dstName := [97] } 3),
    (0, replicateOp { type := .rename, parentID := [48], name := [97], dstParentID := [50], dstName := [99] } 4)]

/-- Directory 2 is its own parent, directory 1 has been deleted and written back without a name, and
the law holds. -/
theorem single_link_knotted :
    SingleLink ((Store.boot 0).afterAll knottedCalls) ∧
      ((Store.boot 0).afterAll knottedCalls).dentries.entries =
        [(encodeDentryKey (uint64BE 2) [99], uint64BE 2)] ∧
      ((Store.boot 0).afterAll knottedCalls).inodes.keys = [uint64BE 0, uint64BE 1, uint64BE 2] :=
  ⟨single_link 0 knottedCalls (by decide +kernel) (by decide +kernel), by decide +kernel, by decide +kernel⟩

end Sandstore.Metadata
