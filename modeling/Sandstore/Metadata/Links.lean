import Sandstore.Metadata.Namespace

/-!
# Link counts

The link count of a directory should be two more than the number of directories in it, and that of any
other inode one. `ApplyCreate` and `ApplyRemove` keep the parent's count in step with the dentry they
write or delete. `ApplyRename` writes one dentry, deletes one or two, and touches no count.

`childDirs` counts the dentries of a directory that lead to directories, and each change of the namespace
is an equation about it (`childDirs_create`, `childDirs_remove`, `childDirs_rename`). The third one shows
what a rename would have to adjust: nothing, exactly if what it moves between two directories is no
directory, and what it writes over is none (`Accounted.exact_rename_iff`). **The law** (`links_exact_iff`)
is that link counts are exact all along a run exactly if each of its renames is of that kind.
-/

namespace Sandstore.Metadata

open Lib
open Raft (Byte Bytes Err)

/-- Whether there is a directory at a key. -/
def Store.isDir (st : Store) (key : Bytes) : Bool := (st.inodes.get key).any (·.type = .directory)

/-- The number of directories in a directory. -/
def Store.childDirs (st : Store) (key : Bytes) : Nat :=
  st.dentries.count fun k c => key.isPrefixOf k && st.isDir c

/-- Every link count is what the dentries make it. -/
structure LinksExact (st : Store) : Prop where
  file : ∀ key inode, st.inodes.get key = some inode → inode.type ≠ .directory → inode.linkCount = 1
  dir : ∀ key inode, st.inodes.get key = some inode → inode.type = .directory →
    inode.linkCount = 2 + st.childDirs key

variable {st : Store}

theorem linksExact_iff : LinksExact st ↔ ∀ key inode, st.inodes.get key = some inode →
    inode.linkCount = if inode.type = .directory then 2 + (st.childDirs key : Int) else 1 := by
  constructor
  · intro h key inode hget
    split
    · next hdir => exact h.dir key inode hget hdir
    · next hfile => exact h.file key inode hget hfile
  · intro h
    exact ⟨fun key inode hget hfile => by rw [h key inode hget, if_neg hfile],
      fun key inode hget hdir => by rw [h key inode hget, if_pos hdir]⟩

theorem LinksExact.one_le (h : LinksExact st) {key : Bytes} {inode : Inode}
    (hget : st.inodes.get key = some inode) : 1 ≤ inode.linkCount := by
  have := linksExact_iff.mp h key inode hget
  split at this <;> omega

theorem isDir_iff {key : Bytes} :
    st.isDir key = true ↔ ∃ inode, st.inodes.get key = some inode ∧ inode.type = .directory := by
  simp [Store.isDir, Option.any_eq_true]

theorem isDir_of_get {key : Bytes} {inode : Inode} (h : st.inodes.get key = some inode) :
    st.isDir key = decide (inode.type = .directory) := by simp [Store.isDir, h]

/-! ## The conditions -/

/-- Nothing is in the directory at a key. -/
def EmptyAt (st : Store) (key : Bytes) : Prop := ∀ k c, st.dentries.get k = some c → ¬ key <+: k

/-- The key of the inode that an operation names by its parent. -/
def Store.named (st : Store) (op : MetadataOperation) : Option Bytes :=
  (parseUint op.parentID).bind fun parent => st.dentries.get (encodeDentryKey (uint64BE parent) op.name)

/-- A remove is of a file or of an empty directory. -/
def Prunes (st : Store) : Command → Prop
  | some ⟨.posixMeta, some op, _⟩ =>
    op.type = .remove → ∀ childKey ∈ st.named op, st.isDir childKey = true → EmptyAt st childKey
  | _ => True

/-- A rename moves no directory to another parent, and writes over none. -/
def Balanced (st : Store) : Command → Prop
  | some ⟨.posixMeta, some op, _⟩ =>
    op.type = .rename → ∀ src ∈ parseUint op.parentID, ∀ dst ∈ parseUint op.dstParentID,
      (∀ childKey ∈ st.named op, st.isDir childKey = true → uint64BE src = uint64BE dst) ∧
        ∀ overwritten ∈ overwrites st op (uint64BE src) (uint64BE dst), st.isDir overwritten = false
  | _ => True

instance (st : Store) (key : Bytes) : Decidable (EmptyAt st key) :=
  decidable_of_iff (∀ e ∈ st.dentries.entries, ¬ key <+: e.1)
    ⟨fun h k c hk => h (k, c) (OrdMap.get_eq_some_iff.mp hk), fun h e he => h e.1 e.2 (OrdMap.get_eq_some_iff.mpr he)⟩

instance (st : Store) : (data : Command) → Decidable (Prunes st data)
  | some ⟨.posixMeta, some op, _⟩ =>
    inferInstanceAs (Decidable (op.type = .remove → ∀ childKey ∈ st.named op, st.isDir childKey = true →
      EmptyAt st childKey))
  | none | some ⟨.posixMeta, none, _⟩ | some ⟨.chunkIntent, _, _⟩ | some ⟨.other _, _, _⟩ => isTrue trivial

instance (st : Store) : (data : Command) → Decidable (Balanced st data)
  | some ⟨.posixMeta, some op, _⟩ =>
    inferInstanceAs (Decidable (op.type = .rename → ∀ src ∈ parseUint op.parentID,
      ∀ dst ∈ parseUint op.dstParentID,
        (∀ childKey ∈ st.named op, st.isDir childKey = true → uint64BE src = uint64BE dst) ∧
          ∀ overwritten ∈ overwrites st op (uint64BE src) (uint64BE dst), st.isDir overwritten = false))
  | none | some ⟨.posixMeta, none, _⟩ | some ⟨.chunkIntent, _, _⟩ | some ⟨.other _, _, _⟩ => isTrue trivial

/-- What a run keeps as long as link counts are exact: directories are in directories. -/
structure Accounted (used : List Nat) (st : Store) : Prop where
  grounded : Grounded used st
  exact : LinksExact st
  hung : ∀ p name c, p.length = 8 → st.dentries.get (encodeDentryKey p name) = some c →
    st.isDir c = true → st.isDir p = true

/-! ## Dentries of a directory -/

/-- The keys of inodes have one length, so a dentry is in one directory. -/
theorem isPrefixOf_dentry {p q name : Bytes} (hp : p.length = 8) (hq : q.length = 8) :
    p.isPrefixOf (encodeDentryKey q name) = decide (p = q) := by
  rw [Bool.eq_iff_iff, List.isPrefixOf_iff_prefix, decide_eq_true_iff]
  constructor
  · intro h
    exact List.prefix_or_prefix_of_prefix h (List.prefix_append q name) |>.elim
      (fun hpq => hpq.eq_of_length (hp.trans hq.symm)) fun hqp => (hqp.eq_of_length (hq.trans hp.symm)).symm
  · rintro rfl
    exact List.prefix_append p name

theorem dentry_parent {p q name name' : Bytes} (hp : p.length = 8) (hq : q.length = 8)
    (h : encodeDentryKey p name = encodeDentryKey q name') : p = q := List.append_inj_left h (hp.trans hq.symm)

section Steps

variable {used : List Nat} {st st' : Store} {op : MetadataOperation}

variable {key : Bytes}

theorem Grounded.length (h : Grounded used st) {inode : Inode}
    (hget : st.inodes.get key = some inode) : key.length = 8 := (h.known key inode hget).1

theorem Grounded.parent_known (h : Grounded used st) {p name c : Bytes} (hp : p.length = 8)
    (hget : st.dentries.get (encodeDentryKey p name) = some c) : Known used p := by
  obtain ⟨q, name', hkey, hq⟩ := h.parents _ c hget
  rw [dentry_parent hp hq.1 hkey]
  exact hq

theorem Grounded.target_known (h : Grounded used st) {k c : Bytes} (hget : st.dentries.get k = some c) :
    Known used c := by
  obtain ⟨inode, hc⟩ := h.target k c hget
  exact h.known c inode hc

theorem isDir_congr (h : st'.inodes.get key = st.inodes.get key) : st'.isDir key = st.isDir key := by
  rw [Store.isDir, Store.isDir, h]

/-! ## Creating -/

section Create

variable {parentKey childKey : Bytes} {parent : Inode} (hparent : st.inodes.get parentKey = some parent)

include hparent

theorem isDir_create {key : Bytes} (hkey : key ≠ childKey) :
    (st.addDentry op parentKey childKey parent).isDir key = st.isDir key := by
  by_cases hp : key = parentKey
  · subst hp
    rw [isDir_of_get hparent, isDir_of_get (by rw [addDentry_inodes, if_pos rfl])]
    rfl
  · exact isDir_congr (by rw [addDentry_inodes, if_neg hp, if_neg hkey])

theorem childDirs_create (h : Grounded used st)
    (hfree : st.dentries.get (encodeDentryKey parentKey op.name) = none) (hnew : ¬ Known used childKey)
    {key : Bytes} (hkey : key.length = 8) : (st.addDentry op parentKey childKey parent).childDirs key =
      st.childDirs key + if key = parentKey ∧ op.fileType = .directory then 1 else 0 := by
  have hchild : childKey ≠ parentKey := by
    rintro rfl
    exact hnew (h.known _ _ hparent)
  have hchildDir : (st.addDentry op parentKey childKey parent).isDir childKey =
      decide (op.fileType = .directory) := by
    rw [isDir_of_get (by rw [addDentry_inodes, if_neg hchild, if_pos rfl])]
    rfl
  have hdentries : (st.addDentry op parentKey childKey parent).dentries =
      st.dentries.insert (encodeDentryKey parentKey op.name) childKey := rfl
  rw [Store.childDirs, hdentries, OrdMap.count_insert, OrdMap.erase_of_get_none hfree, hchildDir,
    isPrefixOf_dentry hkey (h.length hparent)]
  congr 1
  · apply OrdMap.count_congr
    intro k c hk
    have hc : c ≠ childKey := by
      rintro rfl
      exact hnew (h.target_known hk)
    rw [isDir_create hparent hc]
  · simp

theorem Accounted.create (h : Accounted used st)
    (hdir : parent.type = .directory) (hfree : st.dentries.get (encodeDentryKey parentKey op.name) = none)
    (hlength : childKey.length = 8) (hunknown : ¬ Known used childKey) :
    Accounted (used ++ [uint64OfBE childKey]) (st.addDentry op parentKey childKey parent) := by
  have hground : Grounded (used ++ [uint64OfBE childKey]) (st.addDentry op parentKey childKey parent) :=
    h.grounded.create hparent hdir hlength hunknown
  refine ⟨hground, linksExact_iff.mpr ?_, ?_⟩
  · intro key inode hget
    rw [childDirs_create hparent h.grounded hfree hunknown (hground.length hget)]
    rw [addDentry_inodes] at hget
    split at hget
    · next hkey =>
      cases hget
      have hbefore := h.exact.dir parentKey parent hparent hdir
      simp only [Inode.touch, hkey, hdir, true_and, if_true]
      split <;> omega
    · next hne =>
      rw [if_neg (c := key = parentKey ∧ _) fun hand => hne hand.1]
      split at hget
      · next hkey =>
        cases hget
        have hnone : st.childDirs key = 0 := by
          apply OrdMap.count_eq_zero
          intro k c hk
          obtain ⟨p, name, rfl, hp⟩ := h.grounded.parents k c hk
          have hpc : childKey ≠ p := by
            rintro rfl
            exact hunknown hp
          rw [hkey, isPrefixOf_dentry hlength hp.1, decide_eq_false hpc, Bool.false_and]
        rw [hnone]
        rfl
      · exact linksExact_iff.mp h.exact key inode hget
  · intro p name c hp hget hc
    rw [addDentry_dentries] at hget
    split at hget
    · next hkey =>
      rw [dentry_parent hp (h.grounded.length hparent) hkey]
      rw [isDir_of_get (by rw [addDentry_inodes, if_pos rfl])]
      exact decide_eq_true hdir
    · have hcNe : c ≠ childKey := by
        rintro rfl
        exact hunknown (h.grounded.target_known hget)
      have hpNe : p ≠ childKey := by
        rintro rfl
        exact hunknown (h.grounded.parent_known hp hget)
      rw [isDir_create hparent hcNe] at hc
      rw [isDir_create hparent hpNe]
      exact h.hung p name c hp hget hc

end Create

/-! ## Removing -/

section Remove

variable {parentKey childKey : Bytes} {parent child : Inode} (hparent : st.inodes.get parentKey = some parent)

include hparent

theorem isDir_remove {key : Bytes} (hkey : key = parentKey ∨ key ≠ childKey) :
    (st.dropDentry op parentKey childKey parent child).isDir key = st.isDir key := by
  by_cases hp : key = parentKey
  · subst hp
    rw [isDir_of_get hparent, isDir_of_get (by rw [dropDentry_inodes, if_pos rfl])]
    rfl
  · exact isDir_congr (by rw [dropDentry_inodes, if_neg hp, if_neg (hkey.resolve_left hp)])

variable (hchild : st.inodes.get childKey = some child)
  (hdentry : st.dentries.get (encodeDentryKey parentKey op.name) = some childKey)

include hchild hdentry

theorem childDirs_remove (h : Grounded used st) {key : Bytes} (hkey : key.length = 8) :
    (st.dropDentry op parentKey childKey parent child).childDirs key +
      (if key = parentKey ∧ child.type = .directory then 1 else 0) = st.childDirs key := by
  have hdentries : (st.dropDentry op parentKey childKey parent child).dentries =
      st.dentries.erase (encodeDentryKey parentKey op.name) := rfl
  have hsame : (st.dropDentry op parentKey childKey parent child).childDirs key =
      (st.dentries.erase (encodeDentryKey parentKey op.name)).count fun k c => key.isPrefixOf k && st.isDir c := by
    rw [Store.childDirs, hdentries]
    apply OrdMap.count_congr
    intro k c hk
    have hc : c ≠ childKey := by
      rintro rfl
      exact h.oneToOne.get_erase_ne hdentry k hk
    rw [isDir_remove hparent (.inr hc)]
  rw [hsame, Store.childDirs, st.dentries.count_erase (encodeDentryKey parentKey op.name), hdentry,
    Option.any_some, isPrefixOf_dentry hkey (h.length hparent), isDir_of_get hchild]
  simp

theorem Accounted.remove (h : Accounted used st) (hempty : st.isDir childKey = true → EmptyAt st childKey) :
    Accounted used (st.dropDentry op parentKey childKey parent child) := by
  have hground : Grounded used (st.dropDentry op parentKey childKey parent child) := h.grounded.remove hdentry hparent
  have hlength := h.grounded.length hparent
  have hparentDir : child.type = .directory → parent.type = .directory := by
    intro hdir
    have hp := h.hung parentKey op.name childKey hlength hdentry (isDir_iff.mpr ⟨child, hchild, hdir⟩)
    rw [isDir_of_get hparent] at hp
    exact of_decide_eq_true hp
  refine ⟨hground, linksExact_iff.mpr ?_, ?_⟩
  · intro key inode hget
    have hcount := childDirs_remove hparent hchild hdentry h.grounded (hground.length hget)
    rw [dropDentry_inodes] at hget
    split at hget
    · next hkey =>
      cases hget
      have hbefore := linksExact_iff.mp h.exact parentKey parent hparent
      simp only [hkey, true_and] at hcount ⊢
      by_cases hchildDir : child.type = .directory
      · simp only [Inode.touch, hparentDir hchildDir, hchildDir, if_true] at hbefore hcount ⊢
        omega
      · simp only [Inode.touch, hchildDir, if_false] at hcount ⊢
        rw [hbefore, ← hcount]
        rfl
    · next hne =>
      rw [if_neg fun hand => hne hand.1] at hcount
      split at hget
      · cases hget
      · rw [linksExact_iff.mp h.exact key inode hget, ← hcount]
        rfl
  · intro p name c hp hget hc
    have hcNe : c ≠ childKey := by
      rintro rfl
      exact h.grounded.oneToOne.get_erase_ne hdentry _ hget
    rw [dropDentry_dentries] at hget
    split at hget
    · cases hget
    · rw [isDir_remove hparent (.inr hcNe)] at hc
      have hpDir := h.hung p name c hp hget hc
      have hpNe : p ≠ childKey := by
        rintro rfl
        exact hempty hpDir _ c hget (List.prefix_append p name)
      rw [isDir_remove hparent (.inr hpNe)]
      exact hpDir

end Remove

/-! ## Renaming -/

section Rename

variable {srcParentKey dstParentKey childKey : Bytes} {srcParent dstParent : Inode}
  (hsrc : st.inodes.get srcParentKey = some srcParent) (hdst : st.inodes.get dstParentKey = some dstParent)

include hsrc hdst

theorem isDir_rename {key : Bytes}
    (hkey : key = dstParentKey ∨ key = srcParentKey ∨ overwrites st op srcParentKey dstParentKey ≠ some key) :
    (st.moveDentry op srcParentKey dstParentKey srcParent dstParent childKey).isDir key = st.isDir key := by
  by_cases hd : key = dstParentKey
  · rw [hd, isDir_of_get hdst, isDir_of_get (by rw [moveDentry_inodes, if_pos rfl])]
    rfl
  · by_cases hs : key = srcParentKey
    · rw [hs] at hd ⊢
      rw [isDir_of_get hsrc, isDir_of_get (by rw [moveDentry_inodes, if_neg hd, if_pos rfl])]
      rfl
    · have hover := (hkey.resolve_left hd).resolve_left hs
      exact isDir_congr (by rw [moveDentry_inodes, if_neg hd, if_neg hs, if_neg hover])

variable {st' : Store} (hst : st' = st.moveDentry op srcParentKey dstParentKey srcParent dstParent childKey)

include hst

theorem sameLinks_rename {key : Bytes} {inode' : Inode} (hget : st'.inodes.get key = some inode') :
    ∃ inode, st.inodes.get key = some inode ∧ inode.SameLinks inode' := by
  rw [hst, moveDentry_inodes] at hget
  split at hget
  · next hkey =>
    cases hget
    exact ⟨dstParent, hkey ▸ hdst, rfl, rfl⟩
  · split at hget
    · next hkey =>
      cases hget
      exact ⟨srcParent, hkey ▸ hsrc, rfl, rfl⟩
    · split at hget
      · cases hget
      · exact ⟨inode', hget, rfl, rfl⟩

variable (hdentry : st.dentries.get (encodeDentryKey srcParentKey op.name) = some childKey)

include hdentry

/-- What a rename moves, and what it writes over. -/
theorem childDirs_rename (h : Grounded used st) {key : Bytes} (hkey : key.length = 8) : st'.childDirs key +
        (if key = srcParentKey ∧ st.isDir childKey = true then 1 else 0) +
        (if key = dstParentKey ∧ (overwrites st op srcParentKey dstParentKey).any st.isDir = true then 1 else 0) =
      st.childDirs key + if key = dstParentKey ∧ st.isDir childKey = true then 1 else 0 := by
  have hchild : overwrites st op srcParentKey dstParentKey ≠ some childKey := h.oneToOne.get_erase_ne hdentry _
  have hdentries : st'.dentries = (st.dentries.erase (encodeDentryKey srcParentKey op.name)).insert
      (encodeDentryKey dstParentKey op.dstName) childKey := congrArg Store.dentries hst
  -- the dentries that are neither moved nor written over lead where they led
  have hrest : (((st.dentries.erase (encodeDentryKey srcParentKey op.name)).erase
      (encodeDentryKey dstParentKey op.dstName)).count fun k c => key.isPrefixOf k && st'.isDir c) =
      ((st.dentries.erase (encodeDentryKey srcParentKey op.name)).erase
        (encodeDentryKey dstParentKey op.dstName)).count fun k c => key.isPrefixOf k && st.isDir c := by
    apply OrdMap.count_congr
    intro k c hk
    have hc : overwrites st op srcParentKey dstParentKey ≠ some c := by
      intro hover
      exact (h.oneToOne.erase _).get_erase_ne hover k hk
    rw [hst, isDir_rename hsrc hdst (.inr (.inr hc))]
  have hbefore := st.dentries.count_erase (encodeDentryKey srcParentKey op.name)
    fun k c => key.isPrefixOf k && st.isDir c
  have hover := (st.dentries.erase (encodeDentryKey srcParentKey op.name)).count_erase
    (encodeDentryKey dstParentKey op.dstName) fun k c => key.isPrefixOf k && st.isDir c
  have hany : (overwrites st op srcParentKey dstParentKey).any
      (fun c => decide (key = dstParentKey) && st.isDir c) =
      (decide (key = dstParentKey) && (overwrites st op srcParentKey dstParentKey).any st.isDir) := by
    cases overwrites st op srcParentKey dstParentKey <;> simp
  rw [hdentry, Option.any_some, isPrefixOf_dentry hkey (h.length hsrc)] at hbefore
  rw [isPrefixOf_dentry hkey (h.length hdst)] at hover
  change _ = _ + if (overwrites st op srcParentKey dstParentKey).any _ then 1 else 0 at hover
  rw [hany] at hover
  rw [Store.childDirs, hdentries, OrdMap.count_insert, hrest, hst, isDir_rename hsrc hdst (.inr (.inr hchild)),
    isPrefixOf_dentry hkey (h.length hdst), Store.childDirs, hbefore, hover]
  simp only [Bool.and_eq_true, decide_eq_true_eq]
  omega

/-- **A rename keeps link counts exact if and only if it has none to adjust.** -/
theorem Accounted.exact_rename_iff (h : Accounted used st) : LinksExact st' ↔
      (st.isDir childKey = true → srcParentKey = dstParentKey) ∧
        ∀ overwritten, overwrites st op srcParentKey dstParentKey = some overwritten →
          st.isDir overwritten = false := by
  -- no link count changes, so that of a directory stays right if its number of directories stays
  have hcounts : LinksExact st' ↔ ∀ key, st'.isDir key = true → st'.childDirs key = st.childDirs key := by
    constructor
    · intro hexact key hdir
      obtain ⟨inode', hget, htype⟩ := isDir_iff.mp hdir
      obtain ⟨inode, hbefore, hsame⟩ := sameLinks_rename hsrc hdst hst hget
      have hold := h.exact.dir key inode hbefore (hsame.type ▸ htype)
      have hnew := hexact.dir key inode' hget htype
      rw [hsame.linkCount] at hnew
      omega
    · refine fun hkept => linksExact_iff.mpr fun key inode' hget => ?_
      obtain ⟨inode, hbefore, hsame⟩ := sameLinks_rename hsrc hdst hst hget
      rw [hsame.linkCount, linksExact_iff.mp h.exact key inode hbefore, hsame.type]
      split
      · next hdir => rw [hkept key (isDir_iff.mpr ⟨inode', hget, hsame.type.trans hdir⟩)]
      · rfl
  have hsrcLength := h.grounded.length hsrc
  have hdstLength := h.grounded.length hdst
  rw [hcounts]
  constructor
  · intro hkept
    have hmoved : st.isDir childKey = true → srcParentKey = dstParentKey := by
      intro hchild
      by_contra hne
      have hdir := h.hung srcParentKey op.name childKey hsrcLength hdentry hchild
      have hsame := hkept srcParentKey (hst ▸ (isDir_rename hsrc hdst (.inr (.inl rfl))).trans hdir)
      have hcount := childDirs_rename hsrc hdst hst hdentry h.grounded hsrcLength
      rw [if_pos ⟨rfl, hchild⟩, if_neg fun hand => hne hand.1, if_neg fun hand => hne hand.1] at hcount
      omega
    refine ⟨hmoved, fun overwritten hover => ?_⟩
    by_contra hoverDir
    rw [Bool.not_eq_false] at hoverDir
    have hdir := h.hung dstParentKey op.dstName overwritten hdstLength (get_of_overwrites hover) hoverDir
    have hkeeps := hkept dstParentKey (hst ▸ (isDir_rename hsrc hdst (.inl rfl)).trans hdir)
    have hcount := childDirs_rename hsrc hdst hst hdentry h.grounded hdstLength
    have hsame : (dstParentKey = srcParentKey ∧ st.isDir childKey = true) ↔
        (dstParentKey = dstParentKey ∧ st.isDir childKey = true) :=
      and_congr_left fun hchild => by rw [hmoved hchild]
    rw [if_congr hsame rfl rfl, hover, Option.any_some, if_pos (And.intro rfl hoverDir)] at hcount
    omega
  · rintro ⟨hmoved, hover⟩ key hdir
    obtain ⟨inode', hget, -⟩ := isDir_iff.mp hdir
    obtain ⟨inode, hbefore, -⟩ := sameLinks_rename hsrc hdst hst hget
    have hcount := childDirs_rename hsrc hdst hst hdentry h.grounded (h.grounded.length hbefore)
    have hmove : (key = srcParentKey ∧ st.isDir childKey = true) ↔ (key = dstParentKey ∧ st.isDir childKey = true) :=
      and_congr_left fun hchild => by rw [hmoved hchild]
    have hkept : ¬ (key = dstParentKey ∧ (overwrites st op srcParentKey dstParentKey).any st.isDir = true) := by
      rintro ⟨-, hany⟩
      obtain ⟨overwritten, hc, hdirOver⟩ := (Option.any_eq_true _ _).mp hany
      cases hdirOver.symm.trans (hover overwritten hc)
    rw [if_congr hmove rfl rfl, if_neg hkept] at hcount
    omega

theorem Accounted.rename (h : Accounted used st) (hexact : LinksExact st') : Accounted used st' := by
  obtain ⟨hmoved, hover⟩ := (h.exact_rename_iff hsrc hdst hst hdentry).mp hexact
  subst hst
  refine ⟨h.grounded.rename hsrc hdst hdentry, hexact, ?_⟩
  intro p name c hp hget hc
  rw [moveDentry_dentries] at hget
  split at hget
  · next hkey =>
    cases hget
    have hchild : overwrites st op srcParentKey dstParentKey ≠ some childKey :=
      h.grounded.oneToOne.get_erase_ne hdentry _
    rw [isDir_rename hsrc hdst (.inr (.inr hchild))] at hc
    have hpDst := dentry_parent hp (h.grounded.length hdst) hkey
    rw [isDir_rename hsrc hdst (.inl hpDst), hpDst, ← hmoved hc]
    exact h.hung srcParentKey op.name childKey (h.grounded.length hsrc) hdentry hc
  · next hkey =>
    split at hget
    · cases hget
    · have hcNe : overwrites st op srcParentKey dstParentKey ≠ some c :=
        fun ho => hkey (h.grounded.oneToOne _ _ c hget (get_of_overwrites ho))
      rw [isDir_rename hsrc hdst (.inr (.inr hcNe))] at hc
      have hpDir := h.hung p name c hp hget hc
      have hpNe : overwrites st op srcParentKey dstParentKey ≠ some p := by
        intro ho
        rw [hover p ho] at hpDir
        cases hpDir
      rw [isDir_rename hsrc hdst (.inr (.inr hpNe))]
      exact hpDir

end Rename

/-! ## Attributes -/

theorem Quiet.isDir (hq : Quiet st st') (k : Bytes) : st'.isDir k = st.isDir k := by
  cases hget : st.inodes.get k with
  | some inode =>
    obtain ⟨inode', hget', hsame⟩ := hq.new hget
    rw [isDir_of_get hget, isDir_of_get hget', hsame.type]
  | none =>
    refine isDir_congr ?_
    cases hget' : st'.inodes.get k with
    | none => exact hget.symm
    | some inode' =>
      obtain ⟨inode, hold, -⟩ := hq.old hget'
      cases hget.symm.trans hold

theorem Accounted.quiet (h : Accounted used st) (hq : Quiet st st') : Accounted used st' := by
  have hcount : ∀ k, st'.childDirs k = st.childDirs k := by
    intro k
    rw [Store.childDirs, Store.childDirs, hq.dentries]
    simp only [hq.isDir]
  refine ⟨h.grounded.quiet hq, linksExact_iff.mpr ?_, ?_⟩
  · intro k found' hk
    obtain ⟨found, hbefore, hlinks, -⟩ := hq.old hk
    rw [hlinks.type, hlinks.linkCount, hcount]
    exact linksExact_iff.mp h.exact k found hbefore
  · intro p name c hp hk hc
    rw [hq.dentries] at hk
    rw [hq.isDir] at hc ⊢
    exact h.hung p name c hp hk hc

theorem Accounted.more {more : List Nat} (h : Accounted used st) : Accounted (used ++ more) st :=
  ⟨h.grounded.more, h.exact, h.hung⟩

theorem balanced_of_keeps {data : Command} (h : ¬ MovesDentries data) : Balanced st data := by
  unfold Balanced
  split
  · exact fun hrename => absurd (.inr (.inr hrename)) h
  · trivial

theorem named_of_get {what : String} {parentKey childKey : Bytes}
    (hkey : encodeInodeKey what op.parentID = .ok parentKey)
    (hdentry : st.dentries.get (encodeDentryKey parentKey op.name) = some childKey) :
    st.named op = some childKey := by
  obtain ⟨n, hn, rfl⟩ := encodeInodeKey_ok hkey
  rw [Store.named, hn]
  exact hdentry

/-- A change that is no rename keeps link counts exact, a rename if and only if it is balanced. -/
theorem Accounted.change {data : Command} (h : Accounted used st) {now : Int} (hc : Applied st now data st')
    (hnew : ∀ n, createdNumber data = some n → n ≠ 0 ∧ n ∉ used) (hprunes : Prunes st data) :
    (LinksExact st' ↔ Balanced st data) ∧ (LinksExact st' → Accounted (used ++ (createdNumber data).toList) st') := by
  have hkept : Balanced st data → Accounted (used ++ (createdNumber data).toList) st' →
      (LinksExact st' ↔ Balanced st data) ∧ (LinksExact st' → Accounted (used ++ (createdNumber data).toList) st') :=
    fun hbalanced h' => ⟨iff_of_true h'.exact hbalanced, fun _ => h'⟩
  by_cases hmoves : MovesDentries data
  · cases hc with
    | create op chunkIntent htype parentKey childKey parent hparentKey hchildKey hparent hdir hfree =>
      apply hkept
      · intro hrename
        cases htype.symm.trans hrename
      · obtain ⟨hnumber, hlength, hunknown⟩ := createdNumber_fresh htype hchildKey hnew
        rw [hnumber, Option.toList_some]
        exact h.create hparent hdir hfree hlength hunknown
    | remove op chunkIntent htype parentKey childKey parent child hparentKey hdentry hparent hchild =>
      apply hkept
      · intro hrename
        cases htype.symm.trans hrename
      · have hempty := hprunes htype childKey (named_of_get hparentKey hdentry)
        exact (h.remove hparent hchild hdentry hempty).more
    | rename op chunkIntent htype srcKey dstKey srcParent dstParent childKey hsrcKey hdstKey hsrc hdst hdentry =>
      have hnamed := named_of_get hsrcKey hdentry
      obtain ⟨src, hparsed, rfl⟩ := encodeInodeKey_ok hsrcKey
      obtain ⟨dst, hparsed', rfl⟩ := encodeInodeKey_ok hdstKey
      refine ⟨(h.exact_rename_iff hsrc hdst rfl hdentry).trans ⟨?_, ?_⟩,
        fun hexact => (h.rename hsrc hdst rfl hdentry hexact).more⟩
      · rintro hbalanced - src' hsrc' dst' hdst'
        cases hparsed.symm.trans hsrc'
        cases hparsed'.symm.trans hdst'
        refine ⟨fun childKey' hchild' => ?_, hbalanced.2⟩
        cases hnamed.symm.trans hchild'
        exact hbalanced.1
      · intro hbalanced
        obtain ⟨hmoved, hover⟩ := hbalanced htype src hparsed dst hparsed'
        exact ⟨hmoved childKey hnamed, hover⟩
    | setAttr _ _ htype | updateInode _ _ htype => simp [MovesDentries, htype] at hmoves
    | intent | write => cases hmoves
  · exact hkept (balanced_of_keeps hmoves) (h.quiet (hc.quiet hmoves)).more

end Steps

/-! ## Every run -/

/-- One `ApplyTransaction` that succeeds. -/
def Store.transact (st : Store) (call : Int × Command) : Option Store :=
  (st.applyTransaction call.1 call.2).toOption

theorem transact_applied {st' : Store} {call : Int × Command} (h : st.transact call = some st') :
    Applied st call.1 call.2 st' := by
  unfold Store.transact at h
  cases hc : st.applyTransaction call.1 call.2 with
  | error err =>
    rw [hc] at h
    cases h
  | ok found =>
    rw [hc] at h
    cases h
    exact applyTransaction_applied hc

theorem accounted_boot (now : Int) : Accounted [] (Store.boot now) where
  grounded := grounded_boot now
  exact := by
    refine linksExact_iff.mpr fun key inode hk => ?_
    rw [(boot_inodes hk).2]
    rfl
  hung := fun _ _ _ _ hk => nomatch hk

/-- **Link counts are exact, and so at least 1, all along a run if and only if its renames move no
directory to another parent and write over none.** The run is any sequence of `ApplyTransaction` calls
that succeed, with creates of new numbers and removes of files and empty directories. -/
theorem links_exact_iff (now : Int) {calls : List (Int × Command)} {last : Store}
    (hnew : (createdNumbers calls).Nodup) (hroot : 0 ∉ createdNumbers calls)
    (hprunes : Along Store.transact (fun st c => Prunes st c.2) (Store.boot now) calls)
    (hrun : exec Store.transact (Store.boot now) calls = some last) :
    (∀ front st, front <+: calls → exec Store.transact (Store.boot now) front = some st →
      LinksExact st ∧ ∀ key inode, st.inodes.get key = some inode → 1 ≤ inode.linkCount) ↔
    Along Store.transact (fun st c => Balanced st c.2) (Store.boot now) calls := by
  refine exec_along_iff calls (J := fun before st => Accounted (createdNumbers before) st)
    (accounted_boot now) (fun before st h => ⟨h.exact, fun key inode hget => h.exact.one_le hget⟩) ?_ hrun
  intro before st call st' hfront hbefore h hstep
  rw [createdNumbers_append]
  obtain ⟨hiff, hkeeps⟩ := h.change (transact_applied hstep) (createdNumbers_new hnew hroot hfront)
    (hprunes.at hfront hbefore)
  refine ⟨⟨fun hexact => hiff.mp hexact.1, fun hbalanced => ?_⟩, fun hexact => hkeeps hexact.1⟩
  have hexact := hiff.mpr hbalanced
  exact ⟨hexact, fun key inode hget => hexact.one_le hget⟩

section Demo

/-- Directory 2 in directory 1 gets another name, the file in it moves to the root, and it is removed. -/
def tidyCalls : List (Int × Command) :=
  [(0, replicateOp (createOp [49] [48] [97] .directory 0o755 0 0) 1),
    (0, replicateOp (createOp [50] [49] [98] .directory 0o755 0 0) 2),
    (0, replicateOp (createOp [51] [50] [99] .file 0o644 0 0) 3),
    (0, replicateOp (renameOp [49] [98] [49] [100]) 4),
    (0, replicateOp (renameOp [50] [99] [48] [99]) 5),
    (0, replicateOp (removeOp [49] [100]) 6)]

theorem links_exact_tidy :
    ∃ last, exec Store.transact (Store.boot 0) tidyCalls = some last ∧ LinksExact last ∧
      last.inodes.keys = [uint64BE 0, uint64BE 1, uint64BE 3] := by
  obtain ⟨last, hlast, hkeys⟩ : ∃ last, exec Store.transact (Store.boot 0) tidyCalls = some last ∧
      last.inodes.keys = [uint64BE 0, uint64BE 1, uint64BE 3] := by decide +kernel
  have hlaw := links_exact_iff 0 (by decide +kernel) (by decide +kernel) (by decide +kernel) hlast
  exact ⟨last, hlast, (hlaw.mpr (by decide +kernel) tidyCalls last List.prefix_rfl hlast).1, hkeys⟩

/-- Directories 2 and 3 move from the root into directory 1 and are removed there. -/
def movingCalls : List (Int × Command) :=
  [(0, replicateOp (createOp [49] [48] [97] .directory 0o755 0 0) 1),
    (0, replicateOp (createOp [50] [48] [98] .directory 0o755 0 0) 2),
    (0, replicateOp (createOp [51] [48] [99] .directory 0o755 0 0) 3),
    (0, replicateOp (renameOp [48] [98] [49] [98]) 4),
    (0, replicateOp (renameOp [48] [99] [49] [99]) 5),
    (0, replicateOp (removeOp [49] [98]) 6),
    (0, replicateOp (removeOp [49] [99]) 7)]

/-- The root is left with five links and one directory in it, and directory 1 with none at all. -/
theorem moved_directories_miscounted :
    (createdNumbers movingCalls).Nodup ∧ 0 ∉ createdNumbers movingCalls ∧
      Along Store.transact (fun st c => Prunes st c.2) (Store.boot 0) movingCalls ∧
      ∃ last root dir, exec Store.transact (Store.boot 0) movingCalls = some last ∧
        last.inodes.get rootKey = some root ∧ root.linkCount = 5 ∧ last.childDirs rootKey = 1 ∧
        last.inodes.get (uint64BE 1) = some dir ∧ dir.linkCount = 0 ∧ last.childDirs (uint64BE 1) = 0 ∧
        ¬ LinksExact last := by
  obtain ⟨last, hlast, ⟨root, hroot, hfive, hone⟩, dir, hdir, hisDir, hzero, hnone⟩ : ∃ last,
      exec Store.transact (Store.boot 0) movingCalls = some last ∧
        (∃ root, last.inodes.get rootKey = some root ∧ root.linkCount = 5 ∧ last.childDirs rootKey = 1) ∧
        ∃ dir, last.inodes.get (uint64BE 1) = some dir ∧ dir.type = .directory ∧ dir.linkCount = 0 ∧
          last.childDirs (uint64BE 1) = 0 := by decide +kernel
  refine ⟨by decide +kernel, by decide +kernel, by decide +kernel, last, root, dir, hlast, hroot, hfive, hone,
    hdir, hzero, hnone, fun hexact => ?_⟩
  have hlinks := hexact.one_le hdir
  omega

end Demo

end Sandstore.Metadata
