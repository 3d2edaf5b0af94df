import Mathlib.Data.List.Pairwise
import Sandstore.Client.Path
import Sandstore.Metadata.Rmdir

/-!
# What paths reach

A path names an entry by the entries that lead to it. `LookupPath` splits it at its slashes and skips the
pieces that are empty or a dot, and none of the requests asks whether a name could be such a piece: `Create`,
`Mkdir` and `Rename` take any string.

Every inode but the root has one entry, so there is only one chain of entries to it (`chain_unique`),
and what `LookupPath` walks is a chain again. **The law** (`lookupPath_iff`): the path of a chain of entries
leads to the chain's end if and only if none of its names is empty or a dot or has a slash in it.
-/

namespace Sandstore.Client

open Lib Metadata
open Raft (Byte Bytes Err)

/-! ## Histories of requests -/

/-- Transactions that requests have asked for. What a request checks it checks on the buckets as they were at any
times before. -/
inductive Requested (now : Int) : List (Int × Command) → Prop where
  | nil : Requested now []
  | snoc (calls : List (Int × Command)) (h : Requested now calls) (view : Nat → Store)
      (hview : ∀ k, ∃ earlier, earlier <+: calls ∧ view k = (Store.boot now).afterAll earlier) (ask : Ask)
      (newID : Bytes) (op : MetadataOperation) (hcheck : ask.check view newID = .ok op) (clock timestamp : Int) :
      Requested now (calls ++ [(clock, replicateOp op timestamp)])

/-- The root, or what one of the calls creates a directory as. -/
def MadeDir (calls : List (Int × Command)) (key : Bytes) : Prop :=
  key = rootKey ∨ ∃ c ∈ calls, ∃ inode, MadeBy c.2 key inode ∧ inode.type = .directory

section Directories

variable {now : Int} {calls : List (Int × Command)} {key : Bytes}

theorem MadeDir.mono {earlier : List (Int × Command)} (h : MadeDir earlier key) (hsub : earlier ⊆ calls) :
    MadeDir calls key := by
  rcases h with hroot | ⟨c, hc, hmade⟩
  · exact .inl hroot
  · exact .inr ⟨c, hsub hc, hmade⟩

theorem madeDir_of_get {inode : Inode} (hget : ((Store.boot now).afterAll calls).inodes.get key = some inode)
    (hdir : inode.type = .directory) : MadeDir calls key := by
  rcases made_afterAll now calls hget with ⟨hkey, _⟩ | ⟨c, hc, hmade⟩
  · exact .inl hkey
  · exact .inr ⟨c, hc, inode, hmade, hdir⟩

theorem createdNumbers_unique (hnew : (createdNumbers calls).Nodup) {c d : Int × Command} (hc : c ∈ calls)
    (hd : d ∈ calls) {n : Nat} (hcn : createdNumber c.2 = some n) (hdn : createdNumber d.2 = some n) : c = d := by
  by_contra hne
  rw [createdNumbers, List.Nodup, List.pairwise_filterMap] at hnew
  have hsymm : Std.Symm fun a a' : Int × Command =>
      ∀ b, createdNumber a.2 = some b → ∀ b', createdNumber a'.2 = some b' → b ≠ b' :=
    ⟨fun _ _ hapart b hb b' hb' heq => hapart b' hb' b hb heq.symm⟩
  exact hnew.forall hc hd hne n hcn n hdn rfl

/-- What has been made a directory is one as long as it is there. -/
theorem MadeDir.type {inode : Inode} (h : MadeDir calls key) (hnew : (createdNumbers calls).Nodup)
    (hroot : 0 ∉ createdNumbers calls) (hget : ((Store.boot now).afterAll calls).inodes.get key = some inode) :
    inode.type = .directory := by
  rcases made_afterAll now calls hget with ⟨_, _, htype⟩ | ⟨d, hd, hmade⟩
  · exact htype
  rcases h with rfl | ⟨c, hc, inode', hmade', hdir⟩
  · exact absurd (List.mem_filterMap.mpr ⟨d, hd, hmade.number.1⟩) hroot
  · obtain rfl := createdNumbers_unique hnew hc hd hmade'.number.1 hmade.number.1
    obtain ⟨op, _, hdata, _, _, _, htype⟩ := hmade
    obtain ⟨op', _, hdata', _, _, _, htype'⟩ := hmade'
    rw [hdata] at hdata'
    cases hdata'
    rw [htype, ← htype', hdir]

/-- A rename goes to what was a directory when it was asked for. -/
theorem Ask.check_rename {view : Nat → Store} {ask : Ask} {newID : Bytes} {op : MetadataOperation}
    (hview : ∀ k, ∃ earlier, earlier <+: calls ∧ view k = (Store.boot now).afterAll earlier)
    (hcheck : ask.check view newID = .ok op) (htype : op.type = .rename)
    (hkey : encodeInodeKey "destination parent inode id" op.dstParentID = .ok key) : MadeDir calls key := by
  cases ask with
  | request r =>
    rcases Request.check_type hcheck with hcreate | hremove
    · cases htype.symm.trans hcreate
    · cases htype.symm.trans hremove
  | rename srcParentID srcName dstParentID dstName =>
    obtain ⟨_, hchecked, hop⟩ := bind_ok hcheck
    cases hop
    obtain ⟨_, _, hchecked⟩ := bind_ok hchecked
    obtain ⟨dstParent, hdst, hchecked⟩ := bind_ok hchecked
    obtain ⟨dstKey, hdstKey, hget, _⟩ := getInode_ok hdst
    cases hdstKey.symm.trans (encodeInodeKey_as "inode id" hkey)
    split at hchecked
    · cases hchecked
    · next hdir =>
      obtain ⟨earlier, hearlier, hseen⟩ := hview 1
      rw [hseen] at hget
      exact (madeDir_of_get hget (not_not.mp hdir)).mono hearlier.subset

/-- **Entries are in directories**, or in what has been one. -/
theorem Requested.homes (h : Requested now calls) {name c : Bytes} (hlength : key.length = 8)
    (hget : ((Store.boot now).afterAll calls).dentries.get (encodeDentryKey key name) = some c) :
    MadeDir calls key := by
  induction h generalizing c with
  | nil => cases hget
  | snoc calls h view hview ask newID op hcheck clock timestamp ih =>
    suffices hmade : MadeDir calls key from hmade.mono (List.subset_append_left _ _)
    rw [afterAll_snoc] at hget
    rcases after_cases ((Store.boot now).afterAll calls) clock (replicateOp op timestamp) with hsame | hchange
    · exact ih (hsame ▸ hget)
    · have hdata : replicateOp op timestamp = some ⟨.posixMeta, some { op with timestamp := timestamp }, none⟩ := rfl
      rw [hdata] at hchange hget
      generalize ((Store.boot now).afterAll calls).after clock _ = st' at hchange hget
      cases hchange with
      | setAttr | updateInode => exact ih hget
      | create _ _ _ parentKey childKey parent hparentKey _ hparent hdir _ =>
        rw [addDentry_dentries] at hget
        split at hget
        · next hk =>
          rw [dentry_parent hlength (encodeInodeKey_length hparentKey) hk]
          exact madeDir_of_get hparent hdir
        · exact ih hget
      | remove =>
        rw [dropDentry_dentries] at hget
        split at hget
        · cases hget
        · exact ih hget
      | rename _ _ htype _ dstKey _ _ _ _ hdstKey =>
        rw [moveDentry_dentries] at hget
        split at hget
        · next hk =>
          rw [dentry_parent hlength (encodeInodeKey_length hdstKey) hk]
          exact Ask.check_rename hview hcheck htype hdstKey
        · split at hget
          · cases hget
          · exact ih hget

end Directories

/-! ## Chains of entries -/

/-- There are entries of these names one after the other, the first in the directory `key` and the last for `x`. -/
def Chain (st : Store) : Bytes → List Bytes → Bytes → Prop
  | key, [], x => key = x
  | key, name :: names, x => ∃ child, st.dentries.get (encodeDentryKey key name) = some child ∧ Chain st child names x

section Chains

variable {st : Store} {key x : Bytes} {names : List Bytes} {used : List Nat}

theorem chain_snoc {name : Bytes} : Chain st key (names ++ [name]) x ↔
    ∃ mid, Chain st key names mid ∧ st.dentries.get (encodeDentryKey mid name) = some x := by
  induction names generalizing key with
  | nil => simp [Chain]
  | cons first names ih =>
    simp only [List.cons_append, Chain, ih]
    constructor
    · intro ⟨child, hchild, mid, hmid, hx⟩
      exact ⟨mid, ⟨child, hchild, hmid⟩, hx⟩
    · intro ⟨mid, ⟨child, hchild, hmid⟩, hx⟩
      exact ⟨child, hchild, mid, hmid, hx⟩

theorem target_length (h : Grounded used st) {k c : Bytes} (hget : st.dentries.get k = some c) : c.length = 8 := by
  obtain ⟨inode, hinode⟩ := h.target k c hget
  exact h.length hinode

theorem chain_length (h : Grounded used st) (hchain : Chain st rootKey names x) : x.length = 8 := by
  rcases List.eq_nil_or_concat names with rfl | ⟨names, name, rfl⟩
  · rw [← hchain]
    rfl
  · rw [List.concat_eq_append, chain_snoc] at hchain
    obtain ⟨mid, _, hget⟩ := hchain
    exact target_length h hget

/-- **One chain leads to an inode.** The last entries are the same since an inode has one, and none is for the
root, so that the chains end together. -/
theorem chain_unique (h : Grounded used st) {others : List Bytes} (hnames : Chain st rootKey names x)
    (hothers : Chain st rootKey others x) : names = others := by
  induction names using List.reverseRecOn generalizing others x with
  | nil =>
    rcases List.eq_nil_or_concat others with rfl | ⟨others, other, rfl⟩
    · rfl
    · rw [List.concat_eq_append, chain_snoc] at hothers
      obtain ⟨mid, _, hget⟩ := hothers
      rw [← hnames] at hget
      exact absurd hget (h.unrooted _)
  | append_singleton names name ih =>
    rw [chain_snoc] at hnames
    obtain ⟨mid, hmid, hget⟩ := hnames
    rcases List.eq_nil_or_concat others with rfl | ⟨others, other, rfl⟩
    · rw [← hothers] at hget
      exact absurd hget (h.unrooted _)
    · rw [List.concat_eq_append, chain_snoc] at hothers
      obtain ⟨mid', hmid', hget'⟩ := hothers
      obtain ⟨hmids, hlast⟩ := List.append_inj (h.oneToOne _ _ _ hget hget')
        ((chain_length h hmid).trans (chain_length h hmid').symm)
      subst hmids
      rw [ih hmid hmid', hlast, List.concat_eq_append]

/-- What `LookupPath` walks is a chain, of the pieces that it does not skip. -/
theorem chain_of_walk {path id id' : Bytes} {parts : List Bytes} (hkey : encodeInodeKey "inode id" id = .ok key)
    (hwalk : parts.foldlM (st.walk path) id = .ok id') : ∃ x, encodeInodeKey "inode id" id' = .ok x ∧
      Chain st key (parts.filter fun part => ¬ (part = [] ∨ part = [46])) x := by
  induction parts generalizing id key with
  | nil =>
    cases hwalk
    exact ⟨key, hkey, rfl⟩
  | cons part parts ih =>
    rw [List.foldlM_cons] at hwalk
    obtain ⟨child, hfirst, hrest⟩ := bind_ok hwalk
    by_cases hskip : part = [] ∨ part = [46]
    · rw [Store.walk, if_pos hskip] at hfirst
      cases hfirst
      have hdropped : ¬ decide (¬ (part = [] ∨ part = [46])) = true := by simp [hskip]
      rw [List.filter_cons, if_neg hdropped]
      exact ih hkey hrest
    · obtain ⟨hempty, hdot⟩ := not_or.mp hskip
      obtain ⟨currentKey, _, childKey, hcurrent, _, _, hget, hlength, rfl⟩ := (walk_ok_iff hempty hdot).mp hfirst
      cases hkey.symm.trans hcurrent
      obtain ⟨x, hx, hchain⟩ := ih (encodeInodeKey_formatUint _ hlength) hrest
      refine ⟨x, hx, ?_⟩
      rw [List.filter_cons, if_pos (decide_eq_true hskip)]
      exact ⟨childKey, hget, hchain⟩

/-- A chain of proper names through directories is walked to its end. -/
theorem walk_of_chain (path : Bytes) (h : Grounded used st)
    (hdirs : ∀ key name c, key.length = 8 → st.dentries.get (encodeDentryKey key name) = some c →
      ∀ inode, st.inodes.get key = some inode → inode.type = .directory)
    (hnames : ∀ name ∈ names, Proper false name) {inode : Inode} (hget : st.inodes.get key = some inode)
    (hchain : Chain st key names x) :
    names.foldlM (st.walk path) (formatUint (uint64OfBE key)) = .ok (formatUint (uint64OfBE x)) := by
  induction names generalizing key inode with
  | nil =>
    rw [show key = x from hchain]
    rfl
  | cons name names ih =>
    obtain ⟨child, hchild, hrest⟩ := hchain
    obtain ⟨childInode, hchildInode⟩ := h.target _ _ hchild
    have hname := hnames name List.mem_cons_self
    have hleads : st.Leads (formatUint (uint64OfBE key)) name (formatUint (uint64OfBE child)) :=
      ⟨key, inode, child, encodeInodeKey_formatUint _ (h.length hget), hget,
        hdirs key name child (h.length hget) hchild inode hget, hchild, target_length h hchild, rfl⟩
    rw [List.foldlM_cons, (walk_ok_iff hname.nonempty hname.notDot).mpr hleads]
    exact ih (fun n hn => hnames n (List.mem_cons_of_mem _ hn)) hchildInode hrest

end Chains

/-- **A path leads to its entry if its names are proper ones, and only then.** -/
theorem lookupPath_iff (now : Int) {calls : List (Int × Command)} (hrequested : Requested now calls)
    (hnew : (createdNumbers calls).Nodup) (hroot : 0 ∉ createdNumbers calls) {names : List Bytes} {x : Bytes}
    (hchain : Chain ((Store.boot now).afterAll calls) rootKey names x) :
    ((Store.boot now).afterAll calls).lookupPath (absolute names) = .ok (formatUint (uint64OfBE x)) ↔
      ∀ name ∈ names, Proper false name := by
  have hground := grounded_afterAll now calls hnew hroot
  have hsuperblock : ((Store.boot now).afterAll calls).loadSuperblock = .ok (Store.superblockAt now) := by
    rw [Store.loadSuperblock, superblock_afterAll]
  constructor
  · intro hlookup
    rw [lookupPath_eq, hsuperblock] at hlookup
    have hrootKey : encodeInodeKey "inode id" [48] = .ok rootKey := rfl
    obtain ⟨x', hx', hwalked⟩ := chain_of_walk hrootKey hlookup
    cases hx'.symm.trans (encodeInodeKey_formatUint _ (chain_length hground hchain))
    intro name hname
    rw [chain_unique hground hchain hwalked, List.mem_filter] at hname
    obtain ⟨hempty, hdot⟩ := not_or.mp (of_decide_eq_true hname.2)
    exact ⟨hempty, not_mem_of_mem_splitOn hname.1, hdot, fun h => absurd h Bool.false_ne_true⟩
  · intro hnames
    obtain ⟨root, hget, _⟩ := hground.root
    rw [lookupPath_absolute _ fun name hname => (hnames name hname).noSlash, hsuperblock]
    refine walk_of_chain _ hground ?_ hnames hget hchain
    intro key name c hlength hentry inode hinode
    exact (hrequested.homes hlength hentry).type hnew hroot hinode

/-- The requests that ask for a directory `d`, for a file `f` in it, and for moving the file to `d/g`. -/
def plainAsks : List (Ask × Bytes) :=
  [(.request (.mkdir [48] [100] 0o755 0 0), [49]), (.request (.create [49] [102] 0o644 0 0), [50]),
    (.rename [49] [102] [49] [103], [])]

/-- Requests one after the other, each checked on the buckets as they are. -/
def askAll (now : Int) (asks : List (Ask × Bytes)) : List (Int × Command) :=
  asks.foldl (fun calls ask =>
    match ask.1.check (fun _ => (Store.boot now).afterAll calls) ask.2 with
    | .ok op => calls ++ [(0, replicateOp op 0)]
    | .error _ => calls) []

theorem requested_askAll (now : Int) (asks : List (Ask × Bytes)) : Requested now (askAll now asks) := by
  induction asks using List.reverseRecOn with
  | nil => exact .nil
  | append_singleton asks ask ih =>
    rw [askAll, List.foldl_append, List.foldl_cons, List.foldl_nil]
    split
    · next op hcheck =>
      refine .snoc _ ih _ (fun _ => ?_) ask.1 ask.2 op hcheck 0 0
      exact ⟨_, List.prefix_refl _, rfl⟩
    · exact ih

theorem lookupPath_plain :
    ((Store.boot 0).afterAll (askAll 0 plainAsks)).lookupPath [47, 100, 47, 103] = .ok [50] := by
  have hchain : Chain ((Store.boot 0).afterAll (askAll 0 plainAsks)) rootKey [[100], [103]] (uint64BE 2) :=
    ⟨uint64BE 1, by decide +kernel, uint64BE 2, by decide +kernel, rfl⟩
  refine (lookupPath_iff 0 (requested_askAll 0 plainAsks) (by decide +kernel) (by decide +kernel) hchain).mpr ?_
  intro name hname
  rcases List.mem_pair.mp hname with rfl | rfl
  · exact ⟨by decide, by decide, by decide, by decide⟩
  · exact ⟨by decide, by decide, by decide, by decide⟩

/-- Files of the empty name, of a dot, and of a name with a slash. -/
def oddAsks : List (Ask × Bytes) :=
  [(.request (.create [48] [] 0o644 0 0), [49]), (.request (.create [48] [46] 0o644 0 0), [50]),
    (.request (.create [48] [97, 47, 98] 0o644 0 0), [51])]

/-- The three have entries, the paths of the first two are resolved to the root, and that of the third to nothing. -/
theorem lookupPath_odd :
    Requested 0 (askAll 0 oddAsks) ∧
      Chain ((Store.boot 0).afterAll (askAll 0 oddAsks)) rootKey [[]] (uint64BE 1) ∧
      Chain ((Store.boot 0).afterAll (askAll 0 oddAsks)) rootKey [[46]] (uint64BE 2) ∧
      Chain ((Store.boot 0).afterAll (askAll 0 oddAsks)) rootKey [[97, 47, 98]] (uint64BE 3) ∧
      ((Store.boot 0).afterAll (askAll 0 oddAsks)).lookupPath (absolute [[]]) = .ok [48] ∧
      ((Store.boot 0).afterAll (askAll 0 oddAsks)).lookupPath (absolute [[46]]) = .ok [48] ∧
      ((Store.boot 0).afterAll (askAll 0 oddAsks)).lookupPath (absolute [[97, 47, 98]]) = .error .notFound := by
  refine ⟨requested_askAll 0 oddAsks, ⟨_, ?_, rfl⟩, ⟨_, ?_, rfl⟩, ⟨_, ?_, rfl⟩, ?_, ?_, ?_⟩ <;> decide +kernel

end Sandstore.Client
