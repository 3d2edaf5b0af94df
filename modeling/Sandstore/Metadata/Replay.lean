import Sandstore.Metadata.Bolt
import Sandstore.Raft.Replay

/-!
# Applying an entry twice

After a restart the replicator hands the service every committed entry above the snapshot again, and
the service, which still has its file and drops the index `Recover` returns from it, applies them
again. Whether that is harmless is a question about each entry and the buckets it meets.

An entry is *settled* in a state of the buckets when the appliers reject it there, or when all it
would write is there already. Creates, removes and inode updates that succeed always change something;
a rename in place, a change of attributes and a chunk intent may not. For one entry being settled is
exactly what it takes (`after_eq_iff`), and entries that are all settled change nothing together
(`replay_settled`).
-/

namespace Sandstore.Metadata

open Lib
open Raft (Byte Bytes Err)

/-! ## Settled entries -/

namespace Store

/-- The buckets that hold the file tree. -/
def tree (st : Store) : Bucket Inode × Bucket Bytes × Bucket ChunkDescriptor :=
  (st.inodes, st.dentries, st.chunkMap)

/-- The buckets after a transaction, which is rolled back on an error. -/
def updated (st : Store) : Except Err Store → Store
  | .ok st' => st'
  | .error _ => st

/-- The buckets after an entry, which may have been rejected. -/
def after (st : Store) (now : Int) (data : Command) : Store :=
  st.updated (st.applyTransaction now data)

/-- An entry renamed to itself, in a directory that already carries the times of the rename. -/
def RenamedInPlace (st : Store) (op : MetadataOperation) : Prop :=
  ∃ parentKey parent, encodeInodeKey "source parent inode id" op.parentID = .ok parentKey ∧
    encodeInodeKey "destination parent inode id" op.dstParentID = .ok parentKey ∧
    op.name = op.dstName ∧ st.inodes.get parentKey = some parent ∧ parent.touch op.timestamp = parent

/-- The inode already has the attributes of the operation, and its change time. -/
def HasAttributes (st : Store) (op : MetadataOperation) : Prop :=
  ∃ inodeKey inode, encodeInodeKey "inode id" op.inodeID = .ok inodeKey ∧
    st.inodes.get inodeKey = some inode ∧ inode.setAttr op = inode

/-- The inode already has the size, the times and the chunks of the operation. -/
def HasContents (st : Store) (now : Int) (op : MetadataOperation) : Prop :=
  ∃ inodeKey inode, encodeInodeKey "inode id" op.inodeID = .ok inodeKey ∧
    st.inodes.get inodeKey = some inode ∧ inode.write op now = inode ∧
    st.chunkMapAfter op inodeKey = st.chunkMap

/-- A metadata operation that the applier rejects, or that finds its own writes. -/
def SettledOp (st : Store) (op : MetadataOperation) : Prop :=
  match op.type with
  | .create => (st.applyCreate op).isOk = false
  | .remove => (st.applyRemove op).isOk = false
  | .rename => (st.applyRename op).isOk = false ∨ st.RenamedInPlace op
  | .setAttr => (st.applySetAttr op).isOk = false ∨ st.HasAttributes op
  | .updateInode => (st.applyUpdateInode op).isOk = false
  | .other _ => True

/-- An entry that the service rejects, or that finds its own writes in the file tree. -/
def Settled (st : Store) (now : Int) : Command → Prop
  | none => True
  | some envelope =>
    match envelope.type with
    | .posixMeta => ∀ op, envelope.posixMeta = some op → st.SettledOp op
    | .chunkIntent => ∀ op, envelope.chunkIntent ≠ none → envelope.posixMeta = some op →
        op.type = .updateInode →
        (st.applyMetaUpdate now (some op)).isOk = false ∨ st.HasContents now op
    | .other _ => True

end Store

/-! ## One entry -/

section Entry

variable {st st' : Store} {op : MetadataOperation} {now : Int}

theorem encodeDentryKey_inj {what what' : String} {id id' key key' name name' : Bytes}
    (hkey : encodeInodeKey what id = .ok key) (hkey' : encodeInodeKey what' id' = .ok key')
    (h : encodeDentryKey key name = encodeDentryKey key' name') : key = key' ∧ name = name' :=
  List.append_inj h ((encodeInodeKey_length hkey).trans (encodeInodeKey_length hkey').symm)

/-- A binding that a bucket did not have. -/
theorem tree_ne_of_dentry (key : Bytes) (h : st'.dentries.get key ≠ st.dentries.get key) : st'.tree ≠ st.tree := by
  intro heq
  have hdentries : st'.dentries = st.dentries := congrArg (fun x => x.2.1) heq
  exact h (by rw [hdentries])

theorem insert_inode_iff {key : Bytes} {inode inode' : Inode} (h : st.inodes.get key = some inode) :
    st.inodes.insert key inode' = st.inodes ↔ inode' = inode := by
  constructor
  · intro heq
    have hget : some inode' = st.inodes.get key := by rw [← heq, OrdMap.get_insert_self]
    rw [h] at hget
    exact Option.some_inj.mp hget
  · intro hsame
    rw [hsame, OrdMap.insert_of_get h]

/-- A rename that moves nothing. -/
theorem moveDentry_in_place {key : Bytes} {parent : Inode} {childKey : Bytes}
    (hname : op.name = op.dstName) (hparent : st.inodes.get key = some parent)
    (hchild : st.dentries.get (encodeDentryKey key op.name) = some childKey) :
    (st.moveDentry op key key parent parent childKey).tree = st.tree ↔ parent.touch op.timestamp = parent := by
  have hdentries : (st.dentries.erase (encodeDentryKey key op.name)).insert
      (encodeDentryKey key op.name) childKey = st.dentries := by
    apply OrdMap.ext_get
    intro k
    rw [OrdMap.get_insert]
    split
    · next hk => rw [hk, hchild]
    · next hk => rw [OrdMap.get_erase_ne _ hk]
  have hinodes : (st.inodes.insert key (parent.touch op.timestamp)).insert key
      (parent.touch op.timestamp) = st.inodes.insert key (parent.touch op.timestamp) :=
    OrdMap.insert_of_get (OrdMap.get_insert_self _ _ _)
  simp only [Store.moveDentry, Store.tree, ← hname, OrdMap.get_erase_self, hdentries, Prod.mk.injEq,
    and_true, hinodes]
  exact insert_inode_iff hparent

/-- Moving an entry to another place changes the dentries. -/
theorem moveDentry_elsewhere {srcKey dstKey : Bytes} {srcParent dstParent : Inode} {childKey : Bytes}
    (hchild : st.dentries.get (encodeDentryKey srcKey op.name) = some childKey)
    (hne : encodeDentryKey srcKey op.name ≠ encodeDentryKey dstKey op.dstName) :
    (st.moveDentry op srcKey dstKey srcParent dstParent childKey).tree ≠ st.tree := by
  apply tree_ne_of_dentry (encodeDentryKey srcKey op.name)
  rw [hchild]
  simp [Store.moveDentry, OrdMap.get_insert_ne _ _ hne]

theorem applyRename_iff (h : st.applyRename op = .ok st') : st'.tree = st.tree ↔ st.RenamedInPlace op := by
  obtain ⟨srcKey, dstKey, srcParent, dstParent, childKey, hsrc, hdst, hsrcParent, hdstParent, hchild,
    rfl⟩ := applyRename_ok h
  by_cases hplace : encodeDentryKey srcKey op.name = encodeDentryKey dstKey op.dstName
  · obtain ⟨rfl, hname⟩ := encodeDentryKey_inj hsrc hdst hplace
    rw [hsrcParent] at hdstParent
    cases hdstParent
    rw [moveDentry_in_place hname hsrcParent hchild]
    constructor
    · exact fun htouch => ⟨srcKey, srcParent, hsrc, hdst, hname, hsrcParent, htouch⟩
    · intro ⟨key, parent, hkey, _, _, hparent, htouch⟩
      cases hsrc.symm.trans hkey
      rw [hsrcParent] at hparent
      cases hparent
      exact htouch
  · constructor
    · exact fun heq => absurd heq (moveDentry_elsewhere hchild hplace)
    · intro ⟨key, parent, hkey, hkey', hname, _, _⟩
      cases hsrc.symm.trans hkey
      cases hdst.symm.trans hkey'
      exact absurd (congrArg _ hname) hplace

theorem applySetAttr_iff (h : st.applySetAttr op = .ok st') : st'.tree = st.tree ↔ st.HasAttributes op := by
  obtain ⟨key, inode, hkey, hinode, rfl⟩ := applySetAttr_ok h
  simp only [Store.tree, Prod.mk.injEq, and_true]
  rw [insert_inode_iff hinode]
  constructor
  · exact fun hsame => ⟨key, inode, hkey, hinode, hsame⟩
  · intro ⟨key', inode', hkey', hinode', hsame⟩
    cases hkey.symm.trans hkey'
    rw [hinode] at hinode'
    cases hinode'
    exact hsame

theorem applyMetaUpdate_iff (htype : op.type = .updateInode) (h : st.applyMetaUpdate now (some op) = .ok st') :
    st'.tree = st.tree ↔ st.HasContents now op := by
  obtain ⟨key, inode, hkey, hinode, rfl⟩ := applyMetaUpdate_ok htype h
  simp only [Store.tree, Prod.mk.injEq, true_and]
  rw [insert_inode_iff hinode]
  constructor
  · exact fun hsame => ⟨key, inode, hkey, hinode, hsame.1, hsame.2⟩
  · intro ⟨key', inode', hkey', hinode', hsame⟩
    cases hkey.symm.trans hkey'
    rw [hinode] at hinode'
    cases hinode'
    exact hsame

/-- An applier that rejects changes nothing. -/
theorem unchanged_iff {r : Except Err Store} {P : Prop} (h : ∀ st', r = .ok st' → (st'.tree = st.tree ↔ P)) :
    (st.updated r).tree = st.tree ↔ r.isOk = false ∨ P := by
  cases r with
  | error err => exact ⟨fun _ => .inl rfl, fun _ => rfl⟩
  | ok st' =>
    show st'.tree = st.tree ↔ _
    rw [h st' rfl]
    constructor
    · exact .inr
    · exact fun hor => hor.resolve_left Bool.noConfusion

/-- An applier whose success always shows. -/
theorem unchanged_iff_rejected {r : Except Err Store} (h : ∀ st', r = .ok st' → st'.tree ≠ st.tree) :
    (st.updated r).tree = st.tree ↔ r.isOk = false := by
  rw [unchanged_iff (P := False) fun st' hst => iff_false_intro (h st' hst), or_false]

theorem applyStandardMetadata_iff :
    (st.updated (st.applyStandardMetadata (some op))).tree = st.tree ↔ st.SettledOp op := by
  simp only [Store.applyStandardMetadata, Store.SettledOp]
  cases op.type with
  | create =>
    apply unchanged_iff_rejected
    intro st' h
    obtain ⟨parentKey, childKey, parent, _, _, _, _, hfree, rfl⟩ := applyCreate_ok h
    apply tree_ne_of_dentry (encodeDentryKey parentKey op.name)
    simp [Store.addDentry, hfree]
  | remove =>
    apply unchanged_iff_rejected
    intro st' h
    obtain ⟨parentKey, childKey, parent, child, _, hchild, _, _, rfl⟩ := applyRemove_ok h
    apply tree_ne_of_dentry (encodeDentryKey parentKey op.name)
    simp [Store.dropDentry, hchild]
  | rename => exact unchanged_iff fun st' h => applyRename_iff h
  | setAttr => exact unchanged_iff fun st' h => applySetAttr_iff h
  | updateInode =>
    apply unchanged_iff_rejected
    intro st' h heq
    obtain ⟨key, inode, _, hinode, rfl⟩ := applyUpdateInode_ok h
    have hsame : inode.update op = inode := (insert_inode_iff hinode).mp (congrArg Prod.fst heq)
    -- the version has gone up
    have hversion : inode.versionNumber + 1 = inode.versionNumber := congrArg Inode.versionNumber hsame
    omega
  | other code => exact iff_of_true rfl trivial

/-- A chunk intent leaves the file tree where its metadata half does. -/
theorem applyChunkIntentAtomic_tree (intent : ChunkIntentOperation) (metaUpdate : Option MetadataOperation) :
    (st.updated (st.applyChunkIntentAtomic now metaUpdate (some intent))).tree =
      (st.updated (st.applyMetaUpdate now metaUpdate)).tree := by
  unfold Store.applyChunkIntentAtomic
  cases st.applyMetaUpdate now metaUpdate with
  | error err => rfl
  | ok st' => rfl

/-- **One entry leaves the file tree as it was exactly where it is settled.** -/
theorem after_eq_iff (st : Store) (now : Int) (data : Command) :
    (st.after now data).tree = st.tree ↔ st.Settled now data := by
  unfold Store.after Store.applyTransaction Store.Settled
  cases data with
  | none => exact iff_of_true rfl trivial
  | some envelope =>
    obtain ⟨type, posixMeta, chunkIntent⟩ := envelope
    cases type with
    | posixMeta =>
      cases posixMeta with
      | none => exact iff_of_true rfl fun op h => nomatch h
      | some op =>
        simp only [Option.some.injEq, forall_eq']
        exact applyStandardMetadata_iff
    | chunkIntent =>
      cases chunkIntent with
      | none => exact iff_of_true rfl fun op h => absurd rfl h
      | some intent =>
        dsimp only
        rw [applyChunkIntentAtomic_tree]
        cases posixMeta with
        | none => exact iff_of_true rfl fun op _ h => nomatch h
        | some op =>
          by_cases htype : op.type = .updateInode
          · rw [unchanged_iff fun st' h => applyMetaUpdate_iff htype h]
            simp [htype]
          · rw [Store.applyMetaUpdate, if_pos htype]
            exact iff_of_true rfl fun op' _ h hupdate => absurd (Option.some_inj.mp h ▸ hupdate) htype
    | other code => exact iff_of_true rfl trivial

end Entry

/-! ## The appliers read the file tree alone -/

section Congruence

variable {st st' : Store} {op : MetadataOperation} {now : Int}

/-- One outcome, as far as the file tree and the error go. -/
def SameOutcome : Except Err Store → Except Err Store → Prop
  | .ok a, .ok b => a.tree = b.tree
  | .error err, .error err' => err = err'
  | _, _ => False

theorem SameOutcome.bind {α : Type} {x : Except Err α} {f g : α → Except Err Store}
    (h : ∀ a, SameOutcome (f a) (g a)) : SameOutcome (x >>= f) (x >>= g) := by
  cases x with
  | error err => exact rfl
  | ok a => exact h a

theorem SameOutcome.updated {r r' : Except Err Store} (h : SameOutcome r r')
    (htree : st'.tree = st.tree) : (st'.updated r).tree = (st.updated r').tree := by
  cases r with
  | error err =>
    cases r' with
    | error err' => exact htree
    | ok b => exact h.elim
  | ok a =>
    cases r' with
    | error err' => exact h.elim
    | ok b => exact h

theorem tree_eq (h : st'.tree = st.tree) :
    st'.inodes = st.inodes ∧ st'.dentries = st.dentries ∧ st'.chunkMap = st.chunkMap :=
  ⟨congrArg Prod.fst h, congrArg (fun x => x.2.1) h, congrArg (fun x => x.2.2) h⟩

theorem applyStandardMetadata_congr (h : st'.tree = st.tree) (update : Option MetadataOperation) :
    SameOutcome (st'.applyStandardMetadata update) (st.applyStandardMetadata update) := by
  obtain ⟨hinodes, hdentries, hchunks⟩ := tree_eq h
  cases update with
  | none => exact rfl
  | some op =>
    simp only [Store.applyStandardMetadata]
    cases op.type with
    | create =>
      simp only [Store.applyCreate, Store.loadStoredInode, hinodes, hdentries]
      apply SameOutcome.bind
      intro parentKey
      apply SameOutcome.bind
      intro childKey
      apply SameOutcome.bind
      intro parent
      split
      · exact rfl
      · split
        · exact rfl
        · simp [SameOutcome, Store.tree, Store.addDentry, hinodes, hdentries, hchunks]
    | remove =>
      simp only [Store.applyRemove, Store.loadStoredInode, hinodes, hdentries]
      apply SameOutcome.bind
      intro parentKey
      split
      · exact rfl
      · apply SameOutcome.bind
        intro parent
        apply SameOutcome.bind
        intro child
        simp [SameOutcome, Store.tree, Store.dropDentry, hinodes, hdentries, hchunks]
    | rename =>
      simp only [Store.applyRename, Store.loadStoredInode, hinodes, hdentries]
      apply SameOutcome.bind
      intro srcParentKey
      apply SameOutcome.bind
      intro dstParentKey
      apply SameOutcome.bind
      intro srcParent
      apply SameOutcome.bind
      intro dstParent
      split
      · exact rfl
      · simp [SameOutcome, Store.tree, Store.moveDentry, hinodes, hdentries, hchunks]
    | setAttr =>
      simp only [Store.applySetAttr, Store.loadStoredInode, hinodes]
      apply SameOutcome.bind
      intro inodeKey
      apply SameOutcome.bind
      intro inode
      simp [SameOutcome, Store.tree, hdentries, hchunks]
    | updateInode =>
      simp only [Store.applyUpdateInode, Store.loadStoredInode, hinodes]
      apply SameOutcome.bind
      intro inodeKey
      apply SameOutcome.bind
      intro inode
      simp [SameOutcome, Store.tree, Store.chunkMapAfter, hdentries, hchunks]
    | other code => exact rfl

theorem applyMetaUpdate_congr (h : st'.tree = st.tree) (update : Option MetadataOperation) :
    SameOutcome (st'.applyMetaUpdate now update) (st.applyMetaUpdate now update) := by
  obtain ⟨hinodes, hdentries, hchunks⟩ := tree_eq h
  cases update with
  | none => exact h
  | some op =>
    simp only [Store.applyMetaUpdate, Store.loadStoredInode, hinodes]
    split
    · exact h
    · apply SameOutcome.bind
      intro inodeKey
      apply SameOutcome.bind
      intro inode
      simp [SameOutcome, Store.tree, Store.chunkMapAfter, hdentries, hchunks]

/-- **The file tree after an entry is a function of the file tree before it.** -/
theorem after_congr (h : st'.tree = st.tree) (now : Int) (data : Command) :
    (st'.after now data).tree = (st.after now data).tree := by
  unfold Store.after Store.applyTransaction
  cases data with
  | none => exact h
  | some envelope =>
    obtain ⟨type, posixMeta, chunkIntent⟩ := envelope
    cases type with
    | posixMeta => exact (applyStandardMetadata_congr h posixMeta).updated h
    | chunkIntent =>
      cases chunkIntent with
      | none => exact h
      | some intent =>
        dsimp only
        rw [applyChunkIntentAtomic_tree, applyChunkIntentAtomic_tree]
        exact (applyMetaUpdate_congr h posixMeta).updated h
    | other code => exact h

end Congruence

/-! ## Many entries -/

namespace Service

/-- The file tree of the service. -/
def tree (svc : Service) : Option (Bucket Inode × Bucket Bytes × Bucket ChunkDescriptor) :=
  svc.file.map Store.tree

/-- Hand the service a list of entries. -/
def applyAll (svc : Service) (entries : List Command) : Service :=
  entries.foldl (fun svc data => (svc.apply data).1) svc

end Service

variable {st : Store}

theorem apply_open {svc : Service} (hfile : svc.file = some st) (hopen : svc.isOpen = true) (data : Command) :
    (svc.apply data).1 = ⟨some (st.after (svc.clock 0) data), true, fun k => svc.clock (k + 1)⟩ := by
  have hdb : svc.db = some st := by simp [Service.db, hfile, hopen]
  unfold Service.apply
  rw [hdb]
  dsimp only
  unfold Store.after
  cases st.applyTransaction (svc.clock 0) data with
  | ok st' => simp [Service.tick, Store.updated, hopen]
  | error err => simp [Service.tick, Store.updated, hfile, hopen]

/-- The buckets after a list of entries, each under its own reading of the clock. -/
def Store.replay : Store → (Nat → Int) → List Command → Store
  | st, _, [] => st
  | st, clock, data :: entries =>
    (st.after (clock 0) data).replay (fun k => clock (k + 1)) entries

theorem applyAll_open (entries : List Command) {svc : Service}
    (hfile : svc.file = some st) (hopen : svc.isOpen = true) :
    (svc.applyAll entries).file = some (st.replay svc.clock entries) := by
  induction entries generalizing svc st with
  | nil => exact hfile
  | cons data entries ih =>
    show ((svc.apply data).1.applyAll entries).file = _
    rw [apply_open hfile hopen, ih rfl rfl]
    rfl

theorem replay_concat (before : List Command) (last : Command) (st : Store) (clock : Nat → Int) :
    st.replay clock (before ++ [last]) = (st.replay clock before).after (clock before.length) last := by
  induction before generalizing st clock with
  | nil => rfl
  | cons data before ih => simp [Store.replay, ih]

/-- **Entries that are all settled change nothing together.** -/
theorem replay_settled (entries : List Command) {st' : Store} {clock : Nat → Int} (htree : st'.tree = st.tree)
    (hsettled : ∀ k data, entries[k]? = some data → st.Settled (clock k) data) :
    (st'.replay clock entries).tree = st.tree := by
  induction entries generalizing st' clock with
  | nil => exact htree
  | cons data entries ih =>
    apply ih
    · rw [after_congr htree]
      exact (after_eq_iff st _ data).mpr (hsettled 0 data rfl)
    · intro k data' hk
      exact hsettled (k + 1) data' hk

/-- Where all entries but the last are settled, the last decides. -/
theorem replay_iff (entries : List Command) {clock : Nat → Int}
    (hbut : ∀ k data, k + 1 < entries.length → entries[k]? = some data → st.Settled (clock k) data) :
    (st.replay clock entries).tree = st.tree ↔ ∀ k data, entries[k]? = some data → st.Settled (clock k) data := by
  constructor
  · intro htree
    rcases List.eq_nil_or_concat entries with rfl | ⟨before, last, rfl⟩
    · simp
    rw [List.concat_eq_append] at hbut htree ⊢
    have hbefore : ∀ k data, before[k]? = some data → st.Settled (clock k) data := by
      intro k data hk
      have hlt : k < before.length := (List.getElem?_eq_some_iff.mp hk).1
      exact hbut k data (by simpa using hlt) (by rw [List.getElem?_append_left hlt, hk])
    rw [replay_concat, after_congr (replay_settled before rfl hbefore), after_eq_iff] at htree
    intro k data hk
    rcases Nat.lt_trichotomy k before.length with hlt | rfl | hgt
    · exact hbefore k data (by rw [← hk, List.getElem?_append_left hlt])
    · simp only [List.getElem?_concat_length, Option.some_inj] at hk
      rwa [← hk]
    · rw [List.getElem?_eq_none (by simpa using Nat.succ_le_of_lt hgt)] at hk
      cases hk
  · exact replay_settled entries rfl

/-! ## A restart -/

/-- An entry that is rejected leaves the consistent index, one that is not moves it on. -/
theorem recovered_after (h : st.consistentIndex.isSome) (now : Int) (data : Command) :
    (st.after now data).consistentIndex.isSome := by
  unfold Store.after
  cases hst : st.applyTransaction now data with
  | error err => exact h
  | ok st' =>
    show st'.consistentIndex.isSome = true
    rw [applyTransaction_index hst]
    rfl

theorem recovered_replay (entries : List Command) (h : st.consistentIndex.isSome)
    (clock : Nat → Int) : (st.replay clock entries).consistentIndex.isSome := by
  induction entries generalizing st clock with
  | nil => exact h
  | cons data entries ih => exact ih (recovered_after h _ data) _

/-- A restart finds a file with a consistent index as it was. -/
theorem start_recovered (h : st.consistentIndex.isSome) (clock : Nat → Int) :
    Service.start (some st) clock = some (Service.tick ⟨some st, true, clock⟩) := by
  obtain ⟨index, hindex⟩ := Option.isSome_iff_exists.mp h
  simp [Service.start, Store.recover, hindex]

theorem forall_drop {α : Type} (P : Nat → α → Prop) {l : List α} {s : Nat} :
    (∀ k a, s ≤ k → l[k]? = some a → P (k - s) a) ↔ ∀ k a, (l.drop s)[k]? = some a → P k a := by
  constructor
  · intro h k a hk
    rw [List.getElem?_drop] at hk
    have := h (s + k) a (Nat.le_add_right s k) hk
    rwa [Nat.add_sub_cancel_left] at this
  · intro h k a hle hk
    apply h
    rwa [List.getElem?_drop, Nat.add_sub_cancel' hle]

/-- **What a restart does to the file tree.** A node has applied the committed log and crashes. Its new
process starts at the snapshot, over the file as it was, and applies the entries above the snapshot
again. So the file tree stays the same exactly where these entries lead from it back to it: if each of
them is settled in it; and where all of them but the last are, only if the last is settled, too. -/
theorem restart_keeps_tree [Raft.Conv] (serialize : Store → Bytes) (deserialize : Bytes → Option Store)
    (log : List Command) (s : Nat) (hs : s ≤ log.length) (clock clock' : Nat → Int) {svc : Service}
    (hsvc : Service.start (some {}) clock = some svc) (d : Raft.Disk Command Service)
    (hsnapshot : Raft.SnapshotAt d.snapshot s) (hcarries : Raft.Carries (Raft.FileLogStore.load d.wal) log s)
    {last term : Nat} (hlast : (Raft.FileLogStore.load d.wal).lastIndexAndTerm = .ok (last, term))
    (hreach : s ≤ last) :
    ∃ st svc' r n', (svc.applyAll log).file = some st ∧
      Service.start (some st) clock' = some svc' ∧
      Raft.start { d with machine := svc' } = .ok r ∧ r.lastApplied = s ∧
      (Raft.applyLogs (boltMachine serialize deserialize)).run
        ⟨{ d with machine := svc' }, { r with commitIndex := log.length }, []⟩ [] = .back () n' ∧
      (n'.disk.machine.tree = some st.tree ↔
        (st.replay (fun k => clock' (k + 1)) (log.drop s)).tree = st.tree) ∧
      ((∀ k data, s ≤ k → log[k]? = some data → st.Settled (clock' (k - s + 1)) data) →
        n'.disk.machine.tree = some st.tree) ∧
      ((∀ k data, s ≤ k → k + 1 < log.length → log[k]? = some data →
          st.Settled (clock' (k - s + 1)) data) →
        (n'.disk.machine.tree = some st.tree ↔
          ∀ k data, s ≤ k → log[k]? = some data → st.Settled (clock' (k - s + 1)) data)) := by
  cases hsvc
  have hfile : ((Service.tick ⟨some (Store.recover {} (clock 0)).2, true, clock⟩).applyAll log).file =
      some ((Store.recover {} (clock 0)).2.replay (fun k => clock (k + 1)) log) :=
    applyAll_open log rfl rfl
  have hrecovered :
      ((Store.recover {} (clock 0)).2.replay (fun k => clock (k + 1)) log).consistentIndex.isSome :=
    recovered_replay log rfl _
  generalize (Store.recover {} (clock 0)).2.replay (fun k => clock (k + 1)) log = st
    at hfile hrecovered
  obtain ⟨r, n', hstart, happlied, hrun, hmachine⟩ :=
    Raft.restart_replays (boltMachine serialize deserialize) hs
      (d := { d with machine := Service.tick ⟨some st, true, clock'⟩ }) hsnapshot hcarries hlast hreach
  have htree : n'.disk.machine.tree =
      some (st.replay (fun k => clock' (k + 1)) (log.drop s)).tree := by
    rw [hmachine]
    exact congrArg (Option.map Store.tree) (applyAll_open (log.drop s) rfl rfl)
  refine ⟨st, _, r, n', hfile, start_recovered hrecovered clock', hstart, happlied, hrun, ?_⟩
  rw [htree, Option.some_inj, forall_drop (fun k data => st.Settled (clock' (k + 1)) data)]
  refine ⟨Iff.rfl, replay_settled _ rfl, fun hbut => replay_iff _ ?_⟩
  intro k data hlt hk
  rw [List.length_drop] at hlt
  rw [List.getElem?_drop] at hk
  have hsettled := hbut (s + k) data (Nat.le_add_right s k) (by omega) hk
  rwa [Nat.add_sub_cancel_left] at hsettled

section Examples

attribute [local instance] Raft.Conv.go

/-- The root directory gets the file `f`. -/
def createF : Command :=
  some
    { type := .posixMeta
      posixMeta := some { type := .create, inodeID := [49], parentID := [48], name := [102], timestamp := 5 }
      chunkIntent := none }

/-- The file grows to ten bytes. -/
def growF : Command :=
  some
    { type := .posixMeta
      posixMeta := some { type := .updateInode, inodeID := [49], newSize := some 10, timestamp := 6 }
      chunkIntent := none }

/-- The disk of a node without a snapshot. -/
def diskOf (log : List Command) (svc : Service) : Raft.Disk Command Service where
  stable := some ⟨1, "a"⟩
  snapshot := none
  wal := some ⟨0, 0, log.mapIdx fun k data => ⟨k + 1, 1, data⟩⟩
  machine := svc

/-- A replayed create is rejected, for its file is there. -/
theorem restart_keeps_create :
    ∃ st svc' r n', (Service.applyAll (Service.tick ⟨some (Store.recover {} 0).2, true, fun _ => 0⟩)
        [createF]).file = some st ∧
      Service.start (some st) (fun _ => 0) = some svc' ∧
      Raft.start (diskOf [createF] svc') = .ok r ∧ r.lastApplied = 0 ∧
      (Raft.applyLogs (boltMachine (fun _ => []) fun _ => none)).run
        ⟨diskOf [createF] svc', { r with commitIndex := 1 }, []⟩ [] = .back () n' ∧
      n'.disk.machine.tree = some st.tree := by
  obtain ⟨st, svc', r, n', hst, hsvc', hr, happlied, hrun, _, hkeeps, _⟩ :=
    restart_keeps_tree (fun _ => []) (fun _ => none) [createF] 0 (by decide) (fun _ => 0) (fun _ => 0)
      rfl (diskOf [createF] ⟨none, false, fun _ => 0⟩) rfl
      (by
        intro k data _ hk
        cases k with
        | zero =>
          cases hk
          exact ⟨⟨1, 1, createF⟩, rfl, rfl⟩
        | succ k => cases hk)
      rfl (Nat.zero_le _)
  refine ⟨st, svc', r, n', hst, hsvc', hr, happlied, hrun, hkeeps ?_⟩
  cases hst
  intro k data _ hk
  cases k with
  | zero =>
    cases hk
    rintro op ⟨⟩
    show Except.isOk _ = false
    rfl
  | succ k => cases hk

/-- A replayed update finds the file it has updated, and updates it again: the version of `f` is 2
after the restart, and was 1 before it. -/
theorem restart_raises_version :
    ∃ svc st svc' r n', Service.start (some {}) (fun _ => 0) = some svc ∧
      (svc.applyAll [createF, growF]).file = some st ∧
      Service.start (some st) (fun _ => 0) = some svc' ∧
      Raft.start (diskOf [createF, growF] svc') = .ok r ∧ r.lastApplied = 0 ∧
      (Raft.applyLogs (boltMachine (fun _ => []) fun _ => none)).run
        ⟨diskOf [createF, growF] svc', { r with commitIndex := 2 }, []⟩ [] = .back () n' ∧
      n'.disk.machine.tree ≠ some st.tree :=
  ⟨_, _, _, _, _, rfl, rfl, rfl, rfl, rfl, rfl, by decide⟩

end Examples

end Sandstore.Metadata
