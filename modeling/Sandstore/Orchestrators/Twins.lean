import Sandstore.Metadata.Namespace
import Sandstore.Orchestrators.Commit

/-!
# Two nodes and one log

Every applier takes its times from the envelope, so what a log does to a store should not depend on the
node. Two things are not in the log: the time at which `Recover` builds the first store of a node, which
it writes into the root inode and the superblock, and the clock that `applyChunkIntentAtomic` falls back
on for an operation without a timestamp, which nothing produces.

A store is `recast` to another boot time by putting that time where the first one still stands. `Unwritten`
says where that is: which of the root's three times no envelope has written over. **Recasting commutes
with every transaction** (`applyTransaction_recast`), errors included, so the stores of two nodes are at
all times recasts of one another. They differ where the boot time is still to be seen, and
`GetAttributes` and `GetInode` of the root show it (`reads_agree_iff`).
-/

namespace Sandstore.Orchestrators

open Lib Metadata
open Raft (Bytes)

/-! ## What is left of the boot time -/

/-- Which of the root's times are still the ones that `Recover` wrote. -/
structure Unwritten where
  access : Bool
  modify : Bool
  change : Bool
  deriving DecidableEq, Repr

/-- The key that an inode ID stands for. -/
def keyOf (inodeID : Bytes) : Option Bytes := (parseUint inodeID).map uint64BE

theorem encodeInodeKey_keyOf (what : String) (inodeID : Bytes) :
    encodeInodeKey what inodeID = (keyOf inodeID).elim (.error (.encodeInodeID what inodeID)) .ok := by
  unfold encodeInodeKey keyOf
  cases parseUint inodeID <;> rfl

namespace Unwritten

def all : Unwritten := ⟨true, true, true⟩

def nothing : Unwritten := ⟨false, false, false⟩

def touch (m : Unwritten) : Unwritten := { m with modify := false, change := false }

/-- What is left after an envelope that was applied. -/
def after (m : Unwritten) : Command → Unwritten
  | some ⟨.posixMeta, some op, _⟩ =>
    match op.type with
    | .create =>
      if keyOf op.parentID = some rootKey then m.touch
      else if keyOf op.inodeID = some rootKey then nothing
      else m
    | .remove => if keyOf op.parentID = some rootKey then m.touch else m
    | .rename =>
      if keyOf op.parentID = some rootKey ∨ keyOf op.dstParentID = some rootKey then m.touch else m
    | .setAttr =>
      if keyOf op.inodeID = some rootKey then
        ⟨m.access && op.setATime.isNone, m.modify && op.setMTime.isNone, false⟩
      else m
    | .updateInode =>
      if keyOf op.inodeID = some rootKey then ⟨m.access, m.modify && op.setMTime.isNone, false⟩ else m
    | .other _ => m
  | some ⟨.chunkIntent, some op, _⟩ =>
    if op.type = .updateInode ∧ keyOf op.inodeID = some rootKey then m.touch else m
  | _ => m

end Unwritten

/-- An inode with another boot time in the times that still have one. -/
def retime (boot : Int) (m : Unwritten) (inode : Inode) : Inode :=
  { inode with
    accessTime := if m.access then boot else inode.accessTime
    modifyTime := if m.modify then boot else inode.modifyTime
    changeTime := if m.change then boot else inode.changeTime }

/-- A store with another boot time. -/
def recast (boot : Int) (m : Unwritten) (st : Store) : Store :=
  { st with
    superblock := st.superblock.map fun superblock => { superblock with createdAt := boot }
    inodes := st.inodes.adjust rootKey (retime boot m) }

section Recast

variable {boot : Int} {m : Unwritten} {st : Store} {op : MetadataOperation}

theorem retime_touch (inode : Inode) (now : Int) :
    (retime boot m inode).touch now = retime boot m.touch (inode.touch now) := rfl

theorem retime_nothing (inode : Inode) : retime boot .nothing inode = inode := rfl

theorem retime_setAttr (inode : Inode) : (retime boot m inode).setAttr op =
    retime boot ⟨m.access && op.setATime.isNone, m.modify && op.setMTime.isNone, false⟩ (inode.setAttr op) := by
  unfold retime Inode.setAttr
  cases op.setATime <;> cases op.setMTime <;> simp

theorem retime_update (inode : Inode) : (retime boot m inode).update op =
    retime boot ⟨m.access, m.modify && op.setMTime.isNone, false⟩ (inode.update op) := by
  unfold retime Inode.update
  cases op.setMTime <;> simp

theorem retime_relink (links : Int → Int) (now : Int) (inode : Inode) :
    ({ retime boot m inode with linkCount := links (retime boot m inode).linkCount } : Inode).touch now =
      retime boot m.touch ({ inode with linkCount := links inode.linkCount }.touch now) := rfl

theorem retime_write (inode : Inode) (now : Int) :
    (retime boot m inode).write op now = retime boot m.touch (inode.write op now) := rfl

/-- The inode at a key, recast. -/
def retimeAt (boot : Int) (m : Unwritten) (key : Bytes) (inode : Inode) : Inode :=
  if key = rootKey then retime boot m inode else inode

theorem get_recast (key : Bytes) :
    (recast boot m st).inodes.get key = (st.inodes.get key).map (retimeAt boot m key) := by
  show (st.inodes.adjust rootKey (retime boot m)).get key = _
  rw [OrdMap.get_adjust]
  cases st.inodes.get key with
  | none => rfl
  | some inode =>
    rw [Option.map_some, Option.map_some, retimeAt]
    split_ifs <;> rfl

theorem loadStoredInode_recast (key : Bytes) :
    (recast boot m st).loadStoredInode key = (st.loadStoredInode key).map (retimeAt boot m key) := by
  unfold Store.loadStoredInode
  rw [get_recast]
  cases st.inodes.get key <;> rfl

theorem retimeAt_type (key : Bytes) (inode : Inode) : (retimeAt boot m key inode).type = inode.type := by
  unfold retimeAt
  split <;> rfl

/-- An inode is written over one that was read, and its own times say what is left of the boot time. -/
theorem adjust_write (w : Inode → Inode) {written : Unwritten}
    (hw : ∀ inode, w (retime boot m inode) = retime boot written (w inode)) (left : Unwritten)
    (inodes : Bucket Inode) (key : Bytes) (inode : Inode) :
    (inodes.adjust rootKey (retime boot left)).insert key (w (retimeAt boot m key inode)) =
      (inodes.insert key (w inode)).adjust rootKey (retime boot (if key = rootKey then written else left)) := by
  refine OrdMap.ext_get fun k => ?_
  rw [OrdMap.get_insert, OrdMap.get_adjust, OrdMap.get_adjust, OrdMap.get_insert]
  by_cases hk : k = key
  · subst hk
    rw [if_pos rfl, if_pos rfl, Option.map_some, retimeAt]
    by_cases hroot : k = rootKey
    · rw [if_pos hroot, if_pos hroot, if_pos hroot, hw]
    · rw [if_neg hroot, if_neg hroot]
  · rw [if_neg hk, if_neg hk]
    by_cases hroot : k = rootKey
    · rw [if_neg fun heq => hk (hroot.trans heq.symm)]
    · simp only [if_neg hroot]

theorem adjust_new (inodes : Bucket Inode) (key : Bytes) (inode : Inode) :
    (inodes.adjust rootKey (retime boot m)).insert key inode =
      (inodes.insert key inode).adjust rootKey (retime boot (if key = rootKey then .nothing else m)) :=
  adjust_write (m := m) (fun _ => inode) (fun _ => (retime_nothing inode).symm) m inodes key inode

theorem adjust_erase (inodes : Bucket Inode) (key : Bytes) :
    (inodes.adjust rootKey (retime boot m)).erase key = (inodes.erase key).adjust rootKey (retime boot m) := by
  refine OrdMap.ext_get fun k => ?_
  rw [OrdMap.get_erase, OrdMap.get_adjust, OrdMap.get_adjust, OrdMap.get_erase]
  split <;> rfl

/-- A store that is another one in all but the boot time. -/
theorem eq_recast {st' : Store} (hinodes : st'.inodes = st.inodes.adjust rootKey (retime boot m))
    (hsuperblock : st'.superblock = st.superblock.map fun superblock => { superblock with createdAt := boot })
    (hrest : st' = { st with inodes := st'.inodes, superblock := st'.superblock }) : st' = recast boot m st := by
  rw [hrest, hinodes, hsuperblock]
  rfl

end Recast

/-! ## Recasting commutes with the appliers -/

section Appliers

variable (boot : Int) (m : Unwritten) (st : Store) (op : MetadataOperation)

theorem applySetAttr_recast : (recast boot m st).applySetAttr op = (st.applySetAttr op).map (recast boot
      (if keyOf op.inodeID = some rootKey then
        ⟨m.access && op.setATime.isNone, m.modify && op.setMTime.isNone, false⟩ else m)) := by
  unfold Store.applySetAttr
  rw [encodeInodeKey_keyOf]
  cases keyOf op.inodeID with
  | none => rfl
  | some key =>
    simp only [Option.elim, bind, Except.bind, loadStoredInode_recast, Option.some.injEq]
    cases st.loadStoredInode key with
    | error err => rfl
    | ok inode =>
      exact congrArg Except.ok
        (eq_recast (adjust_write (·.setAttr op) retime_setAttr m st.inodes key inode) rfl rfl)

theorem applyUpdateInode_recast : (recast boot m st).applyUpdateInode op = (st.applyUpdateInode op).map (recast boot
      (if keyOf op.inodeID = some rootKey then ⟨m.access, m.modify && op.setMTime.isNone, false⟩ else m)) := by
  unfold Store.applyUpdateInode
  rw [encodeInodeKey_keyOf]
  cases keyOf op.inodeID with
  | none => rfl
  | some key =>
    simp only [Option.elim, bind, Except.bind, loadStoredInode_recast, Option.some.injEq]
    cases st.loadStoredInode key with
    | error err => rfl
    | ok inode =>
      exact congrArg Except.ok
        (eq_recast (adjust_write (·.update op) retime_update m st.inodes key inode) rfl rfl)

/-- With a timestamp in the operation the clocks of the two nodes play no part. -/
theorem applyMetaUpdate_recast (hop : op.type = .updateInode) (hstamp : 0 < op.timestamp) (now now' : Int) :
    (recast boot m st).applyMetaUpdate now' (some op) = (st.applyMetaUpdate now (some op)).map (recast boot
      (if keyOf op.inodeID = some rootKey then m.touch else m)) := by
  have hclock : ∀ inode : Inode, inode.write op now' = inode.write op now := by
    intro inode
    simp only [Inode.write, if_pos hstamp]
  simp only [Store.applyMetaUpdate, if_neg (not_not.mpr hop), encodeInodeKey_keyOf]
  cases keyOf op.inodeID with
  | none => rfl
  | some key =>
    simp only [Option.elim, bind, Except.bind, loadStoredInode_recast, Option.some.injEq]
    cases st.loadStoredInode key with
    | error err => rfl
    | ok inode =>
      simp only [Except.map, hclock]
      exact congrArg Except.ok
        (eq_recast (adjust_write (·.write op now) (retime_write · now) m st.inodes key inode) rfl rfl)

theorem applyCreate_recast : (recast boot m st).applyCreate op = (st.applyCreate op).map (recast boot
      (if keyOf op.parentID = some rootKey then m.touch
      else if keyOf op.inodeID = some rootKey then .nothing else m)) := by
  unfold Store.applyCreate
  rw [encodeInodeKey_keyOf, encodeInodeKey_keyOf]
  cases keyOf op.parentID with
  | none => rfl
  | some parentKey =>
    cases keyOf op.inodeID with
    | none => rfl
    | some childKey =>
      simp only [Option.elim, bind, Except.bind, loadStoredInode_recast, Option.some.injEq]
      cases st.loadStoredInode parentKey with
      | error err => rfl
      | ok parent =>
        have hdentries : (recast boot m st).dentries = st.dentries := rfl
        simp only [Except.map, retimeAt_type, hdentries]
        split
        · rfl
        · split
          · rfl
          · refine congrArg Except.ok (eq_recast ?_ rfl rfl)
            refine (congrArg (OrdMap.insert · parentKey _) (adjust_new st.inodes childKey op.newInode)).trans ?_
            exact adjust_write
              (fun parent => ({ parent with linkCount := if op.fileType = .directory then parent.linkCount + 1
                else parent.linkCount } : Inode).touch op.timestamp)
              (retime_relink (fun links => if op.fileType = .directory then links + 1 else links) op.timestamp)
              _ _ parentKey parent

theorem applyRemove_recast : (recast boot m st).applyRemove op = (st.applyRemove op).map (recast boot
      (if keyOf op.parentID = some rootKey then m.touch else m)) := by
  unfold Store.applyRemove
  rw [encodeInodeKey_keyOf]
  cases keyOf op.parentID with
  | none => rfl
  | some parentKey =>
    have hdentries : (recast boot m st).dentries = st.dentries := rfl
    simp only [Option.elim, bind, Except.bind, loadStoredInode_recast, Option.some.injEq, hdentries]
    cases st.dentries.get (encodeDentryKey parentKey op.name) with
    | none => rfl
    | some childKey =>
      dsimp only
      cases st.loadStoredInode parentKey with
      | error err => rfl
      | ok parent =>
        cases st.loadStoredInode childKey with
        | error err => rfl
        | ok child =>
          refine congrArg Except.ok (eq_recast ?_ rfl rfl)
          show ((st.inodes.adjust rootKey (retime boot m)).erase childKey).insert parentKey _ = _
          rw [adjust_erase, retimeAt_type childKey child]
          exact adjust_write
            (fun parent => ({ parent with linkCount := if child.type = .directory then parent.linkCount - 1
              else parent.linkCount } : Inode).touch op.timestamp)
            (retime_relink (fun links => if child.type = .directory then links - 1 else links) op.timestamp)
            _ _ parentKey parent

theorem applyRename_recast : (recast boot m st).applyRename op = (st.applyRename op).map (recast boot
      (if keyOf op.parentID = some rootKey ∨ keyOf op.dstParentID = some rootKey then m.touch else m)) := by
  unfold Store.applyRename
  rw [encodeInodeKey_keyOf, encodeInodeKey_keyOf]
  cases keyOf op.parentID with
  | none => rfl
  | some srcKey =>
    cases keyOf op.dstParentID with
    | none => rfl
    | some dstKey =>
      have hdentries : (recast boot m st).dentries = st.dentries := rfl
      simp only [Option.elim, bind, Except.bind, loadStoredInode_recast, Option.some.injEq, hdentries]
      cases st.loadStoredInode srcKey with
      | error err => rfl
      | ok srcParent =>
        cases st.loadStoredInode dstKey with
        | error err => rfl
        | ok dstParent =>
          dsimp only [Except.map]
          cases st.dentries.get (encodeDentryKey srcKey op.name) with
          | none => rfl
          | some childKey =>
            refine congrArg Except.ok (eq_recast ?_ rfl rfl)
            have hmoved : ∀ inodes : Bucket Inode, ((inodes.adjust rootKey (retime boot m)).insert srcKey
                  ((retimeAt boot m srcKey srcParent).touch op.timestamp)).insert dstKey
                  ((retimeAt boot m dstKey dstParent).touch op.timestamp) =
                ((inodes.insert srcKey (srcParent.touch op.timestamp)).insert dstKey
                  (dstParent.touch op.timestamp)).adjust rootKey
                  (retime boot (if srcKey = rootKey ∨ dstKey = rootKey then m.touch else m)) := by
              intro inodes
              rw [adjust_write (·.touch op.timestamp) (retime_touch · op.timestamp) m inodes srcKey srcParent,
                adjust_write (·.touch op.timestamp) (retime_touch · op.timestamp) _ _ dstKey dstParent]
              by_cases hdst : dstKey = rootKey <;> simp [hdst]
            unfold Store.moveDentry
            dsimp only [recast]
            cases (st.dentries.erase (encodeDentryKey srcKey op.name)).get (encodeDentryKey dstKey op.dstName) with
            | none => exact hmoved st.inodes
            | some overwritten =>
              dsimp only
              rw [adjust_erase]
              exact hmoved (st.inodes.erase overwritten)

end Appliers

/-- The metadata half of a chunk intent carries a time of its own. -/
def Stamped : Command → Prop
  | some ⟨.chunkIntent, some op, _⟩ => op.type = .updateInode → 0 < op.timestamp
  | _ => True

/-- **Recasting commutes with every transaction**, and what one node rejects the other rejects with the
same error. -/
theorem applyTransaction_recast (boot : Int) (m : Unwritten) (st : Store) {data : Command}
    (hstamped : Stamped data) (now now' : Int) : (recast boot m st).applyTransaction now' data =
      (st.applyTransaction now data).map (recast boot (m.after data)) := by
  cases data with
  | none => rfl
  | some envelope =>
    obtain ⟨type, posixMeta, chunkIntent⟩ := envelope
    cases type with
    | other code => rfl
    | posixMeta =>
      cases posixMeta with
      | none => rfl
      | some op =>
        simp only [Store.applyTransaction, Store.applyStandardMetadata, Unwritten.after]
        cases op.type with
        | create => exact applyCreate_recast boot m st op
        | remove => exact applyRemove_recast boot m st op
        | rename => exact applyRename_recast boot m st op
        | setAttr => exact applySetAttr_recast boot m st op
        | updateInode => exact applyUpdateInode_recast boot m st op
        | other code => rfl
    | chunkIntent =>
      cases chunkIntent with
      | none => rfl
      | some intent =>
        cases posixMeta with
        | none => rfl
        | some op =>
          simp only [Store.applyTransaction, Store.applyChunkIntentAtomic, Unwritten.after]
          by_cases hop : op.type = .updateInode
          · rw [applyMetaUpdate_recast boot m st op hop (hstamped hop) now now']
            simp only [hop, true_and]
            cases st.applyMetaUpdate now (some op) <;> rfl
          · simp only [Store.applyMetaUpdate, hop, not_false_eq_true, if_true, false_and, if_false, ne_eq]
            rfl

/-! ## Whole logs -/

/-- What is left of the boot time after a sequence of calls. -/
def leftOver (m : Unwritten) (st : Store) : List (Int × Command) → Unwritten
  | [] => m
  | call :: calls =>
    leftOver (if (st.applyTransaction call.1 call.2).isOk then m.after call.2 else m)
      (st.after call.1 call.2) calls

/-- The envelopes of a log, as two nodes apply them by their own clocks. -/
abbrev Log := List (Int × Int × Command)

def Log.first (log : Log) : List (Int × Command) := log.map fun e => (e.1, e.2.2)

def Log.second (log : Log) : List (Int × Command) := log.map fun e => (e.2.1, e.2.2)

theorem after_recast (boot : Int) (m : Unwritten) (st : Store) {data : Command} (hstamped : Stamped data)
    (now now' : Int) : (recast boot m st).after now' data =
      recast boot (if (st.applyTransaction now data).isOk then m.after data else m) (st.after now data) := by
  unfold Store.after
  rw [applyTransaction_recast boot m st hstamped now now']
  cases st.applyTransaction now data <;> rfl

theorem afterAll_recast (boot : Int) (log : Log) : ∀ (m : Unwritten) (st : Store), (∀ e ∈ log, Stamped e.2.2) →
    (recast boot m st).afterAll log.second = recast boot (leftOver m st log.first) (st.afterAll log.first) := by
  induction log with
  | nil => exact fun _ _ _ => rfl
  | cons e log ih =>
    intro m st hstamped
    have hrest := ih (if (st.applyTransaction e.1 e.2.2).isOk then m.after e.2.2 else m) (st.after e.1 e.2.2)
      fun e' he' => hstamped e' (List.mem_cons_of_mem _ he')
    rw [← after_recast boot m st (hstamped e List.mem_cons_self) e.1 e.2.1] at hrest
    exact hrest

theorem boot_recast (bootA bootB : Int) : Store.boot bootB = recast bootB .all (Store.boot bootA) := by
  refine eq_recast ?_ rfl rfl
  show (∅ : Bucket Inode).insert rootKey (Store.rootInode bootB) =
    ((∅ : Bucket Inode).insert rootKey (Store.rootInode bootA)).adjust rootKey (retime bootB .all)
  refine OrdMap.ext_get fun k => ?_
  rw [OrdMap.get_adjust, OrdMap.get_insert, OrdMap.get_insert]
  by_cases hk : k = rootKey
  · rw [if_pos hk, if_pos hk, Option.map_some, if_pos hk]
    rfl
  · rw [if_neg hk, if_neg hk]
    rfl

/-! ## What the reads show -/

/-- Every read answers the same from both stores. -/
structure SameReads (st st' : Store) : Prop where
  getAttributes : ∀ inodeID, st.getAttributes inodeID = st'.getAttributes inodeID
  getInode : ∀ inodeID, st.getInode inodeID = st'.getInode inodeID
  lookup : ∀ parentInodeID name, st.lookup parentInodeID name = st'.lookup parentInodeID name
  lookupPath : ∀ path, st.lookupPath path = st'.lookupPath path
  readDir : ∀ inodeID cookie maxEntries,
    st.readDir inodeID cookie maxEntries = st'.readDir inodeID cookie maxEntries
  getFsInfo : st.getFsInfo = st'.getFsInfo
  getFsStat : st.getFsStat = st'.getFsStat

/-- The boot time is to be seen in the root, or nowhere. -/
theorem sameReads_recast (boot : Int) (m : Unwritten) (st : Store) : SameReads st (recast boot m st) ↔
      ∀ root, st.inodes.get rootKey = some root → retime boot m root = root := by
  constructor
  · intro h root hroot
    have hkey : encodeInodeKey "inode id" [48] = .ok rootKey := rfl
    have hattributes := h.getAttributes [48]
    simp only [Store.getAttributes, hkey, bind, Except.bind, loadStoredInode_recast] at hattributes
    simp only [Store.loadStoredInode, hroot, Except.map, pure, Except.pure, retimeAt, if_pos,
      Except.ok.injEq] at hattributes
    obtain ⟨-, -, -, -, haccess, hmodify, hchange, -, -⟩ := Attributes.mk.injEq .. ▸ hattributes
    dsimp only [retime] at haccess hmodify hchange ⊢
    rw [← haccess, ← hmodify, ← hchange]
  · intro hroot
    have hinodes : (recast boot m st).inodes = st.inodes := by
      refine OrdMap.ext_get fun k => ?_
      rw [get_recast]
      cases hk : st.inodes.get k with
      | none => rfl
      | some inode =>
        rw [Option.map_some, retimeAt]
        split
        · next hkey => rw [hroot inode (hkey ▸ hk)]
        · rfl
    have hsame : recast boot m st = { st with superblock := st.superblock.map ({ · with createdAt := boot }) } := by
      rw [← hinodes]
      rfl
    rw [hsame]
    refine ⟨fun _ => rfl, fun _ => rfl, fun _ _ => rfl, fun path => ?_, fun _ _ _ => rfl, ?_, ?_⟩
    · unfold Store.lookupPath Store.loadSuperblock
      cases st.superblock <;> rfl
    · unfold Store.getFsInfo Store.loadSuperblock
      cases st.superblock <;> rfl
    · unfold Store.getFsStat Store.loadSuperblock
      cases st.superblock <;> rfl

/-! ## Two nodes -/

/-- What `ApplyTransaction` returns. -/
def outcome : Except Raft.Err Store → Option Raft.Err
  | .ok _ => none
  | .error err => some err

/-- Two nodes have the same outcome for every envelope of a log. -/
def SameOutcomes (bootA bootB : Int) (log : Log) : Prop :=
  ∀ front e, front ++ [e] <+: log →
    outcome (((Store.boot bootA).afterAll (Log.first front)).applyTransaction e.1 e.2.2) =
      outcome (((Store.boot bootB).afterAll (Log.second front)).applyTransaction e.2.1 e.2.2)

theorem afterAll_second (bootA bootB : Int) {log : Log} (hstamped : ∀ e ∈ log, Stamped e.2.2) :
    (Store.boot bootB).afterAll log.second =
      recast bootB (leftOver .all (Store.boot bootA) log.first) ((Store.boot bootA).afterAll log.first) := by
  rw [boot_recast bootA bootB]
  exact afterAll_recast bootB log .all (Store.boot bootA) hstamped

theorem sameOutcomes (bootA bootB : Int) {log : Log} (hstamped : ∀ e ∈ log, Stamped e.2.2) :
    SameOutcomes bootA bootB log := by
  intro front e hfront
  have hmem : ∀ e' ∈ front ++ [e], Stamped e'.2.2 := fun e' he' => hstamped e' (hfront.subset he')
  have hlast : Stamped e.2.2 := hmem e (List.mem_append_right _ List.mem_cons_self)
  rw [afterAll_second bootA bootB fun e' he' => hmem e' (List.mem_append_left _ he'),
    applyTransaction_recast _ _ _ hlast e.1 e.2.1]
  cases Store.applyTransaction _ e.1 e.2.2 <;> rfl

/-- The times that are left over are the boot time. -/
theorem retime_own (boot : Int) {log : Log} (hstamped : ∀ e ∈ log, Stamped e.2.2) {root : Inode}
    (hroot : ((Store.boot boot).afterAll log.first).inodes.get rootKey = some root) :
    retime boot (leftOver .all (Store.boot boot) log.first) root = root := by
  -- the node beside itself, with its own clock twice
  have htwice := @afterAll_second boot boot (log.map fun e => (e.1, e.1, e.2.2)) (by
    intro e he
    obtain ⟨e', he', rfl⟩ := List.mem_map.mp he
    exact hstamped e' he')
  have hfirst : Log.first (log.map fun e => (e.1, e.1, e.2.2)) = log.first := by simp [Log.first]
  have hsecond : Log.second (log.map fun e => (e.1, e.1, e.2.2)) = log.first := by
    simp [Log.first, Log.second]
  rw [hfirst, hsecond] at htwice
  have hget := hroot
  rw [htwice, get_recast, hroot, Option.map_some, retimeAt, if_pos rfl] at hget
  exact Option.some_inj.mp hget

/-- An envelope that `replicateOp` or `CommitFileWrite` has made, by a clock that is past the epoch. -/
inductive Produced : Command → Prop
  | replicateOp (op : MetadataOperation) (now : Int) : Produced (replicateOp op now)
  | commitFileWrite (getInode : Except Raft.Err (Inode × List ChunkDescriptor)) (ctx : WriteContext)
      (newEOF mtime now : Int) (envelope : RaftCommandEnvelope) (hpast : 0 < mtime)
      (hok : Orchestrators.commitFileWrite getInode ctx newEOF mtime now = .ok envelope) : Produced (some envelope)

theorem Produced.stamped {data : Command} (h : Produced data) : Stamped data := by
  cases h with
  | replicateOp op now => trivial
  | commitFileWrite getInode ctx newEOF mtime now envelope hpast hok =>
    obtain ⟨inode, chunkList, -, rfl⟩ := commitFileWrite_ok hok
    exact fun _ => hpast

/-- **Two nodes answer alike after a log if and only if nothing is left of their boot times**: they booted
at the same time, or every time of the root has been written over, or the root is gone. -/
theorem reads_agree_iff (bootA bootB : Int) {log : Log} (hproduced : ∀ e ∈ log, Produced e.2.2) :
    (SameOutcomes bootA bootB log ∧
      SameReads ((Store.boot bootA).afterAll log.first) ((Store.boot bootB).afterAll log.second)) ↔
    bootA = bootB ∨ leftOver .all (Store.boot bootA) log.first = .nothing ∨
      ((Store.boot bootA).afterAll log.first).inodes.get rootKey = none := by
  have hstamped : ∀ e ∈ log, Stamped e.2.2 := fun e he => (hproduced e he).stamped
  rw [and_iff_right (sameOutcomes bootA bootB hstamped), afterAll_second bootA bootB hstamped, sameReads_recast]
  have hown : ∀ root, ((Store.boot bootA).afterAll log.first).inodes.get rootKey = some root →
      retime bootA (leftOver .all (Store.boot bootA) log.first) root = root :=
    fun root hroot => retime_own bootA hstamped hroot
  generalize leftOver .all (Store.boot bootA) log.first = m at hown ⊢
  constructor
  · intro h
    cases hroot : ((Store.boot bootA).afterAll log.first).inodes.get rootKey with
    | none => exact .inr (.inr rfl)
    | some root =>
      have hboth : retime bootB m root = retime bootA m root := (h root hroot).trans (hown root hroot).symm
      obtain ⟨access, modify, change⟩ := m
      have haccess := congrArg Inode.accessTime hboth
      have hmodify := congrArg Inode.modifyTime hboth
      have hchange := congrArg Inode.changeTime hboth
      cases access with
      | true => exact .inl haccess.symm
      | false =>
        cases modify with
        | true => exact .inl hmodify.symm
        | false =>
          cases change with
          | true => exact .inl hchange.symm
          | false => exact .inr (.inl rfl)
  · rintro (rfl | rfl | hnone) root hroot
    · exact hown root hroot
    · exact retime_nothing root
    · cases hnone.symm.trans hroot

section Demo

/-- A file is made in the root, gets its first chunk, and the times of the root are set. -/
def settingLog : Log :=
  [(0, 0, replicateOp (createOp [49] [48] [102] .file 0o644 0 0) 5),
    (0, 7, some (commitEnvelope ⟨[1], [2], [], true⟩
      (metaUpdate (createOp [49] [48] [102] .file 0o644 0 0).newInode [] ⟨[1], [2], [], true⟩ 3 6) 6)),
    (0, 0, replicateOp { type := .setAttr, inodeID := [48], setATime := some 8, setMTime := some 8 } 8)]

theorem reads_agree_setting :
    SameReads ((Store.boot 1).afterAll settingLog.first) ((Store.boot 2).afterAll settingLog.second) := by
  have hproduced : ∀ e ∈ settingLog, Produced e.2.2 := by
    intro e he
    simp only [settingLog, List.mem_cons, List.not_mem_nil, or_false] at he
    rcases he with rfl | rfl | rfl
    · exact .replicateOp _ _
    · exact .commitFileWrite (.ok ((createOp [49] [48] [102] .file 0o644 0 0).newInode, [])) _ _ _ _ _
        (by decide) rfl
    · exact .replicateOp _ _
  exact ((reads_agree_iff 1 2 hproduced).mpr (.inr (.inl (by decide +kernel)))).2

/-- A file is made in the root. -/
def creatingLog : Log := [(0, 0, replicateOp (createOp [49] [48] [102] .file 0o644 0 0) 5)]

/-- Both nodes apply it, and the root keeps the access time of each one's own `Recover`. -/
theorem root_times_differ :
    (∀ e ∈ creatingLog, Produced e.2.2) ∧
      (((Store.boot 1).afterAll creatingLog.first).getAttributes [48]).map (·.accessTime) = .ok 1 ∧
      (((Store.boot 2).afterAll creatingLog.second).getAttributes [48]).map (·.accessTime) = .ok 2 ∧
      ¬ SameReads ((Store.boot 1).afterAll creatingLog.first) ((Store.boot 2).afterAll creatingLog.second) := by
  have hone : (((Store.boot 1).afterAll creatingLog.first).getAttributes [48]).map (·.accessTime) = .ok 1 := by
    decide +kernel
  have htwo : (((Store.boot 2).afterAll creatingLog.second).getAttributes [48]).map (·.accessTime) = .ok 2 := by
    decide +kernel
  refine ⟨?_, hone, htwo, fun h => ?_⟩
  · intro e he
    rw [List.mem_singleton.mp he]
    exact .replicateOp _ _
  · rw [h.getAttributes [48], htwo] at hone
    cases hone

end Demo

end Sandstore.Orchestrators
