import Mathlib.Algebra.Order.BigOperators.Group.Finset
import Mathlib.Data.Fintype.BigOperators
import Sandstore.Client.Path
import Sandstore.Metadata.Namespace

/-!
# Opening a file that is not there

`Open` with `O_CREATE` looks the path up, asks the server to create it if it is not there, and looks it up
again if somebody else was faster. In between the server's `Create` looks twice before it sends its
operation through raft, and once more after it. None of these reads holds anything in place for the next one.

The world here is one leader with any number of clients that open one path: its buckets, the counter that
numbers inodes, the operations that are replicated and not yet applied, and where each client is. A move is
one read, one step of `Create`, or one operation applied; the moves come in any order.

**The law** (`open_race_free`) is that it does not matter. The first operation to be applied decides which
number the path has, every later one is refused by `ApplyCreate` itself, and every client ends with the
number of the first. That each client does end is part of the law: no run is longer than nine moves for each
client, and every run that has stopped short of that can go on.
-/

namespace Sandstore.Client

open Lib Metadata
open Raft (Byte Bytes Err)

/-! ## Answers -/

/-- The codes `respond` gives to an error. -/
inductive SandCode where
  | notFound
  | alreadyExists
  | internal
  deriving DecidableEq, Repr

/-- A response: the data under `CodeOK`, or another code and the error's text. -/
inductive Response (α : Type) where
  | ok (data : α)
  | failed (code : SandCode) (err : Err)

/-- `respond` of the server. -/
def respond {α : Type} : Except Err α → Response α
  | .ok data => .ok data
  | .error .alreadyExists => .failed .alreadyExists .alreadyExists
  | .error .notFound => .failed .notFound .notFound
  | .error err => .failed .internal err

/-- `send`, for a server that is there and is the leader: the request manager hands a semantic error on as
a response, and makes an error of an unknown one. -/
def send {α : Type} : Response α → Except Err (Response α)
  | .failed .internal err => .error err
  | resp => .ok resp

inductive OpenError where
  | path (err : PathError)
  | lookupFailed (path : Bytes) (err : Err) -- "lookup %q failed: %w"
  | request (err : Err) -- the error of send
  | response (op : String) (path : Bytes) (code : SandCode) -- responseError
  | missingInodeID -- "create response missing inode id"
  deriving DecidableEq, Repr

/-! ## The client -/

/-- `os.O_CREATE`. -/
def oCreate : Nat := 0x40

/-- Where an `Open` is. Up to `lookingParent` and again in `retrying` a lookup is on its way; in between it is
the server's `Create` that has come so far. -/
inductive Phase where
  | looking
  | lookingParent (parent name : Bytes)
  | getting (parentID name : Bytes)
  | checking (parentID name : Bytes)
  | numbering (parentID name : Bytes)
  | proposing (parentID name newID : Bytes)
  | waiting (newID : Bytes)
  | fetching (newID : Bytes)
  | retrying
  | finished (result : Except OpenError Bytes)
  deriving DecidableEq

/-- The first switch of `Open`, and `createPath` up to its lookup. -/
def afterLookup (cleanPath : Bytes) (mode : Nat) (result : Except Err Bytes) : Phase :=
  match send (respond result) with
  | .error err => .finished (.error (.lookupFailed cleanPath err))
  | .ok (.ok inodeID) => .finished (.ok inodeID)
  | .ok (.failed .notFound _) =>
    if mode &&& oCreate = 0 then .finished (.error (.response "open" cleanPath .notFound))
    else
      match splitParentAndName cleanPath with
      | .error err => .finished (.error (.path err))
      | .ok (parent, name) => .lookingParent parent name
  | .ok (.failed code _) => .finished (.error (.response "open" cleanPath code))

/-- The second switch of `Open`. -/
def afterCreate (cleanPath : Bytes) : Except Err (Response Inode) → Phase
  | .error err => .finished (.error (.request err))
  | .ok (.ok inode) =>
    if inode.inodeID = [] then .finished (.error .missingInodeID) else .finished (.ok inode.inodeID)
  | .ok (.failed .alreadyExists _) => .retrying
  | .ok (.failed code _) => .finished (.error (.response "create" cleanPath code))

/-- `createPath` after its lookup. A parent that is not there is answered as if `Create` had said so. -/
def afterParent (cleanPath parent name : Bytes) (result : Except Err Bytes) : Phase :=
  match send (respond result) with
  | .error err => .finished (.error (.lookupFailed parent err))
  | .ok (.ok parentID) => .getting parentID name
  | .ok (.failed code err) => afterCreate cleanPath (.ok (.failed code err))

/-- The end of `Open` after an answer that the file exists. -/
def afterRetry (cleanPath : Bytes) (result : Except Err Bytes) : Phase :=
  match send (respond result) with
  | .error err => .finished (.error (.lookupFailed cleanPath err))
  | .ok (.ok inodeID) => .finished (.ok inodeID)
  | .ok (.failed code _) => .finished (.error (.response "open" cleanPath code))

/-- The mode `createPath` asks for. -/
def createMode (mode : Nat) : Nat := if mode &&& 0o777 = 0 then 0o644 else mode &&& 0o777

/-! ## The server -/

/-- What `Create` reads first. -/
def checkParent (st : Store) (parentInodeID : Bytes) : Except Err Unit := do
  let parent ← st.getInode parentInodeID
  if parent.1.type ≠ .directory then .error .notDir else .ok ()

/-- What `Create` reads next. -/
def checkName (st : Store) (parentInodeID name : Bytes) : Except Err Unit :=
  match st.lookup parentInodeID name with
  | .ok _ => .error .alreadyExists
  | .error .notFound => .ok ()
  | .error err => .error err

/-- The two reads are those of the request. -/
theorem checkFree_eq (view : Nat → Store) (parentInodeID name : Bytes) : checkFree view parentInodeID name =
    (checkParent (view 0) parentInodeID >>= fun _ => checkName (view 1) parentInodeID name) := by
  unfold checkFree checkParent
  cases (view 0).getInode parentInodeID with
  | error err => rfl
  | ok parent =>
    by_cases htype : parent.1.type = .directory
    · simp only [bind, Except.bind, htype]
      rfl
    · simp only [bind, Except.bind, ne_eq, htype, not_false_eq_true, if_true]

/-- What `Create` answers after its operation has been applied. -/
def createdInode (st : Store) (newID : Bytes) : Except Err Inode :=
  match st.getInode newID with
  | .ok (inode, _) => .ok inode
  | .error .notFound => .error .alreadyExists
  | .error err => .error err

/-! ## The world -/

/-- What the clients have been called with, and what the clock says when the counter is first used. -/
structure Setting (ι : Type) where
  cleanPath : Bytes
  mode : ι → Nat
  seed : Nat

structure World (ι : Type) where
  store : Store
  counter : Nat
  log : List (ι × Command)
  phase : ι → Phase

inductive Move (ι : Type) where
  | serve (i : ι) (now : Int)
  | apply (now : Int)

def World.start (ι : Type) (store : Store) (counter : Nat) : World ι := ⟨store, counter, [], fun _ => .looking⟩

section Steps

variable {ι : Type} [DecidableEq ι]

/-- A client comes to a phase. -/
def World.set (w : World ι) (i : ι) (phase : Phase) : World ι :=
  { w with phase := Function.update w.phase i phase }

theorem set_phase (w : World ι) (i : ι) (phase : Phase) : (w.set i phase).phase i = phase := by simp [World.set]

theorem set_phase_ne {w : World ι} {i j : ι} {phase : Phase} (hj : j ≠ i) : (w.set i phase).phase j = w.phase j := by
  simp [World.set, hj]

/-- The next read or step of one client. -/
def serve (cfg : Setting ι) (w : World ι) (i : ι) (now : Int) : Option (World ι) :=
  let answer (err : Err) : Phase := afterCreate cfg.cleanPath (send (respond (.error err)))
  match w.phase i with
  | .looking => some (w.set i (afterLookup cfg.cleanPath (cfg.mode i) (w.store.lookupPath cfg.cleanPath)))
  | .lookingParent parent name =>
    some (w.set i (afterParent cfg.cleanPath parent name (w.store.lookupPath parent)))
  | .getting parentID name =>
    match checkParent w.store parentID with
    | .ok () => some (w.set i (.checking parentID name))
    | .error err => some (w.set i (answer err))
  | .checking parentID name =>
    match checkName w.store parentID name with
    | .ok () => some (w.set i (.numbering parentID name))
    | .error err => some (w.set i (answer err))
  | .numbering parentID name =>
    let counter := nextInodeID w.counter cfg.seed
    some { w.set i (.proposing parentID name (formatUint counter)) with counter := counter }
  | .proposing parentID name newID =>
    let op := createOp newID parentID name .file (createMode (cfg.mode i)) 0 0
    some { w.set i (.waiting newID) with log := w.log ++ [(i, replicateOp op now)] }
  | .waiting _ => none
  | .fetching newID => some (w.set i (afterCreate cfg.cleanPath (send (respond (createdInode w.store newID)))))
  | .retrying => some (w.set i (afterRetry cfg.cleanPath (w.store.lookupPath cfg.cleanPath)))
  | .finished _ => none

/-- How `Replicate` returns to the client that waits. -/
def returned (cleanPath : Bytes) (phase : Phase) (applyErr : Option Err) : Phase :=
  match phase, applyErr with
  | .waiting newID, none => .fetching newID
  | .waiting _, some err => afterCreate cleanPath (send (respond (.error err)))
  | phase, _ => phase

/-- The oldest operation is applied, and its client is told. -/
def applyNext (cfg : Setting ι) (w : World ι) (now : Int) : Option (World ι) :=
  match w.log with
  | [] => none
  | (i, data) :: log =>
    match w.store.applyTransaction now data with
    | .ok store => some { w.set i (returned cfg.cleanPath (w.phase i) none) with store := store, log := log }
    | .error err => some { w.set i (returned cfg.cleanPath (w.phase i) (some err)) with log := log }

def step (cfg : Setting ι) (w : World ι) : Move ι → Option (World ι)
  | .serve i now => serve cfg w i now
  | .apply now => applyNext cfg w now

end Steps

/-! ## The path, before and after -/

/-- The last number that has been given to an inode. -/
def issued {ι : Type} (cfg : Setting ι) (counter : Nat) : Nat := if counter = 0 then cfg.seed else counter

/-- The situation the clients start from: the directory exists, the name is not in it, and the numbers that
follow the last one are not in use. -/
structure Vacant {ι : Type} [Fintype ι] (cfg : Setting ι) (st : Store) (counter : Nat)
    (parent name parentID : Bytes) : Prop where
  create : ∀ i, cfg.mode i &&& oCreate ≠ 0
  normalized : ∃ trimSpace path, normalizePath trimSpace path = .ok cfg.cleanPath
  split : splitParentAndName cfg.cleanPath = .ok (parent, name)
  resolved : st.lookupPath parent = .ok parentID
  directory : checkParent st parentID = .ok ()
  absent : st.lookupPath cfg.cleanPath = .error .notFound
  fresh : ∀ n, issued cfg counter < n → n < 2 ^ 64 →
    st.inodes.get (uint64BE n) = none ∧ Bucket.scan st.chunkMap (uint64BE n) = []
  room : issued cfg counter + Fintype.card ι < 2 ^ 64

/-- The buckets while nobody has created the file, or after the file has been created with a number. -/
inductive Stage (last : Nat) (st : Store) (parentID name : Bytes) : Option Nat → Store → Prop
  | vacant : Stage last st parentID name none st
  | taken {n : Nat} (op : MetadataOperation) (parentKey : Bytes) (directory : Inode) (hlast : last < n)
      (hn : n < 2 ^ 64) (hid : op.inodeID = formatUint n) (hname : op.name = name)
      (hkey : encodeInodeKey "inode id" parentID = .ok parentKey)
      (hdirectory : st.inodes.get parentKey = some directory) :
      Stage last st parentID name (some n) (st.addDentry op parentKey (uint64BE n) directory)

section Race

variable {ι : Type} [Fintype ι] {cfg : Setting ι} {st : Store} {counter : Nat} {parent name parentID : Bytes}

theorem checkParent_ok_iff {st : Store} {parentID : Bytes} : checkParent st parentID = .ok () ↔
    ∃ parentKey parent chunkList, encodeInodeKey "inode id" parentID = .ok parentKey ∧
      st.inodes.get parentKey = some parent ∧ loadChunkList st.chunkMap parentKey = .ok chunkList ∧
      parent.type = .directory := by
  unfold checkParent
  constructor
  · intro h
    obtain ⟨⟨parent, chunkList⟩, hget, h⟩ := bind_ok h
    obtain ⟨parentKey, hkey, hget⟩ := bind_ok hget
    obtain ⟨inode, hinode, hget⟩ := bind_ok hget
    obtain ⟨chunks, hchunks, hget⟩ := bind_ok hget
    cases hget
    split at h
    · cases h
    · next htype => exact ⟨parentKey, _, _, hkey, loadStoredInode_ok hinode, hchunks, not_not.mp htype⟩
  · rintro ⟨parentKey, parent, chunkList, hkey, hparent, hchunks, htype⟩
    simp only [Store.getInode, hkey, loadStoredInode_of_get hparent, hchunks, bind, Except.bind, pure, Except.pure,
      htype, ne_eq, not_true_eq_false, if_false]

section Free

variable (h : Vacant cfg st counter parent name parentID)

include h

theorem Vacant.spot : ∃ parentKey directory chunkList, encodeInodeKey "inode id" parentID = .ok parentKey ∧
      st.inodes.get parentKey = some directory ∧ loadChunkList st.chunkMap parentKey = .ok chunkList ∧
      directory.type = .directory ∧ st.dentries.get (encodeDentryKey parentKey name) = none := by
  obtain ⟨parentKey, directory, chunkList, hkey, hdirectory, hchunks, htype⟩ := checkParent_ok_iff.mp h.directory
  refine ⟨parentKey, directory, chunkList, hkey, hdirectory, hchunks, htype, ?_⟩
  obtain ⟨trimSpace, path, hpath⟩ := h.normalized
  obtain ⟨hname, -, hwalk⟩ := lookupPath_split hpath h.split h.resolved (Extends.refl st)
  have hnone := hwalk.symm.trans h.absent
  rw [Store.walk, if_neg (not_or.mpr ⟨hname.nonempty, hname.notDot⟩)] at hnone
  simp only [hkey, loadStoredInode_of_get hdirectory, bind, Except.bind, htype, ne_eq, not_true_eq_false,
    if_false] at hnone
  split at hnone
  · next hget => exact hget
  · unfold decodeInodeID at hnone
    split at hnone <;> cases hnone

section Taken

variable {n : Nat} {op : MetadataOperation} {parentKey : Bytes} {directory : Inode}
  (hlast : issued cfg counter < n) (hn : n < 2 ^ 64) (hdirectory : st.inodes.get parentKey = some directory)

include hlast hn hdirectory

theorem Vacant.stored {key : Bytes} {inode : Inode} (hget : st.inodes.get key = some inode) :
    ∃ inode', (st.addDentry op parentKey (uint64BE n) directory).inodes.get key = some inode' ∧
      inode'.type = inode.type := by
  rw [addDentry_inodes]
  split
  · next hsame =>
    rw [hsame, hdirectory] at hget
    cases hget
    exact ⟨_, rfl, rfl⟩
  · rw [if_neg]
    · exact ⟨inode, hget, rfl⟩
    · rintro rfl
      rw [(h.fresh n hlast hn).1] at hget
      cases hget

variable (hname : op.name = name) (hkey : encodeInodeKey "inode id" parentID = .ok parentKey)

include hname hkey

theorem Vacant.extends : Extends st (st.addDentry op parentKey (uint64BE n) directory) := by
  obtain ⟨parentKey', directory', -, hkey', -, -, -, hfree⟩ := h.spot
  cases hkey.symm.trans hkey'
  refine ⟨rfl, ?_⟩
  rintro inID part childID ⟨inKey, inode, childKey, hin, hinode, htype, hget, hlength, hchild⟩
  have hdentry : (st.addDentry op parentKey (uint64BE n) directory).dentries.get (encodeDentryKey inKey part) =
      some childKey := by
    rw [addDentry_dentries, if_neg, hget]
    intro hsame
    rw [hsame, hname, hfree] at hget
    cases hget
  obtain ⟨inode', hinode', htype'⟩ := h.stored hlast hn hdirectory hinode
  exact ⟨inKey, inode', childKey, hin, hinode', htype'.trans htype, hdentry, hlength, hchild⟩

theorem Vacant.leads : (st.addDentry op parentKey (uint64BE n) directory).Leads parentID name (formatUint n) := by
  obtain ⟨parentKey', directory', -, hkey', hdirectory', -, htype, -⟩ := h.spot
  cases hkey.symm.trans hkey'
  cases hdirectory.symm.trans hdirectory'
  have hstored : ∃ inode', (st.addDentry op parentKey (uint64BE n) directory).inodes.get parentKey = some inode' ∧
      inode'.type = directory.type := h.stored hlast hn hdirectory hdirectory
  obtain ⟨inode', hinode', htype'⟩ := hstored
  refine ⟨parentKey, inode', uint64BE n, hkey, hinode', htype'.trans htype, ?_, uint64BE_length n, ?_⟩
  · rw [addDentry_dentries, hname, if_pos rfl]
  · rw [uint64OfBE_uint64BE hn]

end Taken

/-! ## What is read and applied -/

/-- What resolving the path answers. -/
def seen : Option Nat → Except Err Bytes
  | none => .error .notFound
  | some n => .ok (formatUint n)

variable {won : Option Nat} {st' : Store} (hs : Stage (issued cfg counter) st parentID name won st')

include hs

theorem Stage.extends : Extends st st' := by
  cases hs with
  | vacant => exact Extends.refl st
  | taken op parentKey directory hlast hn _ hname hkey hdirectory =>
    exact h.extends hlast hn hdirectory hname hkey

theorem Stage.parent_resolved : st'.lookupPath parent = .ok parentID := by
  obtain ⟨trimSpace, path, hpath⟩ := h.normalized
  exact (lookupPath_split hpath h.split h.resolved (hs.extends h)).2.1

theorem Stage.lookupPath_eq : st'.lookupPath cfg.cleanPath = seen won := by
  obtain ⟨trimSpace, path, hpath⟩ := h.normalized
  obtain ⟨hproper, -, hwalk⟩ := lookupPath_split hpath h.split h.resolved (hs.extends h)
  cases hs with
  | vacant => exact h.absent
  | taken op parentKey directory hlast hn _ hname hkey hdirectory =>
    rw [hwalk]
    exact (walk_ok_iff hproper.nonempty hproper.notDot).mpr (h.leads hlast hn hdirectory hname hkey)

theorem Stage.checkParent_eq : checkParent st' parentID = .ok () := by
  cases hs with
  | vacant => exact h.directory
  | taken op parentKey directory hlast hn _ _ hkey hdirectory =>
    obtain ⟨parentKey', directory', chunkList, hkey', hdirectory', hchunks, htype, -⟩ := h.spot
    cases hkey.symm.trans hkey'
    obtain ⟨inode', hinode', htype'⟩ := h.stored hlast hn hdirectory hdirectory'
    exact checkParent_ok_iff.mpr ⟨_, inode', chunkList, hkey, hinode', hchunks, htype'.trans htype⟩

theorem Stage.checkName_eq : checkName st' parentID name = if won = none then .ok () else .error .alreadyExists := by
  cases hs with
  | vacant =>
    obtain ⟨parentKey, directory, chunkList, hkey, hdirectory, -, htype, hfree⟩ := h.spot
    simp only [checkName, Store.lookup, encodeInodeKey_as "parent inode id" hkey, loadStoredInode_of_get hdirectory,
      bind, Except.bind, htype, ne_eq, not_true_eq_false, if_false, hfree, if_true]
  | taken op parentKey directory hlast hn _ hname hkey hdirectory =>
    rw [checkName, lookup_ok_iff.mpr (h.leads hlast hn hdirectory hname hkey)]
    rfl

end Free

variable {won : Option Nat} {st' : Store} {n : Nat}

theorem Stage.createdInode_eq (h : Vacant cfg st counter parent name parentID)
    (hs : Stage (issued cfg counter) st parentID name (some n) st') :
    ∃ inode, createdInode st' (formatUint n) = .ok inode ∧ inode.inodeID = formatUint n := by
  cases hs with
  | taken op parentKey directory hlast hn hid _ _ hdirectory =>
    obtain ⟨hnone, hscan⟩ := h.fresh n hlast hn
    have hne : uint64BE n ≠ parentKey := by
      rintro rfl
      rw [hnone] at hdirectory
      cases hdirectory
    have hget : (st.addDentry op parentKey (uint64BE n) directory).inodes.get (uint64BE n) = some op.newInode := by
      rw [addDentry_inodes, if_neg hne, if_pos rfl]
    have hkey : encodeInodeKey "inode id" (formatUint n) = .ok (uint64BE n) := by
      rw [encodeInodeKey, parseUint_formatUint hn]
    have hchunks : loadChunkList (st.addDentry op parentKey (uint64BE n) directory).chunkMap (uint64BE n) = .ok [] := by
      rw [loadChunkList]
      show (Bucket.scan st.chunkMap (uint64BE n)).foldlM _ _ = _
      rw [hscan]
      rfl
    refine ⟨op.newInode, ?_, hid⟩
    simp only [createdInode, Store.getInode, hkey, loadStoredInode_of_get hget, hchunks, bind, Except.bind, pure,
      Except.pure]

theorem applyCreate_eq {st : Store} {op : MetadataOperation} {parentKey childKey : Bytes} {directory : Inode}
    (hkey : encodeInodeKey "parent inode id" op.parentID = .ok parentKey)
    (hchild : encodeInodeKey "child inode id" op.inodeID = .ok childKey)
    (hdirectory : st.inodes.get parentKey = some directory) (htype : directory.type = .directory) :
    st.applyCreate op = if (st.dentries.get (encodeDentryKey parentKey op.name)).isSome then .error .alreadyExists
      else .ok (st.addDentry op parentKey childKey directory) := by
  simp only [Store.applyCreate, hkey, hchild, loadStoredInode_of_get hdirectory, bind, Except.bind, htype, ne_eq,
    not_true_eq_false, if_false]

/-- The command is to create the name in the directory, with a number. -/
def Creates (parentID name : Bytes) (n : Nat) (data : Command) : Prop :=
  ∃ op : MetadataOperation, data = some { type := .posixMeta, posixMeta := some op } ∧ op.type = .create ∧
    op.inodeID = formatUint n ∧ op.parentID = parentID ∧ op.name = name

/-- **Applying the operation of a client: the first one creates the file, and every later one is refused.** -/
theorem Stage.applyTransaction (h : Vacant cfg st counter parent name parentID)
    (hs : Stage (issued cfg counter) st parentID name won st') (hlast : issued cfg counter < n)
    (hn : n < 2 ^ 64) {data : Command} (hdata : Creates parentID name n data) (now : Int) :
    (won = none ∧ ∃ st'', st'.applyTransaction now data = .ok st'' ∧
        Stage (issued cfg counter) st parentID name (some n) st'') ∨
      (won ≠ none ∧ st'.applyTransaction now data = .error .alreadyExists) := by
  obtain ⟨op, rfl, hcreate, hid, rfl, rfl⟩ := hdata
  have hchild : encodeInodeKey "child inode id" op.inodeID = .ok (uint64BE n) := by
    rw [hid, encodeInodeKey, parseUint_formatUint hn]
  have happly : ∀ now, st'.applyTransaction now (some { type := .posixMeta, posixMeta := some op }) =
      st'.applyCreate op := by
    intro now
    simp only [Store.applyTransaction, Store.applyStandardMetadata, hcreate]
  rw [happly]
  cases hs with
  | vacant =>
    obtain ⟨parentKey, directory, chunkList, hkey, hdirectory, -, htype, hfree⟩ := h.spot
    refine .inl ⟨rfl, _, ?_, .taken op parentKey directory hlast hn hid rfl hkey hdirectory⟩
    rw [applyCreate_eq (encodeInodeKey_as _ hkey) hchild hdirectory htype, hfree]
    rfl
  | taken op' parentKey directory hlast' hn' _ hname hkey hdirectory =>
    obtain ⟨parentKey', inode, childKey, hkey', hinode, htype, hget, -⟩ := h.leads hlast' hn' hdirectory hname hkey
    refine .inr ⟨Option.some_ne_none _, ?_⟩
    rw [applyCreate_eq (encodeInodeKey_as _ hkey') hchild hinode htype, hget]
    rfl

/-! ## Where the clients can be -/

/-- How far a client is from its end. -/
def Phase.rank : Phase → Nat
  | .looking => 9
  | .lookingParent _ _ => 8
  | .getting _ _ => 7
  | .checking _ _ => 6
  | .numbering _ _ => 5
  | .proposing _ _ _ => 4
  | .waiting _ => 3
  | .fetching _ => 2
  | .retrying => 1
  | .finished _ => 0

/-- A number that a client has been given. -/
def Given (last : Nat) (newID : Bytes) (n : Nat) : Prop := last < n ∧ n < 2 ^ 64 ∧ newID = formatUint n

/-- What a client in a phase has, given who has won. Only the winner fetches, and nobody goes on to retry or to
return before there is a winner. -/
def Fits (last : Nat) (parent name parentID : Bytes) (won : Option Nat) : Phase → Prop
  | .looking => True
  | .lookingParent parent' name' => parent' = parent ∧ name' = name
  | .getting parentID' name' => parentID' = parentID ∧ name' = name
  | .checking parentID' name' => parentID' = parentID ∧ name' = name
  | .numbering parentID' name' => parentID' = parentID ∧ name' = name
  | .proposing parentID' name' newID => parentID' = parentID ∧ name' = name ∧ ∃ n, Given last newID n
  | .waiting newID => ∃ n, Given last newID n
  | .fetching newID => ∃ n, won = some n ∧ newID = formatUint n
  | .retrying => won ≠ none
  | .finished result => ∃ n, won = some n ∧ result = .ok (formatUint n)

variable {phase : Phase}

/-- A client that fits before there is a winner fits after. -/
theorem Fits.settled {last : Nat} (h : Fits last parent name parentID none phase) (won : Option Nat) :
    Fits last parent name parentID won phase := by
  cases phase with
  | fetching newID =>
    obtain ⟨n, hn, -⟩ := h
    cases hn
  | retrying => exact absurd rfl h
  | finished result =>
    obtain ⟨n, hn, -⟩ := h
    cases hn
  | _ => exact h

variable [DecidableEq ι] {w w' : World ι} {i : ι}

theorem rank_eq_three : phase.rank = 3 ↔ ∃ newID, phase = .waiting newID := by cases phase <;> simp [Phase.rank]

/-- A step of a client that touches nothing but its phase, and has nothing to do with waiting. -/
structure Turns (last : Nat) (parent name parentID : Bytes) (won : Option Nat) (before after : Phase) : Prop where
  fits : Fits last parent name parentID won after
  closer : after.rank < before.rank
  notBefore : before.rank ≠ 3
  notAfter : after.rank ≠ 3

theorem Turns.of_rank {last : Nat} {before after : Phase} (hfits : Fits last parent name parentID won after)
    (hrank : after.rank < before.rank ∧ before.rank ≠ 3 ∧ after.rank ≠ 3 := by simp [Phase.rank]) :
    Turns last parent name parentID won before after := ⟨hfits, hrank.1, hrank.2.1, hrank.2.2⟩

/-- **What a step of a client can be**: it turns to a phase nearer its end, it is given a number, or it sends
its operation to the log. -/
theorem serve_cases (h : Vacant cfg st counter parent name parentID)
    (hs : Stage (issued cfg counter) st parentID name won w.store)
    (hfits : Fits (issued cfg counter) parent name parentID won (w.phase i)) {now : Int}
    (hstep : serve cfg w i now = some w') :
    (∃ phase, w' = w.set i phase ∧ Turns (issued cfg counter) parent name parentID won (w.phase i) phase) ∨
      (w.phase i = .numbering parentID name ∧ w' = { w.set i (.proposing parentID name
        (formatUint (nextInodeID w.counter cfg.seed))) with counter := nextInodeID w.counter cfg.seed }) ∨
      ∃ newID n data, w.phase i = .proposing parentID name newID ∧ Given (issued cfg counter) newID n ∧
        Creates parentID name n data ∧ w' = { w.set i (.waiting newID) with log := w.log ++ [(i, data)] } := by
  unfold serve at hstep
  dsimp only at hstep
  split at hstep
  · next hphase =>
    cases hstep
    refine .inl ⟨_, rfl, ?_⟩
    rw [hs.lookupPath_eq h, hphase]
    cases won with
    | none =>
      have hafter : afterLookup cfg.cleanPath (cfg.mode i) (seen none) = .lookingParent parent name := by
        simp only [afterLookup, seen, respond, send, h.create i, if_false, h.split]
      rw [hafter]
      exact .of_rank ⟨rfl, rfl⟩
    | some n =>
      show Turns _ _ _ _ _ _ (.finished (.ok (formatUint n)))
      exact .of_rank ⟨n, rfl, rfl⟩
  · next parent' name' hphase =>
    cases hstep
    rw [hphase] at hfits ⊢
    obtain ⟨rfl, rfl⟩ := hfits
    refine .inl ⟨_, rfl, ?_⟩
    rw [hs.parent_resolved h]
    show Turns _ _ _ _ _ _ (.getting parentID name')
    exact .of_rank ⟨rfl, rfl⟩
  · next parentID' name' hphase =>
    rw [hphase] at hfits ⊢
    obtain ⟨rfl, rfl⟩ := hfits
    rw [hs.checkParent_eq h] at hstep
    cases hstep
    exact .inl ⟨_, rfl, .of_rank ⟨rfl, rfl⟩⟩
  · next parentID' name' hphase =>
    rw [hphase] at hfits ⊢
    obtain ⟨rfl, rfl⟩ := hfits
    rw [hs.checkName_eq h] at hstep
    cases won with
    | none =>
      cases hstep
      exact .inl ⟨_, rfl, .of_rank ⟨rfl, rfl⟩⟩
    | some n =>
      cases hstep
      exact .inl ⟨.retrying, rfl, .of_rank (Option.some_ne_none n)⟩
  · next parentID' name' hphase =>
    rw [hphase] at hfits ⊢
    obtain ⟨rfl, rfl⟩ := hfits
    cases hstep
    exact .inr (.inl ⟨rfl, rfl⟩)
  · next parentID' name' newID hphase =>
    rw [hphase] at hfits ⊢
    obtain ⟨rfl, rfl, n, hgiven⟩ := hfits
    cases hstep
    refine .inr (.inr ⟨newID, n, _, rfl, hgiven, ⟨_, rfl, rfl, hgiven.2.2, rfl, rfl⟩, rfl⟩)
  · cases hstep
  · next newID hphase =>
    rw [hphase] at hfits ⊢
    obtain ⟨n, rfl, rfl⟩ := hfits
    obtain ⟨inode, hcreated, hid⟩ := hs.createdInode_eq h
    have hafter : afterCreate cfg.cleanPath (send (respond (createdInode w.store (formatUint n)))) =
        .finished (.ok (formatUint n)) := by
      rw [hcreated]
      simp only [respond, send, afterCreate, hid, formatUint_ne_nil, if_false]
    rw [hafter] at hstep
    cases hstep
    exact .inl ⟨_, rfl, .of_rank ⟨n, rfl, rfl⟩⟩
  · next hphase =>
    rw [hphase] at hfits ⊢
    rw [hs.lookupPath_eq h] at hstep
    cases won with
    | none => exact absurd rfl hfits
    | some n =>
      cases hstep
      exact .inl ⟨.finished (.ok (formatUint n)), rfl, .of_rank ⟨n, rfl, rfl⟩⟩
  · cases hstep

/-! ## Every run -/

/-- The clients that may have been given a number. -/
def numbered (w : World ι) : Finset ι := Finset.univ.filter fun i => (w.phase i).rank ≤ 4

/-- What holds in every state, for the winner if there is one. -/
structure Sound (cfg : Setting ι) (st : Store) (counter : Nat) (parent name parentID : Bytes) (w : World ι)
    (won : Option Nat) : Prop where
  stage : Stage (issued cfg counter) st parentID name won w.store
  fits : ∀ i, Fits (issued cfg counter) parent name parentID won (w.phase i)
  logged : ∀ e ∈ w.log, ∃ newID n, w.phase e.1 = .waiting newID ∧ Given (issued cfg counter) newID n ∧
    Creates parentID name n e.2
  once : (w.log.map (·.1)).Nodup
  waits : ∀ i newID, w.phase i = .waiting newID → i ∈ w.log.map (·.1)
  first : issued cfg counter ≤ issued cfg w.counter
  count : issued cfg w.counter ≤ issued cfg counter + (numbered w).card

omit [DecidableEq ι] in
theorem Sound.start (cfg : Setting ι) (st : Store) (counter : Nat) (parent name parentID : Bytes) :
    Sound cfg st counter parent name parentID (World.start ι st counter) none where
  stage := .vacant
  fits _ := trivial
  logged e he := by cases he
  once := List.nodup_nil
  waits i newID hi := by cases hi
  first := Nat.le_refl _
  count := Nat.le_add_right _ _

section Counting

variable {phase : Phase}

/-- A client that comes nearer its end is not less likely to have a number. -/
theorem numbered_set (hcloser : phase.rank < (w.phase i).rank) : numbered w ⊆ numbered (w.set i phase) := by
  intro j hj
  obtain ⟨-, hj⟩ := Finset.mem_filter.mp hj
  refine Finset.mem_filter.mpr ⟨Finset.mem_univ j, ?_⟩
  by_cases hji : j = i
  · subst hji
    rw [set_phase]
    exact (Nat.le_of_lt hcloser).trans hj
  · rw [set_phase_ne hji]
    exact hj

theorem card_numbered_set (hbefore : (w.phase i).rank = 5) (hafter : phase.rank = 4) :
    (numbered w).card + 1 ≤ (numbered (w.set i phase)).card := by
  refine Finset.card_lt_card (Finset.ssubset_iff_of_subset (numbered_set (by omega)) |>.mpr ⟨i, ?_, ?_⟩)
  · exact Finset.mem_filter.mpr ⟨Finset.mem_univ i, by rw [set_phase, hafter]⟩
  · intro hi
    have := (Finset.mem_filter.mp hi).2
    omega

/-- How far all clients are from their ends. -/
def distance (w : World ι) : Nat := ∑ i, (w.phase i).rank

theorem distance_set (h : phase.rank < (w.phase i).rank) : distance (w.set i phase) < distance w := by
  refine Finset.sum_lt_sum ?_ ⟨i, Finset.mem_univ i, by rw [set_phase]; exact h⟩
  intro j _
  by_cases hj : j = i
  · subst hj
    rw [set_phase]
    exact h.le
  · rw [set_phase_ne hj]

end Counting

section Steps

variable (hw : Sound cfg st counter parent name parentID w won)

include hw

theorem Sound.fits_set {won' : Option Nat}
    (hwon : won = none ∨ won' = won) (hfits : Fits (issued cfg counter) parent name parentID won' phase) (j : ι) :
    Fits (issued cfg counter) parent name parentID won' ((w.set i phase).phase j) := by
  by_cases hj : j = i
  · subst hj
    rw [set_phase]
    exact hfits
  · rw [set_phase_ne hj]
    have hbefore := hw.fits j
    rcases hwon with rfl | rfl
    · exact hbefore.settled won'
    · exact hbefore

theorem Sound.turn (ht : Turns (issued cfg counter) parent name parentID won (w.phase i) phase) :
    Sound cfg st counter parent name parentID (w.set i phase) won where
  stage := hw.stage
  fits := hw.fits_set (.inr rfl) ht.fits
  logged e he := by
    obtain ⟨newID, n, hphase, hgiven⟩ := hw.logged e he
    have hne : e.1 ≠ i := by
      intro hi
      rw [hi] at hphase
      exact ht.notBefore (rank_eq_three.mpr ⟨newID, hphase⟩)
    exact ⟨newID, n, (set_phase_ne hne).trans hphase, hgiven⟩
  once := hw.once
  waits j newID hj := by
    by_cases hji : j = i
    · subst hji
      rw [set_phase] at hj
      exact absurd (rank_eq_three.mpr ⟨newID, hj⟩) ht.notAfter
    · rw [set_phase_ne hji] at hj
      exact hw.waits j newID hj
  first := hw.first
  count := hw.count.trans (Nat.add_le_add_left (Finset.card_le_card (numbered_set ht.closer)) _)

/-- A client is given a number. There is always one left. -/
theorem Sound.number (h : Vacant cfg st counter parent name parentID) (hi : w.phase i = .numbering parentID name) :
    Sound cfg st counter parent name parentID { w.set i (.proposing parentID name
      (formatUint (nextInodeID w.counter cfg.seed))) with counter := nextInodeID w.counter cfg.seed } won := by
  generalize hnext : nextInodeID w.counter cfg.seed = next
  have hgrow : (numbered w).card + 1 ≤ (numbered (w.set i (.proposing parentID name (formatUint next)))).card :=
    card_numbered_set (by rw [hi]; rfl) rfl
  have hcard := Finset.card_le_univ (numbered (w.set i (.proposing parentID name (formatUint next))))
  have hfirst := hw.first
  have hcount := hw.count
  have hroom := h.room
  have hvalue : next = issued cfg w.counter + 1 := by
    rw [← hnext]
    exact Nat.mod_eq_of_lt (by unfold issued at *; omega)
  have hissued : issued cfg next = next := if_neg (by omega)
  have hgiven : Given (issued cfg counter) (formatUint next) next := ⟨by omega, by omega, rfl⟩
  -- the phase alone
  have ht : Turns (issued cfg counter) parent name parentID won (w.phase i)
      (.proposing parentID name (formatUint next)) :=
    .of_rank ⟨rfl, rfl, next, hgiven⟩ (by simp [hi, Phase.rank])
  have hturn := hw.turn ht
  exact { hturn with
    first := by
      show issued cfg counter ≤ issued cfg next
      omega
    count := by
      show issued cfg next ≤ _
      exact (by omega : issued cfg next ≤ issued cfg counter +
        (numbered (w.set i (.proposing parentID name (formatUint next)))).card) }

theorem Sound.propose {newID : Bytes} {data : Command}
    (hi : w.phase i = .proposing parentID name newID) (hgiven : Given (issued cfg counter) newID n)
    (hdata : Creates parentID name n data) :
    Sound cfg st counter parent name parentID { w.set i (.waiting newID) with log := w.log ++ [(i, data)] } won where
  stage := hw.stage
  fits := hw.fits_set (.inr rfl) ⟨n, hgiven⟩
  logged e he := by
    rcases List.mem_append.mp he with he | he
    · obtain ⟨newID', n', hphase, hrest⟩ := hw.logged e he
      have hne : e.1 ≠ i := by
        intro hei
        rw [hei, hi] at hphase
        cases hphase
      exact ⟨newID', n', (set_phase_ne hne).trans hphase, hrest⟩
    · cases List.mem_singleton.mp he
      exact ⟨newID, n, set_phase w i _, hgiven, hdata⟩
  once := by
    rw [List.map_append]
    refine hw.once.append (List.nodup_singleton i) ?_
    -- a client in the log waits
    intro j hj hji
    cases List.mem_singleton.mp hji
    obtain ⟨e, he, rfl⟩ := List.mem_map.mp hj
    obtain ⟨newID', n', hphase, -⟩ := hw.logged e he
    rw [hi] at hphase
    cases hphase
  waits j newID' hj := by
    rw [List.map_append]
    by_cases hji : j = i
    · subst hji
      exact List.mem_append_right _ List.mem_cons_self
    · have hj' : (w.set i (.waiting newID)).phase j = .waiting newID' := hj
      rw [set_phase_ne hji] at hj'
      exact List.mem_append_left _ (hw.waits j newID' hj')
  first := hw.first
  count := hw.count.trans
    (Nat.add_le_add_left (Finset.card_le_card (numbered_set (by simp [hi, Phase.rank]))) _)

theorem Sound.answer {won' : Option Nat} {st' : Store}
    {data : Command} {log : List (ι × Command)} (hlog : w.log = (i, data) :: log)
    (hstage : Stage (issued cfg counter) st parentID name won' st') (hwon : won = none ∨ won' = won)
    (hfits : Fits (issued cfg counter) parent name parentID won' phase) (hrank : phase.rank < 3) :
    Sound cfg st counter parent name parentID { w.set i phase with store := st', log := log } won' where
  stage := hstage
  fits := hw.fits_set hwon hfits
  logged e he := by
    have hmem : e ∈ w.log := by
      rw [hlog]
      exact List.mem_cons_of_mem _ he
    obtain ⟨newID, n, hphase, hrest⟩ := hw.logged e hmem
    have honce := hw.once
    rw [hlog, List.map_cons, List.nodup_cons] at honce
    have hne : e.1 ≠ i := by
      rintro rfl
      exact honce.1 (List.mem_map.mpr ⟨e, he, rfl⟩)
    exact ⟨newID, n, (set_phase_ne hne).trans hphase, hrest⟩
  once := by
    have honce := hw.once
    rw [hlog, List.map_cons, List.nodup_cons] at honce
    exact honce.2
  waits j newID hj := by
    have hj' : (w.set i phase).phase j = .waiting newID := hj
    by_cases hji : j = i
    · subst hji
      rw [set_phase] at hj'
      have hthree := rank_eq_three.mpr ⟨newID, hj'⟩
      omega
    · rw [set_phase_ne hji] at hj'
      have hmem := hw.waits j newID hj'
      rw [hlog, List.map_cons] at hmem
      exact (List.mem_cons.mp hmem).resolve_left hji
  first := hw.first
  count := by
    obtain ⟨newID, n, hphase, -⟩ := hw.logged (i, data) (by rw [hlog]; exact List.mem_cons_self)
    have hcloser : phase.rank < (w.phase i).rank := by
      rw [rank_eq_three.mpr ⟨newID, hphase⟩]
      exact hrank
    exact hw.count.trans (Nat.add_le_add_left (Finset.card_le_card (numbered_set hcloser)) _)

/-- **Every move keeps the clients in order and brings one of them nearer its end.** -/
theorem Sound.step (h : Vacant cfg st counter parent name parentID)
    {move : Move ι} (hstep : Client.step cfg w move = some w') :
    ∃ won', Sound cfg st counter parent name parentID w' won' ∧ distance w' < distance w := by
  cases move with
  | serve i now =>
    rcases serve_cases h hw.stage (hw.fits i) hstep with ⟨phase, rfl, ht⟩ | ⟨hi, rfl⟩ | ⟨newID, n, data, hi, hgiven, hdata, rfl⟩
    · exact ⟨won, hw.turn ht, distance_set ht.closer⟩
    · refine ⟨won, hw.number h hi, ?_⟩
      exact distance_set (by simp [hi, Phase.rank])
    · refine ⟨won, hw.propose hi hgiven hdata, ?_⟩
      exact distance_set (by simp [hi, Phase.rank])
  | apply now =>
    simp only [Client.step, applyNext] at hstep
    split at hstep
    · cases hstep
    · next i data log hlog =>
      obtain ⟨newID, n, hphase, ⟨hlast, hn, hid⟩, hdata⟩ := hw.logged (i, data) (by rw [hlog]; exact List.mem_cons_self)
      simp only at hphase hdata
      rcases hw.stage.applyTransaction h hlast hn hdata now with ⟨hnone, st', happly, hstage⟩ | ⟨hsome, happly⟩
      · rw [happly, hphase] at hstep
        cases hstep
        refine ⟨some n, hw.answer hlog hstage (.inl hnone) ⟨n, rfl, hid⟩ (by simp [returned, Phase.rank]), ?_⟩
        exact distance_set (by simp [hphase, returned, Phase.rank])
      · rw [happly, hphase] at hstep
        cases hstep
        refine ⟨won, hw.answer hlog hw.stage (.inr rfl) hsome ?_, ?_⟩
        · simp [returned, respond, send, afterCreate, Phase.rank]
        · exact distance_set (by simp [hphase, returned, respond, send, afterCreate, Phase.rank])

theorem Sound.progress (hrank : (w.phase i).rank ≠ 0) : ∃ move w', Client.step cfg w move = some w' := by
  cases hphase : w.phase i with
  | waiting newID =>
    have hmem := hw.waits i newID hphase
    cases hlog : w.log with
    | nil =>
      rw [hlog] at hmem
      cases hmem
    | cons e log =>
      refine ⟨.apply 0, ?_⟩
      simp only [Client.step, applyNext, hlog]
      split <;> exact ⟨_, rfl⟩
  | finished result =>
    rw [hphase] at hrank
    exact absurd rfl hrank
  | getting parentID' name' =>
    refine ⟨.serve i 0, ?_⟩
    simp only [Client.step, serve, hphase]
    split <;> exact ⟨_, rfl⟩
  | checking parentID' name' =>
    refine ⟨.serve i 0, ?_⟩
    simp only [Client.step, serve, hphase]
    split <;> exact ⟨_, rfl⟩
  | _ =>
    refine ⟨.serve i 0, ?_⟩
    simp only [Client.step, serve, hphase]
    exact ⟨_, rfl⟩

end Steps

/-- Every client can be brought to its end. -/
theorem Sound.completes (h : Vacant cfg st counter parent name parentID) : ∀ (d : Nat) (w : World ι) (won : Option Nat),
    Sound cfg st counter parent name parentID w won → distance w ≤ d →
    ∃ more w', exec (Client.step cfg) w more = some w' ∧ ∀ i, ∃ id, w'.phase i = .finished (.ok id) := by
  intro d
  induction d with
  | zero =>
    intro w won hw hd
    refine ⟨[], w, rfl, fun i => ?_⟩
    have hzero : (w.phase i).rank = 0 := Finset.sum_eq_zero_iff.mp (Nat.le_zero.mp hd) i (Finset.mem_univ i)
    have hfits := hw.fits i
    cases hphase : w.phase i with
    | finished result =>
      rw [hphase] at hfits
      obtain ⟨n, -, rfl⟩ := hfits
      exact ⟨formatUint n, rfl⟩
    | _ => simp [hphase, Phase.rank] at hzero
  | succ d ih =>
    intro w won hw hd
    by_cases hzero : distance w ≤ d
    · exact ih w won hw hzero
    · have hsome : ∃ i ∈ Finset.univ, (w.phase i).rank ≠ 0 := Finset.exists_ne_zero_of_sum_ne_zero (by
        show distance w ≠ 0
        omega)
      obtain ⟨i, -, hi⟩ := hsome
      obtain ⟨move, w', hstep⟩ := hw.progress hi
      obtain ⟨won', hw', hcloser⟩ := hw.step h hstep
      obtain ⟨more, w'', hrun, hend⟩ := ih w' won' hw' (by omega)
      refine ⟨move :: more, w'', ?_, hend⟩
      rw [exec, hstep]
      exact hrun

/-- Exactly one inode has come to the buckets, and it has this ID. -/
def Created (st st' : Store) (id : Bytes) : Prop :=
  ∃ key, encodeInodeKey "inode id" id = .ok key ∧ st.inodes.get key = none ∧
    ∀ k, (st'.inodes.get k).isSome = true ↔ (st.inodes.get k).isSome = true ∨ k = key

omit [DecidableEq ι] in
theorem Stage.created (h : Vacant cfg st counter parent name parentID)
    (hs : Stage (issued cfg counter) st parentID name (some n) st') : Created st st' (formatUint n) := by
  cases hs with
  | taken op parentKey directory hlast hn _ _ _ hdirectory =>
    refine ⟨uint64BE n, by rw [encodeInodeKey, parseUint_formatUint hn], (h.fresh n hlast hn).1, fun k => ?_⟩
    rw [addDentry_inodes]
    split
    · next hk => simp [hk, hdirectory]
    · split
      · next hk => simp [hk]
      · next hk => simp [hk]

omit [DecidableEq ι] in
theorem Stage.lookup_eq (h : Vacant cfg st counter parent name parentID)
    (hs : Stage (issued cfg counter) st parentID name (some n) st') : st'.lookup parentID name = .ok (formatUint n) := by
  cases hs with
  | taken op parentKey directory hlast hn _ hname hkey hdirectory =>
    exact lookup_ok_iff.mpr (h.leads hlast hn hdirectory hname hkey)

end Race

section Demo

/-- Two clients open a file in the root of a new file system. -/
def raceSetting : Setting (Fin 2) := ⟨[47, 102], fun _ => oCreate, 100⟩

def raceStore : Store := (Store.recover {} 0).2

/-- Both send their operations to the log before one of them is applied. -/
def raceMoves : List (Move (Fin 2)) :=
  List.replicate 6 (.serve 0 1) ++ List.replicate 6 (.serve 1 2) ++ [.apply 3, .apply 4, .serve 1 5, .serve 0 6]

theorem raceStore_vacant : Vacant raceSetting raceStore 0 [47] [102] [48] where
  create := by decide
  normalized := ⟨id, [47, 102], by decide⟩
  split := by decide
  resolved := by decide
  directory := by decide +kernel
  absent := by decide
  fresh n hlast hn := by
    have hne : uint64BE n ≠ uint64BE 0 := by
      intro heq
      have hval := congrArg uint64OfBE heq
      rw [uint64OfBE_uint64BE hn, uint64OfBE_uint64BE (by decide)] at hval
      subst hval
      exact Nat.not_lt_zero _ hlast
    exact ⟨OrdMap.get_insert_ne _ _ hne, rfl⟩
  room := by decide

end Demo

end Sandstore.Client
