import Sandstore.Metadata.Dangling

/-!
# Removing directories under way

`Rmdir` looks up a name, asks whether what it leads to is a directory, asks whether that is empty, and
replicates the operation that `Remove` replicates. `ApplyRemove` asks none of this again. So what `Rmdir`
has seen is good for as long as nothing is applied that bears on it, and the other requests that are under
way know nothing of what it has seen.

A `Race` is the nodes with their copies, one log, and the calls under way, `Rename` among them. A call
reads its node's copy as often as its checks do, puts its operation at the end of the log, and returns what
the applier answers when its own node applies it; or it gives up at any time.

**The law** (`rmdir_empties`): where nothing is applied on a node that creates or renames an entry into the
directory that an `Rmdir` under way there has looked up, gives its name to something else, or its number to a new
inode, each `Rmdir` that returns nil has removed a directory, and one that was empty at the time.
-/

namespace Sandstore.Metadata

open Lib
open Raft (Byte Bytes Err NodeId)

/-! ## Calls -/

/-- The checks of `Rename`. -/
def checkRename (view : Nat → Store) (srcParentID srcName dstParentID : Bytes) : Except Err Unit := do
  let _ ← (view 0).lookup srcParentID srcName
  let dstParent ← (view 1).getInode dstParentID
  if dstParent.1.type ≠ .directory then .error .notDir else .ok ()

/-- A request of the ones before, or a `Rename`. -/
inductive Ask where
  | request (r : Request)
  | rename (srcParentID srcName dstParentID dstName : Bytes)
  deriving DecidableEq, Repr

def Ask.check (view : Nat → Store) (newID : Bytes) : Ask → Except Err MetadataOperation
  | .request r => r.check view newID
  | .rename srcParentID srcName dstParentID dstName => do
    checkRename view srcParentID srcName dstParentID
    return renameOp srcParentID srcName dstParentID dstName

/-- Where a call is: reading, waiting for the entry at an index, or back with its error. -/
inductive Stage where
  | checking
  | waiting (index : Nat)
  | returned (err : Option Err)
  deriving DecidableEq, Repr

structure Call where
  node : NodeId
  ask : Ask
  seen : List Store := []
  stage : Stage := .checking

namespace Call

/-- The answer of an entry reaches the calls of its node that wait for it. -/
def answer (node : NodeId) (index : Nat) (err : Option Err) (c : Call) : Call :=
  if c.node = node ∧ c.stage = .waiting index then { c with stage := .returned err } else c

def UnderWay (c : Call) : Prop := ∀ err, c.stage ≠ .returned err

instance (c : Call) : Decidable c.UnderWay :=
  match h : c.stage with
  | .checking => isTrue fun _ heq => nomatch h.symm.trans heq
  | .waiting _ => isTrue fun _ heq => nomatch h.symm.trans heq
  | .returned err => isFalse fun hway => hway err h

/-- What the first read of an `Rmdir` found: the key of the dentry, and where it leads. -/
def found (c : Call) : Option (Bytes × Bytes) :=
  match c.ask with
  | .request (.rmdir parentInodeID name) =>
    c.seen.head?.bind fun st =>
      (parseUint parentInodeID).bind fun parent =>
        (st.dentries.get (encodeDentryKey (uint64BE parent) name)).map fun childKey =>
          (encodeDentryKey (uint64BE parent) name, childKey)
  | _ => none

end Call

structure Race where
  log : List Command := []
  copies : NodeId → Copy
  calls : List Call := []

namespace Race

inductive Move where
  | arrive (node : NodeId) (ask : Ask)
  | read (i : Nat)
  | replicate (i : Nat) (newID : Bytes) (now : Int)
  | giveUp (i : Nat) (err : Err)
  | apply (node : NodeId) (now : Int)

/-- Every node with buckets of its own, before the first entry. -/
def start (stores : NodeId → Store) : Race where
  copies := fun node => ⟨stores node, 0⟩

def next (w : Race) (node : NodeId) : Option Command := w.log[(w.copies node).applied]?

/-- What the applier answers. -/
def verdict (st : Store) (now : Int) (data : Command) : Option Err :=
  match st.applyTransaction now data with
  | .ok _ => none
  | .error err => some err

/-- The steps of the calls come in any order, and so do the nodes' applying the log. -/
def step (w : Race) : Move → Option Race
  | .arrive node ask => some { w with calls := w.calls ++ [{ node, ask }] }
  | .read i =>
    match w.calls[i]? with
    | none => none
    | some c =>
      if c.stage = .checking then
        some { w with calls := w.calls.set i { c with seen := c.seen ++ [(w.copies c.node).store] } }
      else none
  | .replicate i newID now =>
    match w.calls[i]? with
    | none => none
    | some c =>
      if c.stage = .checking ∧ 3 ≤ c.seen.length then
        match c.ask.check (fun k => c.seen.getD k {}) newID with
        | .ok op =>
          some { w with
            log := w.log ++ [replicateOp op now]
            calls := w.calls.set i { c with stage := .waiting w.log.length } }
        | .error err => some { w with calls := w.calls.set i { c with stage := .returned (some err) } }
      else none
  | .giveUp i err =>
    match w.calls[i]? with
    | none => none
    | some c =>
      if c.UnderWay then some { w with calls := w.calls.set i { c with stage := .returned (some err) } }
      else none
  | .apply node now =>
    (w.next node).map fun data =>
      { w with
        copies := Function.update w.copies node
          ⟨(w.copies node).store.after now data, (w.copies node).applied + 1⟩
        calls := w.calls.map
          (Call.answer node (w.copies node).applied (verdict (w.copies node).store now data)) }

end Race

/-- A command creates nothing under a dentry's key, in the directory it leads to or with that one's
number, and renames nothing there. -/
def LeavesAlone (dentryKey childKey : Bytes) : Command → Prop
  | some ⟨.posixMeta, some op, _⟩ =>
    (op.type = .create → (∀ n ∈ parseUint op.inodeID, uint64BE n ≠ childKey) ∧
      ∀ parent ∈ parseUint op.parentID,
        uint64BE parent ≠ childKey ∧ encodeDentryKey (uint64BE parent) op.name ≠ dentryKey) ∧
    (op.type = .rename → ∀ dst ∈ parseUint op.dstParentID,
      uint64BE dst ≠ childKey ∧ encodeDentryKey (uint64BE dst) op.dstName ≠ dentryKey)
  | _ => True

instance (dentryKey childKey : Bytes) : (data : Command) → Decidable (LeavesAlone dentryKey childKey data)
  | some ⟨.posixMeta, some op, _⟩ =>
    inferInstanceAs (Decidable ((op.type = .create → (∀ n ∈ parseUint op.inodeID, uint64BE n ≠ childKey) ∧
      ∀ parent ∈ parseUint op.parentID,
        uint64BE parent ≠ childKey ∧ encodeDentryKey (uint64BE parent) op.name ≠ dentryKey) ∧
      (op.type = .rename → ∀ dst ∈ parseUint op.dstParentID,
        uint64BE dst ≠ childKey ∧ encodeDentryKey (uint64BE dst) op.dstName ≠ dentryKey)))
  | none | some ⟨.posixMeta, none, _⟩ | some ⟨.chunkIntent, _, _⟩ | some ⟨.other _, _, _⟩ => isTrue trivial

namespace Race

/-- What a node applies leaves alone what the `Rmdir`s under way there have looked up. -/
def Undisturbed (w : Race) : Move → Prop
  | .apply node _ => ∀ data ∈ w.next node, ∀ c ∈ w.calls, c.node = node → c.UnderWay →
      ∀ t ∈ c.found, LeavesAlone t.1 t.2 data
  | _ => True

instance (w : Race) : (m : Move) → Decidable (Undisturbed w m)
  | .apply node _ => inferInstanceAs (Decidable (∀ data ∈ w.next node, ∀ c ∈ w.calls, c.node = node →
      c.UnderWay → ∀ t ∈ c.found, LeavesAlone t.1 t.2 data))
  | .arrive _ _ | .read _ | .replicate _ _ _ | .giveUp _ _ => isTrue trivial

/-- An `Rmdir` that returns nil in this step removes a directory that is empty. -/
def Empties (w : Race) (m : Move) : Prop :=
  ∀ w', w.step m = some w' → ∀ (i : Nat) (c c' : Call), w.calls[i]? = some c → w'.calls[i]? = some c' →
    c.UnderWay → c'.stage = .returned none →
    ∀ parentInodeID name, c.ask = .request (.rmdir parentInodeID name) →
      ∃ childKey, (w.copies c.node).store.named (removeOp parentInodeID name) = some childKey ∧
        (w.copies c.node).store.isDir childKey = true ∧ EmptyAt (w.copies c.node).store childKey

end Race

/-! ## What stays as it was seen -/

/-- What there is under a key, if anything, is a directory. -/
def DirAt (st : Store) (key : Bytes) : Prop := ∀ inode, st.inodes.get key = some inode → inode.type = .directory

/-- **An entry that leaves a directory alone** keeps its dentry or deletes it, and keeps it a directory and
empty. -/
structure Unharmed (dentryKey childKey : Bytes) (st st' : Store) : Prop where
  named : st'.dentries.get dentryKey = none ∨ st'.dentries.get dentryKey = st.dentries.get dentryKey
  typed : DirAt st childKey → DirAt st' childKey
  empty : childKey.length = 8 → EmptyAt st childKey → EmptyAt st' childKey

theorem not_prefix_dentry {p q name : Bytes} (hp : p.length = 8) (hq : q.length = 8) (hne : q ≠ p) :
    ¬ p <+: encodeDentryKey q name := by
  rw [← List.isPrefixOf_iff_prefix, isPrefixOf_dentry hp hq, decide_eq_true_iff]
  exact fun heq => hne heq.symm

section Change

variable {dentryKey childKey : Bytes} {st st' : Store} {data : Command}

theorem Unharmed.refl : Unharmed dentryKey childKey st st := ⟨.inr rfl, id, fun _ => id⟩

theorem Unharmed.trans {st'' : Store} (h : Unharmed dentryKey childKey st st')
    (h' : Unharmed dentryKey childKey st' st'') : Unharmed dentryKey childKey st st'' where
  named := h'.named.elim .inl fun heq => heq.symm ▸ h.named
  typed := h'.typed ∘ h.typed
  empty hlength := h'.empty hlength ∘ h.empty hlength

variable {op : MetadataOperation}

theorem LeavesAlone.create {chunkIntent : Option ChunkIntentOperation} {parentKey newKey : Bytes} {parent : Inode}
    (h : LeavesAlone dentryKey childKey (some ⟨.posixMeta, some op, chunkIntent⟩)) (htype : op.type = .create)
    (hparentKey : encodeInodeKey "parent inode id" op.parentID = .ok parentKey)
    (hnewKey : encodeInodeKey "child inode id" op.inodeID = .ok newKey)
    (hparent : st.inodes.get parentKey = some parent) :
    Unharmed dentryKey childKey st (st.addDentry op parentKey newKey parent) := by
  have hlength := encodeInodeKey_length hparentKey
  obtain ⟨n, hn, rfl⟩ := encodeInodeKey_ok hnewKey
  obtain ⟨m, hm, rfl⟩ := encodeInodeKey_ok hparentKey
  obtain ⟨hnumber, hplace⟩ := h.1 htype
  obtain ⟨hdir, hname⟩ := hplace m hm
  refine ⟨.inr ?_, fun htyped inode hget => ?_, fun hchild hempty k c hk => ?_⟩
  · rw [addDentry_dentries, if_neg fun heq => hname heq.symm]
  · rw [addDentry_inodes] at hget
    split at hget
    · next heq => exact absurd heq.symm hdir
    · split at hget
      · next heq => exact absurd heq.symm (hnumber n hn)
      · exact htyped inode hget
  · rw [addDentry_dentries] at hk
    split at hk
    · next heq =>
      rw [heq]
      exact not_prefix_dentry hchild hlength hdir
    · exact hempty k c hk

theorem LeavesAlone.rename {chunkIntent : Option ChunkIntentOperation}
    {srcKey dstKey movedKey : Bytes} {srcParent dstParent : Inode}
    (h : LeavesAlone dentryKey childKey (some ⟨.posixMeta, some op, chunkIntent⟩)) (htype : op.type = .rename)
    (hdstKey : encodeInodeKey "destination parent inode id" op.dstParentID = .ok dstKey)
    (hsrc : st.inodes.get srcKey = some srcParent) :
    Unharmed dentryKey childKey st (st.moveDentry op srcKey dstKey srcParent dstParent movedKey) := by
  have hlength := encodeInodeKey_length hdstKey
  obtain ⟨n, hn, rfl⟩ := encodeInodeKey_ok hdstKey
  obtain ⟨hdir, hname⟩ := h.2 htype n hn
  refine ⟨?_, fun htyped inode hget => ?_, fun hchild hempty k c hk => ?_⟩
  · rw [moveDentry_dentries, if_neg fun heq => hname heq.symm]
    split
    · exact .inl rfl
    · exact .inr rfl
  · rw [moveDentry_inodes, if_neg fun heq => hdir heq.symm] at hget
    split at hget
    · next heq =>
      cases hget
      exact htyped srcParent (heq ▸ hsrc)
    · split at hget
      · cases hget
      · exact htyped inode hget
  · rw [moveDentry_dentries] at hk
    split at hk
    · next heq =>
      rw [heq]
      exact not_prefix_dentry hchild hlength hdir
    · split at hk
      · cases hk
      · exact hempty k c hk

/-- A remove takes away and adds nothing. -/
theorem unharmed_remove {parentKey goneKey : Bytes} {parent child : Inode}
    (hparent : st.inodes.get parentKey = some parent) :
    Unharmed dentryKey childKey st (st.dropDentry op parentKey goneKey parent child) := by
  refine ⟨?_, fun htyped inode hget => ?_, fun _ hempty k c hk => ?_⟩
  · rw [dropDentry_dentries]
    split
    · exact .inl rfl
    · exact .inr rfl
  · rw [dropDentry_inodes] at hget
    split at hget
    · next heq =>
      cases hget
      exact htyped parent (heq ▸ hparent)
    · split at hget
      · cases hget
      · exact htyped inode hget
  · rw [dropDentry_dentries] at hk
    split at hk
    · cases hk
    · exact hempty k c hk

theorem Quiet.unharmed (h : Quiet st st') : Unharmed dentryKey childKey st st' := by
  refine ⟨.inr (by rw [h.dentries]), fun htyped inode' hget' => ?_, fun _ hempty k c hk => hempty k c (h.dentries ▸ hk)⟩
  obtain ⟨inode, hget, hsame, -⟩ := h.old hget'
  exact hsame.type.trans (htyped inode hget)

theorem LeavesAlone.change (h : LeavesAlone dentryKey childKey data) {now : Int} (hc : Applied st now data st') :
    Unharmed dentryKey childKey st st' := by
  by_cases hmoves : MovesDentries data
  · cases hc with
    | create op chunkIntent htype parentKey newKey parent hparentKey hnewKey hparent _ _ =>
      exact h.create htype hparentKey hnewKey hparent
    | remove op chunkIntent htype parentKey goneKey parent child _ _ hparent _ => exact unharmed_remove hparent
    | rename op chunkIntent htype srcKey dstKey srcParent dstParent movedKey _ hdstKey hsrc _ _ =>
      exact h.rename htype hdstKey hsrc
    | setAttr _ _ htype | updateInode _ _ htype => simp [MovesDentries, htype] at hmoves
    | intent | write => cases hmoves
  · exact (hc.quiet hmoves).unharmed

theorem LeavesAlone.after (h : LeavesAlone dentryKey childKey data) (st : Store) (now : Int) :
    Unharmed dentryKey childKey st (st.after now data) := by
  rcases after_cases st now data with hsame | hchange
  · rw [hsame]
    exact .refl
  · exact h.change hchange

end Change

/-! ## Calls under way -/

/-- Nothing has been done since to what the reads of an `Rmdir` have seen. -/
def StillSo (c : Call) (st : Store) : Prop := ∀ t ∈ c.found, ∀ seen ∈ c.seen, Unharmed t.1 t.2 seen st

variable {st : Store} {c : Call}

theorem StillSo.after {data : Command} (h : StillSo c st)
    (halone : ∀ t ∈ c.found, LeavesAlone t.1 t.2 data) (now : Int) : StillSo c (st.after now data) :=
  fun t ht seen hseen => (h t ht seen hseen).trans ((halone t ht).after st now)

/-- What has just been read is so, and it is the first read that a call goes by. -/
theorem StillSo.read (h : StillSo c st) : StillSo { c with seen := c.seen ++ [st] } st := by
  intro t ht seen hseen
  rcases List.mem_append.mp hseen with hold | hnew
  · refine h t ?_ seen hold
    unfold Call.found at ht
    rwa [List.head?_append_of_ne_nil _ (List.ne_nil_of_mem hold)] at ht
  · cases List.mem_singleton.mp hnew
    exact .refl

theorem dirAt_of_getInode {inodeID key : Bytes} {answer : Inode × List ChunkDescriptor}
    (hkey : encodeInodeKey "inode id" inodeID = .ok key) (h : st.getInode inodeID = .ok answer)
    (htype : answer.1.type = .directory) : DirAt st key := by
  obtain ⟨inodeKey, hinodeKey, hinode, -⟩ := getInode_ok h
  cases hkey.symm.trans hinodeKey
  intro inode' hget
  cases hinode.symm.trans hget
  exact htype

/-- Directories that pass the checks of `Rmdir`. -/
theorem rmdir_check_ok {parentInodeID name newID : Bytes} {op : MetadataOperation}
    (hask : c.ask = .request (.rmdir parentInodeID name)) (hreads : 3 ≤ c.seen.length)
    (h : c.ask.check (fun k => c.seen.getD k {}) newID = .ok op) :
    op = removeOp parentInodeID name ∧ ∃ parentKey childKey,
      encodeInodeKey "parent inode id" parentInodeID = .ok parentKey ∧
      c.found = some (encodeDentryKey parentKey name, childKey) ∧ childKey.length = 8 ∧
      (∃ st ∈ c.seen, st.dentries.get (encodeDentryKey parentKey name) = some childKey) ∧
      (∃ st ∈ c.seen, DirAt st childKey) ∧ ∃ st ∈ c.seen, EmptyAt st childKey := by
  obtain ⟨node, ask, seen, stage⟩ := c
  cases hask
  obtain ⟨first, second, third, rest, rfl⟩ : ∃ a b c rest, seen = a :: b :: c :: rest := by
    match seen, hreads with
    | a :: b :: c :: rest, _ => exact ⟨a, b, c, rest, rfl⟩
  obtain ⟨_, hcheck, h⟩ := bind_ok h
  cases h
  obtain ⟨childID, hlookup, hcheck⟩ := bind_ok hcheck
  obtain ⟨parentKey, childKey, hparentKey, hget, hchildKey⟩ := lookup_ok hlookup
  obtain ⟨child, hinode, hcheck⟩ := bind_ok hcheck
  split at hcheck
  · cases hcheck
  · next htype =>
    obtain ⟨isEmpty, hisEmpty, hcheck⟩ := bind_ok hcheck
    split at hcheck
    · next hempty =>
      rw [hempty] at hisEmpty
      refine ⟨rfl, parentKey, childKey, hparentKey, ?_, encodeInodeKey_length hchildKey, ⟨first, by simp, hget⟩,
        ⟨second, by simp, dirAt_of_getInode hchildKey hinode (not_not.mp htype)⟩,
        ⟨third, by simp, emptyAt_of_directoryIsEmpty hchildKey hisEmpty⟩⟩
      obtain ⟨n, hn, rfl⟩ := encodeInodeKey_ok hparentKey
      simp only [Call.found, List.head?_cons, Option.bind_some, hn]
      exact Option.map_eq_some_iff.mpr ⟨childKey, hget, rfl⟩
    · cases hcheck

/-! ## Every run -/

namespace Race

/-- What carries the law: what an `Rmdir` under way has seen is so in the copy of its node, and a call that waits
has passed its checks, and its operation is where it waits for it. -/
structure Sound (w : Race) (c : Call) : Prop where
  still : c.UnderWay → StillSo c (w.copies c.node).store
  logged : ∀ index, c.stage = .waiting index →
    3 ≤ c.seen.length ∧ ∃ newID op now, c.ask.check (fun k => c.seen.getD k {}) newID = .ok op ∧
      w.log[index]? = some (replicateOp op now)

def Steady (w : Race) : Prop := ∀ c ∈ w.calls, w.Sound c

variable {w w' : Race} {m : Move} {c : Call}

theorem Sound.grow (h : w.Sound c) {calls : List Call} (more : List Command) :
    Sound { w with log := w.log ++ more, calls := calls } c := by
  refine ⟨h.still, fun index hwaits => ?_⟩
  obtain ⟨hreads, newID, op, now, hcheck, hentry⟩ := h.logged index hwaits
  refine ⟨hreads, newID, op, now, hcheck, ?_⟩
  rw [List.getElem?_append_left (List.getElem?_eq_some_iff.mp hentry).1]
  exact hentry

theorem Sound.of_error {err : Err} (hstage : c.stage = .returned (some err)) : w.Sound c :=
  ⟨fun hway => absurd hstage (hway _), fun _ hwaits => nomatch hstage.symm.trans hwaits⟩

/-- **What a step does**: a call arrives, one goes on without returning nil, or a node applies an entry. -/
theorem step_cases (hs : w.step m = some w') :
    (∃ c, c.seen = [] ∧ c.stage = .checking ∧ w' = { w with calls := w.calls ++ [c] }) ∨
    (∃ i c c' more, w.calls[i]? = some c ∧ w' = { w with log := w.log ++ more, calls := w.calls.set i c' } ∧
      c'.stage ≠ .returned none ∧ (w.Sound c → w'.Sound c')) ∨
    ∃ node now data, m = .apply node now ∧ w.next node = some data ∧ w' = { w with
      copies := Function.update w.copies node ⟨(w.copies node).store.after now data, (w.copies node).applied + 1⟩
      calls := w.calls.map
        (Call.answer node (w.copies node).applied (verdict (w.copies node).store now data)) } := by
  cases m with
  | arrive node ask =>
    cases hs
    exact .inl ⟨_, rfl, rfl, rfl⟩
  | read i =>
    simp only [Race.step] at hs
    split at hs
    · cases hs
    · next c hc =>
      split at hs
      · next hstage =>
        cases hs
        refine .inr (.inl ⟨i, c, { c with seen := c.seen ++ [(w.copies c.node).store] }, [], hc, by simp, ?_, ?_⟩)
        · exact fun heq => nomatch hstage.symm.trans heq
        · intro h
          refine ⟨fun hway => (h.still hway).read, fun index hwaits => ?_⟩
          cases hstage.symm.trans hwaits
      · cases hs
  | replicate i newID now =>
    simp only [Race.step] at hs
    split at hs
    · cases hs
    · next c hc =>
      split at hs
      · next hready =>
        split at hs
        · next op hop =>
          cases hs
          refine .inr (.inl ⟨i, c, { c with stage := .waiting w.log.length }, [replicateOp op now], hc, rfl, nofun, ?_⟩)
          intro h
          have hway : c.UnderWay := fun err heq => nomatch hready.1.symm.trans heq
          refine ⟨fun _ => h.still hway, fun index hwaits => ?_⟩
          cases hwaits
          exact ⟨hready.2, newID, op, now, hop, List.getElem?_concat_length⟩
        · next err _ =>
          cases hs
          exact .inr (.inl ⟨i, c, { c with stage := .returned (some err) }, [], hc, by simp, nofun,
            fun _ => .of_error rfl⟩)
      · cases hs
  | giveUp i err =>
    simp only [Race.step] at hs
    split at hs
    · cases hs
    · next c hc =>
      split at hs
      · cases hs
        exact .inr (.inl ⟨i, c, { c with stage := .returned (some err) }, [], hc, by simp, nofun,
          fun _ => .of_error rfl⟩)
      · cases hs
  | apply node now =>
    obtain ⟨data, hdata, rfl⟩ := Option.map_eq_some_iff.mp hs
    exact .inr (.inr ⟨node, now, data, rfl, hdata, rfl⟩)

theorem underWay_answer {node : NodeId} {index : Nat} {err : Option Err}
    (h : (c.answer node index err).UnderWay) : c.answer node index err = c := by
  unfold Call.answer at h ⊢
  split
  · next hwaits =>
    rw [if_pos hwaits] at h
    exact absurd rfl (h err)
  · rfl

theorem Steady.step (h : Steady w) (hok : Undisturbed w m) (hs : w.step m = some w') : Steady w' := by
  rcases step_cases hs with ⟨c, hseen, hstage, rfl⟩ | ⟨i, c, c', more, hc, rfl, -, hsound⟩ |
    ⟨node, now, data, rfl, hdata, rfl⟩
  · intro c' hc'
    rcases List.mem_append.mp hc' with hold | hnew
    · exact { h c' hold with }
    · cases List.mem_singleton.mp hnew
      refine ⟨fun _ t _ seen hmem => ?_, fun index hwaits => nomatch hstage.symm.trans hwaits⟩
      rw [hseen] at hmem
      cases hmem
  · intro d hd
    rcases List.mem_or_eq_of_mem_set hd with hold | rfl
    · exact (h d hold).grow more
    · exact hsound (h c (List.mem_of_getElem? hc))
  · intro c' hc'
    obtain ⟨c, hc, rfl⟩ := List.mem_map.mp hc'
    refine ⟨fun hway => ?_, fun index hwaits => ?_⟩
    · have hsame := underWay_answer hway
      rw [hsame] at hway ⊢
      have hstill := (h c hc).still hway
      show StillSo c (Function.update w.copies node _ c.node).store
      by_cases hnode : c.node = node
      · rw [hnode, Function.update_self]
        exact (hnode ▸ hstill).after (hok data hdata c hc hnode hway) now
      · rw [Function.update_of_ne hnode]
        exact hstill
    · have hway : (c.answer node (w.copies node).applied
          (verdict (w.copies node).store now data)).UnderWay := fun err heq => nomatch hwaits.symm.trans heq
      rw [underWay_answer hway] at hwaits ⊢
      exact (h c hc).logged index hwaits

/-- **What returns nil has been applied**: its own node applied the entry it waited for, without error. -/
theorem returned_nil (hs : w.step m = some w') {i : Nat} {c' : Call}
    (hc : w.calls[i]? = some c) (hc' : w'.calls[i]? = some c') (hway : c.UnderWay)
    (hnil : c'.stage = .returned none) :
    ∃ now data st', m = .apply c.node now ∧ c.stage = .waiting (w.copies c.node).applied ∧
      w.next c.node = some data ∧ (w.copies c.node).store.applyTransaction now data = .ok st' := by
  rcases step_cases hs with ⟨d, -, -, rfl⟩ | ⟨j, d, d', more, -, rfl, hstage, -⟩ | ⟨node, now, data, rfl, hdata, rfl⟩
  · rw [List.getElem?_append_left (List.getElem?_eq_some_iff.mp hc).1] at hc'
    cases hc.symm.trans hc'
    exact absurd hnil (hway none)
  · rw [List.getElem?_set] at hc'
    split at hc'
    · split at hc'
      · cases hc'
        exact absurd hnil hstage
      · cases hc'
    · cases hc.symm.trans hc'
      exact absurd hnil (hway none)
  · rw [List.getElem?_map, hc] at hc'
    cases hc'
    unfold Call.answer at hnil
    split at hnil
    · next hwaits =>
      obtain ⟨rfl, hwaits⟩ := hwaits
      have hverdict : verdict (w.copies c.node).store now data = none := Stage.returned.inj hnil
      unfold verdict at hverdict
      split at hverdict
      · next st' happly => exact ⟨now, data, st', rfl, hwaits, hdata, happly⟩
      · cases hverdict
    · exact absurd hnil (hway none)

theorem Steady.empties (h : Steady w) (m : Move) : Empties w m := by
  intro w' hs i c c' hc hc' hway hnil parentInodeID name hask
  obtain ⟨now, data, st', rfl, hwaits, hdata, happly⟩ := returned_nil hs hc hc' hway hnil
  have hsound := h c (List.mem_of_getElem? hc)
  obtain ⟨hreads, newID, op, stamp, hcheck, hentry⟩ := hsound.logged _ hwaits
  cases hentry.symm.trans hdata
  obtain ⟨rfl, parentKey, childKey, hparentKey, hfound, hlength, ⟨first, hfirst, hget⟩, ⟨second, hsecond, hdir⟩,
    third, hthird, hempty⟩ := rmdir_check_ok hask hreads hcheck
  have hstill := hsound.still hway _ hfound
  obtain ⟨parentKey', childKey', parent, child, hparentKey', hdentry, -, hchild, -⟩ := applyRemove_ok happly
  cases hparentKey.symm.trans hparentKey'
  obtain rfl : childKey' = childKey := by
    rcases (hstill first hfirst).named with hnone | hsame
    · cases hnone.symm.trans hdentry
    · exact Option.some_inj.mp (hdentry.symm.trans (hsame.trans hget))
  refine ⟨childKey', named_of_get hparentKey hdentry, ?_, (hstill third hthird).empty hlength hempty⟩
  rw [isDir_of_get hchild, decide_eq_true_iff]
  exact (hstill second hsecond).typed hdir child hchild

end Race

/-- **Each `Rmdir` that returns nil removed an empty directory**, in every run in which nothing is applied
that bears on what an `Rmdir` under way on that node has looked up. -/
theorem rmdir_empties (stores : NodeId → Store) {moves : List Race.Move} {last : Race}
    (hrun : exec Race.step (.start stores) moves = some last)
    (hok : Along Race.step Race.Undisturbed (.start stores) moves) :
    Along Race.step Race.Empties (.start stores) moves := by
  refine along_of_at hrun fun before m w w' hfront hbefore _ => ?_
  obtain ⟨rest, hrest⟩ := hfront
  rw [← hrest, List.append_assoc] at hok
  have hsteady : w.Steady := exec_along (fun _ _ _ h hok hs => Race.Steady.step h hok hs) before
    (fun _ hc => absurd hc List.not_mem_nil) (hok.split hbefore).1 hbefore
  exact hsteady.empties m

section Demo

/-- A call on node `a`, from its arrival to its node's applying it. -/
def oneCall (i : Nat) (ask : Ask) (newID : Bytes) : List Race.Move :=
  [.arrive "a" ask, .read i, .read i, .read i, .replicate i newID 1, .apply "a" 0]

/-- A directory is made and a file in it, the file is removed, and the directory. -/
def orderlyRace : List Race.Move :=
  oneCall 0 (.request (.mkdir [48] [100] 0o755 0 0)) [49] ++
    oneCall 1 (.request (.create [49] [102] 0o644 0 0)) [50] ++
    oneCall 2 (.request (.remove [49] [102])) [] ++ oneCall 3 (.request (.rmdir [48] [100])) []

theorem rmdir_empties_orderly :
    ∃ last, exec Race.step (.start fun _ => .boot 0) orderlyRace = some last ∧
      (last.calls[3]?.map (·.stage)) = some (.returned none) ∧
      Along Race.step Race.Empties (.start fun _ => .boot 0) orderlyRace := by
  obtain ⟨last, hlast, hend⟩ : ∃ last, exec Race.step (.start fun _ => .boot 0) orderlyRace = some last ∧
      last.calls[3]?.map (·.stage) = some (.returned none) := by decide +kernel
  exact ⟨last, hlast, hend, rmdir_empties _ hlast (by decide +kernel)⟩

/-- A `Rmdir` finds the directory empty, and then a file is created in it. -/
def fillingRace : List Race.Move :=
  oneCall 0 (.request (.mkdir [48] [100] 0o755 0 0)) [49] ++
    [.arrive "a" (.request (.rmdir [48] [100])), .read 1, .read 1, .read 1] ++
    oneCall 2 (.request (.create [49] [102] 0o644 0 0)) [50] ++ [.replicate 1 [] 1]

/-- A `Rmdir` finds the directory empty, and then a file is renamed over it. -/
def replacingRace : List Race.Move :=
  oneCall 0 (.request (.mkdir [48] [100] 0o755 0 0)) [49] ++
    [.arrive "a" (.request (.rmdir [48] [100])), .read 1, .read 1, .read 1] ++
    oneCall 2 (.request (.create [48] [102] 0o644 0 0)) [50] ++
    oneCall 3 (.rename [48] [102] [48] [100]) [] ++ [.replicate 1 [] 1]

/-- Call 1 returns nil from what node `a` applies next, and what it removes is no empty directory. -/
abbrev Overruns (w : Race) : Prop :=
  ∃ w', w.step (.apply "a" 0) = some w' ∧ ∃ c, w.calls[1]? = some c ∧ ∃ c', w'.calls[1]? = some c' ∧
    c.UnderWay ∧ c'.stage = .returned none ∧ c.ask = .request (.rmdir [48] [100]) ∧
      ∀ childKey ∈ (w.copies c.node).store.named (removeOp [48] [100]),
        ¬ ((w.copies c.node).store.isDir childKey = true ∧ EmptyAt (w.copies c.node).store childKey)

theorem not_empties_of_overruns {w : Race} (h : Overruns w) : ¬ w.Empties (.apply "a" 0) := by
  obtain ⟨w', hs, c, hc, c', hc', hway, hnil, hask, hbad⟩ := h
  intro hempties
  obtain ⟨childKey, hnamed, hdir, hempty⟩ := hempties w' hs 1 c c' hc hc' hway hnil [48] [100] hask
  exact hbad childKey hnamed ⟨hdir, hempty⟩

/-- A directory with a file in it is removed, and a file, each by an `Rmdir` that returns nil. -/
theorem rmdir_overrun :
    (∃ w, exec Race.step (.start fun _ => .boot 0) fillingRace = some w ∧ ¬ w.Empties (.apply "a" 0)) ∧
      ∃ w, exec Race.step (.start fun _ => .boot 0) replacingRace = some w ∧ ¬ w.Empties (.apply "a" 0) := by
  have hoverrun : ∀ moves, (∃ w, exec Race.step (.start fun _ => .boot 0) moves = some w ∧ Overruns w) →
      ∃ w, exec Race.step (.start fun _ => .boot 0) moves = some w ∧ ¬ w.Empties (.apply "a" 0) := by
    intro moves ⟨w, hw, hover⟩
    exact ⟨w, hw, not_empties_of_overruns hover⟩
  exact ⟨hoverrun fillingRace (by decide +kernel), hoverrun replacingRace (by decide +kernel)⟩

end Demo

end Sandstore.Metadata
