import Mathlib.Logic.Function.Basic
import Sandstore.Metadata.Links

/-!
# Entries without a directory

A dentry dangles when the directory it is in, or the inode it leads to, is gone. The appliers do not
look: `ApplyRemove` deletes the inode of a directory whether or not there are dentries in it. What
stands in the way is `Rmdir`, which asks whether the directory is empty and then replicates the same
operation as `Remove`, and it asks before its operation is in the log.

`Traffic` is the service with requests in flight: any number of nodes, each with a copy of the buckets
that is as new as what it has applied of one log, and requests on them whose reads are made one at a
time. **The law** (`no_dangling_iff`) is that no entry dangles anywhere in a run exactly if each remove,
where it is applied, is of a file or of a directory that is empty then. A check that saw the
buckets its operation is applied to would do (`rmdir_prunes`); `Remove` has none.
-/

namespace Sandstore.Metadata

open Lib
open Raft (Byte Bytes Err NodeId)

/-- Every dentry is in a directory that exists, and leads to an inode that exists. -/
def NoDangling (st : Store) : Prop :=
  ∀ k c, st.dentries.get k = some c → ∃ p name, k = encodeDentryKey p name ∧ p.length = 8 ∧
    st.isDir p = true ∧ ∃ inode, st.inodes.get c = some inode

variable {st : Store}

theorem NoDangling.parent (h : NoDangling st) {p name c : Bytes} (hp : p.length = 8)
    (hget : st.dentries.get (encodeDentryKey p name) = some c) : st.isDir p = true := by
  obtain ⟨q, name', hkey, hq, hdir, -⟩ := h _ c hget
  rw [dentry_parent hp hq hkey]
  exact hdir

/-- Where every entry leads to an inode and is in something with a number, it is left to say that this is a
directory. -/
theorem Grounded.noDangling_iff {used : List Nat} (h : Grounded used st) :
    NoDangling st ↔ ∀ p name c, p.length = 8 → st.dentries.get (encodeDentryKey p name) = some c →
      st.isDir p = true := by
  constructor
  · exact fun hsound p name c hp hget => hsound.parent hp hget
  · intro hdirs k c hk
    obtain ⟨p, name, rfl, hp⟩ := h.parents k c hk
    exact ⟨p, name, rfl, hp.1, hdirs p name c hp.1 hk, h.target _ c hk⟩

/-- What a run keeps as long as no entry dangles: no directory is in itself. -/
structure Tethered (used : List Nat) (st : Store) : Prop where
  grounded : Grounded used st
  sound : NoDangling st
  apart : ∀ p name, p.length = 8 → st.dentries.get (encodeDentryKey p name) ≠ some p

section Steps

variable {used : List Nat} {st st' : Store} {op : MetadataOperation}

theorem Tethered.more {more : List Nat} (h : Tethered used st) : Tethered (used ++ more) st :=
  ⟨h.grounded.more, h.sound, h.apart⟩

theorem Tethered.create (h : Tethered used st) {parentKey childKey : Bytes} {parent : Inode}
    (hparent : st.inodes.get parentKey = some parent) (hdir : parent.type = .directory)
    (hlength : childKey.length = 8) (hunknown : ¬ Known used childKey) :
    Tethered (used ++ [uint64OfBE childKey]) (st.addDentry op parentKey childKey parent) := by
  have hground : Grounded (used ++ [uint64OfBE childKey]) (st.addDentry op parentKey childKey parent) :=
    h.grounded.create hparent hdir hlength hunknown
  refine ⟨hground, hground.noDangling_iff.mpr fun p name c hp hget => ?_, fun p name hp hget => ?_⟩
  · rw [addDentry_dentries] at hget
    split at hget
    · next hkey =>
      rw [dentry_parent hp (h.grounded.length hparent) hkey, isDir_of_get (by rw [addDentry_inodes, if_pos rfl])]
      exact decide_eq_true hdir
    · rw [isDir_create hparent fun heq : p = childKey => hunknown (heq ▸ h.grounded.parent_known hp hget)]
      exact h.sound.parent hp hget
  · rw [addDentry_dentries] at hget
    split at hget
    · next hkey =>
      -- the new number is not that of the directory it is in
      cases hget
      rw [dentry_parent hp (h.grounded.length hparent) hkey] at hunknown
      exact hunknown (h.grounded.known parentKey parent hparent)
    · exact h.apart p name hp hget

section Remove

variable {parentKey childKey : Bytes} {parent child : Inode}

/-- **A remove leaves no entry dangling if and only if it is of a file or of an empty directory.** -/
theorem Tethered.noDangling_remove_iff (h : Tethered used st)
    (hdentry : st.dentries.get (encodeDentryKey parentKey op.name) = some childKey)
    (hparent : st.inodes.get parentKey = some parent) (hchild : st.inodes.get childKey = some child) :
    NoDangling (st.dropDentry op parentKey childKey parent child) ↔
      (st.isDir childKey = true → EmptyAt st childKey) := by
  have hparentLength := h.grounded.length hparent
  have hchildLength := h.grounded.length hchild
  constructor
  · intro hsound _ k c hk hfront
    have hchildNe : childKey ≠ parentKey := by
      rintro rfl
      exact h.apart childKey op.name hchildLength hdentry
    obtain ⟨p, name, rfl, hp⟩ := h.grounded.parents k c hk
    have hin : childKey = p := by
      have hfirst : childKey.isPrefixOf (encodeDentryKey p name) = decide (childKey = p) :=
        isPrefixOf_dentry hchildLength hp.1
      rw [List.isPrefixOf_iff_prefix.mpr hfront] at hfirst
      exact of_decide_eq_true hfirst.symm
    -- the entry is still there, but its directory is not
    have hkept : (st.dropDentry op parentKey childKey parent child).dentries.get (encodeDentryKey p name) = some c := by
      rw [dropDentry_dentries, if_neg, hk]
      intro hkey
      exact hchildNe (hin.trans (dentry_parent hp.1 hparentLength hkey))
    have hgone := hsound.parent hp.1 hkept
    obtain ⟨inode, hget, -⟩ := isDir_iff.mp hgone
    rw [← hin, dropDentry_inodes, if_neg hchildNe, if_pos rfl] at hget
    cases hget
  · intro hempty
    refine (h.grounded.remove hdentry hparent).noDangling_iff.mpr fun p name c hp hk => ?_
    rw [dropDentry_dentries] at hk
    split at hk
    · cases hk
    · have hdir := h.sound.parent hp hk
      have hpNe : p ≠ childKey := by
        rintro rfl
        exact hempty hdir _ c hk (List.prefix_append p name)
      rw [isDir_remove hparent (.inr hpNe)]
      exact hdir

theorem Tethered.remove (h : Tethered used st)
    (hdentry : st.dentries.get (encodeDentryKey parentKey op.name) = some childKey)
    (hparent : st.inodes.get parentKey = some parent)
    (hsound : NoDangling (st.dropDentry op parentKey childKey parent child)) :
    Tethered used (st.dropDentry op parentKey childKey parent child) := by
  refine ⟨h.grounded.remove hdentry hparent, hsound, ?_⟩
  intro p name hp hget
  rw [dropDentry_dentries] at hget
  split at hget
  · cases hget
  · exact h.apart p name hp hget

end Remove

theorem Tethered.quiet (h : Tethered used st) (hq : Quiet st st') : Tethered used st' := by
  refine ⟨h.grounded.quiet hq, (h.grounded.quiet hq).noDangling_iff.mpr fun p name c hp hk => ?_,
    hq.dentries ▸ h.apart⟩
  rw [hq.dentries] at hk
  exact (hq.isDir p).trans (h.sound.parent hp hk)

/-- A command that is no rename. -/
def StaysPut : Command → Prop
  | some ⟨.posixMeta, some op, _⟩ => op.type ≠ .rename
  | _ => True

variable {data : Command}

theorem prunes_of_keeps (h : ¬ MovesDentries data) : Prunes st data := by
  unfold Prunes
  split
  · exact fun hremove => absurd (.inr (.inl hremove)) h
  · trivial

/-- A change that is no remove leaves no entry dangling, a remove if and only if it prunes. -/
theorem Tethered.change (h : Tethered used st) {now : Int} (hc : Applied st now data st') (hstays : StaysPut data)
    (hnew : ∀ n, createdNumber data = some n → n ≠ 0 ∧ n ∉ used) :
    (NoDangling st' ↔ Prunes st data) ∧ (NoDangling st' → Tethered (used ++ (createdNumber data).toList) st') := by
  have hkept : Prunes st data → Tethered (used ++ (createdNumber data).toList) st' →
      (NoDangling st' ↔ Prunes st data) ∧ (NoDangling st' → Tethered (used ++ (createdNumber data).toList) st') :=
    fun hprunes h' => ⟨iff_of_true h'.sound hprunes, fun _ => h'⟩
  by_cases hmoves : MovesDentries data
  · cases hc with
    | create op chunkIntent htype parentKey childKey parent hparentKey hchildKey hparent hdir hfree =>
      apply hkept
      · intro hremove
        cases htype.symm.trans hremove
      · obtain ⟨hnumber, hlength, hunknown⟩ := createdNumber_fresh htype hchildKey hnew
        rw [hnumber, Option.toList_some]
        exact h.create hparent hdir hlength hunknown
    | remove op chunkIntent htype parentKey childKey parent child hparentKey hdentry hparent hchild =>
      have hnamed := named_of_get hparentKey hdentry
      refine ⟨(h.noDangling_remove_iff hdentry hparent hchild).trans ⟨?_, ?_⟩,
        fun hsound => (h.remove hdentry hparent hsound).more⟩
      · rintro hempty - childKey' hchild'
        cases hnamed.symm.trans hchild'
        exact hempty
      · intro hprunes
        exact hprunes htype childKey hnamed
    | rename _ _ htype => exact absurd htype hstays
    | setAttr _ _ htype | updateInode _ _ htype => simp [MovesDentries, htype] at hmoves
    | intent | write => cases hmoves
  · exact hkept (prunes_of_keeps hmoves) (h.quiet (hc.quiet hmoves)).more

/-- A remove of a directory that is there succeeds, so one that fails prunes. -/
theorem Tethered.prunes_of_error (h : Tethered used st) {now : Int} {err : Err}
    (herr : st.applyTransaction now data = .error err) : Prunes st data := by
  unfold Prunes
  split
  · next op chunkIntent =>
    intro htype childKey hnamed hdir
    obtain ⟨n, hn, hget⟩ := Option.bind_eq_some_iff.mp hnamed
    obtain ⟨parent, hparent, -⟩ := isDir_iff.mp (h.sound.parent (uint64BE_length n) hget)
    obtain ⟨child, hchild, -⟩ := isDir_iff.mp hdir
    simp only [Store.applyTransaction, Store.applyStandardMetadata, htype, Store.applyRemove, encodeInodeKey, hn,
      bind, Except.bind, hget, Store.loadStoredInode, hparent, hchild] at herr
    cases herr
  · trivial

theorem Tethered.after (h : Tethered used st) (now : Int) (hstays : StaysPut data)
    (hnew : ∀ n, createdNumber data = some n → n ≠ 0 ∧ n ∉ used) : (NoDangling (st.after now data) ↔ Prunes st data) ∧
      (NoDangling (st.after now data) → Tethered (used ++ (createdNumber data).toList) (st.after now data)) := by
  unfold Store.after
  cases hresult : st.applyTransaction now data with
  | error err => exact ⟨iff_of_true h.sound (h.prunes_of_error hresult), fun _ => h.more⟩
  | ok st' => exact h.change (applyTransaction_applied hresult) hstays hnew

end Steps

/-! ## Requests in flight -/

/-- A node's copy of the buckets, and how many entries of the log are in it. -/
structure Copy where
  store : Store
  applied : Nat := 0

/-- A request whose checks are running on a node, and what its reads have seen so far. -/
structure Checking where
  node : NodeId
  request : Request
  seen : List Store := []

structure Traffic where
  log : List Command := []
  copies : NodeId → Copy
  checking : List Checking := []

namespace Traffic

inductive Move where
  | arrive (node : NodeId) (request : Request)
  | read (i : Nat)
  | replicate (i : Nat) (newID : Bytes) (now : Int)
  | apply (node : NodeId) (now : Int)

/-- Every node after `Recover`, at whatever time it ran there. -/
def boot (boots : NodeId → Int) : Traffic where
  copies := fun node => ⟨Store.boot (boots node), 0⟩

/-- The entry that a node applies next. -/
def next (w : Traffic) (node : NodeId) : Option Command := w.log[(w.copies node).applied]?

/-- A request makes three reads at most. With them it is decided, and what passes goes to the end of the
log. The reads of different requests, their places in the log and the nodes' applying them come in any
order. -/
def step (w : Traffic) : Move → Option Traffic
  | .arrive node request => some { w with checking := w.checking ++ [{ node, request }] }
  | .read i =>
    w.checking[i]?.map fun c =>
      { w with checking := w.checking.set i { c with seen := c.seen ++ [(w.copies c.node).store] } }
  | .replicate i newID now =>
    match w.checking[i]? with
    | none => none
    | some c =>
      if c.seen.length < 3 then none
      else
        match c.request.check (fun k => c.seen.getD k {}) newID with
        | .ok op => some { w with log := w.log ++ [replicateOp op now], checking := w.checking.eraseIdx i }
        | .error _ => some { w with checking := w.checking.eraseIdx i }
  | .apply node now =>
    (w.next node).map fun data =>
      { w with
        copies := Function.update w.copies node
          ⟨(w.copies node).store.after now data, (w.copies node).applied + 1⟩ }

/-- Where a remove is applied, it is of a file or of a directory that is empty then. -/
def Harmless (w : Traffic) : Move → Prop
  | .apply node _ => ∀ data ∈ w.next node, Prunes (w.copies node).store data
  | _ => True

instance (w : Traffic) : (m : Move) → Decidable (Harmless w m)
  | .apply node _ => inferInstanceAs (Decidable (∀ data ∈ w.next node, Prunes (w.copies node).store data))
  | .arrive _ _ | .read _ | .replicate _ _ _ => isTrue trivial

/-- A copy is what its part of the log made it. -/
structure Current (log : List Command) (copy : Copy) : Prop where
  applied : copy.applied ≤ log.length
  tethered : Tethered ((log.take copy.applied).filterMap createdNumber) copy.store

/-- The log holds no rename, and every copy is current. -/
structure Sound (w : Traffic) : Prop where
  stays : ∀ data ∈ w.log, StaysPut data
  current : ∀ node, Current w.log (w.copies node)

theorem sound_boot (boots : NodeId → Int) : Sound (boot boots) where
  stays := fun _ hmem => nomatch hmem
  current := fun node =>
    ⟨le_rfl, grounded_boot (boots node), (fun _ _ hk => nomatch hk), (fun _ _ _ hk => nomatch hk)⟩

theorem staysPut_check {view : Nat → Store} {newID : Bytes} {r : Request} {op : MetadataOperation} {now : Int}
    (h : r.check view newID = .ok op) : StaysPut (replicateOp op now) := by
  have htype : (replicateOp op now) = some ⟨.posixMeta, some { op with timestamp := now }, none⟩ := rfl
  rw [htype]
  show op.type ≠ .rename
  rcases Request.check_type h with hcreate | hremove
  · rw [hcreate]
    nofun
  · rw [hremove]
    nofun

variable {w w' : Traffic}

/-- What a step does: it leaves the copies alone and may add to the log, or it applies an entry. -/
theorem step_cases {m : Move} (h : w.step m = some w') :
    (w'.copies = w.copies ∧ (∃ more, (∀ data ∈ more, StaysPut data) ∧ w'.log = w.log ++ more) ∧ Harmless w m) ∨
    ∃ node now data, m = .apply node now ∧ w.next node = some data ∧ w'.log = w.log ∧
      w'.copies = Function.update w.copies node
        ⟨(w.copies node).store.after now data, (w.copies node).applied + 1⟩ := by
  have hsame : ∃ more, (∀ data ∈ more, StaysPut data) ∧ w.log = w.log ++ more :=
    ⟨[], fun _ hmem => (nomatch hmem), (List.append_nil _).symm⟩
  cases m with
  | arrive node request =>
    cases h
    exact .inl ⟨rfl, hsame, trivial⟩
  | read i =>
    obtain ⟨c, -, rfl⟩ := Option.map_eq_some_iff.mp h
    exact .inl ⟨rfl, hsame, trivial⟩
  | replicate i newID now =>
    simp only [step] at h
    split at h
    · cases h
    · split at h
      · cases h
      · split at h
        · next op hop =>
          cases h
          exact .inl ⟨rfl, ⟨_, fun _ hmem => List.mem_singleton.mp hmem ▸ staysPut_check hop, rfl⟩, trivial⟩
        · cases h
          exact .inl ⟨rfl, hsame, trivial⟩
  | apply node now =>
    obtain ⟨data, hdata, rfl⟩ := Option.map_eq_some_iff.mp h
    exact .inr ⟨node, now, data, rfl, hdata, rfl, rfl⟩

theorem step_log {m : Move} (h : w.step m = some w') : w.log <+: w'.log := by
  rcases step_cases h with ⟨-, ⟨more, -, hmore⟩, -⟩ | ⟨_, _, _, -, -, hsame, -⟩
  · exact hmore ▸ List.prefix_append _ _
  · exact hsame ▸ List.prefix_rfl

theorem exec_log {moves : List Move} (h : exec step w moves = some w') : w.log <+: w'.log :=
  exec_invariant (I := fun t => w.log <+: t.log) (fun _ _ _ hbefore hs => hbefore.trans (step_log hs)) moves
    List.prefix_rfl h

/-- Entries that are added after what a node has applied change nothing there. -/
theorem Current.grow {log : List Command} {copy : Copy} (h : Current log copy) (more : List Command) :
    Current (log ++ more) copy where
  applied := h.applied.trans (List.length_append ▸ Nat.le_add_right _ _)
  tethered := by
    rw [List.take_append_of_le_length h.applied]
    exact h.tethered

/-- **One step**: from a sound state, no entry dangles afterwards exactly if the step is harmless. -/
theorem Sound.step {last : Traffic} {m : Move} (h : Sound w) (hs : w.step m = some w')
    (hlast : w.log <+: last.log) (hnew : (last.log.filterMap createdNumber).Nodup)
    (hroot : 0 ∉ last.log.filterMap createdNumber) : ((∀ node, NoDangling (w'.copies node).store) ↔ Harmless w m) ∧
      ((∀ node, NoDangling (w'.copies node).store) → Sound w') := by
  rcases step_cases hs with ⟨hcopies, ⟨more, hstays, hmore⟩, hharmless⟩ | ⟨node, now, data, rfl, hdata, hlog, hcopies⟩
  · have h' : Sound w' := by
      refine ⟨fun data hmem => ?_, fun node => by rw [hcopies, hmore]; exact (h.current node).grow more⟩
      rw [hmore] at hmem
      exact (List.mem_append.mp hmem).elim (h.stays data) (hstays data)
    exact ⟨iff_of_true (fun node => (h'.current node).tethered.sound) hharmless, fun _ => h'⟩
  · obtain ⟨hbound, hentry⟩ := List.getElem?_eq_some_iff.mp hdata
    have htake : w.log.take ((w.copies node).applied + 1) = w.log.take (w.copies node).applied ++ [data] := by
      rw [List.take_succ_eq_append_getElem hbound, hentry]
    have hfresh : ∀ n, createdNumber data = some n →
        n ≠ 0 ∧ n ∉ (w.log.take (w.copies node).applied).filterMap createdNumber := by
      intro n hn
      obtain ⟨hmem, hbefore⟩ := filterMap_new hnew ((htake ▸ List.take_prefix _ _).trans hlast) hn
      exact ⟨fun hzero => hroot (hzero ▸ hmem), hbefore⟩
    have hnumbers : (w.log.take ((w.copies node).applied + 1)).filterMap createdNumber =
        (w.log.take (w.copies node).applied).filterMap createdNumber ++ (createdNumber data).toList := by
      rw [htake, List.filterMap_append]
      cases hc : createdNumber data <;> simp [hc]
    obtain ⟨hiff, hkeeps⟩ := (h.current node).tethered.after now (h.stays data (List.mem_of_getElem? hdata)) hfresh
    have hcopy : ∀ P : Copy → Prop, (∀ other, P (w'.copies other)) ↔
        P ⟨(w.copies node).store.after now data, (w.copies node).applied + 1⟩ ∧
          ∀ other, other ≠ node → P (w.copies other) :=
      fun P => hcopies ▸ Function.forall_update_iff w.copies fun _ => P
    rw [hcopy fun copy => NoDangling copy.store]
    refine ⟨⟨fun hsound data' hdata' => ?_, fun hharmless => ?_⟩, fun hsound => ⟨hlog ▸ h.stays, ?_⟩⟩
    · cases hdata.symm.trans hdata'
      exact hiff.mp hsound.1
    · exact ⟨hiff.mpr (hharmless data hdata), fun other _ => (h.current other).tethered.sound⟩
    · rw [hlog]
      exact (hcopy _).mpr ⟨⟨hbound, hnumbers ▸ hkeeps hsound.1⟩, fun other _ => h.current other⟩

end Traffic

/-- **No entry dangles on any node, anywhere in a run of the traffic, if and only if each remove is, where
it is applied, of a file or of a directory that is empty then.** The creates of the log have numbers of
their own, as `nextInodeID` counts them up. -/
theorem no_dangling_iff (boots : NodeId → Int) {moves : List Traffic.Move} {last : Traffic}
    (hrun : exec Traffic.step (.boot boots) moves = some last)
    (hnew : (last.log.filterMap createdNumber).Nodup) (hroot : 0 ∉ last.log.filterMap createdNumber) :
    (∀ front w, front <+: moves → exec Traffic.step (.boot boots) front = some w →
      ∀ node, NoDangling (w.copies node).store) ↔
    Along Traffic.step Traffic.Harmless (.boot boots) moves := by
  refine exec_along_iff moves (J := fun _ w => w.Sound) (Traffic.sound_boot boots)
    (fun _ w h node => (h.current node).tethered.sound) ?_ hrun
  intro before w m w' hfront hbefore h hs
  obtain ⟨rest, rfl⟩ := hfront
  rw [List.append_assoc] at hrun
  obtain ⟨w₀, hw₀, hrest⟩ := (exec_append before ([m] ++ rest)).mp hrun
  cases hbefore.symm.trans hw₀
  exact h.step hs (Traffic.exec_log hrest) hnew hroot

/-! ## What the checks are good for -/

theorem lookup_ok {parentInodeID name childID : Bytes} (h : st.lookup parentInodeID name = .ok childID) :
    ∃ parentKey childKey, encodeInodeKey "parent inode id" parentInodeID = .ok parentKey ∧
      st.dentries.get (encodeDentryKey parentKey name) = some childKey ∧
      encodeInodeKey "inode id" childID = .ok childKey := by
  obtain ⟨parentKey, hkey, h⟩ := bind_ok h
  obtain ⟨parent, -, h⟩ := bind_ok h
  split at h
  · cases h
  · split at h
    · cases h
    · next childKey hget =>
      unfold decodeInodeID at h
      split at h
      · cases h
      · next hlength =>
        cases h
        exact ⟨parentKey, childKey, hkey, hget, encodeInodeKey_formatUint _ (not_not.mp hlength)⟩

theorem emptyAt_of_directoryIsEmpty {inodeID key : Bytes}
    (hkey : encodeInodeKey "inode id" inodeID = .ok key) (h : st.directoryIsEmpty inodeID = .ok true) :
    EmptyAt st key := by
  obtain ⟨inodeKey, hinodeKey, h⟩ := bind_ok h
  cases hkey.symm.trans hinodeKey
  obtain ⟨inode, -, h⟩ := bind_ok h
  split at h
  · cases h
  · have hnone : Bucket.scan st.dentries key = [] := List.isEmpty_iff.mp (Except.ok.inj h)
    intro k c hk hfront
    have hmem : (k, c) ∈ Bucket.scan st.dentries key := mem_scan.mpr ⟨hk, hfront⟩
    rw [hnone] at hmem
    cases hmem

section Demo

/-- A request on node `a` that makes its reads and goes to the end of the log. -/
def oneRequest (request : Request) (newID : Bytes) : List Traffic.Move :=
  [.arrive "a" request, .read 0, .read 0, .read 0, .replicate 0 newID 1]

/-- A directory is made, and a file in it; the file is removed, and the directory. -/
def orderlyTraffic : List Traffic.Move :=
  oneRequest (.mkdir [48] [100] 0o755 0 0) [49] ++ [.apply "a" 0] ++
    oneRequest (.create [49] [102] 0o644 0 0) [50] ++ [.apply "a" 0] ++
    oneRequest (.remove [49] [102]) [] ++ [.apply "a" 0] ++
    oneRequest (.rmdir [48] [100]) [] ++ [.apply "a" 0]

theorem no_dangling_orderly :
    ∃ last, exec Traffic.step (.boot fun _ => 0) orderlyTraffic = some last ∧
      last.log.filterMap createdNumber = [1, 2] ∧ (last.copies "a").applied = 4 ∧
      ∀ node, NoDangling (last.copies node).store := by
  obtain ⟨last, hlast, hnumbers, happlied⟩ : ∃ last,
      exec Traffic.step (.boot fun _ => 0) orderlyTraffic = some last ∧
        last.log.filterMap createdNumber = [1, 2] ∧ (last.copies "a").applied = 4 := by decide +kernel
  have hlaw := no_dangling_iff (fun _ => 0) hlast (by rw [hnumbers]; decide) (by rw [hnumbers]; decide)
  exact ⟨last, hlast, hnumbers, happlied,
    hlaw.mpr (by decide +kernel) orderlyTraffic last List.prefix_rfl hlast⟩

/-- The same, but the directory goes by `Remove`, with the file in it. -/
def removingTraffic : List Traffic.Move :=
  oneRequest (.mkdir [48] [100] 0o755 0 0) [49] ++ [.apply "a" 0] ++
    oneRequest (.create [49] [102] 0o644 0 0) [50] ++ [.apply "a" 0] ++
    oneRequest (.remove [48] [100]) [] ++ [.apply "a" 0]

/-- A `Rmdir` finds the directory empty, and a `Create` in it gets to the log first. -/
def racingTraffic : List Traffic.Move :=
  oneRequest (.mkdir [48] [100] 0o755 0 0) [49] ++
    [.apply "a" 0, .arrive "a" (.rmdir [48] [100]), .arrive "a" (.create [49] [102] 0o644 0 0),
      .read 0, .read 0, .read 0, .read 1, .read 1, .read 1, .replicate 1 [50] 1, .apply "a" 0,
      .replicate 0 [] 1, .apply "a" 0]

/-- The moves leave file 2 in directory 1, which is gone. -/
def Strands (moves : List Traffic.Move) : Prop :=
  ∃ last, exec Traffic.step (.boot fun _ => 0) moves = some last ∧
    last.log.filterMap createdNumber = [1, 2] ∧
    (last.copies "a").store.dentries.get (encodeDentryKey (uint64BE 1) [102]) = some (uint64BE 2) ∧
    (last.copies "a").store.inodes.get (uint64BE 1) = none ∧ ¬ NoDangling (last.copies "a").store

theorem directories_removed_around_files : Strands removingTraffic ∧ Strands racingTraffic := by
  have hstrands : ∀ moves, (∃ last, exec Traffic.step (.boot fun _ => 0) moves = some last ∧
      last.log.filterMap createdNumber = [1, 2] ∧
      (last.copies "a").store.dentries.get (encodeDentryKey (uint64BE 1) [102]) = some (uint64BE 2) ∧
      (last.copies "a").store.inodes.get (uint64BE 1) = none) → Strands moves := by
    intro moves ⟨last, hlast, hnumbers, hdentry, hgone⟩
    refine ⟨last, hlast, hnumbers, hdentry, hgone, fun hsound => ?_⟩
    obtain ⟨inode, hget, -⟩ := isDir_iff.mp (hsound.parent (uint64BE_length 1) hdentry)
    cases hgone.symm.trans hget
  exact ⟨hstrands removingTraffic (by decide +kernel), hstrands racingTraffic (by decide +kernel)⟩

end Demo

end Sandstore.Metadata
