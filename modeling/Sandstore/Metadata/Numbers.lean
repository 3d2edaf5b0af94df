import Mathlib.Data.List.Perm.Basic
import Sandstore.Metadata.Namespace

/-!
# Who numbers the inodes

The number of an inode is chosen by the process that serves the request, before the operation is
replicated: `nextInodeID` counts up from what the process's clock said when it was first asked. Nothing
compares the counters of two processes, be they on two nodes or one after the other on the same node, and
`ApplyCreate` looks at the name that it is given but not at the number: it writes the inode over whatever is
there.

The world here is any number of processes, the creates they have sent, and the store of a node that applies
them in any order, with any other entries in between. **The law** (`creates_are_new`) is that a create that
succeeds is of a new number as long as the processes' ranges do not overlap: the numbers from a process's
first clock reading up to the last it has given out. Then no other inode than the new one and its parent is
changed. Two processes whose clocks read the same give out the same numbers, and the later create replaces
the inode of the earlier one.
-/

namespace Sandstore.Metadata

open Lib
open Raft (Byte Bytes Err)

/-! ## The world -/

/-- `uint64(time.Now().UnixNano())`. -/
def unixNano (clock : Int) : Nat := (clock % 2 ^ 64).toNat

/-- A process: its `inodeIDCounter`, and what the clock said at the first of its calls of `nextInodeID`. -/
structure Process where
  counter : Nat := 0
  seed : Nat := 0
  calls : Nat := 0
  deriving DecidableEq

/-- A call of `nextInodeID`; the number it answers is the new counter. -/
def Process.draw (p : Process) (clock : Int) : Process where
  counter := nextInodeID p.counter (unixNano clock)
  seed := if p.calls = 0 then unixNano clock else p.seed
  calls := p.calls + 1

/-- The processes, the creates that wait to be applied, and a node's store. -/
structure Numbering where
  processes : List Process := []
  pending : List Command := []
  store : Store

namespace Numbering

inductive Move where
  | start
  | create (i : Nat) (clock : Int) (parentInodeID name : Bytes) (fileType : InodeType) (mode uid gid : Nat) (now : Int)
  | apply (k : Nat) (now : Int)
  | other (now : Int) (data : Command)

def init (now : Int) : Numbering where
  store := Store.boot now

/-- A process starts; a process numbers a create and sends it; a create that waits is applied; any entry that
is no create is applied. -/
def step (w : Numbering) : Move → Option Numbering
  | .start => some { w with processes := w.processes ++ [{}] }
  | .create i clock parentInodeID name fileType mode uid gid now =>
    w.processes[i]?.map fun p =>
      let op := createOp (formatUint (p.draw clock).counter) parentInodeID name fileType mode uid gid
      { w with
        processes := w.processes.set i (p.draw clock)
        pending := w.pending ++ [replicateOp op now] }
  | .apply k now =>
    w.pending[k]?.map fun data =>
      { w with pending := w.pending.eraseIdx k, store := w.store.after now data }
  | .other now data =>
    if (createdNumber data).isSome then none else some { w with store := w.store.after now data }

end Numbering

/-- The ranges of the processes do not overlap, and none goes beyond what a `uint64` can hold. -/
structure Apart (processes : List Process) : Prop where
  fits : ∀ p ∈ processes, p.calls ≠ 0 → p.seed + p.calls < 2 ^ 64
  apart : processes.Pairwise fun p q =>
    p.calls = 0 ∨ q.calls = 0 ∨ p.seed + p.calls ≤ q.seed ∨ q.seed + q.calls ≤ p.seed

/-- What a create does that is of a new number: it adds an inode and changes its parent. -/
structure CreatedNew (st : Store) (op : MetadataOperation) (st' : Store) : Prop where
  absent : ∀ key, encodeInodeKey "inode id" op.inodeID = .ok key → st.inodes.get key = none
  stored : ∀ key, encodeInodeKey "inode id" op.inodeID = .ok key → st'.inodes.get key = some op.newInode
  others : ∀ key, encodeInodeKey "inode id" op.inodeID ≠ .ok key → encodeInodeKey "inode id" op.parentID ≠ .ok key →
    st'.inodes.get key = st.inodes.get key

/-! ## Ranges grow -/

/-- A process as it was and as it is later. -/
structure Process.Earlier (p q : Process) : Prop where
  calls : p.calls ≤ q.calls
  seed : p.calls ≠ 0 → q.seed = p.seed

theorem Process.Earlier.refl (p : Process) : p.Earlier p := ⟨Nat.le_refl _, fun _ => rfl⟩

/-- A number in the range of the process. -/
def Process.Gave (p : Process) (n : Nat) : Prop := p.seed < n ∧ n ≤ p.seed + p.calls

theorem Process.Earlier.gave {p q : Process} (h : p.Earlier q) {n : Nat} (hn : p.Gave n) : q.Gave n := by
  have hmore := h.calls
  have hseed := h.seed
  unfold Process.Gave at hn ⊢
  omega

theorem Process.earlier_draw (p : Process) (clock : Int) : p.Earlier (p.draw clock) where
  calls := Nat.le_succ _
  seed := fun hp => if_neg hp

/-- Processes as they were, each of them later on at the same place. -/
def Continued (ps qs : List Process) : Prop := ∀ (i : Nat) p, ps[i]? = some p → ∃ q, qs[i]? = some q ∧ p.Earlier q

theorem Continued.refl (ps : List Process) : Continued ps ps := fun _ p hp => ⟨p, hp, .refl p⟩

theorem Numbering.step_earlier {w w' : Numbering} {m : Move} (h : w.step m = some w') :
    Continued w.processes w'.processes := by
  cases m with
  | start =>
    cases h
    intro i p hp
    exact ⟨p, by rw [List.getElem?_append_left (List.getElem?_eq_some_iff.mp hp).1, hp], .refl p⟩
  | create i clock parentInodeID name fileType mode uid gid now =>
    obtain ⟨p, hp, rfl⟩ := Option.map_eq_some_iff.mp h
    intro j q hq
    by_cases hj : i = j
    · subst hj
      cases hp.symm.trans hq
      exact ⟨_, List.getElem?_set_self (List.getElem?_eq_some_iff.mp hp).1, Process.earlier_draw _ clock⟩
    · exact ⟨q, by rw [List.getElem?_set_ne hj, hq], .refl q⟩
  | apply k now =>
    obtain ⟨data, _, rfl⟩ := Option.map_eq_some_iff.mp h
    exact .refl _
  | other now data =>
    simp only [step] at h
    split at h
    · cases h
    · cases h
      exact .refl _

theorem Apart.earlier {ps qs : List Process} (h : Apart qs) (he : Continued ps qs) : Apart ps where
  fits := by
    intro p hp hcalls
    obtain ⟨i, hi⟩ := List.mem_iff_getElem?.mp hp
    obtain ⟨q, hq, hpq⟩ := he i p hi
    have hmore := hpq.calls
    have hfits := h.fits q (List.mem_of_getElem? hq) (by omega)
    rw [hpq.seed hcalls] at hfits
    omega
  apart := by
    rw [List.pairwise_iff_getElem]
    intro i j hi hj hij
    obtain ⟨q, hq, hpq⟩ := he i _ (List.getElem?_eq_getElem hi)
    obtain ⟨r, hr, hpr⟩ := he j _ (List.getElem?_eq_getElem hj)
    obtain ⟨hi', rfl⟩ := List.getElem?_eq_some_iff.mp hq
    obtain ⟨hj', rfl⟩ := List.getElem?_eq_some_iff.mp hr
    have hlater := List.pairwise_iff_getElem.mp h.apart i j hi' hj' hij
    have hq := hpq.calls
    have hr := hpr.calls
    have hqseed := hpq.seed
    have hrseed := hpr.seed
    omega

/-- Two processes of which both have given out a number have none in common. -/
theorem Apart.disjoint {ps : List Process} (h : Apart ps) {i j : Nat} {p q : Process} (hi : ps[i]? = some p)
    (hj : ps[j]? = some q) {n : Nat} (hp : p.Gave n) (hq : q.Gave n) : i = j := by
  unfold Process.Gave at hp hq
  obtain ⟨hi', rfl⟩ := List.getElem?_eq_some_iff.mp hi
  obtain ⟨hj', rfl⟩ := List.getElem?_eq_some_iff.mp hj
  rcases Nat.lt_trichotomy i j with hlt | heq | hgt
  · have := List.pairwise_iff_getElem.mp h.apart i j hi' hj' hlt
    omega
  · exact heq
  · have := List.pairwise_iff_getElem.mp h.apart j i hj' hi' hgt
    omega

/-! ## What has been given out -/

/-- The numbers of the creates that wait. -/
def Numbering.waiting (w : Numbering) : List Nat := w.pending.filterMap createdNumber

/-- The creates that wait and those that have been applied are of numbers in the processes' ranges, all
different, and the inodes of the store are the root and some of the latter. -/
structure Allotted (used : List Nat) (w : Numbering) : Prop where
  counters : ∀ p ∈ w.processes, p.counter = if p.calls = 0 then 0 else p.seed + p.calls
  distinct : (w.waiting ++ used).Nodup
  handed : ∀ n ∈ w.waiting ++ used, ∃ (i : Nat) (p : Process), w.processes[i]? = some p ∧ p.Gave n
  known : ∀ key inode, w.store.inodes.get key = some inode → Known used key
  creates : ∀ data ∈ w.pending, (createdNumber data).isSome

theorem allotted_init (now : Int) : Allotted [] (Numbering.init now) where
  counters := fun _ hp => absurd hp List.not_mem_nil
  distinct := List.nodup_nil
  handed := fun _ hn => absurd hn List.not_mem_nil
  known := (grounded_boot now).known
  creates := fun _ hdata => absurd hdata List.not_mem_nil

/-- The store after an entry holds what it held, and what the entry creates. -/
theorem known_after {used : List Nat} {st : Store}
    (h : ∀ key inode, st.inodes.get key = some inode → Known used key) (now : Int) (data : Command) :
    ∀ key inode, (st.after now data).inodes.get key = some inode →
      Known (used ++ (createdNumber data).toList) key := by
  intro key inode hget
  rcases after_cases st now data with hsame | happlied
  · exact (h key inode (hsame ▸ hget)).more
  · rcases happlied.made hget with ⟨old, hold, _⟩ | hmade
    · exact (h key old hold).more
    · obtain ⟨hnumber, hlength⟩ := hmade.number
      refine ⟨hlength, .inr (List.mem_append_right _ ?_)⟩
      rw [hnumber]
      exact List.mem_singleton.mpr rfl

/-- The number that a call of `nextInodeID` answers, where the range fits. -/
theorem Process.draw_counter {p : Process} (clock : Int)
    (hcounter : p.counter = if p.calls = 0 then 0 else p.seed + p.calls)
    (hfits : (p.draw clock).seed + (p.draw clock).calls < 2 ^ 64) :
    (p.draw clock).counter = (p.draw clock).seed + (p.draw clock).calls := by
  simp only [draw, nextInodeID] at hfits ⊢
  by_cases hcalls : p.calls = 0
  · simp only [hcalls, if_true, Nat.zero_add] at hcounter hfits ⊢
    rw [hcounter, if_pos rfl, Nat.mod_eq_of_lt hfits]
  · simp only [hcalls, if_false] at hcounter hfits ⊢
    rw [if_neg (by omega), hcounter, Nat.add_assoc, Nat.mod_eq_of_lt hfits]

theorem createdNumber_createOp {n : Nat} (hn : n < 2 ^ 64) (parentInodeID name : Bytes) (fileType : InodeType)
    (mode uid gid : Nat) (now : Int) :
    createdNumber (replicateOp (createOp (formatUint n) parentInodeID name fileType mode uid gid) now) = some n := by
  show (if OpType.create = OpType.create then parseUint (formatUint n) else none) = some n
  rw [if_pos rfl, parseUint_formatUint hn]

/-! ## Steps -/

section Steps

variable {used : List Nat} {w w' : Numbering}

/-- What has been given out is in the ranges of the processes as they are later. -/
theorem Allotted.later (h : Allotted used w) {ps : List Process} (he : Continued w.processes ps) {n : Nat}
    (hn : n ∈ w.waiting ++ used) : ∃ (i : Nat) (p : Process), ps[i]? = some p ∧ p.Gave n := by
  obtain ⟨i, p, hp, hgave⟩ := h.handed n hn
  obtain ⟨q, hq, hpq⟩ := he i p hp
  exact ⟨i, q, hq, hpq.gave hgave⟩

theorem Allotted.start (h : Allotted used w) (hs : w.step .start = some w') : Allotted used w' := by
  have he := Numbering.step_earlier hs
  cases hs
  refine { h with counters := fun p hp => ?_, handed := fun n hn => h.later he hn }
  rcases List.mem_append.mp hp with hold | hnew
  · exact h.counters p hold
  · cases List.mem_singleton.mp hnew
    rfl

theorem Allotted.create (h : Allotted used w) {i : Nat} {p : Process} (hp : w.processes[i]? = some p) (clock : Int)
    (hapart : Apart (w.processes.set i (p.draw clock)))
    (he : Continued w.processes (w.processes.set i (p.draw clock))) (data : Command)
    (hdata : createdNumber data = some (p.draw clock).counter) :
    Allotted used { w with processes := w.processes.set i (p.draw clock), pending := w.pending ++ [data] } := by
  have hat : (w.processes.set i (p.draw clock))[i]? = some (p.draw clock) :=
    List.getElem?_set_self (List.getElem?_eq_some_iff.mp hp).1
  have hfits := hapart.fits _ (List.mem_of_getElem? hat) (Nat.succ_ne_zero _)
  have hcounter := Process.draw_counter clock (h.counters p (List.mem_of_getElem? hp)) hfits
  have hown : (p.draw clock).Gave (p.draw clock).counter :=
    ⟨hcounter ▸ Nat.lt_add_of_pos_right (Nat.succ_pos _), hcounter.le⟩
  -- the new number is in the range of its process alone, and beyond what that has given out
  have hnew : (p.draw clock).counter ∉ w.waiting ++ used := by
    intro hn
    obtain ⟨j, q, hj, hgave⟩ := h.handed _ hn
    obtain ⟨q', hj', hlater⟩ := he j q hj
    obtain rfl := hapart.disjoint hj' hat (hlater.gave hgave) hown
    cases hp.symm.trans hj
    rw [hcounter, Process.Gave] at hgave
    have hcalls : p.calls ≠ 0 := by omega
    simp only [Process.draw, if_neg hcalls] at hgave
    omega
  have hwaiting : ({ w with processes := w.processes.set i (p.draw clock), pending := w.pending ++ [data] } :
      Numbering).waiting ++ used = w.waiting ++ (p.draw clock).counter :: used := by
    simp [Numbering.waiting, hdata]
  refine ⟨?_, ?_, ?_, h.known, ?_⟩
  · intro q hq
    rcases List.mem_or_eq_of_mem_set hq with hold | rfl
    · exact h.counters q hold
    · rw [hcounter]
      exact (if_neg (Nat.succ_ne_zero _)).symm
  · rw [hwaiting]
    exact (List.perm_middle.nodup_iff).mpr (List.nodup_cons.mpr ⟨hnew, h.distinct⟩)
  · intro n hn
    rw [hwaiting] at hn
    rcases List.mem_cons.mp (List.perm_middle.mem_iff.mp hn) with rfl | hold
    · exact ⟨i, p.draw clock, hat, hown⟩
    · exact h.later he hold
  · intro entry hentry
    rcases List.mem_append.mp hentry with hold | hnew
    · exact h.creates entry hold
    · rw [List.mem_singleton.mp hnew, hdata]
      rfl

theorem Allotted.apply (h : Allotted used w) {k : Nat} {data : Command} (hk : w.pending[k]? = some data) (now : Int) :
    Allotted (used ++ (createdNumber data).toList)
      { w with pending := w.pending.eraseIdx k, store := w.store.after now data } := by
  have hperm : (w.waiting ++ used).Perm
      ((w.pending.eraseIdx k).filterMap createdNumber ++ (used ++ (createdNumber data).toList)) := by
    obtain ⟨hlt, rfl⟩ := List.getElem?_eq_some_iff.mp hk
    have hout : w.pending.Perm (w.pending[k] :: w.pending.eraseIdx k) := (List.getElem_cons_eraseIdx_perm hlt).symm
    have hnumbers : w.waiting.Perm
        ((createdNumber w.pending[k]).toList ++ (w.pending.eraseIdx k).filterMap createdNumber) := by
      refine (hout.filterMap createdNumber).trans (List.Perm.of_eq ?_)
      rw [List.filterMap_cons]
      cases createdNumber w.pending[k] <;> rfl
    refine (hnumbers.append_right used).trans ?_
    rw [List.append_assoc]
    exact List.perm_append_comm.trans (List.Perm.of_eq (List.append_assoc _ _ _))
  exact ⟨h.counters, hperm.nodup_iff.mp h.distinct, fun n hn => h.handed n (hperm.mem_iff.mpr hn),
    known_after h.known now data, fun entry hentry => h.creates entry (List.mem_of_mem_eraseIdx hentry)⟩

theorem Allotted.step (h : Allotted used w) {m : Numbering.Move} (hs : w.step m = some w')
    (hapart : Apart w'.processes) : ∃ used', Allotted used' w' := by
  have he := Numbering.step_earlier hs
  cases m with
  | start => exact ⟨used, h.start hs⟩
  | create i clock parentInodeID name fileType mode uid gid now =>
    obtain ⟨p, hp, rfl⟩ := Option.map_eq_some_iff.mp hs
    have hlt : (p.draw clock).counter < 2 ^ 64 := Nat.mod_lt _ (by decide)
    exact ⟨used, h.create hp clock hapart he _
      (createdNumber_createOp hlt parentInodeID name fileType mode uid gid now)⟩
  | apply k now =>
    obtain ⟨data, hk, rfl⟩ := Option.map_eq_some_iff.mp hs
    exact ⟨_, h.apply hk now⟩
  | other now data =>
    simp only [Numbering.step] at hs
    split at hs
    · cases hs
    · next hnone =>
      cases hs
      have hknown := known_after h.known now data
      rw [Option.not_isSome_iff_eq_none.mp hnone, Option.toList_none, List.append_nil] at hknown
      exact ⟨used, { h with known := hknown }⟩

end Steps

theorem allotted_run {now : Int} {moves : List Numbering.Move} {last : Numbering}
    (hrun : exec Numbering.step (Numbering.init now) moves = some last) (hapart : Apart last.processes) :
    ∃ used, Allotted used last := by
  -- the processes are apart at the end, so they were so at every step
  have hkept : ∀ w m w', (Apart w.processes → ∃ used, Allotted used w) → Numbering.step w m = some w' →
      Apart w'.processes → ∃ used, Allotted used w' := by
    intro w m w' hw hs hapart
    obtain ⟨used, hused⟩ := hw (hapart.earlier (Numbering.step_earlier hs))
    exact hused.step hs hapart
  exact exec_invariant hkept moves (fun _ => ⟨[], allotted_init now⟩) hrun hapart

/-! ## New numbers -/

/-- **A create that succeeds is of a new number.** Whatever has happened, if the ranges of the processes do not
overlap then a waiting create that is applied successfully, at whatever time and whichever it is, adds an inode
under a number that was not there, and changes no other inode than the parent. -/
theorem creates_are_new {now clock : Int} {moves : List Numbering.Move} {last : Numbering}
    (hrun : exec Numbering.step (Numbering.init now) moves = some last) (hapart : Apart last.processes)
    {k : Nat} {op : MetadataOperation} {chunkIntent : Option ChunkIntentOperation}
    (hk : last.pending[k]? = some (some ⟨.posixMeta, some op, chunkIntent⟩)) {st' : Store}
    (hok : last.store.applyTransaction clock (some ⟨.posixMeta, some op, chunkIntent⟩) = .ok st') :
    CreatedNew last.store op st' := by
  obtain ⟨used, h⟩ := allotted_run hrun hapart
  have hmem := List.mem_of_getElem? hk
  have htype : op.type = .create := by
    have hsome := h.creates _ hmem
    by_contra htype
    rw [createdNumber, if_neg htype] at hsome
    cases hsome
  simp only [Store.applyTransaction, Store.applyStandardMetadata, htype] at hok
  obtain ⟨parentKey, childKey, parent, hparentKey, hchildKey, hparent, _, _, rfl⟩ := applyCreate_ok hok
  have hnumber := (createdNumber_key chunkIntent htype hchildKey).1
  have hwaiting : uint64OfBE childKey ∈ last.waiting := List.mem_filterMap.mpr ⟨_, hmem, hnumber⟩
  -- the number waits, so it has not been used; and it is beyond the reading that it was counted from
  have hunknown : ¬ Known used childKey := by
    rintro ⟨_, hzero | hused⟩
    · obtain ⟨_, p, _, hrange, _⟩ := h.handed _ (List.mem_append_left used hwaiting)
      omega
    · exact (List.nodup_append.mp h.distinct).2.2 _ hwaiting _ hused rfl
  have habsent : last.store.inodes.get childKey = none := by
    cases hget : last.store.inodes.get childKey with
    | none => rfl
    | some inode => exact absurd (h.known childKey inode hget) hunknown
  have hne : childKey ≠ parentKey := by
    rintro rfl
    exact Option.some_ne_none parent (hparent.symm.trans habsent)
  have hchild := encodeInodeKey_as "inode id" hchildKey
  have hparent' := encodeInodeKey_as "inode id" hparentKey
  refine ⟨?_, ?_, ?_⟩
  · intro key hkey
    cases hchild.symm.trans hkey
    exact habsent
  · intro key hkey
    cases hchild.symm.trans hkey
    rw [addDentry_inodes, if_neg hne, if_pos rfl]
  · intro key hkey hpkey
    have hchildNe : key ≠ childKey := fun heq => hkey (heq ▸ hchild)
    have hparentNe : key ≠ parentKey := fun heq => hpkey (heq ▸ hparent')
    rw [addDentry_inodes, if_neg hparentNe, if_neg hchildNe]

/-- Two processes that number a file each, the first of them at 1000 and the second at `clock`; the first file is
there when the second is still to come. -/
def twoProcesses (clock : Int) : List Numbering.Move :=
  [.start, .start, .create 0 1000 [48] [102] .file 0o644 0 0 1, .create 1 clock [48] [103] .file 0o600 7 7 2,
    .apply 0 1]

/-- Where that ends. -/
def twoProcessesEnd (clock : Int) : Numbering :=
  (exec Numbering.step (Numbering.init 0) (twoProcesses clock)).getD (Numbering.init 0)

theorem twoProcesses_run (clock : Int) :
    exec Numbering.step (Numbering.init 0) (twoProcesses clock) = some (twoProcessesEnd clock) := rfl

/-- The second of the two creates. -/
def secondCreate (number : Nat) : MetadataOperation :=
  { createOp (formatUint number) [48] [103] .file 0o600 7 7 with timestamp := 2 }

theorem creates_are_new_later :
    Apart (twoProcessesEnd 2000).processes ∧
      ∃ st', (twoProcessesEnd 2000).store.applyTransaction 0 (some ⟨.posixMeta, some (secondCreate 2001), none⟩) =
        .ok st' ∧ CreatedNew (twoProcessesEnd 2000).store (secondCreate 2001) st' := by
  have hapart : Apart (twoProcessesEnd 2000).processes := ⟨by decide +kernel, by decide +kernel⟩
  have hok : ((twoProcessesEnd 2000).store.applyTransaction 0
      (some ⟨.posixMeta, some (secondCreate 2001), none⟩)).isOk = true := by decide +kernel
  have hk : (twoProcessesEnd 2000).pending[0]? = some (some ⟨.posixMeta, some (secondCreate 2001), none⟩) := by
    decide +kernel
  exact ⟨hapart, _, ok_of_isOk hok, creates_are_new (twoProcesses_run 2000) hapart hk (ok_of_isOk hok)⟩

/-- Two processes whose clocks say the same. The second create succeeds, and the file of the first has become
that of the second: both names lead to it. -/
theorem created_twice :
    ∃ st', (twoProcessesEnd 1000).pending[0]? = some (some ⟨.posixMeta, some (secondCreate 1001), none⟩) ∧
      (twoProcessesEnd 1000).store.applyTransaction 0 (some ⟨.posixMeta, some (secondCreate 1001), none⟩) = .ok st' ∧
      ¬ CreatedNew (twoProcessesEnd 1000).store (secondCreate 1001) st' ∧
      (((twoProcessesEnd 1000).store.getInode (formatUint 1001)).toOption.map (·.1.ownerUID) = some 0) ∧
      ((st'.getInode (formatUint 1001)).toOption.map (·.1.ownerUID) = some 7) ∧
      (st'.lookup [48] [102]).toOption = some (formatUint 1001) ∧
      (st'.lookup [48] [103]).toOption = some (formatUint 1001) := by
  have hok : ((twoProcessesEnd 1000).store.applyTransaction 0
      (some ⟨.posixMeta, some (secondCreate 1001), none⟩)).isOk = true := by decide +kernel
  refine ⟨_, by decide +kernel, ok_of_isOk hok, fun h => ?_, by decide +kernel, by decide +kernel,
    by decide +kernel, by decide +kernel⟩
  have habsent := h.absent (uint64BE 1001) (by decide +kernel)
  have hthere : ((twoProcessesEnd 1000).store.inodes.get (uint64BE 1001)).isSome = true := by decide +kernel
  rw [habsent] at hthere
  cases hthere

end Sandstore.Metadata
