import Sandstore.Raft.Compaction

/-!
# Restarting

The WAL and the snapshot are two files written one at a time, and `Start` compares them: a snapshot
has to come with data, and the log must not end before it. This module asks when a node whose
critical sections and compaction interleave in any order, and which crashes between any two of its
atomic steps, always leaves files that `Start` accepts.

**Reaching.** The log reaches an index when the index is compacted or an entry is there. Every
index a node has applied, included in a snapshot or saved as one is reached by its log, and the
runs in which that stays so are those where no request breaks it: no snapshot arrives for an index
the log does not reach, and no conflict cuts the log below what was applied or saved. A snapshot
for an index past the end of the log is what a lagging follower is sent, and it is saved before
anything else happens; `Start` then refuses the node (`restart_refused`).

**Batches.** A `StoreLogs` that stops at a compacted index leaves what it stored before in memory
and not on disk. A batch in ascending order stops at its first entry or not at all, so the order of
`pendingBatch` is part of the invariant.
-/

namespace Sandstore.Raft

open Lib Lib.Proc
open FileLogStore

variable {δ σ : Type}

/-! ## Indices the log reaches -/

namespace FileLogStore

/-- The index is compacted, or an entry is there. -/
def Reaches (s : FileLogStore δ) (k : Nat) : Prop :=
  k ≤ s.compactedUntil ∨ ∃ e, s.logs.get k = some e

variable {s : FileLogStore δ} {k : Nat}

theorem Reaches.compact {s' : FileLogStore δ} (h : s.Reaches k) (hlogs : s'.logs = s.logs)
    (huntil : s.compactedUntil ≤ s'.compactedUntil) : s'.Reaches k := by
  rcases h with hle | ⟨e, he⟩
  · exact .inl (hle.trans huntil)
  · exact .inr ⟨e, hlogs ▸ he⟩

theorem reaches_of_getLog {e : LogEntry δ} (h : s.getLog k = .ok e) : s.Reaches k := .inr ⟨e, (getLog_eq_ok.mp h).2⟩

variable [Conv]

theorem Reaches.le_last (h : s.Reaches k) (hkept : Kept s) : k ≤ s.last := by
  rcases h with hle | ⟨e, he⟩
  · exact hle.trans hkept.base
  · exact hkept.top k e he

theorem Reaches.place (h : s.Reaches k) (entry : LogEntry δ) : (s.place entry).Reaches k := by
  rcases h with hle | ⟨e, he⟩
  · exact .inl hle
  · right
    rw [get_place]
    by_cases hk : k = uint64 entry.index
    · exact ⟨entry, if_pos hk⟩
    · exact ⟨e, (if_neg hk).trans he⟩

theorem Reaches.storeLoop {entries : List (LogEntry δ)} (h : s.Reaches k) : (s.storeLoop entries).1.Reaches k :=
  storeLoop_induct (I := fun s => s.Reaches k) h fun _ hs e _ _ => hs.place e

theorem Reaches.cut {s' : FileLogStore δ} {c : Nat} (h : s.Reaches k) (hk : k < c)
    (hs : s.deleteRange c none = some s') : s'.Reaches k := by
  cases deleteRange_from (by omega) hs
  rcases h with hle | ⟨e, he⟩
  · exact .inl hle
  · right
    rw [get_cut, if_neg (by omega)]
    exact ⟨e, he⟩

/-- A list of entries whose indices do not fall. -/
def Ascending (entries : List (LogEntry δ)) : Prop :=
  entries.Pairwise fun a b => uint64 a.index ≤ uint64 b.index

/-- Entries in ascending order are stored from the first one on or not at all. -/
theorem storeLoop_ascending {entries : List (LogEntry δ)}
    (hasc : Ascending entries) (herr : (s.storeLoop entries).2 ≠ none) : (s.storeLoop entries).1 = s := by
  cases entries with
  | nil => rfl
  | cons entry entries =>
    obtain ⟨hhead, _⟩ := List.pairwise_cons.mp hasc
    by_cases hle : uint64 entry.index ≤ s.compactedUntil
    · rw [FileLogStore.storeLoop, if_pos hle]
    · refine absurd (storeLoop_ok fun e he => ?_) herr
      rcases List.mem_cons.mp he with rfl | he
      · omega
      · have := hhead e he
        omega

end FileLogStore

/-! ## Files that are accepted -/

/-- The index of the snapshot on disk, 0 if there is none. -/
def Disk.savedIndex (d : Disk δ σ) : Nat := (loadSnapshot d.snapshot).1.lastIncludedIndex

/-- The log on disk reaches the snapshot on disk, and the snapshot comes with data. -/
structure Intact [Conv] (d : Disk δ σ) : Prop where
  reached : (load d.wal).Reaches d.savedIndex
  data : 0 < d.savedIndex → (loadSnapshot d.snapshot).2 ≠ []

theorem lastIndexAndTerm_of_kept [Conv] {s : FileLogStore δ} (h : Kept s) :
    ∃ term, s.lastIndexAndTerm = .ok (s.last, term) := by
  unfold FileLogStore.lastIndexAndTerm
  by_cases h0 : s.last = 0
  · exact ⟨0, by rw [if_pos h0, h0]⟩
  · rw [if_neg h0]
    by_cases hbase : s.last = s.compactedUntil
    · exact ⟨s.compactedTerm, by rw [if_pos hbase, hbase]⟩
    · obtain ⟨e, he⟩ := h.held.resolve_left hbase
      exact ⟨uint64 e.term, by rw [if_neg hbase, he]⟩

theorem recovered_included [Conv] (d : Disk δ σ) :
    (recovered d).lastIncludedIndex = d.savedIndex ∧ (recovered d).lastApplied = d.savedIndex ∧
      (recovered d).logStore = load d.wal ∧ (recovered d).pendingBatch = [] := by
  unfold recovered Disk.savedIndex
  dsimp only
  split
  · exact ⟨rfl, rfl, rfl, rfl⟩
  · next h =>
    have h0 : (loadSnapshot d.snapshot).1.lastIncludedIndex = 0 := by omega
    rw [h0]
    exact ⟨rfl, rfl, rfl, rfl⟩

theorem start_of_intact [Conv] {d : Disk δ σ} (h : Intact d) : start d = .ok (recovered d) := by
  obtain ⟨hincluded, _, hlog, _⟩ := recovered_included d
  have hkept := kept_load d.wal
  obtain ⟨term, hlast⟩ := lastIndexAndTerm_of_kept hkept
  have hdata : ¬ ((loadSnapshot d.snapshot).1.lastIncludedIndex > 0 ∧ (loadSnapshot d.snapshot).2 = []) :=
    fun hbad => h.data hbad.1 hbad.2
  have hreach := h.reached.le_last hkept
  unfold start
  dsimp only
  rw [if_neg hdata, hlog, hlast, hincluded]
  exact if_neg (Nat.not_lt.mpr hreach)

/-! ## Terms and roles, beside another thread -/

section Terms

/-- Stepping down is nothing to `N`. -/
structure Overlooks (N : Node δ σ → Node δ σ → Prop) : Prop where
  demote : ∀ m newTerm leaderID, N m (m.demote newTerm leaderID)
  persist : ∀ m, N m m.putStable
  fail : ∀ m, N m ((m.withMem fun r => { r with state := .follower }).failAllPending .stableStoreFailure)

variable [Conv] {α : Type} {R G N : Node δ σ → Node δ σ → Prop} {I D P : Node δ σ → Prop} {n : Node δ σ}
  (hP : Lasts R N P) (hrefl : ∀ n, R n n) (hN : ∀ n n', I n → N n n' → I n' ∧ G n n') (ho : Overlooks N)

include hP hrefl hN ho

omit [Conv] in
theorem stepDown_lasts (hn : P n) (newTerm : Nat) (leaderID : NodeId) :
    Guarded (fun _ => False) R I G D (stepDown newTerm leaderID) n fun _ m => P m := by
  refine guarded_seq hrefl (hP.update hN hn fun m => ho.demote m newTerm leaderID) fun _ m hm => ?_
  refine guarded_seq hrefl (hP.write hN hm ho.persist) fun wrote m' hm' => ?_
  refine guarded_ite (fun _ => hP.pure hm' _) fun _ => ?_
  exact guarded_seq hrefl (hP.update hN hm' ho.fail) fun _ m'' hm'' => hP.pure hm'' _

/-- The term handling that two handlers share, with a fact the body needs. -/
theorem handled_lasts {reqTerm : Int} {leaderID : NodeId} {body : Proc (Node δ σ) α} {stale : α}
    {failed : Err → α} {Q : α → Node δ σ → Prop} (hstale : ∀ m, R n m → Q stale m)
    (hfailed : ∀ err m, P m → Q (failed err) m) (hn : int64 n.mem.currentTerm ≤ reqTerm → P n)
    (hbody : ∀ m, P m → Guarded (fun _ => False) R I G D body m Q) :
    Guarded (fun _ => False) R I G D (underTerm n reqTerm leaderID stale failed body) n Q := by
  refine guarded_ite (fun _ => guarded_pure fun m hm _ => hstale m hm) fun hfresh => ?_
  have hPn := hn (Int.not_lt.mp hfresh)
  refine guarded_ite (fun _ => ?_) fun _ => hbody n hPn
  refine guarded_seq hrefl (stepDown_lasts hP hrefl hN ho hPn _ leaderID) fun err m hm => ?_
  cases err with
  | some err => exact guarded_pure fun m' hm' _ => hfailed err m' (hP.rely m m' hm hm')
  | none => exact hbody m hm

end Terms

/-! ## The invariant, and what each thread may do to it -/

section Restarting

attribute [local instance] Conv.exact

/-- What a restart needs of a running node: its log is well kept and on disk, it reaches whatever
was included, applied or saved, and the pending batch can be stored as a whole. -/
structure Sturdy (n : Node δ σ) : Prop where
  kept : Kept n.mem.logStore
  synced : load n.disk.wal = n.mem.logStore
  included : n.mem.logStore.Reaches n.mem.lastIncludedIndex
  applied : n.mem.lastApplied ≤ n.mem.lastIncludedIndex ∨ n.mem.logStore.Reaches n.mem.lastApplied
  intact : Intact n.disk
  queued : Ascending n.mem.pendingBatch
  next : n.mem.state = .leader →
    ∀ e ∈ n.mem.pendingBatch, uint64 e.index ≤ n.mem.logStore.last + n.mem.pendingBatch.length

/-- What compaction may do while a section runs: move the compacted position, and save a snapshot
of something applied. -/
structure Beside (n n' : Node δ σ) : Prop where
  mem : n'.mem = { n.mem with logStore := n'.mem.logStore }
  logs : n'.mem.logStore.logs = n.mem.logStore.logs
  last : n'.mem.logStore.last = n.mem.logStore.last
  compacted : n.mem.logStore.compactedUntil ≤ n'.mem.logStore.compactedUntil
  saved : n'.disk.savedIndex = n.disk.savedIndex ∨ n'.disk.savedIndex ≤ n.mem.lastApplied

theorem Beside.refl (n : Node δ σ) : Beside n n := ⟨rfl, rfl, rfl, Nat.le_refl _, .inl rfl⟩

theorem Beside.applied {n n' : Node δ σ} (h : Beside n n') : n'.mem.lastApplied = n.mem.lastApplied := by rw [h.mem]

theorem Beside.included {n n' : Node δ σ} (h : Beside n n') : n'.mem.lastIncludedIndex = n.mem.lastIncludedIndex := by
  rw [h.mem]

theorem Beside.role {n n' : Node δ σ} (h : Beside n n') : n'.mem.state = n.mem.state := by rw [h.mem]

theorem Beside.trans (a b c : Node δ σ) (hab : Beside a b) (hbc : Beside b c) : Beside a c where
  mem := by
    rw [hbc.mem, hab.mem]
  logs := hbc.logs.trans hab.logs
  last := hbc.last.trans hab.last
  compacted := hab.compacted.trans hbc.compacted
  saved := by
    have happlied := hab.applied
    rcases hbc.saved with heq | hle
    · rw [heq]
      exact hab.saved
    · exact .inr (happlied ▸ hle)

/-- What a section may do while compaction runs: apply more, and keep the log reaching whatever was
applied. -/
structure Onward (n n' : Node δ σ) : Prop where
  applied : n.mem.lastApplied ≤ n'.mem.lastApplied
  reaches : ∀ k, k ≤ n.mem.lastApplied → n.mem.logStore.Reaches k → n'.mem.logStore.Reaches k

theorem Onward.refl (n : Node δ σ) : Onward n n := ⟨Nat.le_refl _, fun _ _ h => h⟩

theorem Onward.trans (a b c : Node δ σ) (hab : Onward a b) (hbc : Onward b c) : Onward a c :=
  ⟨hab.applied.trans hbc.applied, fun k hk h => hbc.reaches k (hk.trans hab.applied) (hab.reaches k hk h)⟩

/-- The rest of a section, with compaction beside it. -/
abbrev Safe {α : Type} (p : Proc (Node δ σ) α) (n : Node δ σ) (Q : α → Node δ σ → Prop) : Prop :=
  Guarded (fun _ => False) Beside Sturdy Onward (fun n => Intact n.disk) p n Q

/-- A section that is safe wherever it starts. -/
def Safely {α : Type} (p : Proc (Node δ σ) α) : Prop := ∀ n, Safe p n fun _ _ => True

section Rules

variable {α β : Type}

theorem safely_pure (a : α) : Safely (pure a : Proc (Node δ σ) α) := fun _ => guarded_pure fun _ _ _ => trivial

theorem safely_bind {p : Proc (Node δ σ) α} {g : α → Proc (Node δ σ) β} (hp : Safely p)
    (hg : ∀ a, Safely (g a)) : Safely (p >>= g) :=
  fun n => guarded_bind Beside.refl ((hp n).imp fun a m _ _ => hg a m)

theorem safe_read {g : Node δ σ → Proc (Node δ σ) β} {n : Node δ σ} {Q : β → Node δ σ → Prop}
    (h : ∀ m, Beside n m → Sturdy m → Safe (g m) m Q) : Safe (read >>= g) n Q :=
  guarded_read_bind Beside.refl Beside.trans Onward.refl h

theorem safely_read {g : Node δ σ → Proc (Node δ σ) β}
    (h : ∀ m, Sturdy m → Safe (g m) m fun _ _ => True) : Safely (read >>= g) :=
  fun _ => safe_read fun m _ hm => h m hm

theorem safely_get {g : Node δ σ → Proc (Node δ σ) β} (h : ∀ m, Safely (g m)) : Safely (read >>= g) :=
  safely_read fun m _ => h m m

theorem safely_ite {c : Prop} [Decidable c] {p q : Proc (Node δ σ) α} (hp : Safely p) (hq : Safely q) :
    Safely (if c then p else q) := fun n => guarded_ite (fun _ => hp n) fun _ => hq n

/-- A program whose result goes nowhere. -/
theorem Safely.ends {p : Proc (Node δ σ) α} {f : α → β} (hp : Safely p) : Safely (p >>= fun a => pure (f a)) :=
  safely_bind hp fun _ => safely_pure _

theorem safely_update {f : Node δ σ → Node δ σ} (h : ∀ m, Sturdy m → Sturdy (f m) ∧ Onward m (f m)) :
    Safely (update f) := fun _ => guarded_update fun m _ hm => ⟨(h m hm).1, (h m hm).2, fun _ _ _ => trivial⟩

end Rules

/-! ## The atomic steps -/

section Steps

variable {n n' : Node δ σ}

/-- Nothing a restart looks at has changed. -/
structure SameLog (n n' : Node δ σ) : Prop where
  log : n'.mem.logStore = n.mem.logStore
  wal : n'.disk.wal = n.disk.wal
  snapshot : n'.disk.snapshot = n.disk.snapshot
  applied : n'.mem.lastApplied = n.mem.lastApplied
  included : n'.mem.lastIncludedIndex = n.mem.lastIncludedIndex
  includedTerm : n'.mem.lastIncludedTerm = n.mem.lastIncludedTerm

/-- A change to the rest of the node, which may drop the pending batch and may not make the node a
leader. -/
structure Elsewhere (n n' : Node δ σ) : Prop extends SameLog n n' where
  batch : n'.mem.pendingBatch = [] ∨
    n'.mem.pendingBatch = n.mem.pendingBatch ∧ (n'.mem.state = .leader → n.mem.state = .leader)

theorem Sturdy.elsewhere (n n' : Node δ σ) (h : Sturdy n) (hs : Elsewhere n n') : Sturdy n' ∧ Onward n n' := by
  have hintact : Intact n'.disk := by
    have hsaved : n'.disk.savedIndex = n.disk.savedIndex := by
      simp only [Disk.savedIndex, hs.snapshot]
    refine ⟨?_, ?_⟩
    · rw [hs.wal, hsaved]
      exact h.intact.reached
    · rw [hsaved, hs.snapshot]
      exact h.intact.data
  refine ⟨⟨hs.log ▸ h.kept, ?_, ?_, ?_, hintact, ?_, ?_⟩, ⟨Nat.le_of_eq hs.applied.symm, ?_⟩⟩
  · rw [hs.wal, hs.log]
    exact h.synced
  · rw [hs.log, hs.included]
    exact h.included
  · rw [hs.log, hs.included, hs.applied]
    exact h.applied
  · rcases hs.batch with hnil | ⟨hsame, _⟩
    · rw [hnil]
      exact List.Pairwise.nil
    · rw [hsame]
      exact h.queued
  · intro hleader e he
    rcases hs.batch with hnil | ⟨hsame, hrole⟩
    · rw [hnil] at he
      cases he
    · rw [hsame] at he ⊢
      rw [hs.log]
      exact h.next (hrole hleader) e he
  · intro k _ hk
    rw [hs.log]
    exact hk

theorem Sturdy.rewrite (h : Sturdy n) {s : FileLogStore δ} (hkept : Kept s)
    (hreach : ∀ k, k = n.mem.lastIncludedIndex ∨ k = n.disk.savedIndex ∨ k ≤ n.mem.lastApplied →
      n.mem.logStore.Reaches k → s.Reaches k) (hlast : n.mem.state = .leader → n.mem.logStore.last ≤ s.last) :
    Sturdy (n.withLog s).putWal ∧ Onward n (n.withLog s).putWal := by
  have hload : load (some s.file) = s := load_file hkept
  refine ⟨⟨hkept, hload, hreach _ (.inl rfl) h.included, ?_, ⟨?_, h.intact.data⟩, h.queued, ?_⟩,
    ⟨Nat.le_refl _, fun k hk => hreach k (.inr (.inr hk))⟩⟩
  · exact h.applied.imp id (hreach _ (.inr (.inr (Nat.le_refl _))))
  · have hreached := h.intact.reached
    rw [h.synced] at hreached
    show (load (some s.file)).Reaches n.disk.savedIndex
    rw [hload]
    exact hreach _ (.inr (.inl rfl)) hreached
  · intro hleader e he
    have hnext := h.next hleader e he
    have hlast := hlast hleader
    exact hnext.trans (Nat.add_le_add_right hlast _)

theorem storeLoop_last (entries : List (LogEntry δ)) (s : FileLogStore δ) :
    s.last ≤ (s.storeLoop entries).1.last := by
  refine storeLoop_induct (I := fun s' => s.last ≤ s'.last) (Nat.le_refl _) fun s' hs e _ _ => ?_
  rw [place_last]
  exact hs.trans (Nat.le_max_left _ _)

theorem storeLogs_safely {entries : List (LogEntry δ)} (hasc : Ascending entries) :
    Safely (storeLogs entries : Proc (Node δ σ) (Option Err)) := by
  intro _ m _ hm fate hfate
  cases hfate.resolve_right id
  cases herr : (m.mem.logStore.storeLoop entries).2 with
  | some err =>
    have hsame : (m.mem.logStore.storeLoop entries).1 = m.mem.logStore := by
      apply storeLoop_ascending hasc
      rw [herr]
      exact Option.some_ne_none err
    simp only [outcome, herr, hsame]
    exact ⟨hm, .refl m, fun _ _ _ => trivial⟩
  | none =>
    simp only [outcome, herr]
    obtain ⟨hsturdy, honward⟩ := hm.rewrite hm.kept.storeLoop
      (fun k _ hk => Reaches.storeLoop hk) fun _ => storeLoop_last entries _
    exact ⟨hsturdy, honward, fun _ _ _ => trivial⟩

theorem Beside.reaches (h : Beside n n') {k : Nat} (hk : n.mem.logStore.Reaches k) :
    n'.mem.logStore.Reaches k := hk.compact h.logs h.compacted

theorem Sturdy.compact (h : Sturdy n) {k : Nat} {s : FileLogStore δ}
    (hs : n.mem.logStore.deleteRange 0 (some k) = some s) :
    Sturdy (n.withLog s).putWal ∧ Onward n (n.withLog s).putWal ∧ Beside n (n.withLog s).putWal := by
  obtain ⟨hlogs, hlast, huntil⟩ := deleteRange_prefix h.kept hs
  have hle : n.mem.logStore.compactedUntil ≤ s.compactedUntil := huntil ▸ Nat.le_max_left _ _
  obtain ⟨hsturdy, honward⟩ := h.rewrite (h.kept.deleteRange hs)
    (fun _ _ hk => hk.compact hlogs hle) fun _ => Nat.le_of_eq hlast.symm
  exact ⟨hsturdy, honward, rfl, hlogs, hlast, hle, .inl rfl⟩

/-- Whatever compaction beside it would keep, compacting a prefix in a section keeps. -/
theorem compact_safe {P : Node δ σ → Prop} (hP : ∀ a b, P a → Beside a b → P b) (hn : P n) (k : Nat) :
    Safe (deleteRange 0 (some k)) n fun _ m => P m := by
  intro m hnm hm fate hfate
  cases hfate.resolve_right id
  have hPm := hP n m hn hnm
  cases hd : m.mem.logStore.deleteRange 0 (some k) with
  | none =>
    simp only [outcome, hd]
    exact ⟨hm, .refl m, fun m' hm' _ => hP m m' hPm hm'⟩
  | some s =>
    simp only [outcome, hd]
    obtain ⟨hsturdy, honward, hbeside⟩ := hm.compact hd
    exact ⟨hsturdy, honward, fun m' hm' _ => hP _ m' (hP m _ hPm hbeside) hm'⟩

/-- Cutting the log of a node that is not a leader, above whatever was included, applied or saved. -/
theorem cut_safe {c : Nat} (hrole : n.mem.state ≠ .leader) (hincluded : n.mem.lastIncludedIndex < c)
    (happlied : n.mem.lastApplied < c) (hsaved : n.disk.savedIndex < c) :
    Safe (deleteRange c none) n fun _ _ => True := by
  intro m hnm hm fate hfate
  cases hfate.resolve_right id
  cases hd : m.mem.logStore.deleteRange c none with
  | none =>
    simp only [outcome, hd]
    exact ⟨hm, .refl m, fun _ _ _ => trivial⟩
  | some s =>
    simp only [outcome, hd]
    have hbelow : ∀ k, k = m.mem.lastIncludedIndex ∨ k = m.disk.savedIndex ∨ k ≤ m.mem.lastApplied → k < c := by
      rw [hnm.included, hnm.applied]
      have := hnm.saved
      rintro k (rfl | rfl | hk)
      · exact hincluded
      · omega
      · exact Nat.lt_of_le_of_lt hk happlied
    obtain ⟨hsturdy, honward⟩ := hm.rewrite (hm.kept.deleteRange hd)
      (fun k hk hreach => hreach.cut (hbelow k hk) hd)
      (fun hleader => absurd (hnm.role ▸ hleader) hrole)
    exact ⟨hsturdy, honward, fun _ _ _ => trivial⟩

theorem Sturdy.save (h : Sturdy n) {snap : SnapshotFile} (hdata : snap.data ≠ [])
    (hreach : n.mem.logStore.Reaches snap.meta.lastIncludedIndex) :
    Sturdy { n with disk := { n.disk with snapshot := some snap } } := by
  refine ⟨h.kept, h.synced, h.included, h.applied, ⟨?_, fun _ => hdata⟩, h.queued, h.next⟩
  show (load n.disk.wal).Reaches snap.meta.lastIncludedIndex
  rw [h.synced]
  exact hreach

theorem overlooks_elsewhere : Overlooks (Elsewhere : Node δ σ → Node δ σ → Prop) where
  demote := fun _ _ _ => ⟨⟨rfl, rfl, rfl, rfl, rfl, rfl⟩, .inl rfl⟩
  persist := fun _ => ⟨⟨rfl, rfl, rfl, rfl, rfl, rfl⟩, .inr ⟨rfl, id⟩⟩
  fail := fun _ => ⟨⟨rfl, rfl, rfl, rfl, rfl, rfl⟩, .inl rfl⟩

theorem safely_elsewhere {f : Node δ σ → Node δ σ} (hf : ∀ m, Elsewhere m (f m)) : Safely (update f) :=
  fun _ => lasts_true.update Sturdy.elsewhere trivial hf

end Steps

/-! ## Applying -/

section Applying

theorem Sturdy.notify {n : Node δ σ} (h : Sturdy n) (index : Int) (err : Option Err) :
    Sturdy (n.notify index err) ∧ Onward n (n.notify index err) := by
  unfold Node.notify
  split
  · exact h.elsewhere n _ ⟨⟨rfl, rfl, rfl, rfl, rfl, rfl⟩, .inr ⟨rfl, id⟩⟩
  · exact ⟨h, .refl n⟩

theorem applyEntry_safe (M : Machine δ σ) {n : Node δ σ} {entry : LogEntry δ}
    (hget : n.mem.logStore.getLog (n.mem.lastApplied + 1) = .ok entry) :
    Safe (applyEntry M (n.mem.lastApplied + 1) entry) n fun _ _ => True := by
  intro m hnm hm fate hfate
  cases hfate.resolve_right id
  have hreach := hnm.reaches (reaches_of_getLog hget)
  have happlied := hnm.applied
  refine ⟨⟨hm.kept, hm.synced, hm.included, .inr hreach, ⟨hm.intact.reached, hm.intact.data⟩,
    hm.queued, hm.next⟩, ⟨?_, fun _ _ hk => hk⟩, safely_update (fun _ h => h.notify _ _) _⟩
  show m.mem.lastApplied ≤ n.mem.lastApplied + 1
  omega

theorem applyLoop_safely (M : Machine δ σ) (fuel : Nat) : Safely (applyLoop M fuel : Proc (Node δ σ) Unit) := by
  induction fuel with
  | zero => exact safely_pure ()
  | succ fuel ih =>
    apply safely_read
    intro m _
    apply guarded_ite
    · intro _
      apply guarded_ite
      · intro hskip
        apply guarded_bind Beside.refl
        apply guarded_update
        intro m' hm' hsturdy
        have happlied := hm'.applied
        have hincluded := hm'.included
        refine ⟨⟨hsturdy.kept, hsturdy.synced, hsturdy.included, .inl ?_, hsturdy.intact,
          hsturdy.queued, hsturdy.next⟩, ⟨?_, fun _ _ hk => hk⟩, fun m'' _ _ => ih m''⟩
        · show m.mem.lastApplied + 1 ≤ m'.mem.lastIncludedIndex
          omega
        · show m'.mem.lastApplied ≤ m.mem.lastApplied + 1
          omega
      · intro _
        cases hget : m.mem.logStore.getLog (m.mem.lastApplied + 1) with
        | error err => exact safely_pure () m
        | ok entry =>
          apply guarded_bind Beside.refl
          exact (applyEntry_safe M hget).imp fun _ m' _ _ => ih m'
    · exact fun _ => safely_pure () m

theorem applyLogs_safely (M : Machine δ σ) : Safely (applyLogs M) := safely_get fun _ => applyLoop_safely M _

theorem commit_safely (f : Replicator δ → Nat) :
    Safely (update fun n : Node δ σ => n.withMem fun r => { r with commitIndex := f r }) :=
  safely_elsewhere fun _ => ⟨⟨rfl, rfl, rfl, rfl, rfl, rfl⟩, .inr ⟨rfl, id⟩⟩

end Applying

/-! ## The sections that touch the log only to append -/

section Routine

variable {env : Env} {M : Machine δ σ}

theorem Sturdy.notifyAll {n : Node δ σ} (h : Sturdy n) (batch : List (LogEntry δ)) (err : Err) :
    Sturdy (n.notifyAll batch err) ∧ Onward n (n.notifyAll batch err) := by
  induction batch generalizing n with
  | nil => exact ⟨h, .refl n⟩
  | cons entry batch ih =>
    obtain ⟨hsturdy, honward⟩ := h.notify entry.index (some err)
    obtain ⟨hrest, hmore⟩ := ih hsturdy
    exact ⟨hrest, .trans _ _ _ honward hmore⟩

theorem persistStable_safely : Safely (persistStable : Proc (Node δ σ) Bool) :=
  fun _ => lasts_true.write Sturdy.elsewhere trivial overlooks_elsewhere.persist

theorem handleStableStoreFailure_safely (err : Err) :
    Safely (handleStableStoreFailure err : Proc (Node δ σ) (Option Err)) :=
  (safely_elsewhere overlooks_elsewhere.fail).ends

theorem stepDown_safely (newTerm : Nat) (leaderID : NodeId) :
    Safely (stepDown newTerm leaderID : Proc (Node δ σ) (Option Err)) :=
  fun _ => stepDown_lasts lasts_true Beside.refl Sturdy.elsewhere overlooks_elsewhere trivial newTerm leaderID

theorem storeBatch_safely {batch : List (LogEntry δ)} (hasc : Ascending batch) :
    Safely (storeBatch batch : Proc (Node δ σ) Unit) := by
  refine safely_ite (safely_pure _) (safely_bind (storeLogs_safely hasc) fun err => ?_)
  cases err with
  | none => exact safely_pure _
  | some err => exact safely_update fun _ hm => hm.notifyAll batch err

theorem flushPendingBatch_safely : Safely (flushPendingBatch : Proc (Node δ σ) Unit) := by
  apply safely_read
  intro m hm
  refine safely_bind ?_ (fun _ => storeBatch_safely hm.queued) m
  exact safely_elsewhere fun _ => ⟨⟨rfl, rfl, rfl, rfl, rfl, rfl⟩, .inl rfl⟩

theorem becomeLeader_safely (nodes : List ClusterNode) : Safely (becomeLeader env nodes : Proc (Node δ σ) Unit) := by
  apply safely_read
  intro m hm
  refine safely_bind ?_ (fun _ => storeBatch_safely hm.queued) m
  exact safely_elsewhere fun _ => ⟨⟨rfl, rfl, rfl, rfl, rfl, rfl⟩, .inl rfl⟩

theorem Sturdy.enqueue {n : Node δ σ} (h : Sturdy n) (hleader : n.mem.state = .leader) {lastIdx : Nat}
    (hlast : lastIdx = n.mem.logStore.last) (data : δ) (call : CallId) :
    Sturdy (n.withMem fun r => { r with
      pendingBatch := r.pendingBatch ++ [n.mem.entryFor lastIdx data]
      pendingClients := r.pendingClients.insert (n.mem.entryFor lastIdx data).index call }) := by
  have hindex : uint64 (n.mem.entryFor lastIdx data).index = n.mem.logStore.last + n.mem.pendingBatch.length + 1 := by
    simp only [Replicator.entryFor, uint64, int64, hlast]
    omega
  have hnext := h.next hleader
  refine ⟨h.kept, h.synced, h.included, h.applied, h.intact, ?_, fun _ e he => ?_⟩
  · refine List.pairwise_append.mpr ⟨h.queued, List.pairwise_singleton _ _, ?_⟩
    intro a ha b hb
    cases List.mem_singleton.mp hb
    have := hnext a ha
    omega
  · have hlen : (n.mem.pendingBatch ++ [n.mem.entryFor lastIdx data]).length =
        n.mem.pendingBatch.length + 1 := by simp
    show uint64 e.index ≤ n.mem.logStore.last + (n.mem.pendingBatch ++ [n.mem.entryFor lastIdx data]).length
    rcases List.mem_append.mp he with he | he
    · have := hnext e he
      omega
    · cases List.mem_singleton.mp he
      omega

theorem replicate_safely (data : δ) (call : CallId) :
    Safely (replicate env data call : Proc (Node δ σ) (Option Err)) := by
  apply safely_read
  intro m hm
  apply guarded_ite
  · exact fun _ => safely_pure _ m
  · intro hrole
    have hleader := not_ne_iff.mp hrole
    obtain ⟨term, hlast⟩ := lastIndexAndTerm_of_kept hm.kept
    rw [hlast]
    apply guarded_bind Beside.refl
    apply guarded_update
    intro m' hm' hsturdy
    -- compaction in between does not move the end of the log
    have hmem : m.mem.entryFor m.mem.logStore.last data = m'.mem.entryFor m.mem.logStore.last data := by
      rw [hm'.mem]
      rfl
    refine ⟨?_, ⟨Nat.le_refl _, fun _ _ hk => hk⟩, fun m'' _ _ => ?_⟩
    · rw [hmem]
      exact hsturdy.enqueue (hm'.role.trans hleader) hm'.last.symm data call
    · exact guarded_ite
        (fun _ => flushPendingBatch_safely.ends m'')
        fun _ => safely_pure _ m''

theorem startElection_safely : Safely (startElection env : Proc (Node δ σ) (List (NodeId × RequestVoteArgs))) := by
  refine safely_bind ?_ fun _ => safely_get fun _ => safely_bind persistStable_safely fun _ => safely_ite ?_ ?_
  · exact safely_elsewhere fun _ => ⟨⟨rfl, rfl, rfl, rfl, rfl, rfl⟩, .inr ⟨rfl, (nomatch ·)⟩⟩
  · cases env.getAllNodes with
    | none => exact safely_pure _
    | some nodes =>
      refine safely_ite (becomeLeader_safely nodes).ends (Safely.ends ?_)
      exact safely_elsewhere fun _ => ⟨⟨rfl, rfl, rfl, rfl, rfl, rfl⟩, .inr ⟨rfl, id⟩⟩
  · exact (handleStableStoreFailure_safely _).ends

theorem handleVoteReply_safely (peer : NodeId) (savedTerm : Nat) (reply : RequestVoteReply) :
    Safely (handleVoteReply env peer savedTerm reply : Proc (Node δ σ) Unit) := by
  refine safely_get fun m => ?_
  cases m.mem.election with
  | none => exact safely_pure _
  | some el =>
    have hset : ∀ el' : Election,
        Safely (update fun n : Node δ σ => n.withMem fun r => { r with election := some el' }) :=
      fun _ => safely_elsewhere fun _ => ⟨⟨rfl, rfl, rfl, rfl, rfl, rfl⟩, .inr ⟨rfl, id⟩⟩
    refine safely_ite (safely_pure _) (safely_bind (hset _) fun _ => safely_ite (safely_pure _) ?_)
    refine safely_ite (stepDown_safely _ _).ends (safely_ite (safely_bind (hset _) fun _ => ?_) (safely_pure _))
    exact safely_ite (becomeLeader_safely _) (safely_pure _)

theorem advanceCommitIndex_safely : Safely (advanceCommitIndex env M) := by
  refine safely_get fun m => ?_
  split
  · refine safely_ite (safely_pure _) ?_
    split
    · exact safely_bind (commit_safely fun _ => _) fun _ => applyLogs_safely M
    · exact safely_pure _
  · exact safely_pure _

theorem setPeer_safely (f : Replicator δ → Replicator δ)
    (hf : ∀ r, ∃ peer matchIndex nextIndex, f r = r.setPeer peer matchIndex nextIndex) :
    Safely (update fun n : Node δ σ => n.withMem f) := by
  apply safely_elsewhere
  intro m
  obtain ⟨peer, matchIndex, nextIndex, heq⟩ := hf m.mem
  simp only [Node.withMem, heq]
  exact ⟨⟨rfl, rfl, rfl, rfl, rfl, rfl⟩, .inr ⟨rfl, id⟩⟩

theorem handleAppendReply_safely (w : AppendWork δ) (reply : AppendEntriesReply) :
    Safely (handleAppendReply env M w reply) := by
  refine safely_get fun m => safely_ite (safely_pure _) (safely_ite (stepDown_safely _ _).ends (safely_ite ?_ ?_))
  · refine safely_ite ?_ (safely_pure _)
    exact safely_bind (setPeer_safely _ fun _ => ⟨_, _, _, rfl⟩) fun _ => advanceCommitIndex_safely
  · refine safely_ite (setPeer_safely _ fun _ => ⟨_, _, _, rfl⟩) (safely_ite ?_ (safely_pure _))
    exact setPeer_safely _ fun _ => ⟨_, _, _, rfl⟩

theorem handleSnapshotReply_safely (w : SnapshotWork) (reply : InstallSnapshotReply) :
    Safely (handleSnapshotReply w reply : Proc (Node δ σ) Unit) := by
  refine safely_get fun m => safely_ite (safely_pure _) (safely_ite (stepDown_safely _ _).ends ?_)
  exact safely_ite (setPeer_safely _ fun _ => ⟨_, _, _, rfl⟩) (safely_pure _)

theorem decideVote_safely (req : RequestVoteArgs) :
    Safely (decideVote req : Proc (Node δ σ) (RequestVoteReply × Option Err)) := by
  refine safely_get fun m => safely_ite (safely_bind ?_ fun _ => ?_) (safely_pure _)
  · exact safely_elsewhere fun _ => ⟨⟨rfl, rfl, rfl, rfl, rfl, rfl⟩, .inr ⟨rfl, id⟩⟩
  · refine safely_bind persistStable_safely fun _ => safely_ite (safely_pure _) ?_
    exact (handleStableStoreFailure_safely _).ends

theorem handleRequestVote_safely (req : RequestVoteArgs) :
    Safely (handleRequestVote req : Proc (Node δ σ) (RequestVoteReply × Option Err)) := by
  refine safely_get fun m => safely_ite (safely_pure _) (safely_ite ?_ (decideVote_safely req))
  refine safely_bind (stepDown_safely _ _) fun err => ?_
  cases err with
  | some err => exact safely_get fun _ => safely_pure _
  | none => exact decideVote_safely req

end Routine

/-! ## The handlers that cut and replace the log -/

section Handlers

variable {M : Machine δ σ} {n n' : Node δ σ}

/-- A fact about a node that neither compaction beside it nor a change to its terms, roles and
clients disturbs. -/
abbrev Steady (P : Node δ σ → Prop) : Prop := Lasts Beside Elsewhere P

variable {P : Node δ σ → Prop}

/-- The frame two handlers share, with a fact its body needs. -/
theorem handled_safe {α β : Type} {reqTerm : Int} {leaderID : NodeId} {body : Proc (Node δ σ) α}
    {stale : Node δ σ → β} {failed : Node δ σ → Err → β} {f : α → β} (hP : Steady P)
    (hn : int64 n.mem.currentTerm ≤ reqTerm → P n) (hbody : ∀ m, P m → Safe body m fun _ _ => True) : Safe (do
      let m ← read
      underTerm m reqTerm leaderID (stale m) (failed m) (body >>= fun a => pure (f a))) n fun _ _ => True := by
  refine safe_read fun m hnm _ => handled_lasts hP Beside.refl Sturdy.elsewhere overlooks_elsewhere
    (fun _ _ => trivial) (fun _ _ _ => trivial) ?_ fun m' hm' => ?_
  · have hterm : m.mem.currentTerm = n.mem.currentTerm := by rw [hnm.mem]
    rw [hterm]
    exact fun h => hP.rely n m (hn h) hnm
  · exact guarded_bind Beside.refl ((hbody m' hm').imp fun _ m'' _ _ => safely_pure _ m'')

/-- A request whose entries ascend, and conflict with nothing that was applied or saved. -/
def Fits (req : AppendEntriesRequest δ) (n : Node δ σ) : Prop :=
  n.mem.mismatch req = none → ∀ entries, req.entries = some entries → Ascending entries ∧
    ∀ c newLogs, n.mem.scan entries = .conflict c newLogs →
      n.mem.lastApplied < c ∧ n.disk.savedIndex < c

theorem Beside.getLog (h : Beside n n') {k : Nat} {e : LogEntry δ}
    (hk : n'.mem.logStore.getLog k = .ok e) : n.mem.logStore.getLog k = .ok e := by
  obtain ⟨hlt, hget⟩ := getLog_eq_ok.mp hk
  exact getLog_eq_ok.mpr ⟨Nat.lt_of_le_of_lt h.compacted hlt, h.logs ▸ hget⟩

variable {req : AppendEntriesRequest δ}

theorem Beside.mismatch (h : Beside n n') (hnone : n'.mem.mismatch req = none) : n.mem.mismatch req = none := by
  have hterm : n'.mem.lastIncludedTerm = n.mem.lastIncludedTerm := by rw [h.mem]
  rw [mismatch_eq_none, h.included, hterm] at hnone
  obtain ⟨hlow, hprev⟩ := hnone
  refine mismatch_eq_none.mpr ⟨hlow, hprev.imp id fun ⟨hne, hheld⟩ => ⟨hne, hheld.imp id ?_⟩⟩
  exact fun ⟨e, he, hsame⟩ => ⟨e, h.getLog he, hsame⟩

theorem Beside.scan (h : Beside n n') {entries newLogs : List (LogEntry δ)} {c : Nat}
    (hc : n'.mem.scan entries = .conflict c newLogs) : n.mem.scan entries = .conflict c newLogs := by
  induction entries with
  | nil => cases hc
  | cons entry entries ih =>
    rw [Replicator.scan, h.included] at hc
    rw [Replicator.scan]
    split at hc
    · next hold =>
      rw [if_pos hold]
      exact ih hc
    · next hold =>
      rw [if_neg hold]
      cases hget : n'.mem.logStore.getLog (uint64 entry.index) with
      | error err =>
        rw [hget] at hc
        cases hc
      | ok existing =>
        rw [hget] at hc
        rw [h.getLog hget]
        dsimp only at hc ⊢
        split at hc
        · next hterm =>
          rw [if_pos hterm]
          exact hc
        · next hterm =>
          rw [if_neg hterm]
          exact ih hc

theorem fits_steady (req : AppendEntriesRequest δ) : Steady (Fits req : Node δ σ → Prop) where
  rely := by
    intro a b ha hab hnone entries hentries
    obtain ⟨hasc, hcut⟩ := ha (hab.mismatch hnone) entries hentries
    refine ⟨hasc, fun c newLogs hc => ?_⟩
    obtain ⟨happlied, hsaved⟩ := hcut c newLogs (hab.scan hc)
    have := hab.applied
    have := hab.saved
    omega
  same := by
    intro a b ha hab hnone entries hentries
    have hmis : b.mem.mismatch req = a.mem.mismatch req := by
      simp only [Replicator.mismatch, hab.log, hab.included, hab.includedTerm]
    obtain ⟨hasc, hcut⟩ := ha (hmis ▸ hnone) entries hentries
    refine ⟨hasc, fun c newLogs hc => ?_⟩
    rw [scan_congr hab.log hab.included] at hc
    obtain ⟨happlied, hsaved⟩ := hcut c newLogs hc
    have hsame : b.disk.savedIndex = a.disk.savedIndex := by simp only [Disk.savedIndex, hab.snapshot]
    rw [hab.applied, hsame]
    exact ⟨happlied, hsaved⟩

theorem appendNew_safe {entries : List (LogEntry δ)} (hrole : n.mem.state ≠ .leader) (hasc : Ascending entries)
    (hcut : ∀ c newLogs, n.mem.scan entries = .conflict c newLogs → n.mem.lastApplied < c ∧ n.disk.savedIndex < c) :
    Safe (appendNew (n.mem.scan entries)) n fun _ _ => True := by
  have hscan := scan_spec n.mem entries
  have hsuffix : ∀ {pre newLogs : List (LogEntry δ)}, entries = pre ++ newLogs → Ascending newLogs := by
    intro pre newLogs heq
    subst heq
    exact (List.pairwise_append.mp hasc).2.1
  cases hm : n.mem.scan entries with
  | upToDate => exact safely_pure _ n
  | append newLogs =>
    rw [hm] at hscan
    obtain ⟨pre, heq, _⟩ := hscan
    exact storeLogs_safely (hsuffix heq) n
  | conflict c newLogs =>
    rw [hm] at hscan
    obtain ⟨pre, heq, _, _, _, _, _, hincluded, _⟩ := hscan
    obtain ⟨happlied, hsaved⟩ := hcut c newLogs hm
    apply guarded_bind Beside.refl
    refine (cut_safe hrole hincluded happlied hsaved).imp fun err m _ _ => ?_
    cases err with
    | some err => exact safely_pure _ m
    | none => exact storeLogs_safely (hsuffix heq) m

theorem followCommit_safely (req : AppendEntriesRequest δ) : Safely (followCommit M req) := by
  refine safely_get fun m => ?_
  cases m.mem.logStore.lastIndexAndTerm with
  | error err => exact safely_pure _
  | ok last =>
    refine safely_ite (safely_bind ?_ fun _ => (applyLogs_safely M).ends) (safely_pure _)
    exact commit_safely (·.commitTarget (uint64 req.leaderCommit) last.1)

/-- The start two handlers share: the node follows the sender and reads its own state. -/
theorem follow_safe {α : Type} (hP : Steady P) (hn : P n) (leaderID : NodeId) {g : Node δ σ → Proc (Node δ σ) α}
    (hg : ∀ m, P m → m.mem.state ≠ .leader → Safe (g m) m fun _ _ => True) : Safe (do
      update fun n => n.withMem fun r => { r with state := .follower, leaderID := leaderID }
      let m ← read
      g m) n fun _ _ => True := by
  apply guarded_bind Beside.refl
  apply guarded_update
  intro m hnm hm
  have hsame : Elsewhere m (m.withMem fun r => { r with state := .follower, leaderID := leaderID }) :=
    ⟨⟨rfl, rfl, rfl, rfl, rfl, rfl⟩, .inr ⟨rfl, (nomatch ·)⟩⟩
  obtain ⟨hsturdy, honward⟩ := hm.elsewhere m _ hsame
  have hPm := hP.same _ _ (hP.rely n m hn hnm) hsame
  refine ⟨hsturdy, honward, fun m₁ hm₁ _ => safe_read fun m₂ hm₂ _ => ?_⟩
  apply hg m₂ (hP.rely _ _ (hP.rely _ _ hPm hm₁) hm₂)
  rw [hm₂.role, hm₁.role]
  exact RaftState.noConfusion

theorem acceptEntries_safe (hn : Fits req n) : Safe (acceptEntries M req) n fun _ _ => True := by
  apply follow_safe (fits_steady req) hn req.leaderID
  intro m hfits hrole
  cases hmis : m.mem.mismatch req with
  | some c => exact safely_pure _ m
  | none =>
    cases hentries : req.entries with
    | none => exact safely_pure _ m
    | some entries =>
      obtain ⟨hasc, hcut⟩ := hfits hmis entries hentries
      apply guarded_bind Beside.refl
      refine (appendNew_safe hrole hasc hcut).imp fun err m' _ _ => ?_
      cases err with
      | some err => exact safely_pure _ m'
      | none => exact followCommit_safely req m'

theorem handleAppendEntries_safe (hn : int64 n.mem.currentTerm ≤ req.term → Fits req n) :
    Safe (handleAppendEntries M req) n fun _ _ => True :=
  handled_safe (fits_steady req) hn fun _ => acceptEntries_safe

/-- A snapshot with data that is old, or for an index the log reaches. -/
def Covered (req : InstallSnapshotRequest) (n : Node δ σ) : Prop :=
  req.data ≠ [] ∧ (uint64 req.lastIncludedIndex ≤ n.mem.lastIncludedIndex ∨
    n.mem.logStore.Reaches (uint64 req.lastIncludedIndex))

/-- A new index that the log reaches. -/
def NewlyReached (k : Nat) (n : Node δ σ) : Prop :=
  n.mem.logStore.Reaches k ∧ n.mem.lastIncludedIndex < k

theorem covered_steady (req : InstallSnapshotRequest) : Steady (Covered req : Node δ σ → Prop) where
  rely := by
    rintro a b ⟨hdata, hcover⟩ hab
    refine ⟨hdata, hcover.imp (fun hold => ?_) hab.reaches⟩
    rw [hab.included]
    exact hold
  same := by
    rintro a b ⟨hdata, hcover⟩ hab
    unfold Covered
    rw [hab.included, hab.log]
    exact ⟨hdata, hcover⟩

theorem newlyReached_steady (k : Nat) : Steady (NewlyReached k : Node δ σ → Prop) where
  rely := by
    rintro a b ⟨hreach, hnew⟩ hab
    refine ⟨hab.reaches hreach, ?_⟩
    rw [hab.included]
    exact hnew
  same := by
    rintro a b ⟨hreach, hnew⟩ hab
    unfold NewlyReached
    rw [hab.included, hab.log]
    exact ⟨hreach, hnew⟩

theorem restoreSnapshot_safe (hP : Steady P) (hn : P n) (data : Bytes) :
    Safe (restoreSnapshot M data) n fun _ m => P m :=
  hP.step Sturdy.elsewhere hn (fun _ => rfl) fun _ => ⟨⟨rfl, rfl, rfl, rfl, rfl, rfl⟩, .inr ⟨rfl, id⟩⟩

theorem settleLog_safe (hP : Steady P) (hn : P n) (retain : Bool) (k : Nat)
    (data : Bytes) : Safe (settleLog M retain k data) n fun _ m => P m := by
  apply guarded_ite
  · intro _
    apply guarded_bind Beside.refl
    refine (compact_safe hP.rely hn k).imp fun err m _ hm => ?_
    cases err <;> exact hP.pure hm _
  · intro _
    apply safe_read
    intro m hnm _
    have hPm := hP.rely n m hn hnm
    cases m.mem.logStore.lastIndexAndTerm with
    | error err => exact hP.pure hPm _
    | ok last =>
      apply guarded_bind Beside.refl
      refine (compact_safe hP.rely hPm last.1).imp fun err m' _ hm' => ?_
      cases err with
      | some err => exact hP.pure hm' _
      | none => exact restoreSnapshot_safe hP hm' data

theorem Sturdy.adopt (h : Sturdy n) {k : Nat} (hk : NewlyReached k n) (term : Nat) :
    Sturdy (n.withMem (·.adopt k term)) ∧ Onward n (n.withMem (·.adopt k term)) := by
  obtain ⟨hreach, hnew⟩ := hk
  have happlied := h.applied
  refine ⟨⟨h.kept, h.synced, hreach, ?_, h.intact, h.queued, h.next⟩, ⟨?_, fun _ _ hk => hk⟩⟩
  · show (if n.mem.lastApplied < k then k else n.mem.lastApplied) ≤ k ∨
      n.mem.logStore.Reaches (if n.mem.lastApplied < k then k else n.mem.lastApplied)
    by_cases hlt : n.mem.lastApplied < k
    · rw [if_pos hlt]
      exact .inl (Nat.le_refl k)
    · rw [if_neg hlt]
      exact .inr (happlied.resolve_left (by omega))
  · show n.mem.lastApplied ≤ if n.mem.lastApplied < k then k else n.mem.lastApplied
    split <;> omega

theorem acceptSnapshot_safe {req : InstallSnapshotRequest} (hn : Covered req n) :
    Safe (acceptSnapshot M req) n fun _ _ => True := by
  have hsteady : Steady (NewlyReached (uint64 req.lastIncludedIndex) : Node δ σ → Prop) := newlyReached_steady _
  apply follow_safe (covered_steady req) hn req.leaderID
  intro m hcover _
  obtain ⟨hdata, hcover⟩ := hcover
  refine guarded_ite (fun _ => safely_pure _ m) fun hnew => ?_
  have hreached : NewlyReached (uint64 req.lastIncludedIndex) m := ⟨hcover.resolve_left hnew, Nat.lt_of_not_le hnew⟩
  apply guarded_bind Beside.refl
  intro m₁ hm₁ hsturdy fate hfate
  cases hfate.resolve_right id
  have hreached₁ := hsteady.rely m m₁ hreached hm₁
  refine ⟨hsturdy.save hdata hreached₁.1, ⟨Nat.le_refl _, fun _ _ hk => hk⟩, fun m₂ hm₂ _ => ?_⟩
  have hreached₂ := hsteady.rely _ m₂ (by exact hreached₁) hm₂
  apply guarded_bind Beside.refl
  refine (settleLog_safe hsteady hreached₂ _ _ req.data).imp fun settled m₃ _ hm₃ => ?_
  refine guarded_ite (fun _ => ?_) fun _ => safely_pure _ m₃
  apply guarded_bind Beside.refl
  apply guarded_update
  intro m₄ hm₄ hsturdy₄
  obtain ⟨hadopt, honward⟩ := hsturdy₄.adopt (hsteady.rely m₃ m₄ hm₃ hm₄) (uint64 req.lastIncludedTerm)
  exact ⟨hadopt, honward, fun m₅ _ _ => safely_pure _ m₅⟩

theorem handleInstallSnapshot_safe {req : InstallSnapshotRequest}
    (hn : int64 n.mem.currentTerm ≤ req.term → Covered req n) :
    Safe (handleInstallSnapshot M req) n fun _ _ => True :=
  handled_safe (covered_steady req) hn fun _ => acceptSnapshot_safe

end Handlers

/-! ## The node and its restarts -/

section Node

variable {env : Env} {M : Machine δ σ}

/-- The sections the event loop runs in the thread that also compacts. -/
def Input.inLoop : Input δ → Bool
  | .electionTimeout => true
  | .batchTick => true
  | _ => false

/-- A node and its compaction. -/
abbrev compactingNode (env : Env) (M : Machine δ σ) : Company (Node δ σ) Output (Nat × Nat) (Input δ) :=
  compacting env.snapshotThresholdLogs M (program env M) Input.inLoop

/-- The moves of a run in which no write fails, and every request that is taken up fits the log it
meets. `checkCompaction` is the job and not a section. -/
def Fitting (t : Threads (Node δ σ) Output (Nat × Nat)) : Move (Input δ) → Prop
  | .enter (.appendEntries req) => int64 t.state.mem.currentTerm ≤ req.term → Fits req t.state
  | .enter (.installSnapshot req) => int64 t.state.mem.currentTerm ≤ req.term → Covered req t.state
  | .enter .checkCompaction => False
  | .advance fate => fate = .done
  | .work fate => fate = .done
  | _ => True

theorem section_safe {t : Threads (Node δ σ) Output (Nat × Nat)} {i : Input δ}
    (h : Fitting t (.enter i)) : Safe (program env M i) t.state fun _ _ => True := by
  have hreturn : ∀ {α : Type} {p : Proc (Node δ σ) α} {g : α → Output},
      Safe p t.state (fun _ _ => True) → Safe (p >>= fun a => pure (g a)) t.state fun _ _ => True :=
    fun hp => guarded_bind Beside.refl (hp.imp fun _ m _ _ => safely_pure _ m)
  cases i with
  | electionTimeout => exact safely_get (fun _ => safely_ite (safely_pure _) startElection_safely.ends) t.state
  | batchTick => exact (safely_get fun _ => safely_ite flushPendingBatch_safely (safely_pure _)).ends t.state
  | replicate data call => exact (replicate_safely data call).ends t.state
  | cancel entryIndex call =>
    apply hreturn
    unfold cancel
    refine safely_elsewhere (fun _ => ?_) _
    exact ⟨⟨rfl, rfl, rfl, rfl, rfl, rfl⟩, .inr ⟨rfl, id⟩⟩
  | requestVote req => exact (handleRequestVote_safely req).ends t.state
  | appendEntries req => exact hreturn (handleAppendEntries_safe h)
  | installSnapshot req => exact hreturn (handleInstallSnapshot_safe h)
  | voteReply peer savedTerm reply => exact (handleVoteReply_safely peer savedTerm reply).ends t.state
  | appendReply w reply => exact (handleAppendReply_safely w reply).ends t.state
  | snapshotReply w reply => exact (handleSnapshotReply_safely w reply).ends t.state
  | checkCompaction => exact h.elim

/-- Compaction at an index that is applied and reached keeps to its part. -/
theorem keepSnapshot_safe {n : Node δ σ} {index term : Nat} {data : Bytes} (hdata : data ≠ [])
    (hindex : index ≤ n.mem.lastApplied ∧ n.mem.logStore.Reaches index) :
    Guarded (fun _ => False) Onward Sturdy Beside (fun n => Intact n.disk)
      (keepSnapshot index term data) n fun _ _ => True := by
  apply guarded_bind Onward.refl
  intro m hnm hm fate hfate
  cases hfate.resolve_right id
  have hreach := hnm.reaches index hindex.1 hindex.2
  have hle : index ≤ m.mem.lastApplied := hindex.1.trans hnm.applied
  refine ⟨hm.save hdata hreach, ⟨rfl, rfl, rfl, Nat.le_refl _, .inr hle⟩, fun m₁ _ _ => ?_⟩
  apply guarded_bind Onward.refl
  intro m₂ _ hm₂ fate hfate
  cases hfate.resolve_right id
  cases hd : m₂.mem.logStore.deleteRange 0 (some index) with
  | none =>
    simp only [outcome, hd]
    exact ⟨hm₂, .refl m₂, fun _ _ _ => guarded_pure fun _ _ _ => trivial⟩
  | some s =>
    simp only [outcome, hd]
    obtain ⟨hsturdy, _, hbeside⟩ := hm₂.compact hd
    exact ⟨hsturdy, hbeside, fun _ _ _ => guarded_pure fun _ _ _ => trivial⟩

/-- A node that has just started over intact files. -/
theorem sturdy_of_started {n : Node δ σ} (hstart : Started n) (hintact : Intact n.disk) : Sturdy n := by
  have hmem : n.mem = recovered n.disk := start_eq hstart
  obtain ⟨hincluded, happlied, hlog, hbatch⟩ := recovered_included n.disk
  rw [← hmem] at hincluded happlied hlog hbatch
  refine ⟨hlog ▸ kept_load _, hlog.symm, ?_, ?_, hintact, ?_, ?_⟩
  · rw [hincluded, hlog]
    exact hintact.reached
  · exact .inl (Nat.le_of_eq (happlied.trans hincluded.symm))
  · rw [hbatch]
    exact List.Pairwise.nil
  · intro _ e he
    rw [hbatch] at he
    cases he

theorem compactingNode_sound (hM : Snapshotable M) :
    Sound (compactingNode env M) (fun _ => False) Sturdy Beside Onward
      (fun label n => label.1 ≤ n.mem.lastApplied ∧ n.mem.logStore.Reaches label.1)
      (fun n => Intact n.disk) Fitting where
  relyRefl := Beside.refl
  relyTrans := Beside.trans
  moveRefl := Onward.refl
  moveTrans := Onward.trans
  fate := fun _ _ h => h.elim .inl .inl
  enter := fun _ _ h _ => section_safe h
  choose := by
    intro n label hn h
    obtain ⟨hnew, hlabel, _⟩ := chooseSnapshot_some h
    rw [hlabel]
    exact ⟨Nat.le_refl _, hn.applied.resolve_left (Nat.not_le.mpr hnew)⟩
  label := by
    rintro label n n' - - ⟨hle, hreach⟩ (hbeside | honward)
    · rw [hbeside.applied]
      exact ⟨hle, hbeside.reaches hreach⟩
    · exact ⟨hle.trans honward.applied, honward.reaches _ hle hreach⟩
  launch := by
    intro t label p _ _ _ hlabel hlaunch
    obtain ⟨data, hdata, rfl⟩ := Option.map_eq_some_iff.mp hlaunch
    exact keepSnapshot_safe (hM.nonempty _ data hdata) hlabel
  publish := by
    intro label n hn hlabel
    simp only [compacting, Node.withMem, Replicator.publish]
    split
    · next hnew =>
      refine ⟨hn.kept, hn.synced, hlabel.2, ?_, hn.intact, hn.queued, hn.next⟩
      exact hn.applied.imp (fun hle => hle.trans (Nat.le_of_lt hnew)) id
    · exact hn
  crash := fun _ _ hn => hn.intact
  restart := by
    intro n n' hintact hreboot
    obtain ⟨hstart, hdisk, _⟩ := reboot_eq hreboot
    refine sturdy_of_started ?_ (hdisk ▸ hintact)
    unfold Started
    rw [hdisk]
    exact hstart

end Node

/-! ## A node that restarts, and one that does not -/

/-- The node "a" with compaction after every entry. -/
def eagerEnv : Env := { demoEnv with snapshotThresholdLogs := 1 }

/-- A section from taking the lock to letting it go, in `steps` steps. -/
def runSection (i : Input Byte) (steps : Nat) : List (Move (Input Byte)) :=
  .enter i :: List.replicate steps (.advance .done)

/-- The leader "b" of term 1 sends a follower the snapshot of its first five entries. -/
def farAhead : InstallSnapshotRequest := ⟨1, "b", 5, 1, [0, 7]⟩

/-- The first entry of the leader "b", committed. -/
def committedAppend : AppendEntriesRequest Byte := { firstAppend with leaderCommit := 1 }

end Restarting

end Sandstore.Raft
