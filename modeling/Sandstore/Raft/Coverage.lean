import Sandstore.Raft.Restart

/-!
# The snapshot and the log together

A snapshot and a log leave no gap if the log is compacted no further than the snapshot reaches, and has
every entry from there to its end (`Covers`). Two parties write the two files of a follower: compaction,
which works without the lock between its choice and its publication, and `HandleInstallSnapshot`, which
holds the lock and does not know of it. Either may save a snapshot over a newer one of the other, and
`HandleInstallSnapshot` may compact a log beyond the snapshot it brings.

Neither happens where no snapshot is taken up while a compaction is under way, and none that discards a
log which goes on beyond it. Then **the snapshot on disk never gets older, and the files always cover
the log** (`snapshot_covers_log`), whatever else arrives and wherever the node crashes.
-/

namespace Sandstore.Raft

open Lib Lib.Proc
open FileLogStore

variable {δ σ : Type}

/-! ## Logs without a gap -/

namespace FileLogStore

variable [Conv]

/-- Every index after `b` up to the end of the log has an entry. -/
def DenseFrom (s : FileLogStore δ) (b : Nat) : Prop := ∀ k, b < k → k ≤ s.last → ∃ e, s.logs.get k = some e

/-- Entries at the indices from `i` on, one after the other. -/
def From : Nat → List (LogEntry δ) → Prop
  | _, [] => True
  | i, e :: entries => uint64 e.index = i ∧ From (i + 1) entries

variable {entries : List (LogEntry δ)} {i : Nat}

theorem From.index_ge (h : From i entries) : ∀ e ∈ entries, i ≤ uint64 e.index := by
  induction entries generalizing i with
  | nil => simp
  | cons e entries ih =>
    obtain ⟨rfl, hrest⟩ := h
    intro e' he'
    rcases List.mem_cons.mp he' with rfl | he'
    · exact Nat.le_refl _
    · have := ih hrest e' he'
      omega

theorem From.ascending (h : From i entries) : Ascending entries := by
  induction entries generalizing i with
  | nil => exact .nil
  | cons e entries ih =>
    obtain ⟨rfl, hrest⟩ := h
    refine .cons (fun e' he' => ?_) (ih hrest)
    have := hrest.index_ge e' he'
    omega

theorem From.append {pre : List (LogEntry δ)} (h : From i (pre ++ entries)) : From (i + pre.length) entries := by
  induction pre generalizing i with
  | nil => exact h
  | cons e pre ih =>
    have := ih h.2
    rwa [List.length_cons, Nat.add_comm pre.length, ← Nat.add_assoc]

theorem From.snoc {e : LogEntry δ} (h : From i entries)
    (he : uint64 e.index = i + entries.length) : From i (entries ++ [e]) := by
  induction entries generalizing i with
  | nil => exact ⟨he, trivial⟩
  | cons d entries ih =>
    refine ⟨h.1, ih h.2 ?_⟩
    rw [he, List.length_cons]
    omega

theorem From.last_index {pre : List (LogEntry δ)} {e : LogEntry δ}
    (h : From i (pre ++ e :: entries)) : uint64 e.index = i + pre.length := h.append.1

/-- Entries that go on where the log ends, or where the snapshot does, leave no gap. -/
theorem DenseFrom.storeLoop {s : FileLogStore δ} {b : Nat}
    (h : s.DenseFrom b) (hfrom : From i entries) (hjoin : i ≤ s.last + 1 ∨ i ≤ b + 1) :
    (s.storeLoop entries).1.DenseFrom b := by
  induction entries generalizing s i with
  | nil => exact h
  | cons e entries ih =>
    obtain ⟨rfl, hrest⟩ := hfrom
    rw [FileLogStore.storeLoop]
    split
    · exact h
    · have hlast := place_last s e
      refine ih (fun k hb hk => ?_) hrest (.inl (by omega))
      rw [get_place]
      split
      · exact ⟨e, rfl⟩
      · exact h k hb (by omega)

theorem DenseFrom.cut {s s' : FileLogStore δ} {b c : Nat} (h : s.DenseFrom b) (hkept : Kept s) (hc : 0 < c)
    (hb : s.compactedUntil ≤ b) (hs : s.deleteRange c none = some s') :
    s'.DenseFrom b ∧ s'.compactedUntil = s.compactedUntil ∧ (c ≤ s.last → c ≤ s'.last + 1 ∨ c ≤ b + 1) := by
  have hkept' := hkept.deleteRange hs
  obtain ⟨huntil, hget⟩ : s'.compactedUntil = s.compactedUntil ∧
      ∀ k, k ≤ s.last → s'.logs.get k = if c ≤ k ∧ s.compactedUntil < k then none else s.logs.get k := by
    cases deleteRange_from hc hs
    refine ⟨rfl, fun k hk => ?_⟩
    simp [get_cut, hk]
  refine ⟨fun k hbk hk => ?_, huntil, fun hcl => ?_⟩
  · -- the end of what is left is below the cut, or is the compacted position
    obtain ⟨e, he⟩ := hkept'.held.resolve_left (by omega)
    have hle : s'.last ≤ s.last := hkept.top _ e (get_of_deleteRange hs he)
    have hbelow : s'.last < c := by
      rw [hget _ hle] at he
      split at he
      · cases he
      · omega
    rw [hget k (by omega), if_neg (by omega)]
    exact h k hbk (by omega)
  · by_cases hnear : c ≤ b + 1
    · exact .inr hnear
    · obtain ⟨e, he⟩ := h (c - 1) (by omega) (by omega)
      have hleft : s'.logs.get (c - 1) = some e := by
        rw [hget _ (by omega), if_neg (by omega)]
        exact he
      have := hkept'.top _ e hleft
      exact .inl (by omega)

end FileLogStore

/-! ## The node and its files -/

section Coverage

attribute [local instance] Conv.exact

/-- The log on disk is compacted no further than the snapshot on disk, and has every entry after it. -/
structure Covers (d : Disk δ σ) : Prop where
  compacted : (load d.wal).compactedUntil ≤ d.savedIndex
  follows : ∀ k, d.savedIndex < k → k ≤ (load d.wal).last → ∃ e, (load d.wal).getLog k = .ok e

/-- What every state of the node has. -/
structure Covering (n : Node δ σ) : Prop where
  kept : Kept n.mem.logStore
  synced : load n.disk.wal = n.mem.logStore
  compacted : n.mem.logStore.compactedUntil ≤ n.disk.savedIndex
  dense : n.mem.logStore.DenseFrom n.disk.savedIndex
  included : n.mem.lastIncludedIndex ≤ n.disk.savedIndex

theorem Covering.covers {n : Node δ σ} (h : Covering n) : Covers n.disk where
  compacted := by
    rw [h.synced]
    exact h.compacted
  follows := by
    intro k hk hlast
    rw [h.synced] at hlast ⊢
    obtain ⟨e, he⟩ := h.dense k hk hlast
    exact ⟨e, getLog_eq_ok.mpr ⟨Nat.lt_of_le_of_lt h.compacted hk, he⟩⟩

/-- The snapshot on disk is the one the node goes by. -/
def Published (n : Node δ σ) : Prop := n.disk.savedIndex ≤ n.mem.lastIncludedIndex

/-- What compaction does without the lock. -/
structure Trims (n n' : Node δ σ) : Prop where
  logs : n'.mem.logStore.logs = n.mem.logStore.logs
  last : n'.mem.logStore.last = n.mem.logStore.last
  compacted : n.mem.logStore.compactedUntil ≤ n'.mem.logStore.compactedUntil
  included : n'.mem.lastIncludedIndex = n.mem.lastIncludedIndex
  term : n'.mem.currentTerm = n.mem.currentTerm
  saved : n.disk.savedIndex ≤ n'.disk.savedIndex

theorem Trims.refl (n : Node δ σ) : Trims n n := ⟨rfl, rfl, Nat.le_refl _, rfl, rfl, Nat.le_refl _⟩

theorem Trims.trans (a b c : Node δ σ) (hab : Trims a b) (hbc : Trims b c) : Trims a c where
  logs := hbc.logs.trans hab.logs
  last := hbc.last.trans hab.last
  compacted := hab.compacted.trans hbc.compacted
  included := hbc.included.trans hab.included
  term := hbc.term.trans hab.term
  saved := hab.saved.trans hbc.saved

/-- What a section does that bears with compaction. -/
structure Keeps (n n' : Node δ σ) : Prop where
  saved : n'.disk.savedIndex = n.disk.savedIndex
  included : n'.mem.lastIncludedIndex = n.mem.lastIncludedIndex

theorem Keeps.refl (n : Node δ σ) : Keeps n n := ⟨rfl, rfl⟩

theorem Keeps.trans (a b c : Node δ σ) (hab : Keeps a b) (hbc : Keeps b c) : Keeps a c :=
  ⟨hbc.saved.trans hab.saved, hbc.included.trans hab.included⟩

/-- A step that leaves the log and the files as they are. -/
structure SameFiles (n n' : Node δ σ) : Prop where
  log : n'.mem.logStore = n.mem.logStore
  wal : n'.disk.wal = n.disk.wal
  snapshot : n'.disk.snapshot = n.disk.snapshot
  included : n'.mem.lastIncludedIndex = n.mem.lastIncludedIndex

variable {n n' : Node δ σ}

theorem SameFiles.saved (h : SameFiles n n') : n'.disk.savedIndex = n.disk.savedIndex := by
  simp only [Disk.savedIndex, h.snapshot]

theorem SameFiles.keeps (h : SameFiles n n') : Keeps n n' := ⟨h.saved, h.included⟩

theorem Covering.same (h : Covering n) (hs : SameFiles n n') : Covering n' := by
  constructor
  · simpa [hs.log] using h.kept
  · simpa [hs.log, hs.wal] using h.synced
  · simpa [hs.log, hs.saved] using h.compacted
  · simpa [hs.log, hs.saved] using h.dense
  · simpa [hs.included, hs.saved] using h.included

theorem Covering.rewrite (h : Covering n) {s : FileLogStore δ} (hkept : Kept s)
    (hcompacted : s.compactedUntil ≤ n.disk.savedIndex) (hdense : s.DenseFrom n.disk.savedIndex) :
    Covering (n.withLog s).putWal := ⟨hkept, load_file hkept, hcompacted, hdense, h.included⟩

theorem Covering.save (h : Covering n) {snap : SnapshotFile}
    (hnewer : n.disk.savedIndex ≤ snap.meta.lastIncludedIndex) :
    Covering { n with disk := { n.disk with snapshot := some snap } } where
  kept := h.kept
  synced := h.synced
  compacted := h.compacted.trans hnewer
  dense := fun k hk => h.dense k (Nat.lt_of_le_of_lt hnewer hk)
  included := h.included.trans hnewer

theorem Covering.compact (h : Covering n) {k : Nat} (hk : n.mem.logStore.clip (some k) ≤ n.disk.savedIndex)
    {s : FileLogStore δ} (hs : n.mem.logStore.deleteRange 0 (some k) = some s) :
    Covering (n.withLog s).putWal ∧ Trims n (n.withLog s).putWal := by
  obtain ⟨hlogs, hlast, huntil⟩ := deleteRange_prefix h.kept hs
  have hcompacted := h.compacted
  refine ⟨h.rewrite (h.kept.deleteRange hs) (by omega) fun j hj hle => ?_, hlogs, hlast, ?_, rfl, rfl, Nat.le_refl _⟩
  · rw [hlogs]
    exact h.dense j hj (hlast ▸ hle)
  · show n.mem.logStore.compactedUntil ≤ s.compactedUntil
    omega

theorem clip_some_le (s : FileLogStore δ) (k : Nat) : s.clip (some k) ≤ k := by
  simp only [clip]
  split <;> omega

/-- The step that compacts the log no further than the snapshot on disk. -/
theorem deleteRange_bears {R G : Node δ σ → Node δ σ → Prop} {Q : Option Err → Node δ σ → Prop} {k : Nat}
    (hk : ∀ m, R n m → m.mem.logStore.clip (some k) ≤ m.disk.savedIndex) (hG : ∀ m m', Trims m m' → G m m')
    (hQ : ∀ m m' m'', R n m → m'.disk.savedIndex = m.disk.savedIndex → R m' m'' → Q none m'') :
    Bears R Covering G (deleteRange 0 (some k)) n Q := by
  intro m hnm hm fate hfate
  cases hfate.resolve_right False.elim
  cases hd : m.mem.logStore.deleteRange 0 (some k) with
  | none =>
    simp only [outcome, hd]
    exact ⟨hm, hG m m (.refl m), fun m' hm' _ => hQ m m m' hnm rfl hm'⟩
  | some s =>
    simp only [outcome, hd]
    obtain ⟨hcompact, htrims⟩ := hm.compact (hk m hnm) hd
    exact ⟨hcompact, hG m _ htrims, fun m' hm' _ => hQ m (m.withLog s).putWal m' hnm rfl hm'⟩

/-! ## Beside compaction -/

/-- The rest of a section, with compaction beside it. -/
abbrev Calm {α : Type} (p : Proc (Node δ σ) α) (n : Node δ σ) (Q : α → Node δ σ → Prop) : Prop :=
  Bears Trims Covering Keeps p n Q

theorem Covering.step (n n' : Node δ σ) (h : Covering n) (hs : SameFiles n n') : Covering n' ∧ Keeps n n' :=
  ⟨h.same hs, hs.keeps⟩

theorem overlooks_sameFiles : Overlooks (SameFiles : Node δ σ → Node δ σ → Prop) where
  demote := fun _ _ _ => ⟨rfl, rfl, rfl, rfl⟩
  persist := fun _ => ⟨rfl, rfl, rfl, rfl⟩
  fail := fun _ => ⟨rfl, rfl, rfl, rfl⟩

section Rules

variable {α β : Type} {P : Node δ σ → Prop}

theorem calm_pure (a : α) : Calm (pure a) n fun _ _ => True := guarded_pure fun _ _ _ => trivial

theorem calm_bind {p : Proc (Node δ σ) α} {g : α → Proc (Node δ σ) β} {Q : α → Node δ σ → Prop}
    {Q' : β → Node δ σ → Prop} (hp : Calm p n Q) (hg : ∀ a m, Q a m → Calm (g a) m Q') : Calm (p >>= g) n Q' :=
  guarded_seq Trims.refl hp hg

theorem calm_read {g : Node δ σ → Proc (Node δ σ) β} {Q : β → Node δ σ → Prop}
    (h : ∀ m, Trims n m → Covering m → Calm (g m) m Q) : Calm (read >>= g) n Q :=
  guarded_read_bind Trims.refl Trims.trans Keeps.refl h

theorem calm_update {f : Node δ σ → Node δ σ} (hf : ∀ m, SameFiles m (f m)) : Calm (update f) n fun _ _ => True :=
  lasts_true.update Covering.step trivial hf

end Rules

section Applying

theorem sameFiles_notify (m : Node δ σ) (index : Int) (err : Option Err) : SameFiles m (m.notify index err) := by
  unfold Node.notify
  split <;> exact ⟨rfl, rfl, rfl, rfl⟩

theorem applyEntry_calm (M : Machine δ σ) (nextIndex : Nat) (entry : LogEntry δ) :
    Calm (applyEntry M nextIndex entry) n fun _ _ => True := by
  intro m _ hm fate hfate
  cases hfate.resolve_right False.elim
  have hsame : SameFiles m { (m.withMem fun r => { r with lastApplied := nextIndex }).emit
        (.applied nextIndex entry.data) with
      disk := { m.disk with machine := (M.apply entry.data m.disk.machine).1 } } := ⟨rfl, rfl, rfl, rfl⟩
  exact ⟨hm.same hsame, hsame.keeps, calm_update fun _ => sameFiles_notify _ _ _⟩

theorem applyLoop_calm (M : Machine δ σ) (fuel : Nat) :
    ∀ n : Node δ σ, Calm (applyLoop M fuel) n fun _ _ => True := by
  induction fuel with
  | zero => exact fun _ => calm_pure _
  | succ fuel ih =>
    refine fun n => calm_read fun m _ _ => guarded_ite (fun _ => ?_) fun _ => calm_pure _
    refine guarded_ite (fun _ => ?_) fun _ => ?_
    · exact calm_bind (calm_update fun _ => ⟨rfl, rfl, rfl, rfl⟩) fun _ m' _ => ih m'
    · cases m.mem.logStore.getLog (m.mem.lastApplied + 1) with
      | error _ => exact calm_pure _
      | ok entry => exact calm_bind (applyEntry_calm M _ entry) fun _ m' _ => ih m'

theorem followCommit_calm (M : Machine δ σ) (req : AppendEntriesRequest δ) :
    Calm (followCommit M req) n fun _ _ => True := by
  refine calm_read fun m _ _ => ?_
  cases m.mem.logStore.lastIndexAndTerm with
  | error _ => exact calm_pure _
  | ok last =>
    refine guarded_ite (fun _ => ?_) fun _ => calm_pure _
    refine calm_bind (calm_update fun _ => ⟨rfl, rfl, rfl, rfl⟩) fun _ m' _ => ?_
    refine calm_bind (calm_read fun m'' _ _ => applyLoop_calm M _ m'') fun _ _ _ => ?_
    exact calm_pure _

end Applying

/-! ## Entries that arrive -/

section Entries

variable {M : Machine δ σ}

/-- The entries go on where the log ends, or where the snapshot does. -/
def Joins (entries : List (LogEntry δ)) (n : Node δ σ) : Prop :=
  ∃ i, From i entries ∧ (i ≤ n.mem.logStore.last + 1 ∨ i ≤ n.disk.savedIndex + 1)

variable {entries : List (LogEntry δ)}

theorem Joins.trims (h : Joins entries n) (ht : Trims n n') : Joins entries n' := by
  obtain ⟨i, hfrom, hjoin⟩ := h
  have hlast := ht.last
  have hsaved := ht.saved
  exact ⟨i, hfrom, by omega⟩

theorem storeLogs_calm (h : Joins entries n) : Calm (storeLogs entries) n fun _ _ => True := by
  intro m hnm hm fate hfate
  cases hfate.resolve_right False.elim
  obtain ⟨i, hfrom, hjoin⟩ := h.trims hnm
  cases herr : (m.mem.logStore.storeLoop entries).2 with
  | some err =>
    have hsame : (m.mem.logStore.storeLoop entries).1 = m.mem.logStore :=
      storeLoop_ascending hfrom.ascending (by simp [herr])
    have hfiles : SameFiles m (m.withLog (m.mem.logStore.storeLoop entries).1) := ⟨hsame, rfl, rfl, rfl⟩
    simp only [outcome, herr]
    exact ⟨hm.same hfiles, hfiles.keeps, fun _ _ _ => trivial⟩
  | none =>
    simp only [outcome, herr]
    refine ⟨hm.rewrite hm.kept.storeLoop ?_ (hm.dense.storeLoop hfrom hjoin), ⟨rfl, rfl⟩, fun _ _ _ => trivial⟩
    rw [storeLoop_compactedUntil]
    exact hm.compacted

/-- Cutting the log before entries that start at the cut. -/
theorem cut_calm {c : Nat} (hc : 0 < c) (hlast : c ≤ n.mem.logStore.last)
    (hfrom : From c entries) : Calm (deleteRange c none) n fun _ m => Joins entries m := by
  intro m hnm hm fate hfate
  cases hfate.resolve_right False.elim
  have hend : c ≤ m.mem.logStore.last := hnm.last ▸ hlast
  cases hd : m.mem.logStore.deleteRange c none with
  | none =>
    have := deleteRange_suffix_none hd
    omega
  | some s =>
    obtain ⟨hdense, huntil, hjoin⟩ := hm.dense.cut hm.kept hc hm.compacted hd
    have hjoins : Joins entries (m.withLog s).putWal := ⟨c, hfrom, hjoin hend⟩
    simp only [outcome, hd]
    exact ⟨hm.rewrite (hm.kept.deleteRange hd) (huntil ▸ hm.compacted) hdense, ⟨rfl, rfl⟩,
      fun m' hm' _ => hjoins.trims hm'⟩

/-- A request as a leader makes it: its entries follow the one it names. -/
def Consecutive (req : AppendEntriesRequest δ) : Prop :=
  0 ≤ req.prevLogIndex ∧ ∀ entries, req.entries = some entries → From (uint64 req.prevLogIndex + 1) entries

variable {req : AppendEntriesRequest δ}

/-- A request that passes the consistency check names the end of the snapshot or an entry that is there. -/
theorem prev_of_mismatch {r : Replicator δ} (hprev : 0 ≤ req.prevLogIndex) (h : r.mismatch req = none) :
    uint64 req.prevLogIndex = r.lastIncludedIndex ∨ ∃ e, r.logStore.getLog (uint64 req.prevLogIndex) = .ok e := by
  obtain ⟨hlow, ⟨heq, _⟩ | ⟨hne, hpos | ⟨e, he, _⟩⟩⟩ := mismatch_eq_none.mp h
  · left
    rw [heq]
    exact Int.toNat_natCast _
  · left
    simp only [uint64, int64] at hlow hne ⊢
    omega
  · exact .inr ⟨e, he⟩

/-- What the scan leaves to be stored goes on where the log or the snapshot ends. -/
theorem Covering.joins (h : Covering n) {i : Nat} {pre : List (LogEntry δ)}
    (hfrom : From (i + 1) (pre ++ entries)) (hpassed : Passed n.mem pre)
    (hprev : i = n.mem.lastIncludedIndex ∨ ∃ e, n.mem.logStore.getLog i = .ok e) : Joins entries n := by
  have hincluded := h.included
  have hheld : ∀ {k e}, n.mem.logStore.getLog k = .ok e → k ≤ n.mem.logStore.last :=
    fun hk => h.kept.top _ _ (getLog_eq_ok.mp hk).2
  refine ⟨i + 1 + pre.length, hfrom.append, ?_⟩
  rcases List.eq_nil_or_concat pre with rfl | ⟨front, e, rfl⟩
  · rcases hprev with rfl | ⟨e, he⟩
    · exact .inr (by simpa using hincluded)
    · exact .inl (by simpa using hheld he)
  · rw [List.concat_eq_append, List.append_assoc] at hfrom
    have hindex := hfrom.last_index
    simp only [List.concat_eq_append, List.length_append, List.length_singleton]
    by_cases hold : uint64 e.index ≤ n.mem.lastIncludedIndex
    · exact .inr (by omega)
    · obtain ⟨existing, hget, _⟩ := hpassed e (by simp) (Nat.lt_of_not_le hold)
      have := hheld hget
      exact .inl (by omega)

theorem appendNew_calm (h : Covering n) {i : Nat} (hfrom : From (i + 1) entries)
    (hprev : i = n.mem.lastIncludedIndex ∨ ∃ e, n.mem.logStore.getLog i = .ok e) :
    Calm (appendNew (n.mem.scan entries)) n fun _ _ => True := by
  have hscan := scan_spec n.mem entries
  cases hm : n.mem.scan entries with
  | upToDate => exact calm_pure _
  | append newLogs =>
    rw [hm] at hscan
    obtain ⟨pre, rfl, hpassed, _⟩ := hscan
    exact storeLogs_calm (h.joins hfrom hpassed hprev)
  | conflict c newLogs =>
    rw [hm] at hscan
    obtain ⟨pre, rfl, _, e, rest, rfl, rfl, hincluded, existing, hget, _⟩ := hscan
    have hlast := h.kept.top _ _ (getLog_eq_ok.mp hget).2
    have hcut : From (uint64 e.index) (e :: rest) := by
      rw [hfrom.last_index]
      exact hfrom.append
    refine calm_bind (cut_calm (by omega) hlast hcut) fun err m hjoins => ?_
    cases err with
    | some err => exact calm_pure _
    | none => exact storeLogs_calm hjoins

theorem acceptEntries_calm (hreq : Consecutive req) : Calm (acceptEntries M req) n fun _ _ => True := by
  refine calm_bind (calm_update fun _ => ⟨rfl, rfl, rfl, rfl⟩) fun _ _ _ => ?_
  refine calm_read fun m _ hm => ?_
  cases hmis : m.mem.mismatch req with
  | some _ => exact calm_pure _
  | none =>
    cases hentries : req.entries with
    | none => exact calm_pure _
    | some entries =>
      have hprev := prev_of_mismatch hreq.1 hmis
      refine calm_bind (appendNew_calm hm (hreq.2 entries hentries) hprev) fun err m' _ => ?_
      cases err with
      | some err => exact calm_pure _
      | none => exact followCommit_calm M req

theorem handleAppendEntries_calm (hreq : Consecutive req) : Calm (handleAppendEntries M req) n fun _ _ => True := by
  refine calm_read fun m _ _ => ?_
  refine handled_lasts lasts_true Trims.refl Covering.step overlooks_sameFiles (fun _ _ => trivial)
    (fun _ _ _ => trivial) (fun _ => trivial) fun m' _ => ?_
  exact calm_bind (acceptEntries_calm hreq) fun _ _ _ => calm_pure _

end Entries

/-! ## Snapshots that arrive -/

section Snapshots

variable {M : Machine δ σ} {α β : Type} {req : InstallSnapshotRequest}

/-- The snapshot is no newer than what the node goes by. -/
def Stale (req : InstallSnapshotRequest) (n : Node δ σ) : Prop :=
  uint64 req.lastIncludedIndex ≤ n.mem.lastIncludedIndex

theorem lasting_stale (req : InstallSnapshotRequest) : Lasts Trims SameFiles (Stale req : Node δ σ → Prop) where
  rely := by
    intro a b h ht
    rw [Stale, ht.included]
    exact h
  same := by
    intro a b h hs
    rw [Stale, hs.included]
    exact h

theorem acceptSnapshot_calm (hstale : Stale req n) : Calm (acceptSnapshot M req) n fun _ _ => True := by
  refine calm_bind ((lasting_stale req).update Covering.step hstale fun _ => ⟨rfl, rfl, rfl, rfl⟩) fun _ m hm => ?_
  refine calm_read fun m' hm' _ => guarded_ite (fun _ => calm_pure _) fun hnew => ?_
  exact absurd ((lasting_stale req).rely m m' hm hm') hnew

theorem handleInstallSnapshot_calm (hstale : int64 n.mem.currentTerm ≤ req.term → Stale req n) :
    Calm (handleInstallSnapshot M req) n fun _ _ => True := by
  refine calm_read fun m hnm _ => ?_
  apply handled_lasts (lasting_stale req) Trims.refl Covering.step overlooks_sameFiles (fun _ _ => trivial)
    (fun _ _ _ => trivial)
  · intro hterm
    rw [hnm.term] at hterm
    exact (lasting_stale req).rely n m (hstale hterm) hnm
  · exact fun m' hm' => calm_bind (acceptSnapshot_calm hm') fun _ _ _ => calm_pure _

/-- What an installation does: it saves no older snapshot. -/
def Installs (n n' : Node δ σ) : Prop := n.disk.savedIndex ≤ n'.disk.savedIndex

/-- The rest of a section that runs alone. -/
abbrev Alone (p : Proc (Node δ σ) α) (n : Node δ σ) (Q : α → Node δ σ → Prop) : Prop :=
  Bears Eq Covering Installs p n Q

variable {Q : α → Node δ σ → Prop}

theorem lasting_sameFiles (n : Node δ σ) : Lasts Eq SameFiles (SameFiles n) where
  rely := fun _ _ h hab => hab ▸ h
  same := fun _ _ h hs => ⟨hs.log.trans h.log, hs.wal.trans h.wal, hs.snapshot.trans h.snapshot,
    hs.included.trans h.included⟩

theorem alone_pure {a : α} (h : Covering n → Q a n) : Alone (pure a) n Q :=
  guarded_pure fun _ hm hI => hm ▸ h (hm ▸ hI)

theorem alone_bind {p : Proc (Node δ σ) α} {g : α → Proc (Node δ σ) β}
    {Q' : β → Node δ σ → Prop} (hp : Alone p n Q) (hg : ∀ a m, Q a m → Alone (g a) m Q') : Alone (p >>= g) n Q' :=
  guarded_bind (fun _ => rfl) (hp.imp fun a m _ hm => hg a m hm)

theorem alone_read {g : Node δ σ → Proc (Node δ σ) β} {Q : β → Node δ σ → Prop}
    (h : Covering n → Alone (g n) n Q) : Alone (read >>= g) n Q := by
  refine guarded_read_bind (fun _ => rfl) (fun _ _ _ => Eq.trans) (fun _ => Nat.le_refl _) ?_
  rintro m rfl hm
  exact h hm

theorem alone_step {f : Node δ σ → Node δ σ × Option (Node δ σ → Node δ σ)}
    {k : Node δ σ → Bool → Proc (Node δ σ) α} {m : Node δ σ} (hf : outcome f n .done = .inl (m, true))
    (h : Covering n → Covering m ∧ Installs n m ∧ Alone (k n true) m Q) : Alone (.step f k) n Q := by
  rintro _ rfl hn fate hfate
  cases hfate.resolve_right False.elim
  rw [hf]
  exact h hn

theorem alone_update {f : Node δ σ → Node δ σ} (hf : SameFiles n (f n)) {Q : Unit → Node δ σ → Prop}
    (hQ : Q () (f n)) : Alone (update f) n Q :=
  alone_step rfl fun hn => ⟨hn.same hf, hf.saved.ge, alone_pure fun _ => hQ⟩

/-- The log holds the snapshot's last entry, or ends no later than the snapshot, and this is one the
state machine accepts. -/
def Fitted (M : Machine δ σ) (req : InstallSnapshotRequest) (n : Node δ σ) : Prop :=
  n.mem.retainSuffix (uint64 req.lastIncludedIndex) (uint64 req.lastIncludedTerm) ∨
    (n.mem.logStore.last ≤ uint64 req.lastIncludedIndex ∧ ∀ s, (M.restoreSnapshot req.data s).2 = true)

theorem Fitted.same (h : Fitted M req n) (hs : SameFiles n n') : Fitted M req n' := by
  simp only [Fitted, Replicator.retainSuffix, hs.log] at h ⊢
  exact h

theorem deleteRange_alone {k : Nat} (hk : n.mem.logStore.clip (some k) ≤ n.disk.savedIndex) :
    Alone (deleteRange 0 (some k)) n fun err m => err = none ∧ m.disk.savedIndex = n.disk.savedIndex :=
  deleteRange_bears (fun _ hm => hm ▸ hk) (fun _ _ h => h.saved)
    fun _ _ _ hm hsaved hm' => ⟨rfl, by rw [← hm', hsaved, ← hm]⟩

theorem restoreSnapshot_alone {data : Bytes} (hdata : ∀ s, (M.restoreSnapshot data s).2 = true) :
    Alone (restoreSnapshot M data) n fun restored m => restored = true ∧ m.disk.savedIndex = n.disk.savedIndex := by
  have hsame : SameFiles n
      { n with disk := { n.disk with machine := (M.restoreSnapshot data n.disk.machine).1 } } :=
    ⟨rfl, rfl, rfl, rfl⟩
  exact alone_step rfl fun hn => ⟨hn.same hsame, hsame.saved.ge, alone_pure fun _ => ⟨by simp [hdata], rfl⟩⟩

/-- The two branches of an installation whose snapshot is on disk. -/
theorem settleLog_alone (retain : Bool) {k : Nat} (data : Bytes) (hsaved : n.disk.savedIndex = k)
    (hfit : retain = false → n.mem.logStore.last ≤ k ∧ ∀ s, (M.restoreSnapshot data s).2 = true) :
    Alone (settleLog M retain k data) n fun settled m => settled = true ∧ m.disk.savedIndex = k := by
  cases retain with
  | true =>
    have hclip := clip_some_le n.mem.logStore k
    refine alone_bind (deleteRange_alone (by omega)) fun err m hm => ?_
    rw [hm.1]
    exact alone_pure fun _ => ⟨rfl, hm.2.trans hsaved⟩
  | false =>
    obtain ⟨hlast, hdata⟩ := hfit rfl
    refine alone_read fun hn => ?_
    obtain ⟨term, hend⟩ := lastIndexAndTerm_of_kept hn.kept
    have hclip := clip_some_le n.mem.logStore n.mem.logStore.last
    rw [hend]
    refine alone_bind (deleteRange_alone (by omega)) fun err m hm => ?_
    rw [hm.1]
    exact (restoreSnapshot_alone hdata).imp fun _ m' _ hm' => ⟨hm'.1, hm'.2.trans (hm.2.trans hsaved)⟩

/-- A snapshot that is taken up alone is saved, and adopted. -/
theorem acceptSnapshot_alone (hpublished : Published n) (hnew : ¬ Stale req n) (hfit : Fitted M req n) :
    Alone (acceptSnapshot M req) n fun _ m => Published m := by
  have hfollow : SameFiles n
      (n.withMem fun r => { r with state := .follower, leaderID := req.leaderID }) := ⟨rfl, rfl, rfl, rfl⟩
  refine alone_bind (Q := fun _ m => m = n.withMem fun r =>
    { r with state := .follower, leaderID := req.leaderID }) (alone_update hfollow rfl) fun _ m hm => ?_
  subst hm
  refine alone_read fun _ => guarded_ite (fun hstale => absurd hstale hnew) fun _ => ?_
  have hnewer : n.disk.savedIndex ≤ uint64 req.lastIncludedIndex :=
    Nat.le_of_lt (Nat.lt_of_le_of_lt hpublished (Nat.lt_of_not_le hnew))
  refine alone_bind (Q := fun saved m => saved = true ∧ m.mem.logStore = n.mem.logStore ∧
    m.disk.savedIndex = uint64 req.lastIncludedIndex)
    (alone_step rfl fun hn => ⟨hn.save hnewer, hnewer, alone_pure fun _ => ⟨rfl, rfl, rfl⟩⟩) fun saved m hm => ?_
  obtain ⟨rfl, hlog, hsaved⟩ := hm
  refine alone_bind (settleLog_alone _ req.data hsaved fun hfalse => ?_) fun settled m' hm' => ?_
  · rw [hlog]
    exact hfit.resolve_left fun hretain => Bool.false_ne_true (hfalse.symm.trans hretain)
  obtain ⟨rfl, hsaved'⟩ := hm'
  refine alone_bind (Q := fun _ m => Published m) ?_ fun _ _ hm => alone_pure fun _ => hm
  refine alone_step rfl fun hn => ⟨⟨hn.kept, hn.synced, hn.compacted, hn.dense, hsaved'.ge⟩, Nat.le_refl _, ?_⟩
  exact alone_pure fun _ => hsaved'.le

theorem handleInstallSnapshot_alone (hpublished : Published n) (hnew : ¬ Stale req n)
    (hfit : Fitted M req n) : Alone (handleInstallSnapshot M req) n fun _ m => Published m := by
  have hkeep : ∀ m, SameFiles n m → Published m := by
    intro m hm
    simp only [Published, hm.saved, hm.included]
    exact hpublished
  refine alone_read fun _ => handled_lasts (lasting_sameFiles n) (fun _ => rfl)
    (fun _ _ hI hs => ⟨hI.same hs, hs.saved.ge⟩) overlooks_sameFiles (fun _ hm => hm ▸ hpublished)
    (fun _ m hm => hkeep m hm) (fun _ => ⟨rfl, rfl, rfl, rfl⟩) fun m hm => ?_
  have hnew' : ¬ Stale req m := by
    simp only [Stale, hm.included]
    exact hnew
  exact alone_bind (acceptSnapshot_alone (hkeep m hm) hnew' (hfit.same hm)) fun _ _ h => alone_pure fun _ => h

end Snapshots

/-! ## The follower -/

section Follower

variable {env : Env} {M : Machine δ σ}

/-- What a follower takes from others. -/
inductive Incoming (δ : Type) where
  | appendEntries (req : AppendEntriesRequest δ)
  | installSnapshot (req : InstallSnapshotRequest)

def Incoming.input : Incoming δ → Input δ
  | .appendEntries req => .appendEntries req
  | .installSnapshot req => .installSnapshot req

/-- A follower and its compaction. -/
abbrev compactingFollower (env : Env) (M : Machine δ σ) :
    Company (Node δ σ) Output (Nat × Nat) (Incoming δ) :=
  compacting env.snapshotThresholdLogs M (fun i => program env M i.input) fun _ => false

/-- The moves of a run in which no write fails, requests have consecutive entries, and a snapshot that is
taken up finds compaction idle and fits the log. -/
def Undisturbed (M : Machine δ σ) (t : Threads (Node δ σ) Output (Nat × Nat)) : Move (Incoming δ) → Prop
  | .enter (.appendEntries req) => Consecutive req
  | .enter (.installSnapshot req) =>
    int64 t.state.mem.currentTerm ≤ req.term → t.state.mem.lastIncludedIndex < uint64 req.lastIncludedIndex →
      t.stage = .idle ∧ Fitted M req t.state
  | .advance fate => fate = .done
  | .work fate => fate = .done
  | _ => True

/-- A label that is newer than the snapshot on disk. -/
def Newer (label : Nat × Nat) (n : Node δ σ) : Prop := Published n ∧ n.mem.lastIncludedIndex < label.1

def SavedAt (label : Nat × Nat) (n : Node δ σ) : Prop := n.disk.savedIndex = label.1

variable {n : Node δ σ}

theorem Published.keeps {n' : Node δ σ} (h : Published n) (hk : Keeps n n') : Published n' := by
  simp only [Published, hk.saved, hk.included]
  exact h

/-- Compaction saves a newer snapshot, and compacts no further. -/
theorem keepSnapshot_bears {label : Nat × Nat} {data : Bytes} (hnewer : Newer label n) :
    Bears Keeps Covering Trims (keepSnapshot label.1 label.2 data) n fun kept m => kept = true ∧ SavedAt label m := by
  have hsaved : n.disk.savedIndex ≤ label.1 := Nat.le_of_lt (Nat.lt_of_le_of_lt hnewer.1 hnewer.2)
  apply guarded_bind Keeps.refl
  intro m hnm hm fate hfate
  cases hfate.resolve_right False.elim
  have hsave : m.disk.savedIndex ≤ label.1 := hnm.saved ▸ hsaved
  refine ⟨hm.save hsave, ⟨rfl, rfl, Nat.le_refl _, rfl, rfl, hsave⟩, fun m₁ hm₁ _ => ?_⟩
  have hat : m₁.disk.savedIndex = label.1 := hm₁.saved
  have hclip : ∀ m₂, Keeps m₁ m₂ → m₂.mem.logStore.clip (some label.1) ≤ m₂.disk.savedIndex := by
    intro m₂ hm₂
    rw [hm₂.saved, hat]
    exact clip_some_le _ _
  refine guarded_seq Keeps.refl (deleteRange_bears hclip (fun _ _ h => h) fun _ _ _ h₂ h₃ h₄ => ?_)
    fun err m₄ (h₄ : err = none ∧ SavedAt label m₄) => ?_
  · exact ⟨rfl, h₄.saved.trans (h₃.trans (h₂.saved.trans hat))⟩
  · rw [h₄.1]
    exact guarded_pure fun m₅ h₅ _ => ⟨rfl, h₅.saved.trans h₄.2⟩

/-- A node that has just started over files that cover its log. -/
theorem covering_of_started (hstart : Started n) (hcovers : Covers n.disk) : Covering n ∧ Published n := by
  have hmem : n.mem = recovered n.disk := start_eq hstart
  obtain ⟨hincluded, _, hlog, _⟩ := recovered_included n.disk
  rw [← hmem] at hincluded hlog
  refine ⟨⟨hlog ▸ kept_load _, hlog.symm, hlog ▸ hcovers.compacted, fun k hk hle => ?_, hincluded.le⟩, hincluded.ge⟩
  obtain ⟨e, he⟩ := hcovers.follows k hk (hlog ▸ hle)
  exact ⟨e, hlog ▸ (getLog_eq_ok.mp he).2⟩

theorem compactingFollower_apart :
    Apart (compactingFollower env M) Covering Published Trims Keeps Installs Newer SavedAt (Undisturbed M) where
  relyRefl := Trims.refl
  relyTrans := Trims.trans
  moveRefl := Keeps.refl
  moveTrans := Keeps.trans
  fate := fun _ _ h => h.elim (fun h => h) fun h => h
  enter := by
    intro t i hallow hcovering hrest
    cases i with
    | appendEntries req =>
      exact .inl (calm_bind (handleAppendEntries_calm hallow) fun _ _ _ => calm_pure _)
    | installSnapshot req =>
      by_cases hterm : int64 t.state.mem.currentTerm ≤ req.term
      · by_cases hstale : Stale req t.state
        · left
          exact calm_bind (handleInstallSnapshot_calm fun _ => hstale) fun _ _ _ => calm_pure _
        · right
          obtain ⟨hidle, hfit⟩ := hallow hterm (Nat.lt_of_not_le hstale)
          refine ⟨hidle, alone_bind (handleInstallSnapshot_alone (hrest hidle) hstale hfit) fun _ _ h => ?_⟩
          exact alone_pure fun _ => h
      · left
        exact calm_bind (handleInstallSnapshot_calm fun h => absurd h hterm) fun _ _ _ => calm_pure _
  choose := by
    intro n label _ hpublished h
    obtain ⟨hnew, hlabel, _⟩ := chooseSnapshot_some h
    exact ⟨hpublished, hlabel ▸ hnew⟩
  chosen := by
    intro label n n' _ _ hnewer hkeeps
    exact ⟨hnewer.1.keeps hkeeps, hkeeps.included ▸ hnewer.2⟩
  giveUp := fun _ _ _ hnewer => hnewer.1
  launch := by
    intro t label p _ _ _ hnewer hlaunch
    obtain ⟨data, _, rfl⟩ := Option.map_eq_some_iff.mp hlaunch
    exact (keepSnapshot_bears hnewer).imp fun kept m _ hm => (if_pos hm.1).mpr hm.2
  closing := by
    intro label n n' _ _ hsaved hkeeps
    exact hkeeps.saved.trans hsaved
  publish := by
    intro label n hcovering hsaved
    have hsaved : n.disk.savedIndex = label.1 := hsaved
    simp only [compacting, Node.withMem, Replicator.publish]
    split
    · exact ⟨⟨hcovering.kept, hcovering.synced, hcovering.compacted, hcovering.dense, hsaved.ge⟩, hsaved.le⟩
    · next hold => exact ⟨hcovering, show n.disk.savedIndex ≤ n.mem.lastIncludedIndex by omega⟩
  rest := fun _ _ _ h hkeeps => h.keeps hkeeps
  restart := by
    intro t n' _ hcovering hreboot
    obtain ⟨hstart, hdisk, _⟩ := reboot_eq hreboot
    refine covering_of_started ?_ (hdisk ▸ hcovering.covers)
    unfold Started
    rw [hdisk]
    exact hstart

theorem savedIndex_reboot {n' : Node δ σ} (h : reboot n = some n') : n'.disk.savedIndex = n.disk.savedIndex := by
  rw [(reboot_eq h).2.1]

end Follower

/-! ## A compaction and an installation -/

/-- A section of a follower, in `steps` steps. -/
def runIncoming (i : Incoming Byte) (steps : Nat) : List (Move (Incoming Byte)) :=
  .enter i :: List.replicate steps (.advance .done)

/-- The leader "b" sends two entries, the first of which is committed. -/
def firstTwo : AppendEntriesRequest Byte := ⟨1, "b", 0, 0, some [⟨1, 1, 7⟩, ⟨2, 1, 8⟩], 1⟩

/-- The two entries are stored, and the first is applied. -/
def stored : List (Move (Incoming Byte)) := runIncoming (.appendEntries firstTwo) 13

/-- The snapshot of both. -/
def snapshotOfTwo : InstallSnapshotRequest := ⟨1, "b", 2, 1, [0, 7, 8]⟩

/-- The snapshot of the first entry of another term. -/
def snapshotOfOther : InstallSnapshotRequest := ⟨2, "c", 1, 2, [0, 9]⟩

/-- Compaction of the first entry. -/
def compacted : List (Move (Incoming Byte)) :=
  [.choose, .launch, .work .done, .work .done, .work .done, .publish]

end Coverage

end Sandstore.Raft
