import Sandstore.Raft.Waiters

/-!
# The position a node reports

`getLastLogInfo` tells voters, peers and `Replicate` where a node's log ends. It is put together from two
parts that are updated apart: the log store's last and compacted positions, and the label of the snapshot
the node goes by. `NewestHeld` says what it should be, in terms of what the node can still read.

The two parts agree as long as the log is compacted exactly where the snapshot ends (`Tidy`). The discard
branch of `HandleInstallSnapshot` breaks that: it compacts the log where the log ends, and not where the
snapshot does. In a run that never takes this branch, with leaders that send what leaders send, **the
reported position is the newest one held** (`last_position_truthful`), and with it a vote is never given
to a candidate that is behind the voter's snapshot.
-/

namespace Sandstore.Raft

open Lib Lib.Proc
open FileLogStore

variable {δ σ : Type}

section Position

attribute [local instance] Conv.exact

/-! ## Logs in order -/

/-- Terms that do not fall, from `t` on. -/
def Rising : Int → List (LogEntry δ) → Prop
  | _, [] => True
  | t, e :: entries => t ≤ e.term ∧ Rising e.term entries

theorem Rising.append {t : Int} {pre entries : List (LogEntry δ)} {e : LogEntry δ}
    (h : Rising t (pre ++ e :: entries)) : Rising e.term entries := by
  induction pre generalizing t with
  | nil => exact h.2
  | cons d pre ih => exact ih h.2

theorem rising_of_eq {t : Int} {entries : List (LogEntry δ)} (h : ∀ e ∈ entries, e.term = t) : Rising t entries := by
  induction entries with
  | nil => trivial
  | cons e entries ih =>
    have he := h e List.mem_cons_self
    exact ⟨he.ge, he ▸ ih fun d hd => h d (List.mem_cons_of_mem _ hd)⟩

/-- After the position `(b, t)` the log has every entry, with terms that do not fall and stay below
`top`. -/
structure Ordered (s : FileLogStore δ) (b : Nat) (t top : Int) : Prop where
  dense : s.DenseFrom b
  floor : ∀ k e, b < k → s.logs.get k = some e → t ≤ e.term
  sorted : ∀ j k d e, b < j → j ≤ k → s.logs.get j = some d → s.logs.get k = some e → d.term ≤ e.term
  ceiling : ∀ k e, b < k → s.logs.get k = some e → e.term ≤ top
  base : t ≤ top

namespace Ordered

variable {s s' : FileLogStore δ} {b : Nat} {t top : Int}

theorem raise {top' : Int} (h : Ordered s b t top) (htop : top ≤ top') : Ordered s b t top' :=
  { h with
    ceiling := fun k e hk he => (h.ceiling k e hk he).trans htop
    base := h.base.trans htop }

theorem lift {b' : Nat} {e : LogEntry δ} (h : Ordered s b t top) (hb : b < b')
    (he : s.logs.get b' = some e) : Ordered s b' e.term top where
  dense := fun k hk => h.dense k (hb.trans hk)
  floor := fun k d hk hd => h.sorted b' k e d hb hk.le he hd
  sorted := fun j k d d' hj => h.sorted j k d d' (hb.trans hj)
  ceiling := fun k d hk => h.ceiling k d (hb.trans hk)
  base := h.ceiling b' e hb he

theorem cut {c : Nat} (h : Ordered s b t top) (hkept : Kept s) (hb : s.compactedUntil ≤ b) (hc : 0 < c)
    (hs : s.deleteRange c none = some s') : Ordered s' b t top where
  dense := (h.dense.cut hkept hc hb hs).1
  floor := fun k e hk he => h.floor k e hk (get_of_deleteRange hs he)
  sorted := fun j k d e hj hjk hd he => h.sorted j k d e hj hjk (get_of_deleteRange hs hd) (get_of_deleteRange hs he)
  ceiling := fun k e hk he => h.ceiling k e hk (get_of_deleteRange hs he)
  base := h.base

theorem place {e : LogEntry δ} (h : Ordered s b t top) (hkept : Kept s) (hindex : uint64 e.index = s.last + 1)
    (hrise : top ≤ e.term) : Ordered (s.place e) b t e.term := by
  have h := h.raise hrise
  have hget : ∀ k, (s.place e).logs.get k = if k = s.last + 1 then some e else s.logs.get k := by
    intro k
    rw [get_place, hindex]
  have hlast : (s.place e).last = s.last + 1 := by
    rw [place_last, hindex]
    omega
  constructor
  · intro k hbk hk
    rw [hget]
    split
    · exact ⟨e, rfl⟩
    · exact h.dense k hbk (by omega)
  · intro k d hk hd
    rw [hget] at hd
    split at hd
    · cases hd
      exact h.base
    · exact h.floor k d hk hd
  · intro j k d d' hj hjk hd hd'
    rw [hget] at hd hd'
    split at hd'
    · cases hd'
      split at hd
      · cases hd
        exact Int.le_refl _
      · exact h.ceiling j d hj hd
    · have := hkept.top k d' hd'
      rw [if_neg (by omega)] at hd
      exact h.sorted j k d d' hj hjk hd hd'
  · intro k d hk hd
    rw [hget] at hd
    split at hd
    · cases hd
      exact Int.le_refl _
    · exact h.ceiling k d hk hd
  · exact h.base

theorem storeLoop {entries : List (LogEntry δ)} {u : Int} (h : Ordered s b t u) (hle : u ≤ top) (hkept : Kept s)
    (hfrom : From (s.last + 1) entries) (hrise : Rising u entries) (htop : ∀ e ∈ entries, e.term ≤ top) :
    Ordered (s.storeLoop entries).1 b t top := by
  induction entries generalizing s u with
  | nil => exact h.raise hle
  | cons e entries ih =>
    rw [FileLogStore.storeLoop]
    split
    · exact h.raise hle
    · have hlast : (s.place e).last = s.last + 1 := by
        rw [place_last, hfrom.1]
        omega
      exact ih (h.place hkept hfrom.1 hrise.1) (htop e List.mem_cons_self) (hkept.place e) (hlast ▸ hfrom.2) hrise.2
        fun d hd => htop d (List.mem_cons_of_mem _ hd)

end Ordered

/-- Storing takes no entry away, and leaves the compacted position. -/
theorem storeLoop_keeps (s : FileLogStore δ) (entries : List (LogEntry δ)) :
    (s.storeLoop entries).1.compactedTerm = s.compactedTerm ∧
      ∀ k e, s.logs.get k = some e → ∃ e', (s.storeLoop entries).1.logs.get k = some e' := by
  refine storeLoop_induct (I := fun s' => s'.compactedTerm = s.compactedTerm ∧
    ∀ k e, s.logs.get k = some e → ∃ e', s'.logs.get k = some e') ⟨rfl, fun _ e he => ⟨e, he⟩⟩ ?_
  refine fun s' hs d _ _ => ⟨hs.1, fun k e he => ?_⟩
  rw [get_place]
  split
  · exact ⟨d, rfl⟩
  · exact hs.2 k e he

/-- The store `s'` is `s`, compacted up to its entry `e` at `k`. -/
structure CompactedTo (s : FileLogStore δ) (k : Nat) (e : LogEntry δ) (s' : FileLogStore δ) : Prop where
  kept : Kept s'
  logs : s'.logs = s.logs
  last : s'.last = s.last
  position : s'.compactedUntil = k
  term : s'.compactedTerm = uint64 e.term

/-- Compacting up to an entry that is there. -/
theorem deleteRange_compact {s : FileLogStore δ} {k : Nat} {e : LogEntry δ} (hkept : Kept s)
    (hk : s.compactedUntil < k) (he : s.logs.get k = some e) :
    ∃ s', s.deleteRange 0 (some k) = some s' ∧ CompactedTo s k e s' := by
  have htop := hkept.top k e he
  have hclip : s.clip (some k) = k := by
    simp only [clip]
    split <;> omega
  have hs : s.deleteRange 0 (some k) = some ((s.compactTo k).cut 0 k) := by
    have hany : ¬ (some k).any (0 > ·) = true := by simp
    rw [FileLogStore.deleteRange, if_neg hany, hclip, if_neg (by omega), if_pos ⟨rfl, hk⟩]
  obtain ⟨hlogs, hlast, _⟩ := deleteRange_prefix hkept hs
  refine ⟨_, hs, hkept.deleteRange hs, hlogs, hlast, rfl, ?_⟩
  simp only [FileLogStore.cut, compactTo, he]

/-! ## A node in order -/

/-- The newest position a node holds: its last entry after the snapshot, or else the snapshot's end. -/
def Replicator.NewestHeld (r : Replicator δ) (p : Nat × Nat) : Prop :=
  (∃ e, r.lastIncludedIndex < p.1 ∧ r.logStore.getLog p.1 = .ok e ∧ p.2 = uint64 e.term ∧
      ∀ k e', r.lastIncludedIndex < k → r.logStore.getLog k = .ok e' → k ≤ p.1) ∨
    ((∀ k e, r.lastIncludedIndex < k → r.logStore.getLog k ≠ .ok e) ∧
      p = (r.lastIncludedIndex, r.lastIncludedTerm))

/-- The log is compacted where the snapshot ends, and goes on from there in order; what has been applied
after the snapshot is still there; and a leader's batch goes on where its log ends. -/
structure Tidy (n : Node δ σ) : Prop where
  kept : Kept n.mem.logStore
  base : n.mem.logStore.compactedUntil = n.mem.lastIncludedIndex
  baseTerm : n.mem.logStore.compactedTerm = n.mem.lastIncludedTerm
  ordered : Ordered n.mem.logStore n.mem.lastIncludedIndex (int64 n.mem.lastIncludedTerm)
    (int64 n.mem.currentTerm)
  applied : n.mem.lastApplied ≤ n.mem.lastIncludedIndex ∨
    ∃ e, n.mem.logStore.logs.get n.mem.lastApplied = some e
  ahead : n.mem.state = .leader → From (n.mem.logStore.last + 1) n.mem.pendingBatch ∧
    ∀ e ∈ n.mem.pendingBatch, e.term = int64 n.mem.currentTerm
  idle : n.mem.state ≠ .leader → n.mem.pendingBatch = []

theorem tidy_fresh (machine : σ) : Tidy (Node.fresh machine : Node δ σ) where
  kept := kept_empty
  base := rfl
  baseTerm := rfl
  ordered := by
    refine ⟨?_, ?_, ?_, ?_, Int.le_refl _⟩
    · intro k hk hle
      exact absurd hk (Nat.not_lt.mpr hle)
    · exact fun _ _ _ h => (nomatch h)
    · exact fun _ _ _ _ _ _ h => (nomatch h)
    · exact fun _ _ _ h => (nomatch h)
  applied := .inl (Nat.le_refl _)
  ahead := fun h => (nomatch h)
  idle := fun _ => rfl

namespace Tidy

variable {n n' : Node δ σ}

theorem le_last (h : Tidy n) : n.mem.lastIncludedIndex ≤ n.mem.logStore.last := h.base ▸ h.kept.base

/-- The reported position, computed. -/
theorem getLastLogInfo_eq (h : Tidy n) : (n.mem.logStore.last = n.mem.lastIncludedIndex ∧
      n.mem.getLastLogInfo = (n.mem.lastIncludedIndex, n.mem.lastIncludedTerm)) ∨
    ∃ e, n.mem.lastIncludedIndex < n.mem.logStore.last ∧ n.mem.logStore.logs.get n.mem.logStore.last = some e ∧
      n.mem.getLastLogInfo = (n.mem.logStore.last, uint64 e.term) := by
  have hle := h.le_last
  by_cases hbase : n.mem.logStore.last = n.mem.logStore.compactedUntil
  · refine .inl ⟨hbase.trans h.base, ?_⟩
    by_cases h0 : n.mem.logStore.last = 0
    · have hend : n.mem.logStore.lastIndexAndTerm = .ok (0, 0) := if_pos h0
      rw [Replicator.getLastLogInfo, hend]
      exact if_pos ⟨by omega, rfl⟩
    · have hend : n.mem.logStore.lastIndexAndTerm = .ok (n.mem.lastIncludedIndex, n.mem.lastIncludedTerm) := by
        rw [lastIndexAndTerm, if_neg h0, if_pos hbase, h.base, h.baseTerm]
      simp only [Replicator.getLastLogInfo, hend, ite_self]
  · obtain ⟨e, he⟩ := h.kept.held.resolve_left hbase
    have hbelow : n.mem.logStore.last ≠ n.mem.lastIncludedIndex := h.base ▸ hbase
    have hend : n.mem.logStore.lastIndexAndTerm = .ok (n.mem.logStore.last, uint64 e.term) := by
      rw [lastIndexAndTerm, if_neg (by omega), if_neg hbase, he]
    refine .inr ⟨e, by omega, he, ?_⟩
    simp only [Replicator.getLastLogInfo, hend, hbelow, false_and, if_false]

/-- **The reported position is the newest one held.** -/
theorem newestHeld (h : Tidy n) : n.mem.NewestHeld n.mem.getLastLogInfo := by
  have htop : ∀ k e, n.mem.logStore.getLog k = .ok e → k ≤ n.mem.logStore.last :=
    fun k e hget => h.kept.top k e (getLog_eq_ok.mp hget).2
  rcases h.getLastLogInfo_eq with ⟨hend, hinfo⟩ | ⟨e, hbelow, he, hinfo⟩
  · refine .inr ⟨fun k e hk hget => ?_, hinfo⟩
    have := htop k e hget
    omega
  · rw [hinfo]
    exact .inl ⟨e, hbelow, getLog_eq_ok.mpr ⟨h.base ▸ hbelow, he⟩, rfl, fun k e' _ => htop k e'⟩

/-- A log that goes on from the same position, of a node that does not lead or has nothing to store. -/
theorem relog (h : Tidy n) {s : FileLogStore δ} (hkept : Kept s)
    (huntil : s.compactedUntil = n.mem.logStore.compactedUntil)
    (hterm : s.compactedTerm = n.mem.logStore.compactedTerm)
    (hordered : Ordered s n.mem.lastIncludedIndex (int64 n.mem.lastIncludedTerm) (int64 n.mem.currentTerm))
    (happlied : ∀ e, n.mem.logStore.logs.get n.mem.lastApplied = some e →
      n.mem.lastApplied ≤ n.mem.lastIncludedIndex ∨ ∃ e', s.logs.get n.mem.lastApplied = some e')
    (hmem : n'.mem = { n.mem with logStore := s, pendingBatch := [] }) : Tidy n' := by
  constructor <;> rw [hmem]
  · exact hkept
  · exact huntil.trans h.base
  · exact hterm.trans h.baseTerm
  · exact hordered
  · rcases h.applied with hle | ⟨e, he⟩
    · exact .inl hle
    · exact happlied e he
  · exact fun _ => ⟨trivial, fun _ he => (nomatch he)⟩
  · exact fun _ => rfl

theorem stored (h : Tidy n) {entries : List (LogEntry δ)} {u : Int}
    (hlog : Ordered n.mem.logStore n.mem.lastIncludedIndex (int64 n.mem.lastIncludedTerm) u)
    (hle : u ≤ int64 n.mem.currentTerm) (hfrom : From (n.mem.logStore.last + 1) entries)
    (hrise : Rising u entries) (htop : ∀ e ∈ entries, e.term ≤ int64 n.mem.currentTerm)
    (hmem : n'.mem = { n.mem with logStore := (n.mem.logStore.storeLoop entries).1, pendingBatch := [] }) : Tidy n' := by
  obtain ⟨hterm, hkeeps⟩ := storeLoop_keeps n.mem.logStore entries
  exact h.relog h.kept.storeLoop (storeLoop_compactedUntil entries _) hterm
    (hlog.storeLoop hle h.kept hfrom hrise htop) (fun e he => .inr (hkeeps _ e he)) hmem

theorem vacant (h : Tidy n) (hside : n'.logSide = n.logSide) (hterm : n.mem.currentTerm ≤ n'.mem.currentTerm)
    (hbatch : n'.mem.pendingBatch = []) : Tidy n' := by
  simp only [Node.logSide, LogSide.mk.injEq] at hside
  obtain ⟨hlog, -, -, -, -, happlied, hincluded, hincludedTerm⟩ := hside
  constructor
  · simpa only [hlog] using h.kept
  · simpa only [hlog, hincluded] using h.base
  · simpa only [hlog, hincludedTerm] using h.baseTerm
  · rw [hlog, hincluded, hincludedTerm]
    exact h.ordered.raise (Int.ofNat_le.mpr hterm)
  · simpa only [hlog, hincluded, happlied] using h.applied
  · simp [hbatch, From]
  · exact fun _ => hbatch

theorem enqueue (h : Tidy n) (hrole : n.mem.state = .leader) {lastIdx term : Nat} {data : δ}
    (hlast : n.mem.logStore.lastIndexAndTerm = .ok (lastIdx, term)) (clients : OrdMap Int CallId) :
    Tidy (n.withMem fun r =>
      { r with
        pendingBatch := r.pendingBatch ++ [n.mem.entryFor lastIdx data]
        pendingClients := clients }) := by
  obtain ⟨hfrom, hterms⟩ := h.ahead hrole
  obtain ⟨_, hend⟩ := lastIndexAndTerm_of_kept h.kept
  cases hlast.symm.trans hend
  refine { h with ahead := fun _ => ⟨hfrom.snoc ?_, ?_⟩, idle := fun hfollows => absurd hrole hfollows }
  · simp only [Replicator.entryFor, uint64, int64]
    omega
  · intro e he
    rcases List.mem_append.mp he with he | he
    · exact hterms e he
    · cases List.mem_singleton.mp he
      rfl

/-- What has been applied is in the snapshot or in the log, after another entry as after this one. -/
theorem applyEffect (h : Tidy n) (he : ApplyEffect n n') : Tidy n' := by
  cases he with
  | notify index err =>
    unfold Node.notify
    split
    · exact { h with }
    · exact h
  | machine m => exact { h with }
  | skip _ hskip => exact { h with applied := .inl hskip }
  | apply entry _ hget => exact { h with applied := .inr ⟨entry, (getLog_eq_ok.mp hget).2⟩ }

theorem applyEffects (h : Tidy n) (he : ApplyEffects n n') : Tidy n' := by
  induction he with
  | refl => exact h
  | tail _ he ih => exact ih.applyEffect he

theorem demoted (h : Tidy n) {newTerm : Nat} (hterm : n.mem.currentTerm ≤ newTerm) (leaderID : NodeId) :
    Tidy (n.demote newTerm leaderID) := h.vacant rfl hterm rfl

/-- **Every stroke keeps a node in order**, outside the handlers that follow another leader and those that
save a snapshot. -/
theorem stroke {c : Charter δ σ} (h : Tidy n) (hclaim : c.input.claim = none) (hsnapshots : c.input.snapshots = false)
    (hs : Stroke c n n') : Tidy n' := by
  have happlied : ∀ entry m, Applies c n entry m → Tidy (n.applied entry m) := fun entry m happ =>
    (h.applyEffect (.apply n entry happ.below happ.get)).applyEffect (.machine _ m)
  have hsaves : ∀ {p : Prop}, c.input.snapshots = true → p := fun h => by cases hsnapshots.symm.trans h
  cases hs with
  | log _ hlog =>
    cases hlog with
    | skip _ hbelow hskip => exact h.applyEffect (.skip n hbelow hskip)
    | apply entry m happ => exact happlied entry m happ
    | answer entry m err happ => exact (happlied entry m happ).applyEffect (.notify _ _ err)
    | refuse _ index err => exact h.applyEffect (.notify n index (some err))
    | enqueue lastIdx term data call _ hrole hlast => exact h.enqueue hrole hlast _
    | take => exact h.vacant rfl (Nat.le_refl _) rfl
    | flush _ hrole =>
      obtain ⟨hfrom, hterms⟩ := h.ahead hrole
      exact h.stored h.ordered (Int.le_refl _) hfrom (rising_of_eq hterms) (fun e he => (hterms e he).le) rfl
    | follow _ _ hi => cases hclaim.symm.trans hi
    | store _ _ _ hi | cut _ _ _ hi =>
      rw [hi] at hclaim
      cases hclaim
    | trim _ _ hi | save _ hi | restore _ hi | adopt _ _ hi | publish _ _ _ _ hi => exact hsaves hi
    | putWal | commit => exact { h with }
  | demote term leaderID hnew =>
    refine h.demoted ?_ leaderID
    simp only [uint64, int64] at hnew ⊢
    omega
  | fail => exact h.vacant rfl (Nat.le_refl _) rfl
  | persist | vote | campaign | setPeer | cancel => exact { h with }
  | stand _ _ hrole =>
    refine h.vacant rfl ?_ (h.idle hrole)
    simp only [Node.withMem, succ64, uint64]
    omega
  | lead _ _ _ hrole =>
    refine h.vacant rfl (Nat.le_refl _) (h.idle ?_)
    rw [hrole]
    decide

/-- The log is compacted and the snapshot's label moved, both to an entry that is there. -/
theorem compact (h : Tidy n) {k : Nat} {e : LogEntry δ} (hk : n.mem.lastIncludedIndex < k)
    (he : n.mem.logStore.logs.get k = some e) (hlog : CompactedTo n.mem.logStore k e n'.mem.logStore)
    (hincluded : n'.mem.lastIncludedIndex = k) (hincludedTerm : n'.mem.lastIncludedTerm = uint64 e.term)
    (hcurrent : n'.mem.currentTerm = n.mem.currentTerm) (hrole : n'.mem.state = n.mem.state)
    (hbatch : n'.mem.pendingBatch = n.mem.pendingBatch)
    (happlied : n'.mem.lastApplied ≤ k ∨ n'.mem.lastApplied = n.mem.lastApplied) : Tidy n' := by
  have hpos : 0 ≤ e.term := (Int.natCast_nonneg _).trans (h.ordered.floor k e hk he)
  have hlabel : int64 (uint64 e.term) = e.term := Int.toNat_of_nonneg hpos
  have hlift := h.ordered.lift hk he
  constructor
  · exact hlog.kept
  · rw [hincluded, hlog.position]
  · rw [hincludedTerm, hlog.term]
  · rw [hincluded, hincludedTerm, hcurrent, hlabel]
    constructor
    · simpa only [DenseFrom, hlog.logs, hlog.last] using hlift.dense
    · simpa only [hlog.logs] using hlift.floor
    · simpa only [hlog.logs] using hlift.sorted
    · simpa only [hlog.logs] using hlift.ceiling
    · exact hlift.base
  · rw [hincluded, hlog.logs]
    rcases happlied with hle | heq
    · exact .inl hle
    · rw [heq]
      exact h.applied.imp (fun hle => hle.trans hk.le) id
  · rw [hlog.last, hrole, hbatch, hcurrent]
    exact h.ahead
  · rw [hrole, hbatch]
    exact h.idle

/-- A vote given by this node goes to a candidate that is not behind its snapshot. -/
theorem upToDate (h : Tidy n) {req : RequestVoteArgs} (hup : n.mem.logIsUpToDate req = true) :
    ¬ (req.lastLogTerm < int64 n.mem.lastIncludedTerm ∨
      (req.lastLogTerm = int64 n.mem.lastIncludedTerm ∧ req.lastLogIndex < int64 n.mem.lastIncludedIndex)) := by
  have hup' := of_decide_eq_true hup
  rcases h.getLastLogInfo_eq with ⟨_, hinfo⟩ | ⟨e, hbelow, he, hinfo⟩
  · rw [hinfo] at hup'
    simp only [int64] at hup' ⊢
    omega
  · have hfloor := h.ordered.floor _ e hbelow he
    rw [hinfo] at hup'
    simp only [int64, uint64] at hup' hfloor ⊢
    omega

end Tidy

/-! ## Sections whose writes succeed -/

section Smooth

variable {n : Node δ σ} {α : Type}

/-- The program, with none of its writes failing. -/
abbrev Smooth (p : Proc (Node δ σ) α) (n : Node δ σ) (Q : α → Node δ σ → Prop) : Prop :=
  Meets (fun _ => False) p n Q fun _ => True

theorem smooth_step {f : Node δ σ → Node δ σ × Option (Node δ σ → Node δ σ)}
    {k : Node δ σ → Bool → Proc (Node δ σ) α} {Q : α → Node δ σ → Prop} {m : Node δ σ} {b : Bool}
    (hf : outcome f n .done = .inl (m, b)) (h : Smooth (k n b) m Q) : Smooth (.step f k) n Q := by
  intro fate hfate
  cases hfate.resolve_right False.elim
  rw [hf]
  exact h

theorem stepDown_smooth (newTerm : Nat) (leaderID : NodeId) : Smooth (stepDown newTerm leaderID) n fun err m =>
      err = none ∧ m = (n.demote newTerm leaderID).putStable :=
  meets_update_bind (meets_bind (smooth_step rfl (meets_pure (meets_pure ⟨rfl, rfl⟩))))

theorem applyLogs_tidy (M : Machine δ σ) (h : Tidy n) : Smooth (applyLogs M) n fun _ m => Tidy m :=
  Meets.imp (applyLogs_applyEffects M) (fun _ _ he => h.applyEffects he) fun _ _ => trivial

/-! ## Entries that arrive -/

/-- The node holds the position `(i, t)`: its snapshot ends there, or it has the entry. -/
def Replicator.Holds (r : Replicator δ) (i : Nat) (t : Int) : Prop :=
  (i = r.lastIncludedIndex ∧ t = int64 r.lastIncludedTerm) ∨
    ∃ e, r.logStore.getLog i = .ok e ∧ e.term = t

/-- A request as a leader makes it: consecutive entries, with terms that do not fall and stay below its
own. -/
def Proper (req : AppendEntriesRequest δ) : Prop :=
  Consecutive req ∧ ∀ entries, req.entries = some entries →
    Rising req.prevLogTerm entries ∧ ∀ e ∈ entries, e.term ≤ req.term

variable {req : AppendEntriesRequest δ}

/-- A request that passes the consistency check names a position the node holds. -/
theorem holds_of_mismatch {r : Replicator δ} (hprev : 0 ≤ req.prevLogIndex)
    (h : r.mismatch req = none) : r.Holds (uint64 req.prevLogIndex) req.prevLogTerm := by
  obtain ⟨hlow, ⟨heq, hterm⟩ | ⟨hne, hpos | hheld⟩⟩ := mismatch_eq_none.mp h
  · refine .inl ⟨?_, hterm⟩
    rw [heq]
    exact Int.toNat_natCast _
  · simp only [uint64, int64] at hlow hne
    omega
  · exact .inr hheld

namespace Tidy

/-- What is held is not before the snapshot's end, nor after the log's. -/
theorem holds_le (h : Tidy n) {i : Nat} {t : Int} (hi : n.mem.Holds i t) :
    n.mem.lastIncludedIndex ≤ i ∧ i ≤ n.mem.logStore.last := by
  rcases hi with ⟨rfl, _⟩ | ⟨e, he, _⟩
  · exact ⟨Nat.le_refl _, h.le_last⟩
  · obtain ⟨hbase, hget⟩ := getLog_eq_ok.mp he
    exact ⟨h.base ▸ hbase.le, h.kept.top i e hget⟩

theorem holds_passed (h : Tidy n) {i : Nat} {t : Int} {pre new : List (LogEntry δ)}
    (hfrom : From (i + 1) (pre ++ new)) (hrise : Rising t (pre ++ new)) (hpassed : Passed n.mem pre)
    (hi : n.mem.Holds i t) : ∃ u, n.mem.Holds (i + pre.length) u ∧ Rising u new ∧ From (i + pre.length + 1) new := by
  rcases List.eq_nil_or_concat pre with rfl | ⟨front, e, rfl⟩
  · exact ⟨t, hi, hrise, hfrom⟩
  · have hle := (h.holds_le hi).1
    have hlength : (front.concat e).length = front.length + 1 := by simp
    have hnew := hfrom.append
    rw [List.concat_eq_append, List.append_assoc] at hfrom hrise
    have hindex := hfrom.last_index
    obtain ⟨existing, hget, hterm⟩ := hpassed e (by simp) (by omega)
    refine ⟨e.term, .inr ⟨existing, ?_, hterm⟩, hrise.append, ?_⟩
    · rw [hlength, ← hget, hindex]
      congr 1
      omega
    · rwa [Nat.add_right_comm]

/-- Entries are stored at the end of a log that holds the position before them. -/
theorem storeLogs (h : Tidy n) (hbatch : n.mem.pendingBatch = []) {new : List (LogEntry δ)} {u : Int}
    (hend : n.mem.Holds n.mem.logStore.last u) (hfrom : From (n.mem.logStore.last + 1) new)
    (hrise : Rising u new) (htop : ∀ e ∈ new, e.term ≤ int64 n.mem.currentTerm) :
    Smooth (storeLogs new) n fun _ m => Tidy m := by
  -- the log's terms end where the new ones go on
  have hlog : Ordered n.mem.logStore n.mem.lastIncludedIndex (int64 n.mem.lastIncludedTerm) u ∧
      u ≤ int64 n.mem.currentTerm := by
    rcases hend with ⟨hlast, rfl⟩ | ⟨e, he, rfl⟩
    · refine ⟨{ h.ordered with ceiling := fun k d hk hd => ?_, base := Int.le_refl _ }, h.ordered.base⟩
      have := h.kept.top k d hd
      omega
    · obtain ⟨hbase, hget⟩ := getLog_eq_ok.mp he
      have hbase := h.base ▸ hbase
      refine ⟨{ h.ordered with ceiling := ?_, base := h.ordered.floor _ e hbase hget }, h.ordered.ceiling _ e hbase hget⟩
      exact fun k d hk hd => h.ordered.sorted k _ d e hk (h.kept.top k d hd) hd hget
  have hstored : ∀ m : Node δ σ, m.mem = (n.withLog (n.mem.logStore.storeLoop new).1).mem → Tidy m := by
    intro m hm
    refine h.stored hlog.1 hlog.2 hfrom hrise htop ?_
    rw [hm, ← hbatch]
    rfl
  cases herr : (n.mem.logStore.storeLoop new).2 with
  | some err =>
    exact smooth_step (m := n.withLog (n.mem.logStore.storeLoop new).1) (b := true) (by simp [outcome, herr])
      (meets_pure (hstored _ rfl))
  | none =>
    exact smooth_step (m := (n.withLog (n.mem.logStore.storeLoop new).1).putWal) (b := true)
      (by simp [outcome, herr]) (meets_pure (hstored _ rfl))

/-- The log is cut after a position the node holds, above what it has applied. -/
theorem cut (h : Tidy n) (hbatch : n.mem.pendingBatch = []) {p : Nat} {u : Int} (hp : n.mem.Holds p u)
    (hlast : p + 1 ≤ n.mem.logStore.last) (happlied : n.mem.lastApplied < p + 1) :
    Smooth (deleteRange (p + 1) none) n fun err m => err = none ∧ Tidy m ∧ m.mem.Holds m.mem.logStore.last u ∧
      m.mem.logStore.last = p ∧ m.mem.pendingBatch = [] ∧ m.mem.currentTerm = n.mem.currentTerm := by
  have hle := (h.holds_le hp).1
  cases hd : n.mem.logStore.deleteRange (p + 1) none with
  | none =>
    have := deleteRange_suffix_none hd
    omega
  | some s =>
    have hbase := h.base
    obtain ⟨huntil, hterm, hget⟩ := deleteRange_suffix (by omega) hd
    have hkept := h.kept.deleteRange hd
    have hbelow : ∀ {k e}, k ≤ p → n.mem.logStore.logs.get k = some e → s.logs.get k = some e := by
      intro k e hk he
      rw [hget, if_neg (by omega)]
      exact he
    have htidy : Tidy (n.withLog s).putWal := by
      refine h.relog hkept huntil hterm (h.ordered.cut h.kept hbase.le (by omega) hd) ?_ (by rw [← hbatch]; rfl)
      exact fun e he => .inr ⟨e, hbelow (by omega) he⟩
    have hp' : (n.withLog s).putWal.mem.Holds p u := by
      rcases hp with hp | ⟨e, he, hu⟩
      · exact .inl hp
      · obtain ⟨hb, he⟩ := getLog_eq_ok.mp he
        exact .inr ⟨e, getLog_eq_ok.mpr ⟨huntil ▸ hb, hbelow (Nat.le_refl _) he⟩, hu⟩
    have hend : s.last = p := by
      have hge : p ≤ s.last := (htidy.holds_le hp').2
      rcases hkept.held with hs | ⟨e, he⟩
      · omega
      · have htop := h.kept.top _ e (get_of_deleteRange hd he)
        rw [hget] at he
        split at he
        · cases he
        · omega
    refine smooth_step (m := (n.withLog s).putWal) (b := true) (by simp [outcome, hd])
      (meets_pure ⟨rfl, htidy, ?_, hend, hbatch, rfl⟩)
    exact hend.symm ▸ hp'

end Tidy

theorem appendNew_tidy (h : Tidy n) (hbatch : n.mem.pendingBatch = []) {i : Nat} {t : Int}
    {entries : List (LogEntry δ)} (hfrom : From (i + 1) entries) (hrise : Rising t entries)
    (htop : ∀ e ∈ entries, e.term ≤ int64 n.mem.currentTerm) (hi : n.mem.Holds i t)
    (hspares : ∀ c new, n.mem.scan entries = .conflict c new → n.mem.lastApplied < c) :
    Smooth (appendNew (n.mem.scan entries)) n fun _ m => Tidy m := by
  have hscan := scan_spec n.mem entries
  cases hm : n.mem.scan entries with
  | upToDate => exact meets_pure h
  | append new =>
    rw [hm] at hscan
    obtain ⟨pre, rfl, hpassed, e, rest, rfl, hincluded, hmissing⟩ := hscan
    obtain ⟨u, hu, hrise', hfrom'⟩ := h.holds_passed hfrom hrise hpassed hi
    -- the log has no gap, so an entry it lacks is the one after its last
    have hend : n.mem.logStore.last = i + pre.length := by
      have hle := (h.holds_le hu).2
      by_contra hne
      obtain ⟨d, hd⟩ := h.ordered.dense (i + pre.length + 1) (hfrom'.1 ▸ hincluded) (by omega)
      exact hmissing d (getLog_eq_ok.mpr ⟨h.base ▸ hincluded, hfrom'.1 ▸ hd⟩)
    rw [← hend] at hu hfrom'
    exact h.storeLogs hbatch hu hfrom' hrise' fun d hd => htop d (List.mem_append_right _ hd)
  | conflict c new =>
    have hbelow := hspares c new hm
    rw [hm] at hscan
    obtain ⟨pre, rfl, hpassed, e, rest, rfl, rfl, _, existing, hget, _⟩ := hscan
    obtain ⟨u, hu, hrise', hfrom'⟩ := h.holds_passed hfrom hrise hpassed hi
    have hlast := h.kept.top _ _ (getLog_eq_ok.mp hget).2
    rw [hfrom'.1] at hbelow hlast ⊢
    refine (h.cut hbatch hu hlast hbelow).bind ?_
    rintro err m ⟨rfl, hm, hend, hp, hnone, hterm⟩
    rw [← hp] at hfrom'
    exact hm.storeLogs hnone hend hfrom' hrise' fun d hd => hterm ▸ htop d (List.mem_append_right _ hd)

theorem followCommit_tidy (M : Machine δ σ) (req : AppendEntriesRequest δ) (h : Tidy n) :
    Smooth (followCommit M req) n fun _ m => Tidy m := by
  apply meets_read_bind
  cases n.mem.logStore.lastIndexAndTerm with
  | error _ => exact meets_pure h
  | ok last =>
    refine meets_ite (fun _ => meets_update_bind (meets_bind ?_)) fun _ => meets_pure h
    exact applyLogs_tidy M ({ h with })

theorem Tidy.follows (h : Tidy n) (hrole : n.mem.state ≠ .leader) (leaderID : NodeId) :
    Tidy (n.withMem fun r => { r with state := .follower, leaderID := leaderID }) :=
  h.vacant rfl (Nat.le_refl _) (h.idle hrole)

theorem acceptEntries_tidy (M : Machine δ σ) (h : Tidy n)
    (hrole : n.mem.state ≠ .leader) (hreq : Proper req) (hterm : req.term ≤ int64 n.mem.currentTerm)
    (hspares : ∀ entries c new, req.entries = some entries → n.mem.scan entries = .conflict c new →
      n.mem.lastApplied < c) : Smooth (acceptEntries M req) n fun _ m => Tidy m := by
  have hfollows := h.follows hrole req.leaderID
  refine meets_update_bind (meets_read_bind ?_)
  split
  · exact meets_pure hfollows
  · next hmis =>
    cases hentries : req.entries with
    | none => exact meets_pure hfollows
    | some entries =>
      obtain ⟨hrise, htop⟩ := hreq.2 entries hentries
      refine (appendNew_tidy hfollows (h.idle hrole) (hreq.1.2 entries hentries) hrise
        (fun e he => (htop e he).trans hterm) (holds_of_mismatch hreq.1.1 hmis) fun c new hc => ?_).bind ?_
      · refine hspares entries c new hentries ?_
        rw [← hc]
        exact scan_congr (by rfl) (by rfl) entries
      · intro err m hm
        cases err with
        | some _ => exact meets_pure hm
        | none => exact followCommit_tidy M req hm

/-- The term handling that two handlers share. -/
theorem handled_tidy {reqTerm : Int} {leaderID : NodeId} {body : Proc (Node δ σ) α} {stale : α}
    {failed : Err → α} (h : Tidy n)
    (hrole : int64 n.mem.currentTerm ≤ reqTerm → reqTerm = int64 n.mem.currentTerm → n.mem.state ≠ .leader)
    (hbody : int64 n.mem.currentTerm ≤ reqTerm → ∀ m : Node δ σ, Tidy m → m.logSide = n.logSide →
      m.mem.state ≠ .leader → reqTerm = int64 m.mem.currentTerm → Smooth body m fun _ m' => Tidy m') :
    Smooth (underTerm n reqTerm leaderID stale failed body) n fun _ m => Tidy m := by
  refine meets_ite (fun _ => meets_pure h) fun hfresh => ?_
  have hle := Int.not_lt.mp hfresh
  refine meets_ite (fun hnew => ?_) fun hsame => ?_
  · refine (stepDown_smooth _ leaderID).bind ?_
    rintro err m ⟨rfl, rfl⟩
    have hnat : int64 (uint64 reqTerm) = reqTerm := Int.toNat_of_nonneg ((Int.natCast_nonneg _).trans hle)
    refine hbody hle _ ({ h.demoted ?_ leaderID with }) rfl ?_ hnat.symm
    · simp only [uint64, int64] at hle ⊢
      omega
    · simp [Node.demote, Node.putStable, Node.failAllPending, Node.withMem]
  · have heq := Int.le_antisymm (Int.not_lt.mp hsame) hle
    exact hbody hle n h rfl (hrole hle heq) heq

/-! ## Snapshots -/

theorem Tidy.saved (h : Tidy n) (snap : SnapshotFile) :
    Tidy { n with disk := { n.disk with snapshot := some snap } } := { h with }

theorem retainLog_smooth (h : Tidy n) {k : Nat} {e : LogEntry δ} (hk : n.mem.lastIncludedIndex < k)
    (he : n.mem.logStore.logs.get k = some e) : Smooth (retainLog k) n fun settled m => settled = true ∧
      ∃ s, CompactedTo n.mem.logStore k e s ∧ m = (n.withLog s).putWal := by
  obtain ⟨s, hs, hlog⟩ := deleteRange_compact h.kept (h.base ▸ hk) he
  refine meets_bind (smooth_step (m := (n.withLog s).putWal) (b := true) (by simp [outcome, hs]) ?_)
  exact meets_pure (meets_pure ⟨rfl, s, hlog, rfl⟩)

theorem lastApplied_adopt (r : Replicator δ) (index term : Nat) :
    (r.adopt index term).lastApplied ≤ index ∨ (r.adopt index term).lastApplied = r.lastApplied := by
  simp only [Replicator.adopt]
  split
  · exact .inl (Nat.le_refl _)
  · exact .inr rfl

theorem acceptSnapshot_tidy (M : Machine δ σ) {req : InstallSnapshotRequest} (h : Tidy n)
    (hrole : n.mem.state ≠ .leader) (hretain : n.mem.lastIncludedIndex < uint64 req.lastIncludedIndex →
      n.mem.retainSuffix (uint64 req.lastIncludedIndex) (uint64 req.lastIncludedTerm) = true) :
    Smooth (acceptSnapshot M req) n fun _ m => Tidy m := by
  have hfollows := h.follows hrole req.leaderID
  refine meets_update_bind (meets_read_bind (meets_ite (fun _ => meets_pure hfollows) fun hold => ?_))
  have hnew : n.mem.lastIncludedIndex < uint64 req.lastIncludedIndex := Nat.lt_of_not_le hold
  have hheld := hretain hnew
  obtain ⟨e, he, hterm⟩ : ∃ e, n.mem.logStore.getLog (uint64 req.lastIncludedIndex) = .ok e ∧
      uint64 e.term = uint64 req.lastIncludedTerm := by
    unfold Replicator.retainSuffix at hheld
    split at hheld
    · next e he => exact ⟨e, he, of_decide_eq_true hheld⟩
    · cases hheld
  have hget := (getLog_eq_ok.mp he).2
  refine meets_bind (smooth_step rfl (meets_pure (meets_bind ?_)))
  have hbranch : (n.withMem fun r => { r with state := .follower, leaderID := req.leaderID }).mem.retainSuffix
      (uint64 req.lastIncludedIndex) (uint64 req.lastIncludedTerm) = true := hheld
  rw [hbranch]
  refine Meets.weaken (retainLog_smooth (hfollows.saved _) hnew hget) ?_
  rintro settled m ⟨rfl, s, hlog, rfl⟩
  exact meets_update_bind (meets_pure (hfollows.compact hnew hget hlog rfl hterm.symm rfl rfl rfl
    (lastApplied_adopt _ _ _)))

theorem checkCompaction_tidy (env : Env) (M : Machine δ σ) (h : Tidy n) :
    Smooth (checkCompaction env M) n fun _ m => Tidy m := by
  apply meets_read_bind
  cases hchoice : n.mem.chooseSnapshot env.snapshotThresholdLogs with
  | none => exact meets_pure h
  | some label =>
    obtain ⟨hnew, hindex, hterm⟩ := chooseSnapshot_some hchoice
    -- what has been applied after the snapshot is still in the log
    obtain ⟨e, hget⟩ := h.applied.resolve_left (Nat.not_le.mpr hnew)
    have hheld : n.mem.logStore.getLog n.mem.lastApplied = .ok e := getLog_eq_ok.mpr ⟨h.base ▸ hnew, hget⟩
    obtain rfl : label = (n.mem.lastApplied, uint64 e.term) := Prod.ext hindex (hterm e hheld)
    refine meets_bind (meets_read_bind ?_)
    cases M.serializeSnapshot n.disk.machine with
    | none => exact meets_pure (meets_pure h)
    | some data =>
      refine meets_bind (smooth_step rfl (meets_pure ?_))
      refine Meets.weaken (retainLog_smooth (h.saved _) hnew hget) ?_
      rintro settled m ⟨rfl, s, hlog, hm⟩
      have hpublish : m.mem.publish n.mem.lastApplied (uint64 e.term) =
          { m.mem with lastIncludedIndex := n.mem.lastApplied, lastIncludedTerm := uint64 e.term } := by
        rw [hm]
        exact if_pos hnew
      apply meets_update
      rw [Node.withMem, hpublish, hm]
      exact h.compact hnew hget hlog rfl rfl rfl rfl rfl (.inr rfl)

/-! ## Runs -/

/-- What an input is like in a cluster that elects one leader a term and overwrites nothing that has been
applied, as long as a snapshot that is taken up finds its last entry in the log. -/
def Input.InOrder (n : Node δ σ) : Input δ → Prop
  | .appendEntries req => int64 n.mem.currentTerm ≤ req.term →
      (req.term = int64 n.mem.currentTerm → n.mem.state ≠ .leader) ∧ Proper req ∧
      ∀ entries c new, req.entries = some entries → n.mem.scan entries = .conflict c new → n.mem.lastApplied < c
  | .installSnapshot req => int64 n.mem.currentTerm ≤ req.term →
      (req.term = int64 n.mem.currentTerm → n.mem.state ≠ .leader) ∧
      (n.mem.lastIncludedIndex < uint64 req.lastIncludedIndex →
        n.mem.retainSuffix (uint64 req.lastIncludedIndex) (uint64 req.lastIncludedTerm) = true)
  | _ => True

/-- Such an input, with writes that succeed. -/
def Orderly (n : Node δ σ) : Act δ → Prop
  | .input i fates => fates = [] ∧ i.InOrder n
  | .crash => False

theorem handleAppendEntries_tidy (M : Machine δ σ) (h : Tidy n)
    (hreq : (Input.appendEntries req).InOrder n) : Smooth (handleAppendEntries M req) n fun _ m => Tidy m := by
  refine meets_read_bind (handled_tidy h (fun hle => (hreq hle).1) fun hle m hm hside hrole hterm => ?_)
  obtain ⟨_, hproper, hspares⟩ := hreq hle
  have hlog : m.mem.logStore = n.mem.logStore := congrArg LogSide.logStore hside
  have hincluded : m.mem.lastIncludedIndex = n.mem.lastIncludedIndex := congrArg LogSide.lastIncludedIndex hside
  have happlied : m.mem.lastApplied = n.mem.lastApplied := congrArg LogSide.lastApplied hside
  refine (acceptEntries_tidy M hm hrole hproper hterm.le ?_).bind fun _ _ h => h
  intro entries c new hentries hc
  rw [scan_congr hlog hincluded] at hc
  rw [happlied]
  exact hspares entries c new hentries hc

theorem handleInstallSnapshot_tidy (M : Machine δ σ) {req : InstallSnapshotRequest} (h : Tidy n)
    (hreq : (Input.installSnapshot req : Input δ).InOrder n) :
    Smooth (handleInstallSnapshot M req) n fun _ m => Tidy m := by
  refine meets_read_bind (handled_tidy h (fun hle => (hreq hle).1) fun hle m hm hside hrole _ => ?_)
  have hlog : m.mem.logStore = n.mem.logStore := congrArg LogSide.logStore hside
  have hincluded : m.mem.lastIncludedIndex = n.mem.lastIncludedIndex := congrArg LogSide.lastIncludedIndex hside
  refine (acceptSnapshot_tidy M hm hrole ?_).bind fun _ _ h => h
  rw [hincluded, Replicator.retainSuffix, hlog]
  exact (hreq hle).2

/-- **Every orderly step leaves the node in order.** -/
theorem Tidy.step {env : Env} {M : Machine δ σ} {n' : Node δ σ} {a : Act δ} (h : Tidy n) (ha : Orderly n a)
    (hs : step env M n a = some n') : Tidy n' := by
  cases a with
  | crash => exact ha.elim
  | input i fates =>
    obtain ⟨rfl, hi⟩ := ha
    obtain ⟨out, m, hrun⟩ := run_nil (program env M i) n
    simp only [Raft.step, hrun, Option.some.injEq] at hs
    subst hs
    have hback : Smooth (program env M i) n (fun _ m => Tidy m) → Tidy m := fun hq => hq.back (by simp) hrun
    have hown : i.claim = none → i.snapshots = false → Tidy m := by
      intro hclaim hsnapshots
      have hkeeps : Stays (fun _ => False) Tidy (program env M i) n :=
        program_keeps env M i h fun _ _ hm hs => hm.stroke hclaim hsnapshots hs
      exact hkeeps.back (by simp) hrun
    cases i with
    | appendEntries req => exact hback (meets_bind (handleAppendEntries_tidy M h hi))
    | installSnapshot req => exact hback (meets_bind (handleInstallSnapshot_tidy M h hi))
    | checkCompaction => exact hback (meets_bind (checkCompaction_tidy env M h))
    | _ => exact hown rfl rfl

/-! ## What voters, candidates and clients are told -/

/-- A granted vote has passed the test of the voter's log. -/
theorem handleRequestVote_granted (ok : Fate → Prop) (req : RequestVoteArgs) (n : Node δ σ) :
    Meets ok (handleRequestVote req) n (fun out _ => out.1.voteGranted = true →
      n.mem.logIsUpToDate req = true) fun _ => True := by
  have hdecide : ∀ m : Node δ σ, m.logSide = n.logSide → Meets ok (decideVote req) m (fun out _ =>
      out.1.voteGranted = true → n.mem.logIsUpToDate req = true) fun _ => True := by
    intro m hside
    have hinfo : m.mem.getLastLogInfo = n.mem.getLastLogInfo := by
      have hlog : m.mem.logStore = n.mem.logStore := congrArg LogSide.logStore hside
      have hincluded : m.mem.lastIncludedIndex = n.mem.lastIncludedIndex := congrArg LogSide.lastIncludedIndex hside
      have hterm : m.mem.lastIncludedTerm = n.mem.lastIncludedTerm := congrArg LogSide.lastIncludedTerm hside
      simp only [Replicator.getLastLogInfo, hlog, hincluded, hterm]
    refine meets_read_bind (meets_ite (fun hvote => ?_) fun _ => meets_pure fun hno => (nomatch hno))
    have hup : n.mem.logIsUpToDate req = true := by
      simpa only [Replicator.logIsUpToDate, hinfo] using hvote.2
    exact (meets_trivial _).weaken fun _ _ _ _ => hup
  refine meets_read_bind (meets_ite (fun _ => meets_pure fun hno => (nomatch hno)) fun _ => ?_)
  refine meets_ite (fun _ => ?_) fun _ => hdecide n rfl
  refine meets_bind (Meets.imp (stepDown_civic _ "") (fun err m hside => ?_) fun _ _ => trivial)
  cases err with
  | some err => exact meets_read_bind (meets_pure fun hno => (nomatch hno))
  | none => exact hdecide m hside

/-- A candidate's requests carry the position it reports. -/
theorem startElection_requests (ok : Fate → Prop) (env : Env) (n : Node δ σ) :
    Meets ok (startElection env) n (fun requests _ => ∀ r ∈ requests,
      (uint64 r.2.lastLogIndex, uint64 r.2.lastLogTerm) = n.mem.getLastLogInfo) fun _ => True := by
  refine meets_update_bind (meets_read_bind (meets_bind ?_))
  refine (meets_trivial _).weaken fun wrote m _ => meets_ite (fun _ => ?_) fun _ => ?_
  · cases env.getAllNodes with
    | none => exact meets_pure (by simp)
    | some nodes =>
      refine meets_ite (fun _ => ?_) fun _ => meets_update_bind (meets_pure ?_)
      · exact (meets_trivial _).bind fun _ _ _ => meets_pure (by simp)
      · intro r hr
        obtain ⟨p, _, rfl⟩ := List.mem_map.mp hr
        rfl
  · exact (meets_trivial _).bind fun _ _ _ => meets_pure (by simp)

end Smooth

end Position

end Sandstore.Raft
