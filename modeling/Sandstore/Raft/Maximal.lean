import Sandstore.Raft.Cancelling
import Sandstore.Raft.Replication

/-!
# A leader commits all it may

`advanceCommitIndexLocked` runs where a successful AppendEntries reply has moved a match index, and nowhere
else. So a leader has committed all that its count allows as long as nothing else makes an index eligible.
A flush does not, as the new entries are beyond what any peer is counted for; but it does for a leader without
peers, which is a majority by itself and never gets a reply: a cluster of one commits nothing. An election
and the reply to a snapshot set match indices without looking for something to commit, which goes well while
these indices are committed already.

`Leading` says this of one leader, with what the argument needs: nobody is counted for more than the leader
has. That a reply counts its sender for no more than that holds because the work it answers was made from the
leader's log in this very term, and a node leads a term once (`Worked`). The cluster may compact and send
snapshots, and any write may fail (`leader_commits_all`).
-/

namespace Sandstore.Raft

open Lib Lib.Proc
open FileLogStore

section Maximal

attribute [local instance] Conv.exact

variable {δ σ : Type} {C : Cluster} {i : NodeId} {r : Replicator δ} {n n' m : Node δ σ} {ok : Fate → Prop}
  {Made : CallId → LogEntry δ → Prop}

/-! ## Counting -/

theorem committable_iff {c : Nat} : r.committable i C.nodes c = true ↔
    ∃ e, r.logStore.getLog c = .ok e ∧ e.term = int64 r.currentTerm ∧
      C.nodes.length / 2 < r.matchCount i C.nodes c := by
  unfold Replicator.committable
  cases hget : r.logStore.getLog c with
  | error err => simp
  | ok e => simp

/-- A leader alone is no majority of two or more. -/
theorem not_committable (hsize : 2 ≤ C.nodes.length) {c : Nat}
    (hbelow : ∀ p ∈ peersOf i C.nodes, r.matchIndex p < c) : ¬ r.committable i C.nodes c = true := by
  intro hyes
  obtain ⟨_, _, _, hcount⟩ := committable_iff.mp hyes
  have hnone : (peersOf i C.nodes).filter (fun p => r.matchIndex p ≥ c) = [] := by
    apply List.filter_eq_nil_iff.mpr
    intro p hp
    have := hbelow p hp
    simp only [decide_eq_true_eq]
    omega
  rw [Replicator.matchCount, hnone, List.length_nil] at hcount
  omega

/-- **The search finds the largest index** that may be committed, if there is one to find. -/
theorem commitFrom_max {c k : Nat} (hyes : r.committable i C.nodes c = true)
    (hc : c ≤ k) : c ≤ (r.commitFrom i C.nodes k).getD r.commitIndex := by
  induction k with
  | zero => omega
  | succ k ih =>
    rw [Replicator.commitFrom]
    split
    · split
      · exact hc
      · next hno =>
        have hne : c ≠ k + 1 := by
          rintro rfl
          exact hno hyes
        exact ih (by omega)
    · next hdone =>
      show c ≤ r.commitIndex
      omega

/-! ## One leader -/

/-- The end of the log or the commit index, whichever is ahead. -/
def Node.reach (n : Node δ σ) : Nat := max n.mem.logStore.last n.mem.commitIndex

/-- A leader that has committed all it may, and counts nobody for more than it has. -/
structure Leading (C : Cluster) (i : NodeId) (n : Node δ σ) : Prop where
  counted : ∀ c, n.mem.committable i C.nodes c = true → c ≤ n.mem.commitIndex
  matched : ∀ p ∈ peersOf i C.nodes, n.mem.matchIndex p ≤ n.reach
  included : n.mem.lastIncludedIndex ≤ n.mem.commitIndex
  applied : C.snapshotThresholdLogs ≠ 0 → n.mem.lastApplied ≤ n.mem.commitIndex

/-- Such a leader, and it has at least the log and the commit index of an earlier state. -/
structure Upheld (C : Cluster) (i : NodeId) (n m : Node δ σ) : Prop extends Leading C i m where
  last : n.mem.logStore.last ≤ m.mem.logStore.last
  commit : n.mem.commitIndex ≤ m.mem.commitIndex

/-- Whoever leads in the end. -/
def Upholds (C : Cluster) (i : NodeId) (n m : Node δ σ) : Prop := m.mem.state = .leader → Upheld C i n m

theorem Leading.upheld (h : Leading C i n) : Upheld C i n n :=
  { h with last := Nat.le_refl _, commit := Nat.le_refl _ }

theorem Upheld.reach (h : Upheld C i n m) : n.reach ≤ m.reach := by
  have hlast := h.last
  have hcommit := h.commit
  simp only [Node.reach]
  omega

theorem stepDown_upholds {term : Int} (hlater : term > int64 m.mem.currentTerm) (leaderID : NodeId) :
    Meets ok (stepDown (uint64 term) leaderID) m (fun _ m' => Upholds C i n m') fun _ => True := by
  apply (stepDown_spec (Int.lt_toNat.mpr hlater) leaderID).imp _ fun _ _ => trivial
  exact fun _ m' hm hleads => RaftState.noConfusion (hm.2.2.1.symm.trans hleads)

/-! ## Storing -/

/-- **New entries have nobody counted for them**, where a majority is more than the leader. -/
theorem Upheld.stored (hsize : 2 ≤ C.nodes.length) (h : Upheld C i n m) {batch : List (LogEntry δ)}
    (hbeyond : ∀ e ∈ batch, m.mem.logStore.last < uint64 e.index) :
    Upheld C i n (m.withLog (m.mem.logStore.storeLoop batch).1) where
  counted := by
    intro c hyes
    obtain ⟨e, hget, hterm, hcount⟩ := committable_iff.mp hyes
    obtain ⟨hcompacted, hat⟩ := getLog_eq_ok.mp hget
    rcases get_storeLoop hat with hold | ⟨hmem, hindex⟩
    · apply h.counted
      refine committable_iff.mpr ⟨e, getLog_eq_ok.mpr ⟨?_, hold⟩, hterm, hcount⟩
      rw [← storeLoop_compactedUntil batch]
      exact hcompacted
    · by_contra hnot
      apply not_committable hsize _ hyes
      intro p hp
      have hlow := h.matched p hp
      have hhigh := hbeyond e hmem
      have hgap : m.mem.commitIndex < c := Nat.not_le.mp hnot
      show m.mem.matchIndex p < c
      simp only [Node.reach] at hlow
      omega
  matched := by
    intro p hp
    have hlow := h.matched p hp
    have hlast := storeLoop_last batch m.mem.logStore
    simp only [Node.reach, Node.withLog, Node.withMem] at hlow hlast ⊢
    omega
  included := h.included
  applied := h.applied
  last := Nat.le_trans h.last (storeLoop_last batch m.mem.logStore)
  commit := h.commit

theorem Attended.beyond (hn : Attended Made n) (hrole : n.mem.state = .leader) :
    ∀ e ∈ n.mem.pendingBatch, n.mem.logStore.last < uint64 e.index := fun e he => (hn.ahead hrole).index_ge e he

/-- The inputs that touch no match index and no commit index, and seek no office. -/
def Input.leavesCount : Input δ → Bool
  | .batchTick | .replicate _ _ | .cancel _ _ | .requestVote _ => true
  | _ => false

theorem Upholds.stroke {c : Charter δ σ} {m' : Node δ σ} (hsize : 2 ≤ C.nodes.length) (h : Upholds C i n m)
    (hn : Attended Made m) (hi : c.input.leavesCount = true) (hs : Stroke c m m') : Upholds C i n m' := by
  have hflags : c.input.commits = false ∧ c.input.snapshots = false ∧ c.input.answers = false ∧
      c.input.seeksOffice = false ∧ c.input.claim = none := by
    cases hinput : c.input <;> rw [hinput] at hi <;> first | exact ⟨rfl, rfl, rfl, rfl, rfl⟩ | cases hi
  obtain ⟨hcommits, hsnapshots, hanswers, hseeks, hclaim⟩ := hflags
  cases hs with
  | log _ hl =>
    cases hl with
    | refuse _ index err =>
      unfold Node.notify
      split
      · exact fun hleads => { h hleads with }
      · exact h
    | enqueue | take | putWal => exact fun hleads => { h hleads with }
    | flush _ hrole => exact fun hleads => { (h hleads).stored hsize (hn.beyond hrole) with }
    | skip hno | commit _ hno => cases hcommits.symm.trans hno
    | apply _ _ hno | answer _ _ _ hno => cases hcommits.symm.trans hno.input
    | follow _ _ hno => cases hclaim.symm.trans hno
    | store _ _ _ hno | cut _ _ _ hno =>
      rw [hno] at hi
      cases hi
    | trim _ _ hno | save _ hno | restore _ hno | adopt _ _ hno | publish _ _ _ _ hno =>
      cases hsnapshots.symm.trans hno
  | demote | fail => exact fun hleads => RaftState.noConfusion hleads
  | persist | vote | cancel => exact fun hleads => { h hleads with }
  | stand _ hno | campaign _ hno | lead _ _ hno => cases hseeks.symm.trans hno
  | setPeer _ _ _ hno => cases hanswers.symm.trans hno

/-! ## Replies -/

theorem ApplyEffects.upheld (h : Upheld C i n m) {m' : Node δ σ} (he : ApplyEffects m m') : Upheld C i n m' := by
  induction he with
  | refl => exact h
  | @tail a b _ hlast ih =>
    cases hlast with
    | notify index err =>
      unfold Node.notify
      split <;> exact { ih with }
    | machine => exact { ih with }
    | skip hbelow => exact { ih with applied := fun _ => hbelow }
    | apply entry hbelow => exact { ih with applied := fun _ => hbelow }

/-- **The search leaves nothing to commit**, whatever was counted before. -/
theorem advanceCommitIndex_upholds (M : Machine δ σ) (hsize : 2 ≤ C.nodes.length) (hkept : Kept m.mem.logStore)
    (hlast : n.mem.logStore.last ≤ m.mem.logStore.last) (hcommit : n.mem.commitIndex ≤ m.mem.commitIndex)
    (hmatched : ∀ p ∈ peersOf i C.nodes, m.mem.matchIndex p ≤ m.reach)
    (hincluded : m.mem.lastIncludedIndex ≤ m.mem.commitIndex)
    (happlied : C.snapshotThresholdLogs ≠ 0 → m.mem.lastApplied ≤ m.mem.commitIndex) :
    Meets ok (advanceCommitIndex (C.env i) M) m (fun _ m' => Upheld C i n m') fun _ => True := by
  have hmax : ∀ c, m.mem.committable i C.nodes c = true →
      c ≤ (m.mem.commitFrom (C.env i).id C.nodes m.mem.logStore.last).getD m.mem.commitIndex := by
    intro c hyes
    apply commitFrom_max hyes
    obtain ⟨e, hget, _⟩ := committable_iff.mp hyes
    exact hkept.top c e (getLog_eq_ok.mp hget).2
  obtain ⟨term, hend⟩ := lastIndexAndTerm_of_kept hkept
  apply meets_read_bind
  rw [hend]
  show Meets ok (if C.nodes = [] then _ else _) m _ _
  rw [if_neg (by rintro hnil; simp [hnil] at hsize)]
  cases hfound : m.mem.commitFrom (C.env i).id C.nodes m.mem.logStore.last with
  | none =>
    rw [hfound] at hmax
    exact meets_pure ⟨⟨hmax, hmatched, hincluded, happlied⟩, hlast, hcommit⟩
  | some c =>
    rw [hfound] at hmax
    have habove := commitFrom_above hfound
    have hset : Upheld C i n (m.withMem fun r => { r with commitIndex := c }) := by
      refine ⟨⟨hmax, fun p hp => ?_, ?_, fun hcompacts => ?_⟩, hlast, ?_⟩
      · have hlow := hmatched p hp
        simp only [Node.reach, Node.withMem] at hlow ⊢
        omega
      · exact hincluded.trans habove.le
      · exact (happlied hcompacts).trans habove.le
      · exact hcommit.trans habove.le
    apply meets_update_bind
    apply Meets.imp (applyLogs_applyEffects M) _ fun _ _ => trivial
    exact fun _ m' he => he.upheld hset

theorem Upheld.setNext (h : Upheld C i n m) (p : NodeId) (f : Replicator δ → Nat) :
    Upheld C i n (m.withMem fun r => r.setPeer p (r.matchIndex p) (f r)) := by
  have hsame : (m.mem.setPeer p (m.mem.matchIndex p) (f m.mem)).matchIndex = m.mem.matchIndex := by
    ext q
    show (if q = p then m.mem.matchIndex p else m.mem.matchIndex q) = _
    split
    · next hq => rw [hq]
    · rfl
  have hmem : m.mem.setPeer p (m.mem.matchIndex p) (f m.mem) =
      { m.mem with nextIndex := (m.mem.setPeer p (m.mem.matchIndex p) (f m.mem)).nextIndex } :=
    congrArg (fun matchIndex => { m.mem.setPeer p (m.mem.matchIndex p) (f m.mem) with matchIndex := matchIndex }) hsame
  rw [Node.withMem, hmem]
  exact { h with }

theorem handleAppendReply_upholds (M : Machine δ σ) (hsize : 2 ≤ C.nodes.length) (h : Leading C i n)
    (hkept : Kept n.mem.logStore) (w : AppendWork δ) (reply : AppendEntriesReply)
    (hwork : n.mem.currentTerm = w.term → w.newMatchIndex ≤ n.reach) :
    Meets ok (handleAppendReply (C.env i) M w reply) n (fun _ m => Upholds C i n m) fun _ => True := by
  have hstart : Upholds C i n n := fun _ => h.upheld
  apply meets_read_bind
  apply meets_ite
  · exact fun _ => meets_pure hstart
  intro hcurrent
  have hterm := not_not.mp (not_or.mp hcurrent).2
  apply meets_ite
  · exact fun hlater => meets_bind_pure (stepDown_upholds hlater "")
  intro _
  apply meets_ite
  · intro _
    apply meets_ite
    · intro _
      apply meets_update_bind
      have hmatched : ∀ p ∈ peersOf i C.nodes,
          (if p = w.node then w.newMatchIndex else n.mem.matchIndex p) ≤ n.reach := by
        intro p hp
        split
        · exact hwork hterm
        · exact h.matched p hp
      have hadvance : Meets ok (advanceCommitIndex (C.env i) M)
          (n.withMem (·.setPeer w.node w.newMatchIndex (succ64 w.newMatchIndex)))
          (fun _ m' => Upheld C i n m') fun _ => True :=
        advanceCommitIndex_upholds M hsize hkept (Nat.le_refl _) (Nat.le_refl _) hmatched h.included h.applied
      exact hadvance.weaken fun _ _ hm _ => hm
    · exact fun _ => meets_pure hstart
  intro _
  apply meets_ite
  · exact fun _ => meets_update fun _ => h.upheld.setNext w.node _
  intro _
  apply meets_ite
  · exact fun _ => meets_update fun _ => h.upheld.setNext w.node _
  · exact fun _ => meets_pure hstart

/-- **A peer that has the snapshot has nothing that is not committed.** -/
theorem Upheld.setSnapshot (h : Upheld C i n m) (p : NodeId) {idx : Nat} (next : Nat)
    (hidx : idx ≤ m.mem.commitIndex) : Upheld C i n (m.withMem (·.setPeer p idx next)) where
  counted := by
    intro c hyes
    by_contra hnot
    have hgap : m.mem.commitIndex < c := Nat.not_le.mp hnot
    apply hnot
    apply h.counted
    obtain ⟨e, hget, hterm, hcount⟩ := committable_iff.mp hyes
    refine committable_iff.mpr ⟨e, hget, hterm, Nat.lt_of_lt_of_le hcount ?_⟩
    -- beyond the commit index the peer is not counted any more, and the others as before
    apply Nat.add_le_add_left
    apply List.Sublist.length_le
    apply List.monotone_filter_right
    intro q hq
    have hq' : c ≤ if q = p then idx else m.mem.matchIndex q := of_decide_eq_true hq
    split at hq'
    · omega
    · exact decide_eq_true hq'
  matched := by
    intro q hq
    show (if q = p then idx else m.mem.matchIndex q) ≤ m.reach
    split
    · exact Nat.le_trans hidx (Nat.le_max_right _ _)
    · exact h.matched q hq
  included := h.included
  applied := h.applied
  last := h.last
  commit := h.commit

theorem handleSnapshotReply_upholds (h : Leading C i n) (w : SnapshotWork) (reply : InstallSnapshotReply)
    (hidx : n.mem.state = .leader → n.mem.currentTerm = w.term → uint64 w.req.lastIncludedIndex ≤ n.mem.commitIndex) :
    Meets ok (handleSnapshotReply w reply) n (fun _ m => Upholds C i n m) fun _ => True := by
  have hstart : Upholds C i n n := fun _ => h.upheld
  apply meets_read_bind
  apply meets_ite
  · exact fun _ => meets_pure hstart
  intro hcurrent
  obtain ⟨hrole, hterm⟩ := not_or.mp hcurrent
  apply meets_ite
  · exact fun hlater => meets_bind_pure (stepDown_upholds hlater "")
  intro _
  apply meets_ite
  · exact fun _ => meets_update fun _ => h.upheld.setSnapshot w.node _ (hidx (not_not.mp hrole) (not_not.mp hterm))
  · exact fun _ => meets_pure hstart

/-! ## Compaction -/

theorem Upheld.compacted (h : Upheld C i n m) (hkept : Kept m.mem.logStore) {k : Nat} {s : FileLogStore δ}
    (hs : m.mem.logStore.deleteRange 0 (some k) = some s) : Upheld C i n (m.withLog s) := by
  obtain ⟨hlogs, hlast, huntil⟩ := deleteRange_prefix hkept hs
  have hreach : (m.withLog s).reach = m.reach := congrArg (max · m.mem.commitIndex) hlast
  refine { h with counted := fun c hyes => ?_, matched := fun p hp => ?_, last := hlast ▸ h.last }
  · apply h.counted
    obtain ⟨e, hget, hterm, hcount⟩ := committable_iff.mp hyes
    obtain ⟨hbelow, hat⟩ := getLog_eq_ok.mp hget
    refine committable_iff.mpr ⟨e, getLog_eq_ok.mpr ⟨?_, hlogs ▸ hat⟩, hterm, hcount⟩
    have hbelow' : s.compactedUntil < c := hbelow
    omega
  · rw [hreach]
    exact h.matched p hp

/-- A node in the middle of a compaction. -/
structure Compacting (C : Cluster) (i : NodeId) (n m : Node δ σ) : Prop where
  kept : Kept m.mem.logStore
  upheld : Upheld C i n m
  commit : m.mem.commitIndex = n.mem.commitIndex

theorem retainLog_compacting (h : Compacting C i n m) (k : Nat) : Stays ok (Compacting C i n) (retainLog k) m := by
  apply stays_bind
  · cases hd : m.mem.logStore.deleteRange 0 (some k) with
    | none => exact meets_quiet (by rw [hd]) (stays_pure h)
    | some s =>
      have hdeleted : Compacting C i n (m.withLog s) :=
        ⟨h.kept.deleteRange hd, h.upheld.compacted h.kept hd, h.commit⟩
      apply stays_step
      · rw [hd]
        exact hdeleted
      · rw [hd]
        intro commit hc
        cases hc
        exact ⟨hdeleted.kept, { hdeleted.upheld with }, h.commit⟩
      · exact fun _ _ hm => stays_pure hm
  · intro err m' hm'
    cases err <;> exact stays_pure hm'

theorem checkCompaction_upholds (M : Machine δ σ) (h : Leading C i n) (hkept : Kept n.mem.logStore) :
    Stays ok (Compacting C i n) (checkCompaction (C.env i) M) n := by
  have hn : Compacting C i n n := ⟨hkept, h.upheld, rfl⟩
  apply meets_read_bind
  cases hchoose : n.mem.chooseSnapshot (C.env i).snapshotThresholdLogs with
  | none => exact stays_pure hn
  | some label =>
    apply stays_bind
    · apply meets_read_bind
      cases M.serializeSnapshot n.disk.machine with
      | none => exact stays_pure hn
      | some data =>
        apply stays_bind (stays_write hn ⟨hkept, { h.upheld with }, rfl⟩)
        exact fun _ m hm => meets_ite (fun _ => retainLog_compacting hm _) fun _ => stays_pure hm
    · intro _ m hm
      apply meets_ite
      · intro _
        apply stays_update
        simp only [Node.withMem, Replicator.publish]
        split
        · refine ⟨hm.kept, { hm.upheld with included := ?_ }, hm.commit⟩
          show label.1 ≤ m.mem.commitIndex
          rw [(chooseSnapshot_some hchoose).2.1, hm.commit]
          refine h.applied fun hzero => ?_
          simp [Replicator.chooseSnapshot, Cluster.env, hzero] at hchoose
        · exact hm
      · exact fun _ => stays_pure hm

/-! ## Elections -/

/-- Among several, standing for election makes nobody leader. -/
theorem startElection_stands (hsize : 2 ≤ C.nodes.length) :
    Meets ok (startElection (C.env i)) n (fun _ m => m.mem.state ≠ .leader ∧
      (m.mem.state = .candidate → m.mem.currentTerm = n.mem.currentTerm + 1)) fun _ => True := by
  have hwrite : ∀ m : Node δ σ, m.mem.state = .candidate → m.mem.currentTerm = n.mem.currentTerm + 1 →
      Meets ok persistStable m (fun _ m' => m'.mem.state = .candidate ∧
        m'.mem.currentTerm = n.mem.currentTerm + 1) fun _ => True := by
    intro m hrole hterm
    exact meets_write ⟨hrole, hterm⟩ (fun _ => ⟨hrole, hterm⟩) (fun _ => ⟨hrole, hterm⟩) (fun _ => trivial)
      fun _ => trivial
  apply meets_update_bind
  apply meets_read_bind
  apply meets_bind
  apply (hwrite _ rfl rfl).weaken
  rintro wrote m ⟨hrole, hterm⟩
  apply meets_ite
  · intro _
    show Meets ok (if C.nodes.length = 1 then _ else _) m _ _
    rw [if_neg (by omega)]
    apply meets_update_bind
    apply meets_pure
    exact ⟨fun hleads => (nomatch hrole.symm.trans hleads), fun _ => hterm⟩
  · intro _
    apply meets_bind
    apply meets_update_bind
    exact meets_pure (meets_pure ⟨nofun, nofun⟩)

theorem leading_lead (hsize : 2 ≤ C.nodes.length) (hincluded : n.mem.lastIncludedIndex ≤ n.mem.commitIndex)
    (happlied : C.snapshotThresholdLogs ≠ 0 → n.mem.lastApplied ≤ n.mem.commitIndex) :
    Leading C i ((n.withMem fun r => { r.lead i C.nodes with pendingBatch := [] }).emit
      (.becameLeader n.mem.currentTerm)) := by
  have hpeers : ∀ p ∈ peersOf i C.nodes, (n.mem.lead i C.nodes).matchIndex p = n.mem.lastIncludedIndex := by
    intro p hp
    simp only [peersOf, List.mem_filter, decide_eq_true_eq] at hp
    simp only [Replicator.lead, if_neg hp.2, if_pos hp.1]
  refine ⟨fun c hyes => ?_, fun p hp => ?_, hincluded, happlied⟩
  · by_contra hnot
    apply not_committable hsize _ hyes
    intro p hp
    show (n.mem.lead i C.nodes).matchIndex p < c
    rw [hpeers p hp]
    exact Nat.lt_of_le_of_lt hincluded (Nat.not_le.mp hnot)
  · show (n.mem.lead i C.nodes).matchIndex p ≤ _
    rw [hpeers p hp]
    exact Nat.le_trans hincluded (Nat.le_max_right _ _)

/-- What a vote leaves: a node that has not won by it, or a new leader of the term it stood for. -/
structure Crowned (C : Cluster) (i : NodeId) (n m : Node δ σ) : Prop where
  stood : n.mem.state = .candidate
  term : m.mem.currentTerm = n.mem.currentTerm
  won : m.won = n.won ++ [n.mem.currentTerm]
  role : m.mem.state = .leader
  leading : Leading C i m

theorem handleVoteReply_crowns (hsize : 2 ≤ C.nodes.length) (hn : Attended Made n) (hstart : Upholds C i n n)
    (hready : n.mem.state = .candidate → n.mem.lastIncludedIndex ≤ n.mem.commitIndex ∧
      (C.snapshotThresholdLogs ≠ 0 → n.mem.lastApplied ≤ n.mem.commitIndex))
    (peer : NodeId) (savedTerm : Nat) (reply : RequestVoteReply) :
    Meets ok (handleVoteReply (C.env i) peer savedTerm reply) n
      (fun _ m => Upholds C i n m ∧ Seated n m ∧ m.won = n.won ∨ Crowned C i n m) fun _ => True := by
  have hkeep : ∀ el : Election, Upholds C i n (n.withMem fun r => { r with election := some el }) ∧
      Seated n (n.withMem fun r => { r with election := some el }) ∧
      (n.withMem fun r => { r with election := some el }).won = n.won :=
    fun el => ⟨fun hleads => { hstart hleads with }, fun _ => ⟨rfl, rfl⟩, rfl⟩
  apply meets_read_bind
  split
  · exact meets_pure (.inl ⟨hstart, fun _ => ⟨rfl, rfl⟩, rfl⟩)
  next el _ =>
  apply meets_ite
  · exact fun _ => meets_pure (.inl ⟨hstart, fun _ => ⟨rfl, rfl⟩, rfl⟩)
  intro _
  apply meets_update_bind
  apply meets_ite
  · exact fun _ => meets_pure (.inl (hkeep _))
  intro hcurrent
  apply meets_ite
  · intro hlater
    apply meets_bind
    apply Meets.imp (stepDown_spec (n := n.withMem _) (Int.lt_toNat.mpr hlater) "") _ fun _ _ => trivial
    rintro _ m ⟨hmoves, -, hfollows, -⟩
    have hno : m.mem.state ≠ .leader := hfollows ▸ nofun
    exact meets_pure (.inl ⟨(absurd · hno), (absurd hfollows ·), hmoves.won.trans (hkeep _).2.2⟩)
  intro _
  apply meets_ite
  · intro _
    apply meets_update_bind
    apply meets_ite
    · intro _
      have hcandidate := not_not.mp (not_or.mp hcurrent).1
      obtain ⟨hincluded, happlied⟩ := hready hcandidate
      have hbatch := (hn.idle (hcandidate ▸ nofun)).1
      apply meets_read_bind
      apply meets_update_bind
      show Meets ok (storeBatch n.mem.pendingBatch) _ _ _
      rw [hbatch]
      apply meets_pure
      refine .inr ⟨hcandidate, rfl, ?_, rfl, leading_lead hsize hincluded happlied⟩
      simp [Node.won, Node.emit, Node.withMem, List.filterMap_append]
    · exact fun _ => meets_pure (.inl (hkeep _))
  · exact fun _ => meets_pure (.inl (hkeep _))

/-! ## One critical section -/

/-- Terms once won stay in the record. -/
theorem program_won (env : Env) (M : Machine δ σ) (input : Input δ) :
    Within ok (fun n n' => n.won ⊆ n'.won) (program env M input) n := by
  have hcampaign : ∀ {requests : List (NodeId × RequestVoteArgs)} {m : Node δ σ},
      Campaigned env n requests m → n.won ⊆ m.won := by
    intro requests m h
    rcases h.won with heq | ⟨heq, -⟩ <;> rw [heq]
    · exact List.Subset.refl _
    · exact List.subset_append_left _ _
  by_cases hi : input.routine
  · exact (program_moves env M hi).mono fun m hm => hm.won ▸ List.Subset.refl _
  · cases input with
    | electionTimeout =>
      apply (electionTick_spec env).imp _ fun m hm => hcampaign hm
      rintro out m (⟨-, rfl⟩ | ⟨requests, -, hm⟩)
      · exact List.Subset.refl _
      · exact hcampaign hm
    | voteReply peer savedTerm reply =>
      have hcounted : ∀ {m : Node δ σ}, Counted peer savedTerm reply n m → n.won ⊆ m.won := by
        intro m h
        cases h with
        | ignored h => exact h.won ▸ List.Subset.refl _
        | taken el _ _ heq => exact heq ▸ List.Subset.refl _
        | granted el _ _ _ _ _ _ hw =>
          rcases hw with heq | ⟨-, heq⟩ <;> rw [heq]
          · exact List.Subset.refl _
          · exact List.subset_append_left _ _
      apply meets_bind
      apply Meets.imp (handleVoteReply_spec env peer savedTerm reply) _ fun m hm => hcounted hm
      exact fun _ m hm => meets_pure (hcounted hm)
    | _ => exact absurd trivial hi

/-- A leader has won its term and has committed all it may; a candidate has not won its term yet. -/
structure Sworn (C : Cluster) (i : NodeId) (n : Node δ σ) : Prop where
  office : n.mem.state = .leader → n.mem.currentTerm ∈ n.won ∧ Leading C i n
  stands : n.mem.state = .candidate → n.mem.currentTerm ∉ n.won

/-- What a critical section leaves. Whoever leads in the end a term that had been won before has led it all
along, and has lost nothing. -/
structure Outcome (C : Cluster) (i : NodeId) (n m : Node δ σ) : Prop extends Sworn C i m where
  keeps : m.mem.state = .leader → m.mem.currentTerm ∈ n.won →
    n.mem.state = .leader ∧ n.mem.currentTerm = m.mem.currentTerm ∧ n.reach ≤ m.reach

theorem Sworn.routine (h : Sworn C i n) (hu : Upholds C i n m) (hseat : Seated n m) (hwon : m.won = n.won) :
    Outcome C i n m where
  office := by
    intro hleads
    obtain ⟨hrole, hterm⟩ := hseat (hleads ▸ nofun)
    rw [hterm, hwon]
    exact ⟨(h.office (hrole ▸ hleads)).1, (hu hleads).toLeading⟩
  stands := by
    intro hstands
    obtain ⟨hrole, hterm⟩ := hseat (hstands ▸ nofun)
    rw [hterm, hwon]
    exact h.stands (hrole ▸ hstands)
  keeps := by
    intro hleads _
    obtain ⟨hrole, hterm⟩ := hseat (hleads ▸ nofun)
    exact ⟨hrole ▸ hleads, hterm.symm, (hu hleads).reach⟩

theorem Sworn.refl (h : Sworn C i n) : Outcome C i n n :=
  h.routine (fun hleads => (h.office hleads).2.upheld) (fun _ => ⟨rfl, rfl⟩) rfl

theorem Sworn.crowned (h : Sworn C i n) (hc : Crowned C i n m) : Outcome C i n m where
  office := by
    intro _
    rw [hc.term, hc.won]
    exact ⟨List.mem_append_right _ List.mem_cons_self, hc.leading⟩
  stands := fun hstands => nomatch hc.role.symm.trans hstands
  keeps := fun _ hold => absurd (hc.term ▸ hold) (h.stands hc.stood)

/-- What an input may not bring to a node: a request of its own term to a leader, the reply to a work that
reaches beyond its log, and an election or a snapshot ahead of its commit index. -/
def Input.Sound (n : Node δ σ) : Input δ → Prop
  | .appendEntries req => n.mem.state = .leader → req.term ≠ int64 n.mem.currentTerm
  | .installSnapshot req => n.mem.state = .leader → req.term ≠ int64 n.mem.currentTerm
  | .voteReply _ _ _ => n.mem.state = .candidate →
      n.mem.lastIncludedIndex ≤ n.mem.commitIndex ∧ n.mem.lastApplied ≤ n.mem.commitIndex
  | .appendReply w _ => n.mem.state = .leader → n.mem.currentTerm = w.term → w.newMatchIndex ≤ n.reach
  | .snapshotReply w _ => n.mem.state = .leader → n.mem.currentTerm = w.term →
      uint64 w.req.lastIncludedIndex ≤ n.mem.commitIndex
  | _ => True

/-- The same of a cluster, where what has been applied plays no part without compaction. -/
def Input.SoundIn (C : Cluster) (n : Node δ σ) : Input δ → Prop
  | .voteReply _ _ _ => n.mem.state = .candidate → n.mem.lastIncludedIndex ≤ n.mem.commitIndex ∧
      (C.snapshotThresholdLogs ≠ 0 → n.mem.lastApplied ≤ n.mem.commitIndex)
  | input => input.Sound n

variable {input : Input δ}

theorem Input.SoundIn.foreign (h : input.SoundIn C n) : input.Foreign n := by
  cases input with
  | appendEntries req => exact h
  | installSnapshot req => exact h
  | _ => trivial

theorem program_seated (env : Env) (M : Machine δ σ) (hi : input.seeksOffice = false) :
    Meets ok (program env M input) n (fun _ m => Seated n m) fun _ => True :=
  (program_strokes env (.plain M input) n (fun _ _ _ _ _ _ _ => trivial) fun _ _ _ => trivial).seated hi

theorem program_upholds_kept (M : Machine δ σ) (hsize : 2 ≤ C.nodes.length) (h : Leading C i n)
    (hn : Candid M (fun _ _ => True) (fun _ => True) n) (hi : input.leavesCount = true) :
    Meets ok (program (C.env i) M input) n (fun _ m => Upholds C i n m) fun _ => True := by
  have hclaim : input.claim = none := by
    cases input <;> first | rfl | cases hi
  have hstrokes : Stroking ok ⟨input, M, fun _ => True, fun _ _ => True, False⟩ n (program (C.env i) M input) n
      fun _ _ => True := by
    apply program_strokes (C.env i) ⟨input, M, fun _ => True, fun _ _ => True, False⟩ n
    · exact fun _ _ _ _ _ _ _ => trivial
    · exact fun leaderID hclaims => nomatch hclaim.symm.trans hclaims
  have hkeeps : ∀ m, Strokes ⟨input, M, fun _ => True, fun _ _ => True, False⟩ n m → Upholds C i n m := by
    intro m hm
    have hboth := hm.keeps (I := fun m => Candid M (fun _ _ => True) (fun _ => True) m ∧ Upholds C i n m)
      ⟨hn, fun _ => h.upheld⟩ fun a b hab hs =>
        ⟨hab.1.stroke (fun _ _ _ => trivial) id hs, hab.2.stroke hsize hab.1.toAttended hi hs⟩
    exact hboth.2
  exact (hstrokes.meets (fun _ => trivial) .refl).imp (fun _ m hm => hkeeps m hm.1) fun _ _ => trivial

theorem program_upholds (M : Machine δ σ) (hsize : 2 ≤ C.nodes.length) (h : Leading C i n)
    (hn : Candid M (fun _ _ => True) (fun _ => True) n) (hi : input.seeksOffice = false)
    (hsound : input.SoundIn C n) (hrole : n.mem.state = .leader) :
    Meets ok (program (C.env i) M input) n (fun _ m => Upholds C i n m) fun _ => True := by
  cases input with
  | electionTimeout | voteReply => cases hi
  | batchTick | replicate | cancel | requestVote => exact program_upholds_kept M hsize h hn rfl
  | appendEntries req =>
    apply meets_bind_pure
    apply (handleAppendEntries_rests M req hsound).weaken
    exact fun _ m hm hleads => hm hleads ▸ h.upheld
  | installSnapshot req =>
    apply meets_bind_pure
    apply (handleInstallSnapshot_rests M req hsound).weaken
    exact fun _ m hm hleads => hm hleads ▸ h.upheld
  | appendReply w reply =>
    exact meets_bind_pure (handleAppendReply_upholds M hsize h hn.kept w reply (hsound hrole))
  | snapshotReply w reply => exact meets_bind_pure (handleSnapshotReply_upholds h w reply hsound)
  | checkCompaction =>
    apply meets_bind_pure
    exact Meets.imp (checkCompaction_upholds M h hn.kept) (fun _ _ hm _ => hm.upheld) fun _ _ => trivial

/-- **Every critical section leaves a leader that has committed all it may.** -/
theorem program_outcome (M : Machine δ σ) (hsize : 2 ≤ C.nodes.length) (h : Sworn C i n)
    (hn : Candid M (fun _ _ => True) (fun _ => True) n) (hwon : ∀ t ∈ n.won, t ≤ n.mem.currentTerm)
    (hsound : input.SoundIn C n) :
    Meets ok (program (C.env i) M input) n (fun _ m => Outcome C i n m) fun _ => True := by
  by_cases hi : input.seeksOffice = true
  · cases input with
    | electionTimeout =>
      apply meets_read_bind
      apply meets_ite
      · exact fun _ => meets_pure h.refl
      intro _
      apply meets_bind
      apply Meets.imp (Meets.and (startElection_stands hsize) (startElection_spec (C.env i))) _ fun _ _ => trivial
      rintro requests m ⟨⟨hno, hterm⟩, hcampaign⟩
      have hsame : m.won = n.won := by
        rcases hcampaign.won with heq | ⟨-, -, nodes, hnodes, hone⟩
        · exact heq
        · cases hnodes
          omega
      apply meets_pure
      refine ⟨⟨fun hleads => absurd hleads hno, fun hstands hmem => ?_⟩, fun hleads => absurd hleads hno⟩
      rw [hterm hstands, hsame] at hmem
      have := hwon _ hmem
      omega
    | voteReply peer savedTerm reply =>
      apply meets_bind_pure
      have hstart : Upholds C i n n := fun hleads => (h.office hleads).2.upheld
      apply (handleVoteReply_crowns hsize hn.toAttended hstart hsound peer savedTerm reply).weaken
      rintro _ m (⟨hupholds, hseat, hsame⟩ | hcrowned)
      · exact h.routine hupholds hseat hsame
      · exact h.crowned hcrowned
    | _ => cases hi
  · have hno : input.seeksOffice = false := Bool.eq_false_iff.mpr hi
    have hroutine : input.routine := by
      cases input <;> trivial
    have hmoves : Within ok Moves (program (C.env i) M input) n := program_moves (C.env i) M hroutine
    have hseated : Meets ok (program (C.env i) M input) n (fun _ m => Seated n m) fun _ => True :=
      program_seated (C.env i) M hno
    have hupholds : Meets ok (program (C.env i) M input) n (fun _ m => Upholds C i n m) fun _ => True := by
      by_cases hrole : n.mem.state = .leader
      · exact program_upholds M hsize (h.office hrole).2 hn hno hsound hrole
      · exact hseated.weaken fun _ m hm hleads => absurd hleads (hm.not_leader hrole)
    apply Meets.imp ((hupholds.and hseated).and hmoves) _ fun _ _ => trivial
    exact fun _ m hm => h.routine hm.1.1 hm.1.2 hm.2.won

/-! ## Works -/

/-- A work reaches no further than what its leader has, if the entry before it does not. -/
theorem appendWork_reach (hkept : Kept n.mem.logStore) {peer : NodeId} {next : Nat} {term : Int}
    {work : AppendWork δ} (hwork : n.mem.appendWork peer next term = .append work) (hprev : next - 1 ≤ n.reach) :
    work.newMatchIndex ≤ n.reach := by
  cases hwork
  unfold AppendWork.newMatchIndex
  split
  · next e he =>
    obtain ⟨k, hk⟩ := getLog_of_mem_slice (List.mem_of_getLast? he)
    have hat := (getLog_eq_ok.mp hk).2
    rw [hkept.keyed k e hat]
    exact Nat.le_trans (hkept.top k e hat) (Nat.le_max_left _ _)
  · exact hprev

/-- What a leader sends to a peer. -/
theorem workFor_cases (hkept : Kept n.mem.logStore) (h : Leading C i n) {peer : NodeId} {work : Work δ}
    (hwork : n.workFor i peer = some work) : work = n.snapshotWork i peer ∨ ∃ next term work', work = .append work' ∧
      n.mem.appendWork peer next term = .append work' ∧ work'.newMatchIndex ≤ n.reach := by
  have happend : ∀ next term, next - 1 ≤ n.reach → some (n.mem.appendWork peer next term) = some work →
      ∃ next term work', work = .append work' ∧ n.mem.appendWork peer next term = .append work' ∧
        work'.newMatchIndex ≤ n.reach := by
    intro next term hprev heq
    cases heq
    exact ⟨next, term, _, rfl, rfl, appendWork_reach hkept rfl hprev⟩
  unfold Node.workFor at hwork
  dsimp only at hwork
  split at hwork
  · split at hwork
    · cases hwork
    · exact .inl (Option.some.inj hwork).symm
  split at hwork
  · next hat =>
    refine .inr (happend _ _ ?_ hwork)
    rw [hat]
    exact Nat.le_trans h.included (Nat.le_max_right _ _)
  split at hwork
  · split at hwork
    · next e he =>
      refine .inr (happend _ _ ?_ hwork)
      exact Nat.le_trans (hkept.top _ e (getLog_eq_ok.mp he).2) (Nat.le_max_left _ _)
    · split at hwork
      · exact .inl (Option.some.inj hwork).symm
      · cases hwork
  · next hzero =>
    refine .inr (happend _ _ ?_ hwork)
    exact Nat.le_trans (Nat.not_lt.mp hzero) (Nat.zero_le _)

/-! ## Runs -/

variable {M : Machine δ σ} {w w' : World δ σ}

/-- A work of a node: for another one, in a term the node has won, and with no more than the node has while it
leads that term. -/
structure Worked (w : World δ σ) (src : NodeId) (work : AppendWork δ) : Prop where
  won : work.term ∈ (w.node src).won
  other : work.node ≠ src
  within : (w.host src).up = true → (w.node src).mem.state = .leader →
    (w.node src).mem.currentTerm = work.term → work.newMatchIndex ≤ (w.node src).reach

/-- What is behind a packet. -/
def Packet.Backed (w : World δ σ) : Packet δ → Prop
  | .append src work => Worked w src work
  | .appendReply dst work _ => Worked w dst work
  | .snapshot src work => work.term ∈ (w.node src).won ∧ work.node ≠ src ∧ work.req.term = int64 work.term
  | _ => True

/-- A cluster in which terms have one leader each, and each of them has committed all it may. -/
structure Governed (C : Cluster) (M : Machine δ σ) (w : World δ σ) : Prop where
  fair : Fair C w
  candid : ∀ i, Candid M (fun _ _ => True) (fun _ => True) (w.node i)
  sworn : ∀ i, (w.host i).up = true → Sworn C i (w.node i)
  backed : ∀ p ∈ w.net, p.Backed w

variable {id : NodeId}

theorem Worked.set {src : NodeId} {work : AppendWork δ} (h : Worked w src work) {up : Bool}
    (hwon : (w.node id).won ⊆ n.won)
    (hkeeps : up = true → n.mem.state = .leader → n.mem.currentTerm ∈ (w.node id).won →
      (w.host id).up = true ∧ (w.node id).mem.state = .leader ∧
        (w.node id).mem.currentTerm = n.mem.currentTerm ∧ (w.node id).reach ≤ n.reach) :
    Worked (w.set id ⟨n, up⟩) src work := by
  by_cases hsrc : src = id
  · subst hsrc
    have hnode : (w.set src ⟨n, up⟩).node src = n := by simp
    refine ⟨by rw [hnode]; exact hwon h.won, h.other, ?_⟩
    rw [hnode]
    intro hup hleads hterm
    have hup' : up = true := by simpa [World.set] using hup
    obtain ⟨hold, hrole, hsame, hreach⟩ := hkeeps hup' hleads (hterm ▸ h.won)
    exact Nat.le_trans (h.within hold hrole (hsame.trans hterm)) hreach
  · have hnode : (w.set id ⟨n, up⟩).node src = w.node src := by simp [hsrc]
    have hhost : (w.set id ⟨n, up⟩).host src = w.host src := by simp [World.set, hsrc]
    exact ⟨hnode ▸ h.won, h.other, by rw [hnode, hhost]; exact h.within⟩

theorem Packet.Backed.set {p : Packet δ} (h : p.Backed w) {up : Bool} (hwon : (w.node id).won ⊆ n.won)
    (hkeeps : up = true → n.mem.state = .leader → n.mem.currentTerm ∈ (w.node id).won →
      (w.host id).up = true ∧ (w.node id).mem.state = .leader ∧
        (w.node id).mem.currentTerm = n.mem.currentTerm ∧ (w.node id).reach ≤ n.reach) :
    p.Backed (w.set id ⟨n, up⟩) := by
  cases p with
  | append src work => exact Worked.set h hwon hkeeps
  | appendReply dst work reply => exact Worked.set h hwon hkeeps
  | snapshot src work =>
    refine ⟨?_, h.2⟩
    by_cases hsrc : src = id
    · subst hsrc
      simpa using hwon h.1
    · simpa [hsrc] using h.1
  | _ => trivial

theorem Packet.Backed.send {p : Packet δ} (h : p.Backed w) (packets : List (Packet δ)) :
    p.Backed (w.send packets) := by
  cases p with
  | append src work => exact ⟨h.won, h.other, h.within⟩
  | appendReply dst work reply => exact ⟨h.won, h.other, h.within⟩
  | snapshot src work => exact h
  | _ => trivial

theorem Governed.set (h : Governed C M w) {up : Bool} {packets : List (Packet δ)}
    (hfair : Fair C ((w.set id ⟨n, up⟩).send packets)) (hcandid : Candid M (fun _ _ => True) (fun _ => True) n)
    (hsworn : up = true → Sworn C id n) (hwon : (w.node id).won ⊆ n.won)
    (hkeeps : up = true → n.mem.state = .leader → n.mem.currentTerm ∈ (w.node id).won →
      (w.host id).up = true ∧ (w.node id).mem.state = .leader ∧
        (w.node id).mem.currentTerm = n.mem.currentTerm ∧ (w.node id).reach ≤ n.reach)
    (hpackets : ∀ p ∈ packets, p.Backed w) : Governed C M ((w.set id ⟨n, up⟩).send packets) where
  fair := hfair
  candid := by
    intro j
    by_cases hj : j = id
    · simpa [hj] using hcandid
    · simpa [hj] using h.candid j
  sworn := by
    intro j hup
    by_cases hj : j = id
    · subst hj
      simpa using hsworn (by simpa [World.set, World.send] using hup)
    · simpa [hj] using h.sworn j (by simpa [World.set, World.send, hj] using hup)
  backed := by
    intro p hp
    have hbacked : p.Backed w := by
      rcases List.mem_append.mp hp with hold | hnew
      · exact h.backed p hold
      · exact hpackets p hnew
    exact (hbacked.set hwon hkeeps).send packets

theorem Governed.act (h : Governed C M w) (hsize : 2 ≤ C.nodes.length)
    (hsound : (w.host id).up = true → input.SoundIn C (w.node id)) {fates : List Fate}
    {reply : Output → List (Packet δ)} (hreply : ∀ out, ∀ p ∈ reply out, p.Backed w) (hfair : Fair C w')
    (hs : w.act C M id input fates reply = some w') : Governed C M w' := by
  have hsection : id ∈ C.ids → (w.host id).up = true → Meets (fun _ => True) (program (C.env id) M input) (w.node id)
        (fun _ m => (Candid M (fun _ _ => True) (fun _ => True) m ∧ Outcome C id (w.node id) m) ∧
          (w.node id).won ⊆ m.won)
        (fun m => Candid M (fun _ _ => True) (fun _ => True) m ∧ (w.node id).won ⊆ m.won) := by
    intro _ hup
    have hn := h.candid id
    have hbelow : ∀ t ∈ (w.node id).won, t ≤ (w.node id).mem.currentTerm := fun t ht =>
      Nat.le_trans (h.fair.stands id t (.inl ht)).1.term_le (h.fair.ahead id).term_le
    have hcandid : Watched (fun _ => True) (fun _ => True) (Candid M (fun _ _ => True) (fun _ => True))
        (program (C.env id) M input) (w.node id) fun _ _ => True :=
      program_candid (C.env id) M hn (hsound hup).foreign fun _ _ _ => trivial
    have hmeets := ((hcandid.meets (fun _ => trivial) hn).and
      (program_outcome M hsize (h.sworn id hup) hn hbelow (hsound hup))).and
      (program_won (C.env id) M input)
    exact hmeets.imp (fun _ m hm => ⟨⟨hm.1.1.1, hm.1.2⟩, hm.2⟩) fun m hm => ⟨hm.1.1, hm.2⟩
  have hup : (w.host id).up = true := by
    unfold World.act at hs
    split at hs
    · next hhere => exact hhere.2
    · cases hs
  revert hfair
  apply World.act_cases (fun _ => True) (fun _ _ => trivial) hs hsection
  · rintro out m ⟨⟨hcandid, houtcome⟩, hwon⟩ hfair
    apply h.set hfair hcandid (fun _ => houtcome.toSworn) hwon _ (hreply out)
    intro _ hleads hold
    exact ⟨hup, houtcome.keeps hleads hold⟩
  · rintro m ⟨hcandid, hwon⟩ hfair
    rw [← World.send_nil (w.set id ⟨m, false⟩)] at hfair ⊢
    exact h.set hfair hcandid nofun hwon nofun nofun

/-- A vote reaches a candidate whose commit index is not behind its snapshot and what it has applied, and a
leader hears of no snapshot ahead of its commit index. -/
def Action.Measured (w : World δ σ) : Action δ → Prop
  | .deliver k _ =>
    match w.net[k]? with
    | some (.voteReply src dst savedTerm reply) =>
      (Input.voteReply src savedTerm reply : Input δ).Sound (w.node dst)
    | some (.snapshotReply dst work reply) => (Input.snapshotReply work reply : Input δ).Sound (w.node dst)
    | _ => True
  | _ => True

/-- The same of a packet, if its receiver is up. -/
def Packet.Measured (C : Cluster) (w : World δ σ) : Packet δ → Prop
  | .voteReply src dst savedTerm reply => (w.host dst).up = true →
      (Input.voteReply src savedTerm reply : Input δ).SoundIn C (w.node dst)
  | .snapshotReply dst work reply => (w.host dst).up = true →
      (Input.snapshotReply work reply : Input δ).SoundIn C (w.node dst)
  | _ => True

theorem Action.Measured.packet {k : Nat} {fates : List Fate} {packet : Packet δ} (hk : w.net[k]? = some packet)
    (h : (Action.deliver k fates : Action δ).Measured w) : packet.Measured C w := by
  simp only [Action.Measured, hk] at h
  cases packet with
  | voteReply => exact fun _ hrole => ⟨(h hrole).1, fun _ => (h hrole).2⟩
  | snapshotReply => exact fun _ => h
  | _ => trivial

/-- Nobody but its leader sends requests of a term. -/
theorem Governed.foreign (h : Governed C M w) {src dst : NodeId} {term : Nat} {reqTerm : Int}
    (hterm : reqTerm = int64 term) (hwon : term ∈ (w.node src).won) (hother : dst ≠ src)
    (hup : (w.host dst).up = true) (hleads : (w.node dst).mem.state = .leader) :
    reqTerm ≠ int64 (w.node dst).mem.currentTerm := by
  intro heq
  have hsame : term = (w.node dst).mem.currentTerm := by
    have := hterm.symm.trans heq
    simp only [int64] at this
    omega
  have hmine := ((h.sworn dst hup).office hleads).1
  exact hother (h.fair.one_leader hmine (hsame ▸ hwon))

theorem Governed.handle (h : Governed C M w) (hsize : 2 ≤ C.nodes.length) {packet : Packet δ}
    (hmem : packet ∈ w.net) {fates : List Fate} (hmeasured : packet.Measured C w)
    (hfair : Fair C w') (hs : w.handle C M fates packet = some w') : Governed C M w' := by
  have hbacked := h.backed packet hmem
  have hnone : ∀ _ : Output, ∀ p ∈ ([] : List (Packet δ)), p.Backed w := fun _ _ hp => nomatch hp
  cases packet with
  | voteRequest src dst savedTerm req =>
    refine h.act hsize ?_ ?_ hfair hs
    · exact fun _ => trivial
    intro out p hp
    split at hp
    · cases List.mem_singleton.mp hp
      trivial
    · cases hp
  | voteReply src dst savedTerm reply => exact h.act hsize hmeasured hnone hfair hs
  | append src work =>
    apply h.act hsize (h.foreign rfl hbacked.won hbacked.other) _ hfair hs
    intro out p hp
    split at hp
    · cases List.mem_singleton.mp hp
      exact hbacked
    · cases hp
  | appendReply dst work reply => exact h.act hsize hbacked.within hnone hfair hs
  | snapshot src work =>
    apply h.act hsize (h.foreign hbacked.2.2 hbacked.1 hbacked.2.1) _ hfair hs
    intro out p hp
    split at hp
    · cases List.mem_singleton.mp hp
      trivial
    · cases hp
  | snapshotReply dst work reply => exact h.act hsize hmeasured hnone hfair hs

theorem Governed.broadcast (h : Governed C M w) (hup : (w.host id).up = true) :
    ∀ p ∈ (broadcastAppendEntries (C.env id) (w.node id)).map (Work.packet id), p.Backed w := by
  intro p hp
  obtain ⟨work, hwork, rfl⟩ := List.mem_map.mp hp
  unfold broadcastAppendEntries at hwork
  split at hwork
  · cases hwork
  · next hrole =>
    have hleads := Decidable.not_not.mp hrole
    obtain ⟨hwon, hleading⟩ := (h.sworn id hup).office hleads
    obtain ⟨peer, hpeer, hfor⟩ := List.mem_filterMap.mp hwork
    have hother : peer ≠ id := by
      have := (List.mem_filter.mp hpeer).2
      exact of_decide_eq_true this
    rcases workFor_cases (h.candid id).kept hleading hfor with rfl | ⟨next, term, work', rfl, heq, hreach⟩
    · exact ⟨hwon, hother, rfl⟩
    · cases heq
      exact ⟨hwon, hother, fun _ _ _ => hreach⟩

/-- **Every move of a cluster of several nodes leaves its leaders up to the mark.** -/
theorem Governed.step (h : Governed C M w) (hsize : 2 ≤ C.nodes.length) {a : Action δ}
    (ha : ∀ k fates packet, a = .deliver k fates → w.net[k]? = some packet → packet.Measured C w)
    (hs : w.step C M a = some w') : Governed C M w' := by
  have hfair := h.fair.step hs
  cases a with
  | restart id =>
    dsimp only [World.step] at hs
    split at hs
    · obtain ⟨n, hr, rfl⟩ := Option.map_eq_some_iff.mp hs
      obtain ⟨hstart, _, hevents⟩ := reboot_eq hr
      have hrole : n.mem.state = .follower := by
        rw [start_eq hstart]
        unfold recovered
        dsimp only
        split <;> rfl
      have hwon : (w.node id).won ⊆ n.won := by
        simp [Node.won, hevents]
      rw [← World.send_nil (w.set id ⟨n, true⟩)] at hfair ⊢
      have hleader : n.mem.state ≠ .leader := by
        rw [hrole]
        decide
      have hcandidate : n.mem.state ≠ .candidate := by
        rw [hrole]
        decide
      have hcandid := (h.candid id).quietly (attended_started hstart) (.of_events hevents)
      apply h.set hfair hcandid _ hwon _ fun _ hp => absurd hp List.not_mem_nil
      · exact fun _ => ⟨fun h => absurd h hleader, fun h => absurd h hcandidate⟩
      · exact fun _ hleads => absurd hleads hleader
    · cases hs
  | crash id =>
    cases hs
    rw [← World.send_nil (w.set id _)] at hfair ⊢
    apply h.set hfair (h.candid id) _ (List.Subset.refl _)
    · exact fun hup => absurd hup Bool.false_ne_true
    · exact fun _ hp => absurd hp List.not_mem_nil
    · exact fun hup => absurd hup Bool.false_ne_true
  | own id input fates =>
    dsimp only [World.step] at hs
    split at hs
    · next hlocal =>
      apply h.act hsize _ _ hfair hs
      · intro _
        cases input <;> trivial
      · intro out p hp
        unfold ownPackets at hp
        split at hp
        · obtain ⟨r, _, rfl⟩ := List.mem_map.mp hp
          trivial
        · cases hp
    · cases hs
  | broadcast id =>
    dsimp only [World.step] at hs
    split at hs
    · next hhere =>
      cases hs
      refine ⟨hfair, h.candid, h.sworn, fun p hp => ?_⟩
      rcases List.mem_append.mp hp with hold | hnew
      · exact (h.backed p hold).send _
      · exact (h.broadcast hhere.2 p hnew).send _
    · cases hs
  | deliver k fates =>
    dsimp only [World.step] at hs
    split at hs
    · next packet hk => exact h.handle hsize (List.mem_of_getElem? hk) (ha k fates packet rfl hk) hfair hs
    · cases hs

theorem governed_init (machine : σ) : Governed C M (World.init machine : World δ σ) where
  fair := fair_init machine
  candid := fun _ => { attended_started (fresh_started machine) with told := nofun }
  sworn := fun _ hup => nomatch hup
  backed := fun _ hp => nomatch hp

/-- **A leader commits all it may.** In every run of a cluster of at least two nodes, with compaction and
snapshots, messages lost, late, repeated or out of order, crashes, restarts, and writes that fail: if each vote
finds its candidate's commit index at or above its snapshot and what it has applied, and each reply to a
snapshot that its leader takes up is for an index the leader has committed, then there never is a leader whose
log holds an entry of its own term beyond its commit index that it and the peers it has matched, together a
majority, hold. -/
theorem leader_commits_all (C : Cluster) (M : Machine δ σ) (machine : σ) (hsize : 2 ≤ C.nodes.length)
    {acts : List (Action δ)} {w : World δ σ} (hrun : exec (World.step C M) (World.init machine) acts = some w)
    (hmeasured : Along (World.step C M) (fun w a => a.Measured w) (World.init machine) acts) (i : NodeId)
    (hup : (w.host i).up = true) (hleads : (w.node i).mem.state = .leader) :
    ¬ ∃ c e, (w.node i).mem.commitIndex < c ∧ c ≤ (w.node i).mem.logStore.last ∧
      (w.node i).mem.logStore.getLog c = .ok e ∧ e.term = int64 (w.node i).mem.currentTerm ∧
      C.nodes.length / 2 < (w.node i).mem.matchCount i C.nodes c := by
  have hgoverned : Governed C M w := by
    apply exec_along (I := Governed C M) _ acts (governed_init machine) hmeasured hrun
    exact fun w a w' h ha hs => h.step hsize (fun k fates packet heq hk => (heq ▸ ha).packet hk) hs
  rintro ⟨c, e, hbeyond, -, hget, hterm, hcount⟩
  have hcommitted := ((hgoverned.sworn i hup).office hleads).2.counted c
    (committable_iff.mpr ⟨e, hget, hterm, hcount⟩)
  omega

/-- "a" takes a command, which reaches "b". -/
def commandToB : List (Action Byte) :=
  electA ++ [.own "a" (.replicate 7 0) [], .broadcast "a", .deliver 3 []]

/-- "b" has the command but "a" has not heard of it: nobody is counted for it. -/
theorem leader_commits_all_waiting :
    ∃ w : World Byte Bytes, exec (World.step threeNodes tape) (World.init []) commandToB = some w ∧
      (w.node "a").mem.logStore.getLog 1 = .ok ⟨1, 1, 7⟩ ∧ (w.node "a").mem.commitIndex = 0 ∧
      ¬ threeNodes.nodes.length / 2 < (w.node "a").mem.matchCount "a" threeNodes.nodes 1 := by
  have hmeasured : Along (World.step threeNodes tape) (fun w a => a.Measured w)
      (World.init [] : World Byte Bytes) commandToB := by
    iterate 4 refine along_cons trivial rfl ?_
    refine along_cons (fun _ => ⟨Nat.le_refl 0, Nat.le_refl 0⟩) rfl ?_
    iterate 3 refine along_cons trivial rfl ?_
    trivial
  obtain ⟨w, hrun, hup, hleads, hcommit, hlast, hget, hterm⟩ : ∃ w : World Byte Bytes,
      exec (World.step threeNodes tape) (World.init []) commandToB = some w ∧ (w.host "a").up = true ∧
      (w.node "a").mem.state = .leader ∧ (w.node "a").mem.commitIndex = 0 ∧
      (w.node "a").mem.logStore.last = 1 ∧ (w.node "a").mem.logStore.getLog 1 = .ok ⟨1, 1, 7⟩ ∧
      (w.node "a").mem.currentTerm = 1 := ⟨_, rfl, rfl, rfl, rfl, rfl, rfl, rfl⟩
  refine ⟨w, hrun, hget, hcommit, fun hcount => ?_⟩
  exact leader_commits_all threeNodes tape [] (by decide) hrun hmeasured "a" hup hleads
    ⟨1, ⟨1, 1, 7⟩, by rw [hcommit]; decide, Nat.le_of_eq hlast.symm, hget, by rw [hterm]; rfl, hcount⟩

/-- One node by itself. -/
def oneNode : Cluster where
  nodes := [⟨"a", "a:1"⟩]
  distinct := by decide
  named := by decide
  maxBatchSize := fun _ => 1
  snapshotThresholdLogs := 0

/-- A cluster of one stores a command and does not commit it, though the leader is a majority. -/
theorem alone_commits_nothing :
    ∃ w : World Byte Bytes,
      exec (World.step oneNode tape) (World.init [])
        [.restart "a", .own "a" .electionTimeout [], .own "a" (.replicate 7 0) []] = some w ∧
      (w.host "a").up = true ∧ (w.node "a").mem.state = .leader ∧
      (w.node "a").mem.commitIndex < 1 ∧ 1 ≤ (w.node "a").mem.logStore.last ∧
      (w.node "a").mem.logStore.getLog 1 = .ok ⟨1, 1, 7⟩ ∧ (w.node "a").mem.currentTerm = 1 ∧
      oneNode.nodes.length / 2 < (w.node "a").mem.matchCount "a" oneNode.nodes 1 :=
  ⟨_, rfl, rfl, rfl, by decide, by decide, rfl, rfl, by decide⟩

end Maximal

end Sandstore.Raft
