import Sandstore.Raft.Safety

/-!
# What lasts

`Safety` speaks of one state of a run. Here the run goes on, with more crashes, elections and lost packets. The
history of a later state extends that of the earlier one (`Thereafter.accounts`), and the laws are about what it can no
longer undo.

**Durability.** An entry that a commit index has reached is on the disks of a majority from then on, also while
all nodes are down (`committed_on_majority`), and every leader that is not behind has it
(`leader_holds_committed`). **A leader only appends** (`leader_appends_only`).
-/

namespace Sandstore.Raft

open Lib Lib.Consensus

section Lasting

attribute [local instance] Conv.exact

variable {δ σ : Type} {C : Cluster} {M : Machine δ σ} {w w' : World δ σ} {H H' : History δ}

/-! ## A run that goes on -/

/-- `w'` comes after `w` in a run in which no write returns an error, of a cluster that takes no snapshots. -/
structure Thereafter (C : Cluster) (M : Machine δ σ) (w w' : World δ σ) : Prop where
  threshold : C.snapshotThresholdLogs = 0
  run : ∃ machine acts more, (∀ a ∈ acts ++ more, a.fine) ∧
    exec (World.step C M) (World.init machine) acts = some w ∧ exec (World.step C M) w more = some w'

theorem Thereafter.accounts (h : Thereafter C M w w') : ∃ H H', Accounts C H w ∧ Accounts C H' w' ∧ Grows H H' := by
  obtain ⟨machine, acts, more, hfine, hrun, hmore⟩ := h.run
  obtain ⟨H, _, hw⟩ := run_accounts C h.threshold M machine (fun a ha => hfine a (List.mem_append_left _ ha)) hrun
  obtain ⟨H', hsteps, hw'⟩ := hw.run h.threshold (fun a ha => hfine a (List.mem_append_right _ ha)) hmore
  exact ⟨H, H', hw, hw', hsteps.grows hw.legit.inv⟩

/-! ## What a commit index has reached -/

/-- The node runs, and its commit index has reached this one. -/
structure CommitsAt (w : World δ σ) (id : NodeId) (k : Nat) : Prop where
  pos : 1 ≤ k
  up : (w.host id).up = true
  commit : k ≤ (w.node id).mem.commitIndex

structure Presides (w : World δ σ) (id : NodeId) : Prop where
  up : (w.host id).up = true
  leader : (w.node id).mem.state = .leader

/-- The entry at a commit index, and the term whose leader committed it. -/
theorem Accounts.reached (h : Accounts C H w) {id : NodeId} {j : Nat} (hj : CommitsAt w id (j + 1)) :
    ∃ e t m, (w.logStore id).getLog (j + 1) = .ok e ∧ Committed (rules C) H t m ∧ t ≤ H.term id ∧ j < m ∧
      (H.reign t)[j]? = some e := by
  have hsafe := (h.live id hj.up).commit
  have hle := hj.commit
  obtain ⟨e, hat⟩ : ∃ e, (H.log id)[j]? = some e := ⟨_, List.getElem?_eq_getElem (hle.trans hsafe.within)⟩
  rcases hsafe.settled with hzero | ⟨t, m, hcommitted, hm, ht, hsame⟩
  · omega
  · refine ⟨e, t, m, (h.spells id).getLog_ok.mpr hat, hcommitted, ht, hle.trans hm, ?_⟩
    have htake := congrArg (·[j]?) hsame
    simp only [List.getElem?_take, if_pos (Nat.lt_of_succ_le hle)] at htake
    rw [← htake, hat]

/-- What was committed is committed later, and every log that the library says has the committed entries has this
one. -/
theorem Thereafter.reached (h : Thereafter C M w w') {id : NodeId} {k : Nat} (hk : CommitsAt w id k) :
    ∃ H' j e t m, Accounts C H' w' ∧ k = j + 1 ∧ (w.logStore id).getLog k = .ok e ∧
      Committed (rules C) H' t m ∧ t ≤ (w.node id).mem.currentTerm ∧ ∀ l, (H'.reign t).take m <+: l → l[j]? = some e := by
  obtain ⟨H, H', hw, hw', hg⟩ := h.accounts
  obtain ⟨j, rfl⟩ : ∃ j, k = j + 1 := ⟨k - 1, (Nat.sub_add_cancel hk.pos).symm⟩
  obtain ⟨e, t, m, he, hcommitted, ht, hj, hat⟩ := hw.reached hk
  rw [← (hw.live id hk.up).term] at ht
  refine ⟨H', j, e, t, m, hw', rfl, he, hcommitted.grows hg, ht, fun l hpre => getElem?_stable hpre ?_⟩
  rw [List.getElem?_take, if_pos hj]
  exact getElem?_stable (hg.reign t) hat

/-- The log of a node that leads is the log of its term. -/
theorem Accounts.leading (h : Accounts C H w) {id : NodeId} (hlead : Presides w id) :
    H.crown (H.term id) ≠ none ∧ H.log id = H.reign (H.term id) := by
  obtain ⟨l, hcrown⟩ := ((h.live id hlead.up).leading hlead.leader).crowned
  exact ⟨hcrown ▸ Option.some_ne_none _, h.legit.inv.leader _ _ _ hcrown rfl⟩

/-! ## The laws -/

theorem thereafter_replicated {more : List (Action Byte)} (hfine : ∀ a ∈ more, a.fine) {w w' : World Byte Bytes}
    (hrun : exec (World.step threeNodes tape) (World.init []) replicateA = some w)
    (hmore : exec (World.step threeNodes tape) w more = some w') : Thereafter threeNodes tape w w' := by
  have hbefore : ∀ a ∈ replicateA, a.fine := by simp [replicateA, electA, Action.fine, Action.fates]
  exact ⟨rfl, [], replicateA, more, List.forall_mem_append.mpr ⟨hbefore, hfine⟩, hrun, hmore⟩

/-- "a" has committed an entry and dies. "c", which has not heard of it, votes for "b". -/
def succession : List (Action Byte) :=
  [.crash "a", .restart "c", .own "b" .electionTimeout [], .deliver 10 [], .deliver 11 []]

theorem thereafter_succession : ∃ w w' : World Byte Bytes, Thereafter threeNodes tape w w' ∧ CommitsAt w "a" 1 ∧
    Presides w' "b" ∧ (w.node "a").mem.currentTerm ≤ (w'.node "b").mem.currentTerm := by
  obtain ⟨w, hrun, hup, hcommit, w', hmore, hup', hleader, hterm⟩ :
      ∃ w, exec (World.step threeNodes tape) (World.init []) replicateA = some w ∧ (w.host "a").up = true ∧
        1 ≤ (w.node "a").mem.commitIndex ∧ ∃ w', exec (World.step threeNodes tape) w succession = some w' ∧
          (w'.host "b").up = true ∧ (w'.node "b").mem.state = .leader ∧
          (w.node "a").mem.currentTerm ≤ (w'.node "b").mem.currentTerm := by decide +kernel
  have hfine : ∀ a ∈ succession, a.fine := by simp [succession, Action.fine, Action.fates]
  exact ⟨w, w', thereafter_replicated hfine hrun hmore, ⟨Nat.le_refl 1, hup, hcommit⟩, ⟨hup', hleader⟩, hterm⟩

/-- **Leader completeness.** What a node's commit index has reached is in the store of every leader, then or later,
whose term is not below that node's. -/
theorem leader_holds_committed (hlater : Thereafter C M w w') (a b : NodeId) (k : Nat) (ha : CommitsAt w a k)
    (hb : Presides w' b) (hterm : (w.node a).mem.currentTerm ≤ (w'.node b).mem.currentTerm) :
    ∃ e, (w.logStore a).getLog k = .ok e ∧ (w'.logStore b).getLog k = .ok e := by
  obtain ⟨H', j, e, t, m, h', rfl, he, hcommitted, ht, hpre⟩ := hlater.reached ha
  obtain ⟨hcrown, hlog⟩ := h'.leading hb
  rw [(h'.live b hb.up).term] at hterm
  refine ⟨e, he, (h'.spells b).getLog_ok.mpr (hpre _ ?_)⟩
  rw [hlog]
  exact hcommitted.prefix_reign h'.legit.inv (ht.trans hterm) hcrown

theorem leader_holds_committed_succession : ∃ (w w' : World Byte Bytes) (e : LogEntry Byte), Presides w' "b" ∧
    (w.logStore "a").getLog 1 = .ok e ∧ (w'.logStore "b").getLog 1 = .ok e := by
  obtain ⟨w, w', hlater, ha, hleads, hterm⟩ := thereafter_succession
  obtain ⟨e, he, he'⟩ := leader_holds_committed hlater "a" "b" 1 ha hleads hterm
  exact ⟨w, w', e, hleads, he, he'⟩

/-- **Durability.** What a commit index has reached is, then and at every later moment, in the log files of a
majority of the cluster, whoever of it is running. -/
theorem committed_on_majority (hlater : Thereafter C M w w') (a : NodeId) (k : Nat) (ha : CommitsAt w a k) :
    ∃ e part, (w.logStore a).getLog k = .ok e ∧ Majority C.ids part ∧
      ∀ v ∈ part, (FileLogStore.load (w'.node v).disk.wal).getLog k = .ok e := by
  obtain ⟨H', j, e, t, m, h', rfl, he, hcommitted, _, hpre⟩ := hlater.reached ha
  obtain ⟨P, ⟨part, hmajority, hP⟩, hack⟩ := hcommitted.quorum
  refine ⟨e, part, he, hmajority, fun v hv => (h'.durable v).log.getLog_ok.mpr (hpre _ ?_)⟩
  -- it has acknowledged the entry, and no later leader was elected without it
  rcases h'.legit.inv.kept v t m (hack v (hP v hv)) with hkept | ⟨u, c, l, htu, _, hcrown, hnot⟩
  · exact hkept
  · exact absurd (leader_completeness h'.legit.inv hcommitted u c l htu hcrown) hnot

theorem committed_on_majority_succession : ∃ (w w' : World Byte Bytes) (e : LogEntry Byte) (part : List NodeId),
    (w.logStore "a").getLog 1 = .ok e ∧ Majority threeNodes.ids part ∧
      ∀ v ∈ part, (FileLogStore.load (w'.node v).disk.wal).getLog 1 = .ok e := by
  obtain ⟨w, w', hlater, ha, _⟩ := thereafter_succession
  exact ⟨w, w', committed_on_majority hlater "a" 1 ha⟩

/-- **A leader only appends.** Of a node that leads in one term at two moments of a run, whatever happened between
them, the later store holds every entry of the earlier one. -/
theorem leader_appends_only (hlater : Thereafter C M w w') (a : NodeId) (ha : Presides w a) (ha' : Presides w' a)
    (hterm : (w'.node a).mem.currentTerm = (w.node a).mem.currentTerm) (k : Nat) (hpos : 1 ≤ k) (e : LogEntry δ)
    (he : (w.logStore a).getLog k = .ok e) : (w'.logStore a).getLog k = .ok e := by
  obtain ⟨H, H', h, h', hg⟩ := hlater.accounts
  obtain ⟨j, rfl⟩ : ∃ j, k = j + 1 := ⟨k - 1, (Nat.sub_add_cancel hpos).symm⟩
  rw [(h.live a ha.up).term, (h'.live a ha'.up).term] at hterm
  rw [(h.spells a).getLog_ok, (h.leading ha).2] at he
  rw [(h'.spells a).getLog_ok, (h'.leading ha').2, hterm]
  exact getElem?_stable (hg.reign _) he

theorem leader_appends_only_more : ∃ w w' : World Byte Bytes, (w.logStore "a").getLog 1 = .ok ⟨1, 1, 7⟩ ∧
    (w'.logStore "a").getLog 1 = .ok ⟨1, 1, 7⟩ := by
  obtain ⟨w, hrun, hup, hleader, he, w', hmore, hup', hleader', hterm⟩ :
      ∃ w, exec (World.step threeNodes tape) (World.init []) replicateA = some w ∧ (w.host "a").up = true ∧
        (w.node "a").mem.state = .leader ∧ (w.logStore "a").getLog 1 = .ok ⟨1, 1, 7⟩ ∧
        ∃ w', exec (World.step threeNodes tape) w [.own "a" (.replicate 8 1) []] = some w' ∧
          (w'.host "a").up = true ∧ (w'.node "a").mem.state = .leader ∧
          (w'.node "a").mem.currentTerm = (w.node "a").mem.currentTerm := by decide +kernel
  have hlater := thereafter_replicated (by simp [Action.fine, Action.fates]) hrun hmore
  exact ⟨w, w', he, leader_appends_only hlater "a" ⟨hup, hleader⟩ ⟨hup', hleader'⟩ hterm 1 (Nat.le_refl 1) _ he⟩

end Lasting

end Sandstore.Raft
