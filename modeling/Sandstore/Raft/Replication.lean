import Sandstore.Raft.Voting

/-!
# Replication simulates: the leader

The critical sections that move a leader's log and its commit index, and what they share with a
follower's. A flushed batch extends the log of the leader's term, and the leader acknowledges it as
its followers are going to. The commit index moves to what a majority has acknowledged in the
leader's own term, and what a broadcast sends is a slice of the leader's log.

What is applied is below the commit index, so what is applied is chosen.
-/

namespace Sandstore.Raft

open Lib Lib.Proc Lib.Consensus

section Replication

attribute [local instance] Conv.exact

variable {δ σ : Type} {C : Cluster} {i : NodeId} {H H' : History δ} {n : Node δ σ}

theorem Live.spells (h : Live C H i n) : Spells n.mem.logStore (H.log i) := h.log ▸ h.durable.log

/-! ## Applying -/

variable {c : Nat}

theorem SafeTo.chosen {k : Nat} {e : LogEntry δ} (h : SafeTo C H i c) (hk : k < c)
    (he : (H.log i)[k]? = some e) : Chosen (rules C) H k e := by
  rcases h.settled with hzero | ⟨t, m, hcommitted, hcm, _, hsame⟩
  · omega
  · refine ⟨t, m, hcommitted, by omega, ?_⟩
    have hat : ((H.log i).take c)[k]? = some e := by
      rw [List.getElem?_take, if_pos hk]
      exact he
    rw [hsame, List.getElem?_take, if_pos hk] at hat
    exact hat

theorem Live.notify (h : Live C H i n) (index : Int) (err : Option Err) : Live C H i (n.notify index err) := by
  unfold Node.notify
  split
  · refine { h with durable := { h.durable with events := fun k data hmem => ?_ } }
    exact h.durable.events k data (applied_of_append (fun _ _ h => by cases h) hmem)
  · exact h

/-- An applier call for a chosen entry. -/
theorem sim_applyEntry (M : Machine δ σ) (hl : Legit C H) (h : Live C H i n) {k : Nat}
    {e : LogEntry δ} (hchosen : Chosen (rules C) H k e) : Sim C i H (applyEntry M (k + 1) e) n fun _ _ _ => True := by
  have hcalled : Live C H i ((n.withMem fun r => { r with lastApplied := k + 1 }).emit
      (.applied (k + 1) e.data)) := by
    refine { h with durable := { h.durable with events := ?_ } }
    intro k' data hmem
    rcases List.mem_append.mp hmem with hold | hnew
    · exact h.durable.events k' data hold
    · cases List.mem_singleton.mp hnew
      exact ⟨e, Nat.succ_pos k, hchosen, rfl⟩
  have hwritten : Live C H i { ((n.withMem fun r => { r with lastApplied := k + 1 }).emit
      (.applied (k + 1) e.data)) with
        disk := { n.disk with machine := (M.apply e.data n.disk.machine).1 } } :=
    { hcalled with durable := { hcalled.durable with } }
  apply sim_commit hl rfl hcalled.durable (.refl hl) hwritten.durable
  exact sim_update hl (hwritten.notify _ _) trivial

/-- **What is applied is chosen.** -/
theorem sim_applyLoop (M : Machine δ σ) (fuel : Nat) : ∀ {n : Node δ σ} {H : History δ}, Legit C H → Live C H i n →
      Sim C i H (applyLoop M fuel) n fun _ _ _ => True := by
  induction fuel with
  | zero => exact fun hl h => sim_pure hl h trivial
  | succ fuel ih =>
    intro n H hl h
    apply sim_read_bind
    apply sim_ite
    · intro hbelow
      apply sim_ite
      · intro hskip
        rw [h.included] at hskip
        omega
      · intro _
        cases hget : n.mem.logStore.getLog (n.mem.lastApplied + 1) with
        | error err => exact sim_pure hl h trivial
        | ok entry =>
          have hchosen := h.commit.chosen hbelow (h.spells.getLog_ok.mp hget)
          apply sim_bind (sim_applyEntry M hl h hchosen)
          intro _ H' n' hl' h' _ _
          exact ih hl' h'
    · exact fun _ => sim_pure hl h trivial

theorem sim_applyLogs (M : Machine δ σ) (hl : Legit C H) (h : Live C H i n) :
    Sim C i H (applyLogs M) n fun _ _ _ => True := sim_read_bind (sim_applyLoop M _ hl h)

/-! ## Storing -/

/-- The node after a `StoreLogs` that has written. -/
def Node.stored (n : Node δ σ) (entries : List (LogEntry δ)) : Node δ σ :=
  (n.withLog (n.mem.logStore.storeLoop entries).1).putWal

/-- A node whose store has been written: its memory and its file hold the new log. -/
theorem Live.durable_stored (h : Live C H i n) (hm : Moved C i H H') (hl : Legit C H)
    (hterm : H'.term i = H.term i) (hballot : ∀ t, H'.ballot i t = H.ballot i t)
    {es : List (LogEntry δ)} (hlog : H'.log i = H.log i ++ es) (hnumbered : Numbered (H.log i ++ es)) :
    Durable C H' i (n.stored es) ∧ (n.stored es).mem.logStore = FileLogStore.load (n.stored es).disk.wal := by
  have hkept : FileLogStore.Kept (n.mem.logStore.storeLoop es).1 := by
    rw [h.log]
    exact (FileLogStore.kept_load _).storeLoop
  have hload := FileLogStore.load_file hkept
  obtain ⟨_, hspells⟩ := h.spells.storeLoop hnumbered
  refine ⟨⟨?_, ?_, h.durable.snapshot, ?_⟩, hload.symm⟩
  · rw [hterm, voteOf_congr hterm hballot]
    exact h.durable.stable
  · rw [hlog]
    exact hload.symm ▸ hspells
  · intro k data hmem
    obtain ⟨e, hpos, hchosen, hdata⟩ := h.durable.events k data hmem
    exact ⟨e, hpos, hchosen.grows (hm.grows hl), hdata⟩

/-- The rest of what a running node remembers, once its log has changed. -/
theorem Live.relog {n' : Node δ σ} (h : Live C H i n) (hm : Moved C i H H') (hl : Legit C H)
    (hterm : H'.term i = H.term i) (hballot : ∀ t, H'.ballot i t = H.ballot i t) (hdurable : Durable C H' i n')
    (hlog : n'.mem.logStore = FileLogStore.load n'.disk.wal)
    (hmem : n'.mem = { n.mem with logStore := n'.mem.logStore }) (hcommit : SafeTo C H' i n.mem.commitIndex)
    (hbatch : n.mem.pendingBatch = []) (hleading : n.mem.state = .leader → Leads C H' i n.mem.matchIndex)
    (hstanding : n.mem.state ≠ .candidate) : Live C H' i n' := by
  have hg := hm.grows hl
  obtain ⟨disk, mem, events⟩ := n'
  dsimp only at hmem hlog
  rw [hmem] at hdurable ⊢
  refine ⟨hdurable, ?_, ?_, hlog, h.included, h.includedTerm, hcommit, .inl hbatch, hleading,
    fun hcandidate => absurd hcandidate hstanding, ?_⟩
  · rw [hterm]
    exact h.term
  · rw [voteOf_congr hterm hballot]
    exact h.vote
  · intro el hel
    obtain ⟨voters, htally⟩ := h.tally el hel
    refine ⟨voters, htally.mono ?_⟩
    intro v ⟨l, hvoted⟩
    exact ⟨l, hg.ballot _ _ _ hvoted⟩

theorem sim_storeLogs {Post : Option Err → History δ → Node δ σ → Prop} (hl : Legit C H)
    (h : Live C H i n) {es : List (LogEntry δ)} (hnumbered : Numbered (H.log i ++ es))
    (hm : Moved C i H H') (hlive : Live C H' i (n.stored es)) (hpost : Post none H' (n.stored es)) :
    Sim C i H (storeLogs es) n Post := by
  obtain ⟨hok, _⟩ := h.spells.storeLoop hnumbered
  have hold : Durable C H i (n.withLog (n.mem.logStore.storeLoop es).1) := { h.durable with }
  apply sim_commit hl _ hold hm hlive.durable
  · rw [hok]
    exact sim_pure hm.legit hlive hpost
  · rw [hok]

/-! ## The leader's log -/

variable {batch : List (LogEntry δ)}

theorem Live.batch_numbered (h : Live C H i n) (hbatch : Continues H i batch) : Numbered (H.log i ++ batch) := by
  intro k e hk
  by_cases hlt : k < (H.log i).length
  · rw [List.getElem?_append_left hlt] at hk
    exact h.durable.log.numbered k e hk
  · rw [List.getElem?_append_right (Nat.not_lt.mp hlt)] at hk
    obtain ⟨hindex, hterm⟩ := hbatch _ e hk
    refine ⟨?_, ?_⟩
    · rw [hindex]
      congr 1
      omega
    · rw [hterm]
      exact Int.natCast_nonneg _

theorem Live.extended (hl : Legit C H) (h : Live C H i n) (hempty : n.mem.pendingBatch = [])
    (hleader : n.mem.state = .leader) (hcontinues : Continues H i batch) :
    ∃ H', Moved C i H H' ∧ Live C H' i (n.stored batch) := by
  obtain ⟨⟨l, hcrown⟩, hown, hmatched⟩ := h.leading hleader
  have hnumbered := h.batch_numbered hcontinues
  have hterms : ∀ e ∈ batch, e.term = ((H.term i : Nat) : Int) := by
    intro e he
    obtain ⟨k, hk⟩ := List.getElem?_of_mem he
    exact (hcontinues k e hk).2
  have hextend := Moved.extend hl hcrown hterms hnumbered
  have hlog := hl.inv.leader _ _ _ hcrown rfl
  -- the leader is the first to hold what it has added
  have hack := Moved.acknowledge (i := i) (k := (H.log i ++ batch).length) hextend.legit
    (by simp [← hlog]) (by simp [← hlog, List.take_prefix])
  have hm := hextend.trans hack
  have hg := hm.grows hl
  obtain ⟨hdurable, hload⟩ := h.durable_stored hm hl rfl (fun _ => rfl) (Function.update_self ..) hnumbered
  refine ⟨_, hm, h.relog hm hl rfl (fun _ => rfl) hdurable hload rfl ?_ hempty ?_ ?_⟩
  · apply h.commit.grows hg
    simp
  · intro _
    refine ⟨⟨l, hcrown⟩, ?_, fun p hp => (hmatched p hp).trans (hg.ack _ _)⟩
    simp
  · rw [hleader]
    exact RaftState.noConfusion

/-- **A flushed batch extends the log of the leader's term.** -/
theorem sim_storeBatch (hl : Legit C H) (h : Live C H i n) (hempty : n.mem.pendingBatch = [])
    (hbatch : batch = [] ∨ n.mem.state = .leader ∧ Continues H i batch) :
    Sim C i H (storeBatch batch) n fun _ _ _ => True := by
  apply sim_ite
  · exact fun _ => sim_pure hl h trivial
  intro hne
  obtain ⟨hleader, hcontinues⟩ := hbatch.resolve_left hne
  obtain ⟨H', hm, hlive⟩ := h.extended hl hempty hleader hcontinues
  have hstore : Sim C i H (storeLogs batch) n fun err _ _ => err = none :=
    sim_storeLogs hl h (h.batch_numbered hcontinues) hm hlive rfl
  apply sim_bind hstore
  intro err H'' n' hl' h' _ hnone
  subst hnone
  exact sim_pure hl' h' trivial

theorem sim_flushPendingBatch (hl : Legit C H) (h : Live C H i n) :
    Sim C i H flushPendingBatch n fun _ _ _ => True := by
  apply sim_read_bind
  apply sim_update_bind
  have hcleared : Live C H i (n.withMem fun r => { r with pendingBatch := [] }) :=
    { h with durable := { h.durable with }, batch := .inl rfl }
  exact sim_storeBatch hl hcleared rfl h.batch

/-- **`Replicate`.** The entry it makes comes after the log and the batch. -/
theorem sim_replicate (hl : Legit C H) (h : Live C H i n) (data : δ) (call : CallId) :
    Sim C i H (replicate (C.env i) data call) n fun _ _ _ => True := by
  apply sim_read_bind
  apply sim_ite
  · exact fun _ => sim_pure hl h trivial
  intro hrole
  have hleader := not_not.mp hrole
  rw [h.spells.lastIndexAndTerm]
  have hcontinues : Continues H i n.mem.pendingBatch := by
    rcases h.batch with hnil | ⟨_, hcontinues⟩
    · rw [hnil]
      exact fun _ _ hk => (nomatch hk)
    · exact hcontinues
  have hlive : Live C H i (n.withMem fun r =>
      { r with
        pendingBatch := r.pendingBatch ++ [n.mem.entryFor (H.log i).length data]
        pendingClients := r.pendingClients.insert
          (n.mem.entryFor (H.log i).length data).index call }) := by
    refine { h with durable := { h.durable with }, batch := .inr ⟨hleader, fun k e hk => ?_⟩ }
    change (n.mem.pendingBatch ++ [n.mem.entryFor (H.log i).length data])[k]? = some e at hk
    by_cases hlt : k < n.mem.pendingBatch.length
    · rw [List.getElem?_append_left hlt] at hk
      exact hcontinues k e hk
    · rw [List.getElem?_append_right (Nat.not_lt.mp hlt), List.getElem?_singleton] at hk
      split at hk
      · cases hk
        refine ⟨?_, congrArg _ h.term⟩
        have hk : k = n.mem.pendingBatch.length := by omega
        rw [hk]
        simp only [Replicator.entryFor, int64, uint64]
        omega
      · cases hk
  apply sim_update_bind
  apply sim_ite
  · intro _
    apply sim_bind (sim_flushPendingBatch hl hlive)
    intro _ H' n' hl' h' _ _
    exact sim_pure hl' h' trivial
  · exact fun _ => sim_pure hl hlive trivial

/-! ## The leader's commit index -/

variable {r : Replicator δ}

/-- What the search of `advanceCommitIndexLocked` finds. -/
theorem commitFrom_spec {id : NodeId} {nodes : List ClusterNode} {k : Nat} (h : r.commitFrom id nodes k = some c) :
    c ≤ k ∧ 0 < c ∧ r.committable id nodes c = true := by
  induction k with
  | zero => cases h
  | succ k ih =>
    rw [Replicator.commitFrom] at h
    split at h
    · split at h
      · next hyes =>
        cases h
        exact ⟨Nat.le_refl _, Nat.succ_pos k, hyes⟩
      · obtain ⟨hle, hrest⟩ := ih h
        exact ⟨Nat.le_succ_of_le hle, hrest⟩
    · cases h

theorem commitFrom_above {id : NodeId} {nodes : List ClusterNode} {k : Nat}
    (h : r.commitFrom id nodes k = some c) : r.commitIndex < c := by
  induction k with
  | zero => cases h
  | succ k ih =>
    rw [Replicator.commitFrom] at h
    split at h
    · split at h
      · next habove _ =>
        cases h
        exact habove
      · exact ih h
    · cases h

/-- The leader and the peers it counts are a majority. -/
theorem matchCount_majority (hi : i ∈ C.ids) (h : r.matchCount i C.nodes c > C.nodes.length / 2) :
    Majority C.ids (i :: (peersOf i C.nodes).filter fun p => r.matchIndex p ≥ c) := by
  constructor
  · apply List.nodup_cons.mpr
    constructor
    · intro hmem
      simp [peersOf] at hmem
    · exact (peersOf_nodup C i).filter _
  · apply List.cons_subset.mpr
    constructor
    · exact hi
    · intro p hp
      simp only [peersOf, List.mem_filter] at hp
      exact hp.1.1
  · simp only [Replicator.matchCount] at h
    simp only [Cluster.ids, List.length_map, List.length_cons]
    omega

/-- **What a majority has acknowledged in the leader's term is committed.** -/
theorem Live.committable (hl : Legit C H) (h : Live C H i n) (hi : i ∈ C.ids)
    (hleader : n.mem.state = .leader) (hpos : 0 < c) (hc : c ≤ (H.log i).length)
    (hyes : n.mem.committable i C.nodes c = true) : SafeTo C H i c := by
  obtain ⟨⟨l, hcrown⟩, hown, hmatched⟩ := h.leading hleader
  have hlog := hl.inv.leader _ _ _ hcrown rfl
  obtain ⟨k, rfl⟩ : ∃ k, c = k + 1 := ⟨c - 1, by omega⟩
  simp only [Replicator.committable] at hyes
  cases hget : n.mem.logStore.getLog (k + 1) with
  | error err =>
    rw [hget] at hyes
    cases hyes
  | ok entry =>
    rw [hget] at hyes
    obtain ⟨hterm, hcount⟩ := of_decide_eq_true hyes
    have hat := h.spells.getLog_ok.mp hget
    refine ⟨hc, .inr ⟨H.term i, k + 1, ⟨⟨entry, ?_, ?_⟩, hpos, ?_⟩, Nat.le_refl _, Nat.le_refl _, ?_⟩⟩
    · rw [← hlog]
      exact hat
    · rw [h.term] at hterm
      show entry.term.toNat = H.term i
      rw [hterm]
      rfl
    · refine ⟨_, ⟨_, matchCount_majority hi hcount, fun _ hv => hv⟩, fun v hv => ?_⟩
      rcases List.mem_cons.mp hv with rfl | hpeer
      · exact hc.trans hown
      · obtain ⟨hp, hmatch⟩ := List.mem_filter.mp hpeer
        exact (of_decide_eq_true hmatch).trans (hmatched v hp)
    · rw [hlog]

theorem sim_advanceCommitIndex (M : Machine δ σ) (hl : Legit C H) (h : Live C H i n) (hi : i ∈ C.ids)
    (hleader : n.mem.state = .leader) : Sim C i H (advanceCommitIndex (C.env i) M) n fun _ _ _ => True := by
  apply sim_read_bind
  rw [h.spells.lastIndexAndTerm]
  show Sim C i H (if C.nodes = [] then _ else _) n _
  apply sim_ite
  · exact fun _ => sim_pure hl h trivial
  intro _
  cases hfound : n.mem.commitFrom (C.env i).id C.nodes (H.log i).length with
  | none => exact sim_pure hl h trivial
  | some c =>
    obtain ⟨hc, hpos, hyes⟩ := commitFrom_spec hfound
    have hsafe := h.committable hl hi hleader hpos hc hyes
    apply sim_update_bind
    exact sim_applyLogs M hl { h with durable := { h.durable with }, commit := hsafe }

theorem Live.setPeer (h : Live C H i n) (hleader : n.mem.state = .leader) {peer : NodeId}
    {matchIndex nextIndex : Nat} (hle : matchIndex ≤ H.ack peer (H.term i)) :
    Live C H i (n.withMem (·.setPeer peer matchIndex nextIndex)) := by
  have hlead := h.leading hleader
  refine { h with durable := { h.durable with }, leading := fun _ => ?_ }
  refine ⟨hlead.crowned, hlead.own, fun p hp => ?_⟩
  change (if p = peer then matchIndex else n.mem.matchIndex p) ≤ _
  split
  · next hp => rwa [hp]
  · exact hlead.matched p hp

/-- The end of `replicateAppendEntries`: a match index is what a peer has acknowledged. -/
theorem sim_handleAppendReply (M : Machine δ σ) (hl : Legit C H) (h : Live C H i n) (hi : i ∈ C.ids)
    {w : AppendWork δ} {reply : AppendEntriesReply} (hreply : Honest C H (.appendReply i w reply)) :
    Sim C i H (handleAppendReply (C.env i) M w reply) n fun _ _ _ => True := by
  apply sim_read_bind
  apply sim_ite
  · exact fun _ => sim_pure hl h trivial
  intro hcurrent
  obtain ⟨hrole, hterm⟩ := not_or.mp hcurrent
  have hleader := not_not.mp hrole
  have hterm : w.term = H.term i := (not_not.mp hterm).symm.trans h.term
  apply sim_ite
  · intro hlater
    have hlt : H.term i < uint64 reply.term := by
      rw [h.term] at hlater
      exact Int.lt_toNat.mpr hlater
    apply sim_bind (sim_stepDown hl h hlt "")
    intro _ H' n' hl' h' _ _
    exact sim_pure hl' h' trivial
  intro _
  have hsame := (h.leading hleader).matched w.node hreply.1.peer
  apply sim_ite
  · intro hsuccess
    apply sim_ite
    · intro _
      apply sim_update_bind
      have hack := hreply.2 hsuccess
      rw [hterm] at hack
      exact sim_advanceCommitIndex M hl (h.setPeer hleader hack) hi hleader
    · exact fun _ => sim_pure hl h trivial
  intro _
  apply sim_ite
  · exact fun _ => sim_update hl (h.setPeer hleader hsame) trivial
  intro _
  apply sim_ite
  · exact fun _ => sim_update hl (h.setPeer hleader hsame) trivial
  · exact fun _ => sim_pure hl h trivial

/-! ## Broadcasts -/

/-- A work brings a peer from position `p` to the end of the leader's log. -/
theorem Live.slice (hl : Legit C H) (h : Live C H i n) (hleader : n.mem.state = .leader) {peer : NodeId}
    {p : Nat} (hp : p ≤ (H.log i).length) {prevLogTerm : Int} (hprev : prevLogTerm = termBefore (H.log i) p)
    {w : AppendWork δ} (hw : n.mem.appendWork peer (p + 1) prevLogTerm = .append w) :
    Slice (H.reign w.term) w p (H.log i).length := by
  obtain ⟨⟨l, hcrown⟩, _, _⟩ := h.leading hleader
  have hlog := hl.inv.leader _ _ _ hcrown rfl
  cases hw
  refine ⟨hp, ?_, rfl, ?_, ?_, h.commit.within⟩
  all_goals simp only [h.term, ← hlog]
  · exact Nat.le_refl _
  · exact hprev
  · rw [h.spells.slice, h.getLastLogInfo, List.take_length, List.take_of_length_le]
    simp only [List.length_drop]
    omega

/-- The work of a broadcast for one peer whose log is known to have the entry at `p`. -/
theorem Live.sent (hl : Legit C H) (h : Live C H i n) (hleader : n.mem.state = .leader) {peer : NodeId}
    (hpeer : peer ∈ peersOf i C.nodes) {p : Nat} (hp : p ≤ (H.log i).length) {prevLogTerm : Int}
    (hprev : prevLogTerm = termBefore (H.log i) p) :
    Honest C H ((n.mem.appendWork peer (p + 1) prevLogTerm).packet i) := by
  obtain ⟨⟨l, hcrown⟩, _, _⟩ := h.leading hleader
  show Sent C H i _
  refine ⟨hpeer, ⟨l, ?_⟩, ⟨p, _, h.slice hl hleader hp hprev rfl⟩, ?_⟩
  · exact h.term ▸ hcrown
  · simp only [h.term]
    rcases h.commit.settled with hzero | ⟨t, k, hcommitted, hck, ht, _⟩
    · exact .inl hzero
    · exact .inr ⟨t, k, hcommitted, hck, ht⟩

/-- What a broadcast has to do for a peer, in terms of the leader's log. -/
theorem Live.work (h : Live C H i n) {work : Work δ} (hwork : work ∈ broadcastAppendEntries (C.env i) n) :
    n.mem.state = .leader ∧ ∃ peer ∈ peersOf i C.nodes, ∃ p prevLogTerm, n.mem.nextFor peer = p + 1 ∧
      p ≤ (H.log i).length ∧ prevLogTerm = termBefore (H.log i) p ∧
      work = n.mem.appendWork peer (p + 1) prevLogTerm := by
  unfold broadcastAppendEntries at hwork
  split at hwork
  · cases hwork
  next hrole =>
  have hleader := not_not.mp hrole
  obtain ⟨peer, hpeer, hfor⟩ := List.mem_filterMap.mp hwork
  refine ⟨hleader, peer, hpeer, ?_⟩
  obtain ⟨p, hnext⟩ : ∃ p, n.mem.nextFor peer = p + 1 := by
    unfold Replicator.nextFor
    split
    · exact ⟨n.mem.lastIncludedIndex, rfl⟩
    · exact ⟨n.mem.nextIndex peer - 1, by omega⟩
  simp only [Node.workFor, hnext, h.included, Nat.add_sub_cancel] at hfor
  rw [if_neg (by omega)] at hfor
  cases p with
  | zero =>
    rw [if_pos rfl] at hfor
    cases hfor
    refine ⟨0, _, hnext, Nat.zero_le _, ?_, rfl⟩
    rw [h.includedTerm]
    rfl
  | succ p =>
    rw [if_neg (by omega), if_pos (by omega)] at hfor
    cases hat : (H.log i)[p]? with
    | none =>
      -- the log has no snapshot to fall back on
      rw [h.spells.getLog_error hat] at hfor
      simp at hfor
    | some e =>
      rw [h.spells.getLog_ok.mpr hat] at hfor
      cases hfor
      obtain ⟨hlt, _⟩ := List.getElem?_eq_some_iff.mp hat
      refine ⟨p + 1, _, hnext, hlt, ?_, rfl⟩
      simp [termBefore, hat]

/-- **A leader sends slices of its own log.** -/
theorem Live.broadcast (hl : Legit C H) (h : Live C H i n) :
    ∀ work ∈ broadcastAppendEntries (C.env i) n, Honest C H (work.packet i) := by
  intro work hwork
  obtain ⟨hleader, peer, hpeer, p, prevLogTerm, _, hp, hprev, rfl⟩ := h.work hwork
  exact h.sent hl hleader hpeer hp hprev

end Replication

end Sandstore.Raft
