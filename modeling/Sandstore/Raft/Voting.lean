import Sandstore.Raft.Refinement

/-!
# Terms and votes simulate

The critical sections that move a node's term, its vote and its role. Stepping down is hearing of a
term, standing for election is hearing of the next one and voting for oneself in it, granting a vote
is casting it, and entering the leader state is being crowned by the votes an election has counted.

Each of them changes the memory first and the stable store after, and answers only once the store
has it. A node that dies in between is where it was, or where it was going.
-/

namespace Sandstore.Raft

open Lib Lib.Proc Lib.Consensus

section Voting

attribute [local instance] Conv.exact

variable {δ σ : Type} {C : Cluster} {i : NodeId} {H : History δ} {n : Node δ σ}

/-- Nobody votes in a term it has not heard of. -/
theorem Legit.unvoted (hl : Legit C H) {t : Nat} (ht : H.term i < t) : H.ballot i t = none := by
  cases hballot : H.ballot i t with
  | none => rfl
  | some b =>
    have := hl.inv.ballot_le i t b hballot
    omega

theorem voteOf_none (h : H.ballot i (H.term i) = none) : voteOf H i = "" := by
  unfold voteOf
  rw [h]

theorem voteOf_some {c : NodeId} {l : List (LogEntry δ)} (h : H.ballot i (H.term i) = some (c, l)) :
    voteOf H i = c := by
  unfold voteOf
  rw [h]

/-- An empty vote is none: the nodes have names. -/
theorem Legit.ballot_none (hl : Legit C H) (h : voteOf H i = "") : H.ballot i (H.term i) = none := by
  cases hballot : H.ballot i (H.term i) with
  | none => rfl
  | some b =>
    rw [voteOf_some hballot] at h
    exact absurd h (C.named_of_mem (hl.named _ _ _ _ hballot))

/-- A vote that is not empty was cast. -/
theorem Legit.ballot_some (h : voteOf H i ≠ "") : ∃ l, H.ballot i (H.term i) = some (voteOf H i, l) := by
  cases hballot : H.ballot i (H.term i) with
  | none => exact absurd (voteOf_none hballot) h
  | some b => exact ⟨b.2, by rw [voteOf_some hballot]⟩

theorem applied_of_append {events : List (Event δ)} {event : Event δ} (hother : ∀ k data, event ≠ .applied k data)
    {k : Nat} {data : δ} (hmem : .applied k data ∈ events ++ [event]) : .applied k data ∈ events := by
  rcases List.mem_append.mp hmem with hold | hnew
  · exact hold
  · exact absurd (List.mem_singleton.mp hnew).symm (hother k data)

/-- The log info of a node without snapshots is that of its log. -/
theorem Live.getLastLogInfo (h : Live C H i n) : n.mem.getLastLogInfo = ((H.log i).length, lastTermOf (H.log i)) := by
  have hspells := h.durable.log
  rw [← h.log] at hspells
  simp only [Replicator.getLastLogInfo, hspells.lastIndexAndTerm, h.included, h.includedTerm]
  split
  · next hzero => rw [hzero.1, hzero.2]
  · rfl

/-! ## Stepping down -/

theorem applied_demote {newTerm : Nat} {leaderID : NodeId} (k : Nat) (data : δ)
    (hmem : Event.applied k data ∈ (n.demote newTerm leaderID).events) : Event.applied k data ∈ n.events := by
  rcases List.mem_append.mp hmem with hold | hnew
  · exact hold
  · obtain ⟨call, _, heq⟩ := List.mem_map.mp hnew
    cases heq

/-- What `stepDownLocked` leaves in memory, and then on disk. -/
theorem Live.demote (hl : Legit C H) (h : Live C H i n) {newTerm : Nat} (hlt : H.term i < newTerm)
    (leaderID : NodeId) : Live C { H with term := Function.update H.term i newTerm } i
      (n.demote newTerm leaderID).putStable := by
  have hmoved := Moved.observe hl (Nat.le_of_lt hlt)
  have hg := hmoved.grows hl
  have hterm : Function.update H.term i newTerm i = newTerm := Function.update_self ..
  have hvote : voteOf { H with term := Function.update H.term i newTerm } i = "" := by
    apply voteOf_none
    simpa only [hterm] using hl.unvoted hlt
  refine ⟨⟨?_, h.durable.log, h.durable.snapshot, ?_⟩, ?_, ?_, h.log, h.included, h.includedTerm, ?_,
    .inl rfl, fun hleader => (nomatch hleader), fun hcandidate => (nomatch hcandidate), ?_⟩
  · rw [hvote]
    simp only [hterm]
    rfl
  · intro k data hmem
    obtain ⟨e, hpos, hchosen, hdata⟩ := h.durable.events k data (applied_demote k data hmem)
    exact ⟨e, hpos, hchosen.grows hg, hdata⟩
  · exact hterm.symm
  · exact hvote.symm
  · exact h.commit.grows hg (List.prefix_refl _)
  · exact h.tally

/-- **Stepping down is hearing of a term.** -/
theorem sim_stepDown (hl : Legit C H) (h : Live C H i n) {newTerm : Nat} (hlt : H.term i < newTerm)
    (leaderID : NodeId) : Sim C i H (stepDown newTerm leaderID) n fun err H' n' =>
      err = none ∧ H'.term i = newTerm ∧ n'.mem.state = .follower := by
  have hmoved := Moved.observe hl (Nat.le_of_lt hlt)
  have hlive := h.demote hl hlt leaderID
  have hold : Durable C H i (n.demote newTerm leaderID) :=
    { h.durable with events := fun k data hmem => h.durable.events k data (applied_demote k data hmem) }
  apply sim_update_bind
  apply sim_persist hl hold hmoved hlive
  exact sim_pure hmoved.legit hlive ⟨rfl, Function.update_self .., rfl⟩

/-! ## Granting a vote -/

variable {req : RequestVoteArgs}

/-- The comparison of `logIsUpToDate` is that of the history. -/
theorem Live.upToDate (h : Live C H i n) {l : List (LogEntry δ)}
    (hindex : req.lastLogIndex = ((l.length : Nat) : Int)) (hterm : req.lastLogTerm = ((lastTermOf l : Nat) : Int))
    (hup : n.mem.logIsUpToDate req = true) : (rules C).UpToDate l (H.log i) := by
  simp only [Replicator.logIsUpToDate, h.getLastLogInfo, hindex, hterm, decide_eq_true_eq] at hup
  rcases hup with hlater | ⟨hsame, hlonger⟩
  · exact .inl (Int.ofNat_lt.mp hlater)
  · exact .inr ⟨(Int.ofNat_inj.mp hsame).symm, Int.ofNat_le.mp hlonger⟩

/-- A vote in memory that the history has. -/
theorem Live.vote_for (hl : Legit C H) (h : Live C H i n) {c : NodeId} (hc : c ∈ C.ids)
    (hfree : voteOf H i = "" ∨ voteOf H i = c)
    (hlog : i = c ∨ ∃ l, H.ballot c (H.term i) = some (c, l) ∧ (rules C).UpToDate l (H.log i)) :
    ∃ H', Moved C i H H' ∧ H'.term i = H.term i ∧ (∃ l, H'.ballot i (H.term i) = some (c, l)) ∧
      Live C H' i (n.withMem fun r => { r with votedFor := c }).putStable := by
  have hname := C.named_of_mem hc
  by_cases hnone : voteOf H i = ""
  · have hunvoted := hl.ballot_none hnone
    have hmoved := Moved.cast hl hc hunvoted hlog
    have hg := hmoved.grows hl
    refine ⟨_, hmoved, rfl, ⟨H.log i, by simp⟩, ?_⟩
    have hvote : voteOf { H with
        ballot := Function.update H.ballot i
          (Function.update (H.ballot i) (H.term i) (some (c, H.log i))) } i = c := by
      apply voteOf_some (l := H.log i)
      simp
    refine ⟨⟨?_, h.durable.log, h.durable.snapshot, ?_⟩, h.term, hvote.symm, h.log, h.included,
      h.includedTerm, h.commit.grows hg (List.prefix_refl _), h.batch, ?_, ?_, ?_⟩
    · rw [hvote, ← h.term]
      rfl
    · intro k data hmem
      obtain ⟨e, hpos, hchosen, hdata⟩ := h.durable.events k data hmem
      exact ⟨e, hpos, hchosen.grows hg, hdata⟩
    · intro hleader
      have hlead := h.leading hleader
      exact ⟨hlead.crowned, hlead.own, hlead.matched⟩
    · intro hcandidate
      -- a candidate has voted
      rw [(h.standing hcandidate).1] at hunvoted
      cases hunvoted
    · intro el hel
      obtain ⟨voters, htally⟩ := h.tally el hel
      refine ⟨voters, htally.mono ?_⟩
      intro v ⟨l, hballot⟩
      exact ⟨l, hg.ballot _ _ _ hballot⟩
  · have hsame : voteOf H i = c := hfree.resolve_left hnone
    obtain ⟨l, hballot⟩ := Legit.ballot_some hnone
    refine ⟨H, .refl hl, rfl, ⟨l, hsame ▸ hballot⟩, ?_⟩
    have hstable : getState (n.withMem fun r => { r with votedFor := c }).putStable.disk.stable =
        ⟨H.term i, voteOf H i⟩ := by
      rw [hsame, ← h.term]
      rfl
    exact { h with durable := { h.durable with stable := hstable }, vote := hsame.symm }

/-- **Granting a vote is casting it.** -/
theorem sim_decideVote (hl : Legit C H) (h : Live C H i n) {src dst : NodeId}
    (hreq : Honest C H (.voteRequest src dst (H.term i) req)) : Sim C i H (decideVote req) n fun out H' _ =>
      out.1.voteGranted = true → ∃ l, H'.ballot i (H.term i) = some (src, l) := by
  obtain ⟨_, hcandidate, hsrc, l, hballot, hindex, hterm⟩ := hreq
  apply sim_read_bind
  apply sim_ite
  · intro ⟨hfree, hup⟩
    rw [h.vote, hcandidate] at hfree
    have hlog := h.upToDate hindex hterm hup
    obtain ⟨H', hmoved, _, hvoted, hlive⟩ := h.vote_for hl hsrc hfree (.inr ⟨l, hballot, hlog⟩)
    have hold : Durable C H i (n.withMem fun r => { r with votedFor := src }) := { h.durable with }
    apply sim_update_bind
    rw [hcandidate]
    apply sim_persist hl hold hmoved hlive
    exact sim_pure hmoved.legit hlive fun _ => hvoted
  · intro _
    exact sim_pure hl h fun hgranted => (nomatch hgranted)

/-- **`HandleRequestVote`.** A granting reply tells of a vote. -/
theorem sim_handleRequestVote (hl : Legit C H) (h : Live C H i n) {src dst : NodeId} {savedTerm : Nat}
    (hreq : Honest C H (.voteRequest src dst savedTerm req)) : Sim C i H (handleRequestVote req) n fun out H' _ =>
      out.1.voteGranted = true → ∃ l, H'.ballot i savedTerm = some (src, l) := by
  have hreqTerm : req.term = ((savedTerm : Nat) : Int) := hreq.1
  apply sim_read_bind
  apply sim_ite
  · intro _
    exact sim_pure hl h fun hgranted => (nomatch hgranted)
  intro hstale
  apply sim_ite
  · intro hlater
    have hlt : H.term i < savedTerm := by
      rw [hreqTerm, h.term] at hlater
      exact Int.ofNat_lt.mp hlater
    have hnew : uint64 req.term = savedTerm := by
      rw [hreqTerm]
      rfl
    rw [hnew]
    apply sim_bind (sim_stepDown hl h hlt "")
    intro err H' n' hl' h' hmoved ⟨hnone, hterm, _⟩
    subst hnone
    subst hterm
    exact sim_decideVote hl' h' (hreq.grows (hmoved.grows hl))
  · intro hlater
    have hsame : savedTerm = H.term i := by
      rw [hreqTerm, h.term] at hlater hstale
      have hle : ¬ H.term i < savedTerm := fun hlt => hlater (Int.ofNat_lt.mpr hlt)
      have hge : ¬ savedTerm < H.term i := fun hlt => hstale (Int.ofNat_lt.mpr hlt)
      omega
    subst hsame
    exact sim_decideVote hl h hreq

/-! ## Standing for election -/

/-- A candidate that a majority has voted for, in the memory `becomeLeaderLocked` leaves. -/
theorem Live.crowned (hl : Legit C H) (h : Live C H i n) (hcandidate : n.mem.state = .candidate)
    {part : List NodeId} (hpart : Majority C.ids part)
    (hvotes : ∀ v ∈ part, ∃ l, H.ballot v (H.term i) = some (i, l)) :
    ∃ H', Moved C i H H' ∧ Live C H' i ((n.withMem fun r => { r.lead i C.nodes with pendingBatch := [] }).emit
        (.becameLeader n.mem.currentTerm)) := by
  obtain ⟨hown, hfree⟩ := h.standing hcandidate
  have hcrown := Moved.crowned hl hpart hown hfree hvotes h.durable.log.numbered
  -- the new leader has its own log
  have hack := Moved.acknowledge (i := i) (k := (H.log i).length) hcrown.legit (by simp) (by simp)
  have hmoved := hcrown.trans hack
  have hg := hmoved.grows hl
  refine ⟨_, hmoved, ?_⟩
  have hdurable := h.durable.grows hg rfl rfl fun _ => rfl
  refine ⟨{ hdurable with events := fun k data hmem => ?_ }, h.term, h.vote, h.log, h.included, h.includedTerm,
    h.commit.grows hg (List.prefix_refl _), .inl rfl, fun _ => ⟨⟨H.log i, ?_⟩, ?_, ?_⟩,
    fun hnot => (nomatch hnot), h.tally⟩
  · exact hdurable.events k data (applied_of_append (fun _ _ h => by cases h) hmem)
  · simp
  · simp
  · intro p hp
    obtain ⟨hmem, hne⟩ := List.mem_filter.mp hp
    have hzero : (n.mem.lead i C.nodes).matchIndex p = 0 := by
      simp only [Replicator.lead, if_neg (of_decide_eq_true hne), if_pos hmem, h.included]
    exact hzero.trans_le (Nat.zero_le _)

/-- **Entering the leader state is being crowned.** -/
theorem sim_becomeLeader (hl : Legit C H) (h : Live C H i n) (hcandidate : n.mem.state = .candidate)
    {part : List NodeId} (hpart : Majority C.ids part)
    (hvotes : ∀ v ∈ part, ∃ l, H.ballot v (H.term i) = some (i, l)) :
    Sim C i H (becomeLeader (C.env i) C.nodes) n fun _ _ _ => True := by
  obtain ⟨H', hmoved, hlive⟩ := h.crowned hl hcandidate hpart hvotes
  have hbatch : n.mem.pendingBatch = [] := by
    rcases h.batch with hnil | ⟨hleader, _⟩
    · exact hnil
    · rw [hcandidate] at hleader
      cases hleader
  apply Sim.after hmoved
  apply sim_read_bind
  apply sim_update_bind
  rw [hbatch]
  exact sim_pure hmoved.legit hlive trivial

/-- A node that has just voted for itself in the next term. -/
theorem Live.campaign (hl : Legit C H) (h : Live C H i n) (hi : i ∈ C.ids) (hrole : n.mem.state ≠ .leader) :
    ∃ H', Moved C i H H' ∧ H'.ballot i (H'.term i) = some (i, H'.log i) ∧ Live C H' i (n.withMem fun r =>
        { r with state := .candidate, currentTerm := succ64 r.currentTerm, votedFor := i }).putStable := by
  have hobserve := Moved.observe (i := i) hl (Nat.le_add_right (H.term i) 1)
  have hterm : Function.update H.term i (H.term i + 1) i = H.term i + 1 := Function.update_self ..
  have hfree : H.ballot i (H.term i + 1) = none := hl.unvoted (Nat.lt_succ_self _)
  have hcast := Moved.cast hobserve.legit hi (by simpa only [hterm] using hfree) (.inl rfl)
  have hmoved := hobserve.trans hcast
  have hg := hmoved.grows hl
  refine ⟨_, hmoved, by simp, ?_⟩
  have hbatch : n.mem.pendingBatch = [] := by
    rcases h.batch with hnil | ⟨hleader, _⟩
    · exact hnil
    · exact absurd hleader hrole
  have hvote : voteOf { H with
      term := Function.update H.term i (H.term i + 1)
      ballot := Function.update H.ballot i
        (Function.update (H.ballot i) (Function.update H.term i (H.term i + 1) i)
          (some (i, H.log i))) } i = i := by
    apply voteOf_some (l := H.log i)
    simp
  have hnext : succ64 n.mem.currentTerm = Function.update H.term i (H.term i + 1) i := by
    rw [hterm, h.term]
    rfl
  refine ⟨⟨?_, h.durable.log, h.durable.snapshot, ?_⟩, hnext, hvote.symm, h.log, h.included,
    h.includedTerm, h.commit.grows hg (List.prefix_refl _), .inl hbatch,
    fun hnot => (nomatch hnot), fun _ => ⟨by simp, ?_⟩, ?_⟩
  · exact congrArg₂ StableState.mk hnext hvote.symm
  · intro k data hmem
    obtain ⟨e, hpos, hchosen, hdata⟩ := h.durable.events k data hmem
    exact ⟨e, hpos, hchosen.grows hg, hdata⟩
  · intro l hcrown
    have hle : Function.update H.term i (H.term i + 1) i ≤ H.term i := hl.inv.crown_le _ _ _ hcrown
    rw [hterm] at hle
    omega
  · intro el hel
    obtain ⟨voters, htally⟩ := h.tally el hel
    refine ⟨voters, htally.mono ?_⟩
    intro v ⟨l, hballot⟩
    exact ⟨l, hg.ballot _ _ _ hballot⟩

/-- **Standing for election is hearing of the next term and voting for oneself in it.** -/
theorem sim_startElection (hl : Legit C H) (h : Live C H i n) (hi : i ∈ C.ids) (hrole : n.mem.state ≠ .leader) :
    Sim C i H (startElection (C.env i)) n fun requests H' _ =>
      ∀ r ∈ requests, Honest C H' (.voteRequest i r.1 (uint64 r.2.term) r.2) := by
  obtain ⟨H', hmoved, hballot, hlive⟩ := h.campaign hl hi hrole
  have hl' := hmoved.legit
  have hold : Durable C H i (n.withMem fun r =>
      { r with state := .candidate, currentTerm := succ64 r.currentTerm, votedFor := i }) := { h.durable with }
  apply sim_update_bind
  apply sim_read_bind
  apply sim_persist hl hold hmoved hlive
  show Sim C i H' (if C.nodes.length = 1 then _ else _) _ _
  apply sim_ite
  · intro hone
    have hself : ∀ v ∈ [i], ∃ l, H'.ballot v (H'.term i) = some (i, l) := by
      simpa using ⟨_, hballot⟩
    apply sim_bind (sim_becomeLeader hl' hlive rfl (majority_singleton hi hone) hself)
    intro _ H'' n'' hl'' hlive'' _ _
    exact sim_pure hl'' hlive'' fun r hr => (nomatch hr)
  · intro _
    apply sim_update_bind
    apply sim_pure hl'
    · refine { hlive with durable := { hlive.durable with }, tally := ?_ }
      intro el hel
      cases hel
      exact ⟨[], tally_nil C i _ _⟩
    · intro r hr
      obtain ⟨p, _, rfl⟩ := List.mem_map.mp hr
      have hinfo := hlive.getLastLogInfo
      have hterm := hlive.term
      refine ⟨?_, rfl, hi, H'.log i, ?_, ?_, ?_⟩
      · rfl
      · rw [← hballot, ← hterm]
        rfl
      · exact congrArg (fun x : Nat × Nat => ((x.1 : Nat) : Int)) hinfo
      · exact congrArg (fun x : Nat × Nat => ((x.2 : Nat) : Int)) hinfo

/-- **`startElectionLocked`'s goroutines.** A vote is counted once, and a quorum of them crowns. -/
theorem sim_handleVoteReply (hl : Legit C H) (h : Live C H i n) (hi : i ∈ C.ids) {peer : NodeId} {savedTerm : Nat}
    {reply : RequestVoteReply} (hreply : Honest C H (.voteReply peer i savedTerm reply)) :
    Sim C i H (handleVoteReply (C.env i) peer savedTerm reply) n fun _ _ _ => True := by
  apply sim_read_bind
  cases hel : n.mem.election with
  | none => exact sim_pure hl h trivial
  | some el =>
    obtain ⟨voters, htally⟩ := h.tally el hel
    apply sim_ite
    · exact fun _ => sim_pure hl h trivial
    intro hwaiting
    obtain ⟨hsaved, hpeer⟩ := not_or.mp hwaiting
    have hsaved := not_not.mp hsaved
    have hpeer := not_not.mp hpeer
    subst hsaved
    have htaken : Live C H i (n.withMem fun r =>
        { r with election := some { el with waiting := el.waiting.erase peer } }) := by
      refine { h with durable := { h.durable with }, tally := ?_ }
      intro el' hel'
      cases hel'
      exact ⟨voters, htally.take⟩
    apply sim_update_bind
    apply sim_ite
    · exact fun _ => sim_pure hl htaken trivial
    intro hcurrent
    obtain ⟨hcandidate, hterm⟩ := not_or.mp hcurrent
    have hcandidate := not_not.mp hcandidate
    have hterm : el.savedTerm = H.term i := (not_not.mp hterm).symm.trans h.term
    apply sim_ite
    · intro hlater
      have hlt : H.term i < uint64 reply.term := by
        rw [h.term] at hlater
        exact Int.lt_toNat.mpr hlater
      apply sim_bind (sim_stepDown hl htaken hlt "")
      intro _ H' n' hl' h' _ _
      exact sim_pure hl' h' trivial
    intro _
    apply sim_ite
    · intro hgranted
      have hcounted := htally.count_vote hpeer (hreply hgranted)
      have hlive : Live C H i ((n.withMem fun r =>
          { r with election := some { el with waiting := el.waiting.erase peer } }).withMem fun r =>
          { r with
            election := some { el with
              waiting := el.waiting.erase peer
              votesReceived := el.votesReceived + 1 } }) := by
        refine { htaken with durable := { htaken.durable with }, tally := ?_ }
        intro el' hel'
        cases hel'
        exact ⟨peer :: voters, hcounted⟩
      apply sim_update_bind
      apply sim_ite
      · intro hquorum
        apply sim_becomeLeader hl hlive hcandidate (hcounted.majority hi hquorum)
        intro v hv
        rw [← hterm]
        rcases List.mem_cons.mp hv with rfl | hv
        · rw [hterm]
          exact ⟨_, (h.standing hcandidate).1⟩
        · exact hcounted.granted v hv
      · exact fun _ => sim_pure hl hlive trivial
    · exact fun _ => sim_pure hl htaken trivial

end Voting

end Sandstore.Raft
