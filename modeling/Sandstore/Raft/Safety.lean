import Sandstore.Raft.Following

/-!
# Safety of the replicated log

Every move of a cluster whose writes return no errors is a sequence of steps of its history
(`Accounts.step`). Each node's moves are its own steps, so the other nodes are accounted for as
before, and a packet that is sent says what the history has just come to say. Two laws of the history
are then laws of the cluster:

**State machine safety.** No two applier calls are made at one index with different data
(`state_machine_safety`): both entries are chosen.

**Log matching.** Two stores that hold entries of one term at one index are the same up to there
(`log_matching`): both are prefixes of that term's log.
-/

namespace Sandstore.Raft

open Lib Lib.Proc Lib.Consensus

section Safety

attribute [local instance] Conv.exact

variable {δ σ : Type} {C : Cluster} {M : Machine δ σ} {w w' : World δ σ} {H : History δ}

/-- The fates of an action's writes. -/
def Action.fates : Action δ → List Fate
  | .own _ _ fates => fates
  | .deliver _ fates => fates
  | _ => []

/-- None of the action's writes returns an error. A process may still die in one of them. -/
def Action.fine (a : Action δ) : Prop := ∀ f ∈ a.fates, f.fine

/-! ## One move -/

variable {id : NodeId}

/-- One node has moved by its own steps and sent packets that the history vouches for. -/
theorem Accounts.move (h : Accounts C H w) {H' : History δ} (hm : Moved C id H H')
    {n : Node δ σ} (up : Bool) (hdurable : Durable C H' id n) (hlive : up = true → Live C H' id n)
    (packets : List (Packet δ)) (hhonest : ∀ p ∈ packets, Honest C H' p) :
    Accounts C H' ((w.set id ⟨n, up⟩).send packets) where
  legit := hm.legit
  durable := by
    intro j
    by_cases hj : j = id
    · subst hj
      simpa using hdurable
    · simpa [hj] using hm.durable h.legit hj (h.durable j)
  live := by
    intro j hup
    by_cases hj : j = id
    · subst hj
      simpa using hlive (by simpa [World.send, World.set] using hup)
    · have hold : (w.host j).up = true := by simpa [World.send, World.set, hj] using hup
      simpa [hj] using hm.live h.legit hj (h.live j hold)
  honest := by
    intro p hp
    rcases List.mem_append.mp hp with hold | hnew
    · exact (h.honest p hold).grows (hm.grows h.legit)
    · exact hhonest p hnew

theorem Accounts.move_silent (h : Accounts C H w) {H' : History δ}
    (hm : Moved C id H H') {n : Node δ σ} (up : Bool) (hdurable : Durable C H' id n)
    (hlive : up = true → Live C H' id n) : Accounts C H' (w.set id ⟨n, up⟩) := by
  have hmove := h.move hm up hdurable hlive [] fun p hp => (nomatch hp)
  rwa [World.send_nil] at hmove

variable {fates : List Fate}

theorem Accounts.act (h : Accounts C H w) {i : Input δ} {reply : Output → List (Packet δ)}
    (hfates : ∀ f ∈ fates, f.fine) (hsim : id ∈ C.ids → Live C H id (w.node id) →
      Sim C id H (program (C.env id) M i) (w.node id) fun out H' _ => ∀ p ∈ reply out, Honest C H' p)
    (hs : w.act C M id i fates reply = some w') : ∃ H', Steps (rules C) H H' ∧ Accounts C H' w' := by
  apply World.act_cases Fate.fine hfates hs (fun hid hup => hsim hid (h.live id hup))
  · intro out n ⟨H', hm, hlive, hhonest⟩
    exact ⟨H', hm.steps, h.move hm true hlive.durable (fun _ => hlive) _ hhonest⟩
  · intro n ⟨H', hm, hdurable⟩
    exact ⟨H', hm.steps, h.move_silent hm false hdurable fun hup => (nomatch hup)⟩

/-- `Start` over a node's files: it follows, and remembers what they say. -/
theorem Durable.reboot {n n' : Node δ σ} (h : Durable C H id n) (hr : reboot n = some n') : Live C H id n' := by
  obtain ⟨hstart, hdisk, hevents⟩ := reboot_eq hr
  have hmem := start_eq hstart
  have hrecovered : recovered n.disk =
      { currentTerm := (getState n.disk.stable).term
        votedFor := (getState n.disk.stable).votedFor
        logStore := FileLogStore.load n.disk.wal } := by
    simp [recovered, h.snapshot, loadSnapshot]
  rw [hrecovered, h.stable] at hmem
  obtain ⟨disk, mem, events⟩ := n'
  subst hmem hdisk hevents
  exact
    { durable := { h with }
      term := rfl
      vote := rfl
      log := rfl
      included := rfl
      includedTerm := rfl
      commit := ⟨Nat.zero_le _, .inl rfl⟩
      batch := .inl rfl
      leading := fun hleader => (nomatch hleader)
      standing := fun hcandidate => (nomatch hcandidate)
      tally := fun _ hel => (nomatch hel) }

theorem Accounts.own (h : Accounts C H w) (hthreshold : C.snapshotThresholdLogs = 0)
    {i : Input δ} (hlocal : i.local = true) (hfates : ∀ f ∈ fates, f.fine)
    (hs : w.act C M id i fates (ownPackets id i) = some w') : ∃ H', Steps (rules C) H H' ∧ Accounts C H' w' := by
  apply h.act hfates _ hs
  intro hid hlive
  have hl := h.legit
  cases i with
  | electionTimeout =>
    apply sim_read_bind
    apply sim_ite
    · exact fun _ => sim_pure hl hlive fun p hp => (nomatch hp)
    · intro hrole
      apply sim_bind (sim_startElection hl hlive hid hrole)
      intro requests H' n' hl' h' _ hhonest
      apply sim_pure hl' h'
      intro p hp
      obtain ⟨r, hr, rfl⟩ := List.mem_map.mp hp
      exact hhonest r hr
  | batchTick =>
    have htick : Sim C id H batchTick (w.node id) fun _ _ _ => True := by
      apply sim_read_bind
      apply sim_ite
      · exact fun _ => sim_flushPendingBatch hl hlive
      · exact fun _ => sim_pure hl hlive trivial
    apply sim_bind htick
    intro _ H' n' hl' h' _ _
    exact sim_pure hl' h' fun p hp => (nomatch hp)
  | replicate data call =>
    apply sim_bind (sim_replicate hl hlive data call)
    intro _ H' n' hl' h' _ _
    exact sim_pure hl' h' fun p hp => (nomatch hp)
  | cancel entryIndex call =>
    apply sim_update_bind
    apply sim_pure hl _ fun p hp => (nomatch hp)
    refine { hlive with durable := { hlive.durable with events := fun k data hmem => ?_ } }
    exact hlive.durable.events k data (applied_of_append (fun _ _ h => by cases h) hmem)
  | checkCompaction =>
    -- a threshold of zero turns compaction off
    have hnone : (w.node id).mem.chooseSnapshot (C.env id).snapshotThresholdLogs = none := by
      simp [Replicator.chooseSnapshot, Cluster.env, hthreshold]
    have hcheck : Sim C id H (checkCompaction (C.env id) M) (w.node id) fun _ _ _ => True := by
      apply sim_read_bind
      rw [hnone]
      exact sim_pure hl hlive trivial
    apply sim_bind hcheck
    intro _ H' n' hl' h' _ _
    exact sim_pure hl' h' fun p hp => (nomatch hp)
  | _ => cases hlocal

theorem Accounts.handle (h : Accounts C H w) {packet : Packet δ} (hmem : packet ∈ w.net)
    (hfates : ∀ f ∈ fates, f.fine) (hs : w.handle C M fates packet = some w') :
    ∃ H', Steps (rules C) H H' ∧ Accounts C H' w' := by
  have hhonest := h.honest packet hmem
  have hl := h.legit
  cases packet with
  | voteRequest src dst savedTerm req =>
    apply h.act hfates _ hs
    intro hid hlive
    apply sim_bind (sim_handleRequestVote hl hlive hhonest)
    intro ⟨reply, err⟩ H' n' hl' h' _ hpost
    apply sim_pure hl' h'
    intro p hp
    cases err with
    | some err => cases hp
    | none =>
      cases List.mem_singleton.mp hp
      exact hpost
  | voteReply src dst savedTerm reply =>
    apply h.act hfates _ hs
    intro hid hlive
    apply sim_bind (sim_handleVoteReply hl hlive hid hhonest)
    intro _ H' n' hl' h' _ _
    exact sim_pure hl' h' fun p hp => (nomatch hp)
  | append src work =>
    apply h.act hfates _ hs
    intro hid hlive
    apply sim_bind (sim_handleAppendEntries M hl hlive hhonest rfl)
    intro ⟨reply, err⟩ H' n' hl' h' hm hpost
    apply sim_pure hl' h'
    intro p hp
    cases err with
    | some err => cases hp
    | none =>
      cases List.mem_singleton.mp hp
      exact ⟨Sent.grows hhonest (hm.grows hl), hpost⟩
  | appendReply dst work reply =>
    apply h.act hfates _ hs
    intro hid hlive
    apply sim_bind (sim_handleAppendReply M hl hlive hid hhonest)
    intro _ H' n' hl' h' _ _
    exact sim_pure hl' h' fun p hp => (nomatch hp)
  | snapshot src work => exact hhonest.elim
  | snapshotReply dst work reply => exact hhonest.elim

/-- **Every move of the cluster is a sequence of steps of its history.** -/
theorem Accounts.step (h : Accounts C H w) (hthreshold : C.snapshotThresholdLogs = 0) {a : Action δ}
    (hfine : a.fine) (hs : w.step C M a = some w') : ∃ H', Steps (rules C) H H' ∧ Accounts C H' w' := by
  cases a with
  | restart id =>
    dsimp only [World.step] at hs
    split at hs
    · obtain ⟨n, hr, rfl⟩ := Option.map_eq_some_iff.mp hs
      have hlive := (h.durable id).reboot hr
      exact ⟨H, .refl, h.move_silent (.refl h.legit) true hlive.durable fun _ => hlive⟩
    · cases hs
  | crash id =>
    cases hs
    exact ⟨H, .refl, h.move_silent (.refl h.legit) false (h.durable id) fun hup => (nomatch hup)⟩
  | own id i fates =>
    dsimp only [World.step] at hs
    split at hs
    · next hlocal => exact h.own hthreshold hlocal hfine hs
    · cases hs
  | broadcast id =>
    dsimp only [World.step] at hs
    split at hs
    · next hup =>
      cases hs
      have hlive := h.live id hup.2
      refine ⟨H, .refl, h.legit, h.durable, h.live, fun p hp => ?_⟩
      rcases List.mem_append.mp hp with hold | hnew
      · exact h.honest p hold
      · obtain ⟨work, hwork, rfl⟩ := List.mem_map.mp hnew
        exact hlive.broadcast h.legit work hwork
    · cases hs
  | deliver k fates =>
    dsimp only [World.step] at hs
    split at hs
    · next packet hk => exact h.handle (List.mem_of_getElem? hk) hfine hs
    · cases hs

theorem accounts_init (machine : σ) : Accounts C (State.init : History δ) (World.init machine : World δ σ) where
  legit := ⟨Inv.init, fun _ _ _ _ h => (nomatch h), fun _ _ _ h => (nomatch h)⟩
  durable := fun _ => ⟨rfl, spells_empty, rfl, fun _ _ h => (nomatch h)⟩
  live := fun _ h => (nomatch h)
  honest := fun _ h => (nomatch h)

theorem Accounts.run (h : Accounts C H w) (hthreshold : C.snapshotThresholdLogs = 0) {acts : List (Action δ)}
    (hfine : ∀ a ∈ acts, a.fine) (hrun : exec (World.step C M) w acts = some w') :
    ∃ H', Steps (rules C) H H' ∧ Accounts C H' w' := by
  apply exec_along (I := fun w : World δ σ => ∃ H', Steps (rules C) H H' ∧ Accounts C H' w) _
    acts ⟨H, .refl, h⟩ (along_of_mem acts _ fun a ha _ => hfine a ha) hrun
  intro w a w' ⟨H', hsteps, h'⟩ ha hs
  obtain ⟨H'', hmore, h''⟩ := h'.step hthreshold ha hs
  exact ⟨H'', Relation.ReflTransGen.trans hsteps hmore, h''⟩

/-- **Refinement.** Every run whose writes return no errors is accounted for by a history that the
steps of the consensus library lead to. -/
theorem run_accounts (C : Cluster) (hthreshold : C.snapshotThresholdLogs = 0) (M : Machine δ σ)
    (machine : σ) {acts : List (Action δ)} (hfine : ∀ a ∈ acts, a.fine)
    (hrun : exec (World.step C M) (World.init machine) acts = some w) :
    ∃ H, Steps (rules C) State.init H ∧ Accounts C H w := (accounts_init machine).run hthreshold hfine hrun

/-! ## The two laws -/

/-- **State machine safety.** In a cluster that takes no snapshots, in every run of elections, client
commands, flushes, broadcasts, deliveries (late, repeated, out of order or never), crashes at any
write and restarts, with log and stable writes that return no errors: no two applier calls, on any
nodes and in any of their lives, are made at one index with different data. The applier may fail as
it likes, the machine being any function over any state. -/
theorem state_machine_safety (C : Cluster) (hthreshold : C.snapshotThresholdLogs = 0)
    (M : Machine δ σ) (machine : σ) (acts : List (Action δ)) (hfine : ∀ a ∈ acts, a.fine)
    {w : World δ σ} (hrun : exec (World.step C M) (World.init machine) acts = some w)
    (a b : NodeId) (k : Nat) (data data' : δ) (ha : Event.applied k data ∈ (w.node a).events)
    (hb : Event.applied k data' ∈ (w.node b).events) : data = data' := by
  obtain ⟨H, _, h⟩ := run_accounts C hthreshold M machine hfine hrun
  obtain ⟨e, _, hchosen, rfl⟩ := (h.durable a).events k data ha
  obtain ⟨e', _, hchosen', rfl⟩ := (h.durable b).events k data' hb
  rw [hchosen.unique h.legit.inv hchosen']

/-- "a" is elected, replicates 7 to "b" and commits it, and "b" hears of it. -/
def replicateA : List (Action Byte) :=
  electA ++
    [.own "a" (.replicate 7 0) [], .broadcast "a", .deliver 3 [], .deliver 5 [], .broadcast "a",
      .deliver 6 []]

theorem state_machine_safety_replicated :
    ∃ w : World Byte Bytes, exec (World.step threeNodes tape) (World.init []) replicateA = some w ∧
      Event.applied 1 7 ∈ (w.node "a").events ∧ Event.applied 1 7 ∈ (w.node "b").events ∧
      ∀ b data, Event.applied 1 data ∈ (w.node b).events → data = 7 := by
  have hfine : ∀ a ∈ replicateA, a.fine := by
    simp [replicateA, electA, Action.fine, Action.fates]
  have ha : Event.applied 1 (7 : Byte) ∈ [.becameLeader 1, .applied 1 7, .notified 0 none] := by simp
  have hb : Event.applied 1 (7 : Byte) ∈ [Event.applied 1 7] := by simp
  refine ⟨_, rfl, ha, hb, fun b data hmem => ?_⟩
  exact state_machine_safety threeNodes rfl tape [] replicateA hfine rfl b "a" 1 data 7 hmem ha

/-- The log store of a node: the one in memory, or the file it left. -/
def World.logStore (w : World δ σ) (id : NodeId) : FileLogStore δ :=
  if (w.host id).up then (w.node id).mem.logStore else FileLogStore.load (w.node id).disk.wal

theorem Accounts.spells (h : Accounts C H w) (id : NodeId) : Spells (w.logStore id) (H.log id) := by
  unfold World.logStore
  split
  · next hup => exact (h.live id hup).spells
  · exact (h.durable id).log

/-- **Log matching.** In every state of such a run, if the stores of two nodes hold entries of one
term at an index, then at every index up to there both hold entries, of one term and with one data. -/
theorem log_matching (C : Cluster) (hthreshold : C.snapshotThresholdLogs = 0) (M : Machine δ σ)
    (machine : σ) (acts : List (Action δ)) (hfine : ∀ a ∈ acts, a.fine) {w : World δ σ}
    (hrun : exec (World.step C M) (World.init machine) acts = some w) (a b : NodeId) (k : Nat)
    (e e' : LogEntry δ) (he : (w.logStore a).getLog k = .ok e) (he' : (w.logStore b).getLog k = .ok e')
    (hterm : e.term = e'.term) (j : Nat) (hpos : 1 ≤ j) (hj : j ≤ k) :
    ∃ x y, (w.logStore a).getLog j = .ok x ∧ (w.logStore b).getLog j = .ok y ∧ x.term = y.term ∧
      x.data = y.data := by
  obtain ⟨H, _, h⟩ := run_accounts C hthreshold M machine hfine hrun
  have hinv := h.legit.inv
  obtain ⟨k, rfl⟩ : ∃ k', k = k' + 1 := ⟨k - 1, by omega⟩
  obtain ⟨j, rfl⟩ : ∃ j', j = j' + 1 := ⟨j - 1, by omega⟩
  rw [(h.spells a).getLog_ok] at he
  rw [(h.spells b).getLog_ok] at he'
  have hof : (rules C).termOf e = (rules C).termOf e' := congrArg Int.toNat hterm
  have hsame := (hinv.coherent a).agree (hinv.coherent b) he he' hof
  obtain ⟨hlt, _⟩ := List.getElem?_eq_some_iff.mp he
  have hat : (H.log a)[j]? = some (H.log a)[j] := List.getElem?_eq_getElem (by omega)
  have hat' : (H.log b)[j]? = some (H.log a)[j] := by
    have htake : ((H.log a).take (k + 1))[j]? = some (H.log a)[j] := by
      rw [List.getElem?_take, if_pos (by omega)]
      exact hat
    rw [hsame, List.getElem?_take, if_pos (by omega)] at htake
    exact htake
  exact ⟨_, _, (h.spells a).getLog_ok.mpr hat, (h.spells b).getLog_ok.mpr hat', rfl, rfl⟩

theorem log_matching_replicated :
    ∃ w : World Byte Bytes, exec (World.step threeNodes tape) (World.init []) replicateA = some w ∧
      ∃ x y, (w.logStore "a").getLog 1 = .ok x ∧ (w.logStore "b").getLog 1 = .ok y ∧
        x.term = y.term ∧ x.data = y.data := by
  have hfine : ∀ a ∈ replicateA, a.fine := by
    simp [replicateA, electA, Action.fine, Action.fates]
  refine ⟨_, rfl, ?_⟩
  exact log_matching threeNodes rfl tape [] replicateA hfine rfl "a" "b" 1 ⟨1, 1, 7⟩ ⟨1, 1, 7⟩ rfl rfl
    rfl 1 (by decide) (by decide)

end Safety

end Sandstore.Raft
