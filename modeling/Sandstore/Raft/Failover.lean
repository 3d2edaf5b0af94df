import Sandstore.Raft.Prompt

/-!
# What a new leader shows of what the old one acknowledged

A client that was told its command has been applied may ask another node next: the leader that came after
the one it talked to. Such a leader holds the entry in its log, by leader completeness, but its local reads
see only what it has applied, and it commits only entries of its own term. Nothing is appended on election.
So a cluster may come to rest (`Quiescent`: a majority is up, no command is pending, and a heartbeat to any
of its members and the reply to it change neither node) with a leader that will never apply the entry
(`acknowledged_hidden`).

**A leader that has stored a command of its own term shows everything.** At rest, every member of the
majority has the leader's term and its whole log (`Still.matched`): a refusal would move the leader's
next index for it, and a success its match index. So the last entry is counted, and what a prompt leader
may commit it has committed and applied (`acknowledged_visible`).
-/

namespace Sandstore.Raft

open Lib Lib.Proc Lib.Consensus
open FileLogStore

section Failover

attribute [local instance] Conv.exact

variable {δ σ : Type} {C : Cluster} {M : Machine δ σ} {H : History δ} {i : NodeId} {n : Node δ σ}
  {w : World δ σ}

/-- The call was told that the entry at index `k` has been applied. The applier's call comes right before
the result it hands to the client. -/
def Node.Acked (n : Node δ σ) (call : CallId) (k : Nat) : Prop :=
  ∃ before data after, n.events = before ++ .applied k data :: .notified call none :: after

/-- A heartbeat of the leader reaches the peer and the reply to it reaches the leader, and both nodes are
as they were. -/
def Still (C : Cluster) (M : Machine δ σ) (w : World δ σ) (leader peer : NodeId) : Prop :=
  ∃ work reply, Work.append work ∈ broadcastAppendEntries (C.env leader) (w.node leader) ∧
    work.node = peer ∧
    (program (C.env peer) M (.appendEntries (work.request leader))).run (w.node peer) [] =
      .back (.appended reply none) (w.node peer) ∧
    (program (C.env leader) M (.appendReply work reply)).run (w.node leader) [] =
      .back .nothing (w.node leader)

/-- A leader and a majority at rest. -/
structure Quiescent (C : Cluster) (M : Machine δ σ) (w : World δ σ) (leader : NodeId) (part : List NodeId) :
    Prop where
  leads : (w.node leader).mem.state = .leader
  batch : (w.node leader).mem.pendingBatch = []
  clients : (w.node leader).mem.pendingClients = ∅
  member : leader ∈ part
  majority : Majority C.ids part
  up : ∀ p ∈ part, (w.host p).up = true
  still : ∀ p ∈ part, p ≠ leader → Still C M w leader p

/-! ## The peer's side -/

/-- What a reply to a heartbeat tells: of a later term, of a term the peer has just heard of, or of how the
logs compare. -/
inductive Answer (n : Node δ σ) (src : NodeId) (work : AppendWork δ) (reply : AppendEntriesReply)
    (m : Node δ σ) : Prop where
  | stale (hlt : work.term < n.mem.currentTerm) (hterm : reply.term = int64 n.mem.currentTerm)
  | newer (hlt : n.mem.currentTerm < work.term) (hterm : m.mem.currentTerm = work.term)
  | compared (hterm : n.mem.currentTerm = work.term) (hfailed : reply.success = false →
      ∃ t, n.mem.mismatch (work.request src) = some (reply.conflictIndex, t))

variable {work : AppendWork δ}

theorem handleAppendEntries_answer (M : Machine δ σ) (hl : Legit C H) (h : Live C H i n) {src : NodeId}
    (hsent : Sent C H src work) (hnode : work.node = i) :
    Meets Fate.fine (handleAppendEntries M (work.request src)) n (fun out m => Answer n src work out.1 m)
      fun _ => True := by
  have hreqTerm : (work.request src).term = ((work.term : Nat) : Int) := rfl
  apply meets_read_bind
  apply meets_ite
  · intro hstale
    exact meets_pure (.stale (Int.ofNat_lt.mp hstale) rfl)
  intro hstale
  apply meets_ite
  · intro hlater
    have hlt : n.mem.currentTerm < work.term := Int.ofNat_lt.mp hlater
    apply meets_bind
    apply (stepDown_spec hlt src).imp _ fun _ _ => trivial
    intro err m ⟨_, hterm, _, _⟩
    cases err with
    | some err => exact meets_pure (.newer hlt hterm)
    | none =>
      apply meets_bind
      apply (acceptEntries_standing M _).imp _ fun _ _ => trivial
      intro reply m' ⟨hsame, _⟩
      exact meets_pure (.newer hlt ((congrArg (·.ballot.term) hsame).trans hterm))
  · intro hlater
    have hterm : n.mem.currentTerm = work.term := by
      simp only [int64] at hstale hlater
      omega
    obtain ⟨p, m, hslice⟩ := hsent.slice
    apply meets_bind
    apply Meets.imp (sim_acceptEntries M hl h hsent hnode (hterm.symm.trans h.term) hslice) _
      fun _ _ => trivial
    intro reply m' ⟨_, _, _, _, hfailed⟩
    exact meets_pure (.compared hterm hfailed)

/-- **A refusal asks for an earlier entry.** -/
theorem Live.mismatch_below (h : Live C H i n) {r : List (LogEntry δ)} {src : NodeId}
    {p m : Nat} (hslice : Slice r work p m) {c t : Int}
    (hfound : n.mem.mismatch (work.request src) = some (c, t)) : 0 < c ∧ c ≤ ((p : Nat) : Int) := by
  have hprev : (work.request src).prevLogIndex = ((p : Nat) : Int) := hslice.prev
  have hprevTerm : (work.request src).prevLogTerm = termBefore r p := hslice.prevTerm
  simp only [Replicator.mismatch, h.included, hprev, h.includedTerm, hprevTerm] at hfound
  rw [if_neg (by omega)] at hfound
  cases p with
  | zero =>
    have hzero : ((0 : Nat) : Int) = int64 0 := rfl
    cases hfound
  | succ p =>
    have hne : ¬ ((p + 1 : Nat) : Int) = int64 0 := by
      simp only [int64]
      omega
    rw [if_neg hne, if_pos (by omega)] at hfound
    have hidx : uint64 ((p + 1 : Nat) : Int) = p + 1 := rfl
    rw [hidx] at hfound
    cases hat : (H.log i)[p]? with
    | none =>
      have hlen := List.getElem?_eq_none_iff.mp hat
      rw [h.spells.getLog_error hat, h.spells.lastIndexAndTerm] at hfound
      cases hfound
      have hnext : int64 (succ64 (H.log i).length) = (((H.log i).length + 1 : Nat) : Int) := rfl
      omega
    | some e =>
      rw [h.spells.getLog_ok.mpr hat] at hfound
      simp only at hfound
      split at hfound
      · cases hfound
        omega
      · cases hfound

/-! ## The leader's side -/

theorem advanceCommitIndex_matched (env : Env) (M : Machine δ σ) {ok : Fate → Prop} :
    Meets ok (advanceCommitIndex env M) n
      (fun _ m => m.mem.state = .leader → m.mem.matchIndex = n.mem.matchIndex) fun _ => True := by
  apply meets_read_bind
  split
  · apply meets_ite
    · exact fun _ => meets_pure fun _ => rfl
    intro _
    split
    · apply meets_update_bind
      apply Meets.imp (applyLogs_applyEffects M) _ fun _ _ => trivial
      exact fun _ m heffects _ => congrArg (·.matchIndex) heffects.rest.1
    · exact meets_pure fun _ => rfl
  · exact meets_pure fun _ => rfl

/-- What the leader knew already, if a reply leaves it as it was. -/
@[mk_iff]
structure Known (n : Node δ σ) (work : AppendWork δ) (reply : AppendEntriesReply) : Prop where
  term : reply.term ≤ int64 n.mem.currentTerm
  success : reply.success = true → work.newMatchIndex ≤ n.mem.matchIndex work.node
  conflict : reply.success = false → 0 < reply.conflictIndex →
    n.mem.nextIndex work.node = uint64 reply.conflictIndex

/-- **A reply that tells the leader something changes it.** -/
theorem handleAppendReply_known (env : Env) (M : Machine δ σ) {ok : Fate → Prop}
    (reply : AppendEntriesReply) (hleader : n.mem.state = .leader) (hterm : n.mem.currentTerm = work.term) :
    Meets ok (handleAppendReply env M work reply) n (fun _ m => m = n → Known n work reply) fun _ => True := by
  apply meets_read_bind
  rw [if_neg (by simp [hleader, hterm])]
  apply meets_ite
  · intro hlater
    have hlt : n.mem.currentTerm < uint64 reply.term := Int.lt_toNat.mpr hlater
    apply meets_bind
    apply (stepDown_spec hlt "").imp _ fun _ _ => trivial
    intro _ m ⟨_, _, hrole, _⟩
    rintro rfl
    rw [hleader] at hrole
    cases hrole
  intro hlater
  have hle := not_lt.mp hlater
  apply meets_ite
  · intro hsuccess
    have hnot : ¬ reply.success = false := by simp [hsuccess]
    apply meets_ite
    · intro hnew
      apply meets_update_bind
      apply (advanceCommitIndex_matched env M).weaken
      rintro _ m hmatched rfl
      have hsame := congrFun (hmatched hleader) work.node
      simp only [Node.withMem, Replicator.setPeer, if_pos] at hsame
      omega
    · intro hnew
      exact meets_pure fun _ => ⟨hle, fun _ => Nat.not_lt.mp hnew, fun hfailed => absurd hfailed hnot⟩
  intro hfailed
  apply meets_ite
  · intro hpos
    apply meets_update
    intro hsame
    refine ⟨hle, fun hsuccess => absurd hsuccess hfailed, fun _ _ => ?_⟩
    have hone : ¬ uint64 reply.conflictIndex < 1 := by
      simp only [uint64]
      omega
    have hnext := congrArg (fun m : Node δ σ => m.mem.nextIndex work.node) hsame
    simp only [Node.withMem, Replicator.setPeer, if_pos, if_neg hone] at hnext
    exact hnext.symm
  intro hnone
  have hknown : Known n work reply := ⟨hle, fun hsuccess => absurd hsuccess hfailed, fun _ hpos => absurd hpos hnone⟩
  apply meets_ite
  · exact fun _ => meets_update fun _ => hknown
  · exact fun _ => meets_pure fun _ => hknown

/-! ## At rest -/

/-- **A peer at rest has the leader's term and its whole log.** -/
theorem Still.matched (h : Accounts C H w) {leader peer : NodeId} (hup : (w.host leader).up = true)
    (hpeerUp : (w.host peer).up = true) (hstill : Still C M w leader peer) :
    H.term peer = H.term leader ∧ peer ∈ peersOf leader C.nodes ∧
      (H.log leader).length ≤ (w.node leader).mem.matchIndex peer := by
  obtain ⟨work, reply, hwork, rfl, hanswered, htaken⟩ := hstill
  have hlive := h.live leader hup
  have hpeer := h.live work.node hpeerUp
  have hsent : Sent C H leader work := hlive.broadcast h.legit _ hwork
  obtain ⟨hleader, peer, _, p, prevLogTerm, hnext, hp, hprev, heq⟩ := hlive.work hwork
  have hslice := hlive.slice h.legit hleader hp hprev heq.symm
  have hterm : (w.node leader).mem.currentTerm = work.term := by
    cases heq
    rfl
  have hnode : work.node = peer := by
    cases heq
    rfl
  have hanswer : Answer (w.node work.node) leader work reply (w.node work.node) := by
    have hmeets : Meets Fate.fine (program (C.env work.node) M (.appendEntries (work.request leader)))
        (w.node work.node) (fun out m => ∀ reply err, out = .appended reply err →
          Answer (w.node work.node) leader work reply m) fun _ => True := by
      apply meets_bind
      apply (handleAppendEntries_answer M h.legit hpeer hsent rfl).weaken
      intro out m hout
      rintro reply err ⟨⟩
      exact hout
    exact hmeets.back (List.forall_mem_nil _) hanswered reply none rfl
  have hknown : Known (w.node leader) work reply := by
    have hmeets : Meets Fate.fine (program (C.env leader) M (.appendReply work reply)) (w.node leader)
        (fun _ m => m = w.node leader → Known (w.node leader) work reply) fun _ => True :=
      meets_bind_pure (handleAppendReply_known _ M reply hleader hterm)
    exact hmeets.back (List.forall_mem_nil _) htaken rfl
  cases hanswer with
  | stale hlt hreply =>
    have hle := hknown.term
    rw [hreply] at hle
    simp only [int64] at hle
    omega
  | newer hlt hsame => omega
  | compared hsame hfailed =>
    refine ⟨?_, hsent.peer, ?_⟩
    · rw [← hpeer.term, ← hlive.term, hsame, hterm]
    · cases hsuccess : reply.success with
      | true =>
        rw [← hslice.newMatchIndex (h.legit.numbered _)]
        exact hknown.success hsuccess
      | false =>
        obtain ⟨t, hfound⟩ := hfailed hsuccess
        obtain ⟨hpos, hle⟩ := hpeer.mismatch_below hslice hfound
        have hback := hknown.conflict hsuccess hpos
        have hindex : ((uint64 reply.conflictIndex : Nat) : Int) = reply.conflictIndex :=
          Int.toNat_of_nonneg (by omega)
        rw [Replicator.nextFor, ← hnode, hback, if_neg (by omega)] at hnext
        omega

/-- A majority that matches an index is counted. -/
theorem majority_counted {r : Replicator δ} {part : List NodeId} (hmajority : Majority C.ids part)
    (hmember : i ∈ part) {c : Nat} (hmatched : ∀ p ∈ part, p ≠ i → p ∈ peersOf i C.nodes ∧ c ≤ r.matchIndex p) :
    C.nodes.length / 2 < r.matchCount i C.nodes c := by
  have hsub : part.erase i ⊆ (peersOf i C.nodes).filter fun p => r.matchIndex p ≥ c := by
    intro p hp
    obtain ⟨hne, hmem⟩ := (hmajority.nodup.mem_erase_iff).mp hp
    obtain ⟨hpeer, hle⟩ := hmatched p hmem hne
    exact List.mem_filter.mpr ⟨hpeer, decide_eq_true hle⟩
  have hle := ((hmajority.nodup.erase i).subperm hsub).length_le
  have hlarge := hmajority.large
  rw [List.length_erase_of_mem hmember] at hle
  simp only [Cluster.ids, List.length_map] at hlarge
  rw [Replicator.matchCount]
  omega

/-- The last entry of a leader that a majority matches, if it is of the leader's own term, is committed. -/
theorem Live.counted_last (h : Live C H i n) (hprompt : Prompt C i n) (hleader : n.mem.state = .leader)
    (hown : n.mem.getLastLogInfo.2 = n.mem.currentTerm)
    (hcount : C.nodes.length / 2 < n.mem.matchCount i C.nodes (H.log i).length) :
    (H.log i).length ≤ n.mem.commitIndex := by
  by_cases hnil : H.log i = []
  · rw [hnil]
    exact Nat.zero_le _
  · have hpos := List.length_pos_of_ne_nil hnil
    have hat : (H.log i)[(H.log i).length - 1]? = some ((H.log i).getLast hnil) := by
      rw [← List.getLast?_eq_getElem?, List.getLast?_eq_some_getLast hnil]
    have hget := h.spells.getLog_ok.mpr hat
    rw [Nat.sub_add_cancel hpos] at hget
    apply hprompt.counted hleader
    apply committable_iff.mpr
    refine ⟨_, hget, ?_, hcount⟩
    have hlast : ((H.log i).getLast hnil).term.toNat = n.mem.currentTerm := by
      rw [← hown, h.getLastLogInfo]
      simp [lastTermOf, List.getLast?_eq_some_getLast hnil]
    have hnonneg := (h.durable.log.numbered _ _ hat).2
    simp only [int64]
    omega

/-- What was applied anywhere is in the log of a leader at rest. -/
theorem Quiescent.holds (h : Accounts C H w) {leader : NodeId} {part : List NodeId}
    (hq : Quiescent C M w leader part) {k : Nat} {data : δ}
    (happlied : Event.applied k data ∈ (w.node i).events) : k ≤ (H.log leader).length := by
  have hup := hq.up leader hq.member
  obtain ⟨e, hpos, ⟨t, m, hcommitted, hkm, _⟩, _⟩ := (h.durable i).events k data happlied
  obtain ⟨P, ⟨voters, hvoters, hP⟩, hack⟩ := hcommitted.quorum
  obtain ⟨v, hv, hvpart⟩ := hvoters.meet hq.majority
  have hterm : H.term v = H.term leader := by
    by_cases hv : v = leader
    · rw [hv]
    · exact (Still.matched h hup (hq.up v hvpart) (hq.still v hvpart hv)).1
  have hacked := hack v (hP v hv)
  have hle : t ≤ H.term leader := by
    rw [← hterm]
    exact h.legit.inv.ack_term v t (Nat.lt_of_lt_of_le hcommitted.pos hacked)
  obtain ⟨l, hcrown⟩ := ((h.live leader hup).leading hq.leads).crowned
  have hcrowned : H.crown (H.term leader) ≠ none := by
    rw [hcrown]
    exact Option.some_ne_none _
  have hlen := (hcommitted.prefix_reign h.legit.inv hle hcrowned).length_le
  rw [List.length_take, Nat.min_eq_left hcommitted.le_length, ← h.legit.inv.leader _ _ _ hcrown rfl] at hlen
  omega

/-- **An acknowledged command is visible at the leader.** In every run of a cluster of two nodes or more
that takes no snapshots, with writes that return no errors, in every state where a leader and a majority are
at rest: if the log of the leader ends in an entry of its own term, or it knows the entry to be committed
already, the leader has applied every entry whose client has been told so, by whichever leader. -/
theorem acknowledged_visible (C : Cluster) (hsize : 2 ≤ C.nodes.length) (hthreshold : C.snapshotThresholdLogs = 0)
    (M : Machine δ σ) (machine : σ) (acts : List (Action δ)) (hfine : ∀ a ∈ acts, a.fine) {w : World δ σ}
    (hrun : exec (World.step C M) (World.init machine) acts = some w) {leader : NodeId} {part : List NodeId}
    (hq : Quiescent C M w leader part) {i : NodeId} {call : CallId} {k : Nat} (hacked : (w.node i).Acked call k)
    (hknown : (w.node leader).mem.getLastLogInfo.2 = (w.node leader).mem.currentTerm ∨
      k ≤ (w.node leader).mem.commitIndex) : k ≤ (w.node leader).mem.lastApplied := by
  obtain ⟨H, h, hprompt⟩ := run_prompt C hsize hthreshold M machine hfine hrun
  have hup := hq.up leader hq.member
  have hleader := hprompt leader hup
  apply Nat.le_trans _ hleader.caught
  rcases hknown with hown | hle
  · obtain ⟨before, data, after, hevents⟩ := hacked
    have happlied : Event.applied k data ∈ (w.node i).events := by
      rw [hevents]
      simp
    apply (hq.holds h happlied).trans
    apply (h.live leader hup).counted_last hleader hq.leads hown
    apply majority_counted hq.majority hq.member
    intro p hp hne
    exact (Still.matched h hup (hq.up p hp) (hq.still p hp hne)).2
  · exact hle

/-! ## Coming to rest -/

/-- A follower that has what a heartbeat brings. -/
@[mk_iff]
structure Abreast (n : Node δ σ) (req : AppendEntriesRequest δ) : Prop where
  term : req.term = int64 n.mem.currentTerm
  role : n.mem.state = .follower
  leader : n.mem.leaderID = req.leaderID
  agrees : n.mem.mismatch req = none
  holds : req.entries.map n.mem.scan = some .upToDate
  last : n.mem.logStore.lastIndexAndTerm.isOk = true
  commit : uint64 req.leaderCommit ≤ n.mem.commitIndex

instance [DecidableEq δ] (n : Node δ σ) (req : AppendEntriesRequest δ) : Decidable (Abreast n req) :=
  decidable_of_iff _ (abreast_iff n req).symm

instance (n : Node δ σ) (work : AppendWork δ) (reply : AppendEntriesReply) : Decidable (Known n work reply) :=
  decidable_of_iff _ (known_iff n work reply).symm

theorem Abreast.still {req : AppendEntriesRequest δ} (h : Abreast n req) (env : Env) (M : Machine δ σ) :
    (program env M (.appendEntries req)).run n [] =
      .back (.appended ⟨int64 n.mem.currentTerm, true, 0, 0⟩ none) n := by
  obtain ⟨entries, hentries, hscan⟩ := Option.map_eq_some_iff.mp h.holds
  have hself : (n.withMem fun r => { r with state := .follower, leaderID := req.leaderID }) = n := by
    rw [← h.role, ← h.leader]
    rfl
  have haccept : Meets (fun _ => False) (acceptEntries M req) n
      (fun reply m => reply = ⟨int64 n.mem.currentTerm, true, 0, 0⟩ ∧ m = n) fun _ => False := by
    apply meets_update_bind
    rw [hself]
    apply meets_read_bind
    rw [h.agrees, hentries]
    simp only [hscan]
    apply meets_read_bind
    cases hlast : n.mem.logStore.lastIndexAndTerm with
    | error err =>
      have hok := h.last
      rw [hlast] at hok
      cases hok
    | ok idx =>
      apply meets_ite
      · intro hlt
        exact absurd hlt (Nat.not_lt.mpr h.commit)
      · exact fun _ => meets_pure ⟨rfl, rfl⟩
  apply Meets.run_eq _ (List.forall_mem_nil fun _ => False)
  apply meets_bind
  apply meets_read_bind
  rw [h.term, if_neg (lt_irrefl _), if_neg (lt_irrefl _)]
  apply meets_bind
  apply haccept.weaken
  rintro _ _ ⟨rfl, rfl⟩
  exact meets_pure ⟨rfl, rfl⟩

theorem Known.still {reply : AppendEntriesReply} (h : Known n work reply)
    (hsuccess : reply.success = true) (env : Env) (M : Machine δ σ) :
    (program env M (.appendReply work reply)).run n [] = .back .nothing n := by
  apply Meets.run_eq _ (List.forall_mem_nil fun _ => False)
  apply meets_bind
  apply meets_read_bind
  apply meets_ite
  · exact fun _ => meets_pure (meets_pure ⟨rfl, rfl⟩)
  intro _
  rw [if_neg (not_lt.mpr h.term), if_pos hsuccess, if_neg (Nat.not_lt.mpr (h.success hsuccess))]
  exact meets_pure (meets_pure ⟨rfl, rfl⟩)

/-- A leader and a peer that have nothing to tell each other. -/
@[mk_iff]
structure AtRest (C : Cluster) (w : World δ σ) (leader : NodeId) (work : AppendWork δ) : Prop where
  up : (w.host leader).up = true ∧ (w.host work.node).up = true
  leads : (w.node leader).mem.state = .leader
  batch : (w.node leader).mem.pendingBatch = []
  clients : (w.node leader).mem.pendingClients = ∅
  sent : Work.append work ∈ broadcastAppendEntries (C.env leader) (w.node leader)
  abreast : Abreast (w.node work.node) (work.request leader)
  known : Known (w.node leader) work ⟨int64 (w.node work.node).mem.currentTerm, true, 0, 0⟩

instance [DecidableEq δ] (C : Cluster) (w : World δ σ) (leader : NodeId) (work : AppendWork δ) :
    Decidable (AtRest C w leader work) :=
  decidable_of_iff _ (atRest_iff C w leader work).symm

/-- **Two nodes that have nothing to tell each other are at rest**, where two are a majority. -/
theorem AtRest.quiescent {leader : NodeId} (h : AtRest C w leader work)
    (hmajority : Majority C.ids [leader, work.node]) : Quiescent C M w leader [leader, work.node] where
  leads := h.leads
  batch := h.batch
  clients := h.clients
  member := List.mem_cons_self
  majority := hmajority
  up := by
    intro p hp
    simp only [List.mem_cons, List.not_mem_nil, or_false] at hp
    rcases hp with rfl | rfl
    · exact h.up.1
    · exact h.up.2
  still := by
    intro p hp hne
    simp only [List.mem_cons, List.not_mem_nil, or_false] at hp
    rw [hp.resolve_left hne]
    exact ⟨work, _, h.sent, rfl, h.abreast.still _ M, h.known.still rfl _ M⟩

/-- "a" commits a command with the help of "b" and tells its client, and crashes before "b" hears of the
commitment. "b" is elected by "c" and brings it the entry. -/
def failover : List (Action Byte) :=
  electA ++
    [.own "a" (.replicate 7 0) [], .broadcast "a", .deliver 3 [], .deliver 5 [], .crash "a", .restart "c",
      .own "b" .electionTimeout [], .deliver 7 [], .deliver 8 [], .broadcast "b", .deliver 10 [],
      .deliver 11 [], .broadcast "b", .deliver 13 [], .deliver 14 []]

/-- "b" takes a command of its own and "c" hears of both. -/
def recovery : List (Action Byte) :=
  failover ++
    [.own "b" (.replicate 8 1) [], .broadcast "b", .deliver 16 [], .deliver 17 [], .broadcast "b",
      .deliver 19 []]

theorem acknowledged_visible_recovered :
    ∃ w : World Byte Bytes, exec (World.step threeNodes tape) (World.init []) recovery = some w ∧
      Quiescent threeNodes tape w "b" ["b", "c"] ∧ (w.node "a").Acked 0 1 ∧
      1 ≤ (w.node "b").mem.lastApplied := by
  have hfine : ∀ a ∈ recovery, a.fine := by
    simp [recovery, failover, electA, Action.fine, Action.fates]
  obtain ⟨w, hrun, hrest, hevents, hown⟩ : ∃ w : World Byte Bytes,
      exec (World.step threeNodes tape) (World.init []) recovery = some w ∧
        AtRest threeNodes w "b" ⟨"c", 2, 2, [], 2, 2⟩ ∧
        (w.node "a").events = [.becameLeader 1, .applied 1 7, .notified 0 none] ∧
        (w.node "b").mem.getLastLogInfo.2 = (w.node "b").mem.currentTerm := by decide +kernel
  have hq : Quiescent threeNodes tape w "b" ["b", "c"] :=
    hrest.quiescent ⟨by decide, by decide, by decide⟩
  have hacked : (w.node "a").Acked 0 1 := ⟨[.becameLeader 1], 7, [], hevents⟩
  exact ⟨w, hrun, hq, hacked, acknowledged_visible threeNodes (by decide) rfl tape [] recovery hfine hrun hq
    hacked (.inl hown)⟩

/-- **An acknowledged command can stay hidden.** After the failover the cluster is at rest, and the new
leader has not applied the command whose client was told that it had been. -/
theorem acknowledged_hidden :
    (∀ a ∈ failover, a.fine) ∧
    ∃ w : World Byte Bytes, exec (World.step threeNodes tape) (World.init []) failover = some w ∧
      Quiescent threeNodes tape w "b" ["b", "c"] ∧ (w.node "a").Acked 0 1 ∧
      ¬ 1 ≤ (w.node "b").mem.lastApplied := by
  refine ⟨by simp [failover, electA, Action.fine, Action.fates], ?_⟩
  obtain ⟨w, hrun, hrest, hevents, hbehind⟩ : ∃ w : World Byte Bytes,
      exec (World.step threeNodes tape) (World.init []) failover = some w ∧
        AtRest threeNodes w "b" ⟨"c", 1, 1, [], 2, 0⟩ ∧
        (w.node "a").events = [.becameLeader 1, .applied 1 7, .notified 0 none] ∧
        ¬ 1 ≤ (w.node "b").mem.lastApplied := by decide +kernel
  exact ⟨w, hrun, hrest.quiescent ⟨by decide, by decide, by decide⟩, ⟨[.becameLeader 1], 7, [], hevents⟩,
    hbehind⟩

end Failover

end Sandstore.Raft
