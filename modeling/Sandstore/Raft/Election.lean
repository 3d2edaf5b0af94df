import Sandstore.Lib.Quorum
import Sandstore.Raft.Cluster
import Sandstore.Raft.Ledger

/-!
# One leader a term

The votes of a term are what the network has seen of them. A reply that grants is a vote of its
sender, and a node stands for itself while it counts an election of the term and after it has won
it. Both are on the voter's disk by the time they can be seen, so the ballot binds the voter to them
(`Fair.granted`, `Fair.stands`), whatever becomes of its later writes, and no voter is seen to vote
twice (`Fair.grantedOnce`, `Fair.standsOnce`).

A leader was elected by itself and the senders of the replies it counted, a majority between them,
and two majorities share a voter (`election_safety`).
-/

namespace Sandstore.Raft

open Lib Lib.Proc

section Election

attribute [local instance] Conv.exact

variable {δ σ : Type} {C : Cluster} {M : Machine δ σ} {w : World δ σ}

/-- A reply on the network in which `v` grants `c` its vote of term `t`. -/
def Granted (w : World δ σ) (v : NodeId) (t : Nat) (c : NodeId) : Prop :=
  ∃ reply, Packet.voteReply v c t reply ∈ w.net ∧ reply.voteGranted = true

/-- The node counts an election of term `t`, or has won it. -/
def Node.stands (n : Node δ σ) (t : Nat) : Prop :=
  t ∈ n.won ∨ ∃ el, n.mem.election = some el ∧ el.savedTerm = t

/-- An election counts each vote once. `vote` says which peers have voted for `c`. -/
structure Tally (C : Cluster) (c : NodeId) (el : Election) (vote : NodeId → Prop)
    (voters : List NodeId) : Prop where
  quorum : el.quorum = C.nodes.length / 2 + 1
  waiting : el.waiting.Nodup
  asked : el.waiting ⊆ peersOf c C.nodes
  nodup : voters.Nodup
  peers : voters ⊆ peersOf c C.nodes
  answered : ∀ v ∈ voters, v ∉ el.waiting
  granted : ∀ v ∈ voters, vote v
  count : el.votesReceived = voters.length + 1

/-- A majority made of the node and voters that granted it their votes. -/
def Elected (C : Cluster) (w : World δ σ) (c : NodeId) (t : Nat) : Prop :=
  ∃ voters, Majority C.ids (c :: voters) ∧ ∀ v ∈ voters, Granted w v t c

structure Fair (C : Cluster) (w : World δ σ) : Prop where
  ahead : ∀ v, (w.node v).ballot.Ahead ""
  granted : ∀ v t c, Granted w v t c → (w.node v).ballot.Bound t c ∧ c ≠ ""
  stands : ∀ v t, (w.node v).stands t → (w.node v).ballot.Bound t v ∧ v ≠ ""
  grantedOnce : ∀ v t c c', Granted w v t c → Granted w v t c' → c = c'
  standsOnce : ∀ v t c, (w.node v).stands t → Granted w v t c → c = v
  tally : ∀ c el, (w.node c).mem.election = some el → ∃ voters, Tally C c el (Granted w · el.savedTerm c) voters
  elected : ∀ c t, t ∈ (w.node c).won → Elected C w c t
  requests : ∀ src dst t req, Packet.voteRequest src dst t req ∈ w.net →
    req.term = t ∧ req.candidateID = src ∧ src ≠ ""

/-! ## Counting -/

section Tally

variable {c peer : NodeId} {el : Election} {vote vote' : NodeId → Prop} {voters : List NodeId}

theorem Tally.mono (h : Tally C c el vote voters) (hvote : ∀ v, vote v → vote' v) : Tally C c el vote' voters :=
  { h with granted := fun v hv => hvote v (h.granted v hv) }

theorem peersOf_nodup (C : Cluster) (id : NodeId) : (peersOf id C.nodes).Nodup := C.distinct.filter _

theorem tally_nil (C : Cluster) (c : NodeId) (t : Nat) (vote : NodeId → Prop) :
    Tally C c ⟨t, 1, C.nodes.length / 2 + 1, peersOf c C.nodes⟩ vote [] :=
  ⟨rfl, peersOf_nodup C c, fun _ hv => hv, List.nodup_nil, List.nil_subset _,
    fun _ hv => (nomatch hv), fun _ hv => (nomatch hv), rfl⟩

theorem Tally.take (h : Tally C c el vote voters) :
    Tally C c { el with waiting := el.waiting.erase peer } vote voters :=
  { h with
    waiting := h.waiting.erase peer
    asked := fun _ hv => h.asked (List.mem_of_mem_erase hv)
    answered := fun v hv hwait => h.answered v hv (List.mem_of_mem_erase hwait) }

theorem Tally.count_vote (h : Tally C c el vote voters) (hpeer : peer ∈ el.waiting) (hvote : vote peer) :
    Tally C c { el with waiting := el.waiting.erase peer, votesReceived := el.votesReceived + 1 }
      vote (peer :: voters) where
  quorum := h.quorum
  waiting := h.waiting.erase peer
  asked := fun _ hv => h.asked (List.mem_of_mem_erase hv)
  nodup := List.nodup_cons.mpr ⟨fun hv => h.answered peer hv hpeer, h.nodup⟩
  peers := List.cons_subset.mpr ⟨h.asked hpeer, h.peers⟩
  answered := by
    intro v hv hwait
    rcases List.mem_cons.mp hv with rfl | hv
    · exact h.waiting.not_mem_erase hwait
    · exact h.answered v hv (List.mem_of_mem_erase hwait)
  granted := by
    intro v hv
    rcases List.mem_cons.mp hv with rfl | hv
    · exact hvote
    · exact h.granted v hv
  count := by
    have := h.count
    simp only [List.length_cons]
    omega

theorem Tally.majority (hc : c ∈ C.ids) (h : Tally C c el vote voters)
    (hquorum : el.quorum ≤ el.votesReceived) : Majority C.ids (c :: voters) := by
  have hpeer : ∀ v ∈ voters, v ∈ C.ids ∧ v ≠ c := by
    intro v hv
    have := h.peers hv
    simpa [peersOf, Cluster.ids] using this
  refine ⟨?_, ?_, ?_⟩
  · exact List.nodup_cons.mpr ⟨fun hmem => (hpeer c hmem).2 rfl, h.nodup⟩
  · exact List.cons_subset.mpr ⟨hc, fun v hv => (hpeer v hv).1⟩
  · have hcount := h.count
    have hq := h.quorum
    simp only [Cluster.ids, List.length_map, List.length_cons]
    omega

theorem majority_singleton (hc : c ∈ C.ids) (hone : C.nodes.length = 1) : Majority C.ids [c] := by
  refine ⟨List.nodup_singleton c, ?_, ?_⟩
  · simpa using hc
  · simp [Cluster.ids, hone]

end Tally

/-! ## Packets only add votes -/

section Mono

variable {w' : World δ σ} (hnet : w.net ⊆ w'.net)

include hnet

theorem Granted.mono {v c : NodeId} {t : Nat} (h : Granted w v t c) : Granted w' v t c := by
  obtain ⟨reply, hmem, hgranted⟩ := h
  exact ⟨reply, hnet hmem, hgranted⟩

theorem Elected.mono {c : NodeId} {t : Nat} (h : Elected C w c t) : Elected C w' c t := by
  obtain ⟨voters, hmajority, hgranted⟩ := h
  exact ⟨voters, hmajority, fun v hv => (hgranted v hv).mono hnet⟩

end Mono

/-! ## One node moves -/

/-- What one node may do, and the vote packets it may send, in a fair cluster. -/
structure FairMove (C : Cluster) (w : World δ σ) (id : NodeId) (n' : Node δ σ)
    (packets : List (Packet δ)) : Prop where
  evolves : (w.node id).ballot.Evolves "" n'.ballot
  stands : ∀ t, n'.stands t → (w.node id).stands t ∨
    n'.ballot = Ballot.settled t id ∧ id ≠ ""
  tally : ∀ el, n'.mem.election = some el →
    ∃ voters, Tally C id el (Granted w · el.savedTerm id) voters
  elected : ∀ t, t ∈ n'.won → Elected C w id t
  replies : ∀ v c t reply, Packet.voteReply v c t reply ∈ packets → reply.voteGranted = true →
    v = id ∧ c ≠ "" ∧ n'.ballot = Ballot.settled t c
  requests : ∀ src dst t req, Packet.voteRequest src dst t req ∈ packets →
    req.term = t ∧ req.candidateID = src ∧ src ≠ ""

/-- A ballot that is settled on `c` is bound to nobody else. -/
theorem settled_bound {t : Nat} {c c' : NodeId} (h : (Ballot.settled t c).Bound t c') : c = c' := h.vote_eq rfl

theorem Fair.move (h : Fair C w) {id : NodeId} {n' : Node δ σ} {packets : List (Packet δ)}
    (hm : FairMove C w id n' packets) (up : Bool) : Fair C ((w.set id ⟨n', up⟩).send packets) := by
  obtain ⟨w', hw'⟩ : ∃ w', w' = (w.set id ⟨n', up⟩).send packets := ⟨_, rfl⟩
  have hnet : w'.net = w.net ++ packets := by rw [hw', World.net_send, World.net_set]
  have hmore : w.net ⊆ w'.net := hnet ▸ List.subset_append_left _ _
  -- the node that moves, and the others
  have hnode : ∀ {P : NodeId → Node δ σ → Prop}, P id n' → (∀ v, P v (w.node v)) → ∀ v, P v (w'.node v) := by
    intro P hmoved hothers v
    rw [hw', World.node_send, World.node_set]
    split
    · next hv => exact hv ▸ hmoved
    · exact hothers v
  have hevolves : ∀ v, (w.node v).ballot.Evolves "" (w'.node v).ballot :=
    hnode (P := fun v n => (w.node v).ballot.Evolves "" n.ballot) hm.evolves fun _ => .refl
  -- a vote seen now was seen before, or is the one just settled, and likewise for who stands
  have hgranted : ∀ v t c, Granted w' v t c → Granted w v t c ∨ (w'.node v).ballot = Ballot.settled t c ∧ c ≠ "" := by
    rintro v t c ⟨reply, hmem, hyes⟩
    rw [hnet] at hmem
    rcases List.mem_append.mp hmem with hold | hnew
    · exact .inl ⟨reply, hold, hyes⟩
    · obtain ⟨rfl, hc, hset⟩ := hm.replies v c t reply hnew hyes
      refine .inr ⟨?_, hc⟩
      rw [hw', World.node_send, World.node_set, if_pos rfl, hset]
  have hstands : ∀ v t, (w'.node v).stands t →
      (w.node v).stands t ∨ (w'.node v).ballot = Ballot.settled t v ∧ v ≠ "" :=
    hnode (P := fun v n => ∀ t, n.stands t → (w.node v).stands t ∨ n.ballot = Ballot.settled t v ∧ v ≠ "")
      hm.stands fun _ _ => .inl
  have hbound : ∀ {v t c}, (w.node v).ballot.Bound t c ∧ c ≠ "" ∨
      (w'.node v).ballot = Ballot.settled t c ∧ c ≠ "" → (w'.node v).ballot.Bound t c ∧ c ≠ "" := by
    rintro v t c (⟨hb, hc⟩ | ⟨hset, hc⟩)
    · exact ⟨hb.evolves hc (h.ahead v) (hevolves v), hc⟩
    · exact ⟨hset ▸ ⟨Nat.le_refl _, fun _ => rfl⟩, hc⟩
  have hvoted : ∀ v t c, Granted w' v t c → (w'.node v).ballot.Bound t c ∧ c ≠ "" :=
    fun v t c hg => hbound ((hgranted v t c hg).imp_left (h.granted v t c))
  have hone : ∀ {v t a b}, (w'.node v).ballot = Ballot.settled t a → (w'.node v).ballot.Bound t b → a = b :=
    fun hset hb => settled_bound (hset ▸ hb)
  rw [← hw']
  constructor
  · exact fun v => (h.ahead v).evolves (hevolves v)
  · exact hvoted
  · exact fun v t hs => hbound ((hstands v t hs).imp_left (h.stands v t))
  · intro v t c c' hg hg'
    rcases hgranted v t c hg with hold | ⟨hset, -⟩
    · rcases hgranted v t c' hg' with hold' | ⟨hset, -⟩
      · exact h.grantedOnce v t c c' hold hold'
      · exact (hone hset (hvoted v t c hg).1).symm
    · exact hone hset (hvoted v t c' hg').1
  · intro v t c hs hg
    rcases hstands v t hs with hold | ⟨hset, -⟩
    · rcases hgranted v t c hg with hold' | ⟨hset, -⟩
      · exact h.standsOnce v t c hold hold'
      · exact hone hset (hbound (.inl (h.stands v t hold))).1
    · exact (hone hset (hvoted v t c hg).1).symm
  · refine hnode (P := fun c n => ∀ el, n.mem.election = some el →
      ∃ voters, Tally C c el (Granted w' · el.savedTerm c) voters) (fun el hel => ?_) fun c el hel => ?_
    · exact (hm.tally el hel).imp fun _ htally => htally.mono fun _ hg => hg.mono hmore
    · exact (h.tally c el hel).imp fun _ htally => htally.mono fun _ hg => hg.mono hmore
  · refine hnode (P := fun c n => ∀ t, t ∈ n.won → Elected C w' c t) (fun t ht => ?_) fun c t ht => ?_
    · exact (hm.elected t ht).mono hmore
    · exact (h.elected c t ht).mono hmore
  · intro src dst t req hmem
    rw [hnet] at hmem
    rcases List.mem_append.mp hmem with hold | hnew
    · exact h.requests src dst t req hold
    · exact hm.requests src dst t req hnew

/-- A node that goes down in the middle sends nothing. -/
theorem Fair.died (h : Fair C w) {id : NodeId} {n' : Node δ σ} (hm : FairMove C w id n' []) :
    Fair C (w.set id ⟨n', false⟩) := by
  have hmove := h.move hm false
  rwa [World.send_nil] at hmove

/-! ## Every move is fair -/

section Fairness

variable {id : NodeId} {n' : Node δ σ} {packets : List (Packet δ)}

theorem Moves.fair (h : Fair C w) (hm : Moves (w.node id) n')
    (hreplies : ∀ v c t reply, Packet.voteReply v c t reply ∈ packets → reply.voteGranted = true →
      v = id ∧ c ≠ "" ∧ n'.ballot = Ballot.settled t c)
    (hrequests : ∀ src dst t req, Packet.voteRequest src dst t req ∉ packets) : FairMove C w id n' packets where
  evolves := hm.evolves
  stands := by
    intro t ht
    unfold Node.stands at ht
    rw [hm.won, hm.election] at ht
    exact .inl ht
  tally := by
    intro el hel
    rw [hm.election] at hel
    exact h.tally id el hel
  elected := by
    intro t ht
    rw [hm.won] at ht
    exact h.elected id t ht
  replies := hreplies
  requests := fun src dst t req hmem => absurd hmem (hrequests src dst t req)

theorem Campaigned.fair (h : Fair C w) (hid : id ∈ C.ids) {requests : List (NodeId × RequestVoteArgs)}
    (hm : Campaigned (C.env id) (w.node id) requests n') : FairMove C w id n' (campaignPackets id requests) where
  evolves := hm.evolves
  stands := by
    have hname := C.named_of_mem hid
    rintro t (hwon | ⟨el, hel, rfl⟩)
    · rcases hm.won with hsame | ⟨hnew, hset, _⟩
      · exact .inl (.inl (hsame ▸ hwon))
      · rw [hnew] at hwon
        rcases List.mem_append.mp hwon with hold | hlast
        · exact .inl (.inl hold)
        · cases List.mem_singleton.mp hlast
          exact .inr ⟨hset, hname⟩
    · rcases hm.election with ⟨hsame, _⟩ | ⟨hset, _, nodes, _, hnew, _⟩
      · exact .inl (.inr ⟨el, hsame ▸ hel, rfl⟩)
      · rw [hnew] at hel
        cases hel
        exact .inr ⟨hset, hname⟩
  tally := by
    intro el hel
    rcases hm.election with ⟨hsame, _⟩ | ⟨_, _, nodes, hnodes, hnew, _⟩
    · exact h.tally id el (hsame ▸ hel)
    · cases hnodes
      rw [hnew] at hel
      cases hel
      exact ⟨[], tally_nil C id _ _⟩
  elected := by
    intro t ht
    rcases hm.won with hsame | ⟨hnew, _, nodes, hnodes, hone⟩
    · exact h.elected id t (hsame ▸ ht)
    · rw [hnew] at ht
      rcases List.mem_append.mp ht with hold | _
      · exact h.elected id t hold
      · cases hnodes
        exact ⟨[], majority_singleton hid hone, fun _ hv => nomatch hv⟩
  replies := by
    intro v c t reply hmem
    obtain ⟨r, _, heq⟩ := List.mem_map.mp hmem
    cases heq
  requests := by
    intro src dst t req hmem
    obtain ⟨r, hr, heq⟩ := List.mem_map.mp hmem
    cases heq
    rcases hm.election with ⟨_, hnil⟩ | ⟨_, _, nodes, _, _, hasked⟩
    · rw [hnil] at hr
      cases hr
    · obtain ⟨_, hterm, hcandidate⟩ := hasked r hr
      refine ⟨?_, hcandidate, C.named_of_mem hid⟩
      rw [hterm]
      rfl

theorem Counted.fair (h : Fair C w) (hid : id ∈ C.ids) {peer : NodeId} {savedTerm : Nat}
    {reply : RequestVoteReply} (hmem : Packet.voteReply peer id savedTerm reply ∈ w.net)
    (hm : Counted peer savedTerm reply (w.node id) n') : FairMove C w id n' [] := by
  have hnone : ∀ {packet : Packet δ}, packet ∈ ([] : List (Packet δ)) → False := fun hp => nomatch hp
  cases hm with
  | ignored hmoves =>
    exact hmoves.fair h (fun _ _ _ _ hp => (hnone hp).elim) fun _ _ _ _ => hnone
  | taken el hel evolves won election =>
    obtain ⟨voters, htally⟩ := h.tally id el hel
    refine ⟨evolves, ?_, ?_, ?_, fun _ _ _ _ hp => (hnone hp).elim, fun _ _ _ _ hp => (hnone hp).elim⟩
    · rintro t (hwon | ⟨el', hel', rfl⟩)
      · exact .inl (.inl (won ▸ hwon))
      · rw [election] at hel'
        cases hel'
        exact .inl (.inr ⟨el, hel, rfl⟩)
    · intro el' hel'
      rw [election] at hel'
      cases hel'
      exact ⟨voters, htally.take⟩
    · exact fun t ht => h.elected id t (won ▸ ht)
  | granted el hel hterm hpeer hreply ballot election won =>
    subst hterm
    obtain ⟨voters, htally⟩ := h.tally id el hel
    have hcounted := htally.count_vote hpeer ⟨reply, hmem, hreply⟩
    refine ⟨ballot ▸ .refl, ?_, ?_, ?_, fun _ _ _ _ hp => (hnone hp).elim, fun _ _ _ _ hp => (hnone hp).elim⟩
    · rintro t (hwon | ⟨el', hel', rfl⟩)
      · rcases won with hsame | ⟨_, hnew⟩
        · exact .inl (.inl (hsame ▸ hwon))
        · rw [hnew] at hwon
          rcases List.mem_append.mp hwon with hold | hlast
          · exact .inl (.inl hold)
          · cases List.mem_singleton.mp hlast
            exact .inl (.inr ⟨el, hel, rfl⟩)
      · rw [election] at hel'
        cases hel'
        exact .inl (.inr ⟨el, hel, rfl⟩)
    · intro el' hel'
      rw [election] at hel'
      cases hel'
      exact ⟨peer :: voters, hcounted⟩
    · intro t ht
      rcases won with hsame | ⟨hquorum, hnew⟩
      · exact h.elected id t (hsame ▸ ht)
      · rw [hnew] at ht
        rcases List.mem_append.mp ht with hold | hlast
        · exact h.elected id t hold
        · cases List.mem_singleton.mp hlast
          exact ⟨peer :: voters, hcounted.majority hid hquorum, hcounted.granted⟩

theorem reboot_fair (h : Fair C w) (hr : reboot (w.node id) = some n') : FairMove C w id n' [] := by
  have hball := recovered_ballot (w.node id) hr
  obtain ⟨hstart, _, hevents⟩ := reboot_eq hr
  have hmem := start_eq hstart
  have hel : n'.mem.election = none := by
    rw [hmem]
    unfold recovered
    dsimp only
    split <;> rfl
  have hwon : n'.won = (w.node id).won := by simp only [Node.won, hevents]
  refine ⟨?_, ?_, ?_, ?_, ?_, ?_⟩
  · rw [hball]
    exact .single (.crash _)
  · rintro t (ht | ⟨el, hsome, _⟩)
    · exact .inl (.inl (hwon ▸ ht))
    · rw [hel] at hsome
      cases hsome
  · intro el hsome
    rw [hel] at hsome
    cases hsome
  · exact fun t ht => h.elected id t (hwon ▸ ht)
  · exact fun _ _ _ _ hp => absurd hp List.not_mem_nil
  · exact fun _ _ _ _ hp => absurd hp List.not_mem_nil

variable {w' : World δ σ} {fates : List Fate}

theorem Fair.act (h : Fair C w) {i : Input δ} {reply : Output → List (Packet δ)}
    (hmeets : id ∈ C.ids → Meets (fun _ => True) (program (C.env id) M i) (w.node id)
      (fun out n => FairMove C w id n (reply out)) fun n => FairMove C w id n [])
    (hs : w.act C M id i fates reply = some w') : Fair C w' :=
  World.act_cases (fun _ => True) (fun _ _ => trivial) hs (fun hid _ => hmeets hid)
    (fun _ _ hm => h.move hm true) fun _ hm => h.died hm

/-- A packet that carries no vote and asks for none. -/
def Packet.unvoted : Packet δ → Prop
  | .voteRequest _ _ _ _ => False
  | .voteReply _ _ _ _ => False
  | _ => True

theorem packets_unvoted (id : NodeId) (works : List (Work δ)) : ∀ p ∈ works.map (Work.packet id), p.unvoted := by
  intro p hp
  obtain ⟨work, _, rfl⟩ := List.mem_map.mp hp
  cases work <;> trivial

theorem Moves.fair_unvoted (h : Fair C w) (hm : Moves (w.node id) n')
    (hpackets : ∀ p ∈ packets, p.unvoted) : FairMove C w id n' packets :=
  hm.fair h (fun _ _ _ _ hp => (hpackets _ hp).elim) fun _ _ _ _ hp => hpackets _ hp

theorem Fair.act_routine (h : Fair C w) {i : Input δ} (hi : i.routine) {reply : Output → List (Packet δ)}
    (hs : w.act C M id i fates reply = some w') (hreply : ∀ out, ∀ p ∈ reply out, p.unvoted) : Fair C w' := by
  apply h.act _ hs
  intro _
  apply Meets.imp (program_moves (C.env id) M hi)
  · exact fun out n hm => hm.fair_unvoted h (hreply out)
  · exact fun n hm => hm.fair_unvoted h fun _ hp => nomatch hp

theorem Fair.handle_voteRequest (h : Fair C w) {src dst : NodeId} {savedTerm : Nat} {req : RequestVoteArgs}
    (hmem : Packet.voteRequest src dst savedTerm req ∈ w.net)
    (hs : w.handle C M fates (.voteRequest src dst savedTerm req) = some w') : Fair C w' := by
  obtain ⟨hterm, hcandidate, hname⟩ := h.requests src dst savedTerm req hmem
  apply h.act _ hs
  intro _
  apply meets_bind
  apply (handleRequestVote_spec req).imp
  · rintro ⟨reply, err⟩ n ⟨hmoves, hgrant⟩
    apply meets_pure
    cases err with
    | some err => exact hmoves.fair_unvoted h fun _ hp => nomatch hp
    | none =>
      apply hmoves.fair h
      · intro v c t r hp hyes
        cases List.mem_singleton.mp hp
        refine ⟨rfl, hname, ?_⟩
        rw [(hgrant hyes).2, hterm, hcandidate]
        rfl
      · intro _ _ _ _ hp
        cases List.mem_singleton.mp hp
  · exact fun n hm => hm.fair_unvoted h fun _ hp => nomatch hp

theorem Fair.handle_voteReply (h : Fair C w) {src dst : NodeId} {savedTerm : Nat} {reply : RequestVoteReply}
    (hmem : Packet.voteReply src dst savedTerm reply ∈ w.net)
    (hs : w.handle C M fates (.voteReply src dst savedTerm reply) = some w') : Fair C w' := by
  apply h.act _ hs
  intro hid
  apply meets_bind
  apply Meets.imp (handleVoteReply_spec (C.env dst) src savedTerm reply)
  · exact fun _ n hm => meets_pure (hm.fair h hid hmem)
  · exact fun n hm => hm.fair h hid hmem

theorem Fair.electionTimeout (h : Fair C w) (hs : w.act C M id .electionTimeout fates (ownPackets id .electionTimeout) = some w') : Fair C w' := by
  apply h.act _ hs
  intro hid
  apply (electionTick_spec (C.env id)).imp
  · rintro out n (⟨rfl, rfl⟩ | ⟨requests, rfl, hcampaign⟩)
    · exact (Moves.refl _).fair_unvoted h fun _ hp => nomatch hp
    · exact hcampaign.fair h hid
  · exact fun n hm => hm.fair h hid

/-- **Every move of the cluster is fair.** -/
theorem Fair.step (h : Fair C w) {a : Action δ} (hs : w.step C M a = some w') : Fair C w' := by
  cases a with
  | restart id =>
    dsimp only [World.step] at hs
    split at hs
    · obtain ⟨n, hr, rfl⟩ := Option.map_eq_some_iff.mp hs
      have hmove := h.move (reboot_fair h hr) true
      rwa [World.send_nil] at hmove
    · cases hs
  | crash id =>
    cases hs
    exact h.died ((Moves.refl _).fair_unvoted h fun _ hp => nomatch hp)
  | own id i fates =>
    dsimp only [World.step] at hs
    split at hs
    · next hlocal =>
      cases i with
      | electionTimeout => exact h.electionTimeout hs
      | batchTick | replicate | cancel | checkCompaction =>
        refine h.act_routine ?_ hs fun out p hp => ?_
        · trivial
        · cases hp
      | _ => cases hlocal
    · cases hs
  | broadcast id =>
    dsimp only [World.step] at hs
    split at hs
    · cases hs
      have hquiet := packets_unvoted id (broadcastAppendEntries (C.env id) (w.node id))
      have hmove := h.move ((Moves.refl (w.node id)).fair_unvoted h hquiet) (w.host id).up
      rwa [show (⟨w.node id, (w.host id).up⟩ : Host δ σ) = w.host id from rfl, World.set_self] at hmove
    · cases hs
  | deliver k fates =>
    dsimp only [World.step] at hs
    split at hs
    · next packet hk =>
      have hmem := List.mem_of_getElem? hk
      cases packet with
      | voteRequest src dst savedTerm req => exact h.handle_voteRequest hmem hs
      | voteReply src dst savedTerm reply => exact h.handle_voteReply hmem hs
      | append src work =>
        refine h.act_routine ?_ hs fun out p hp => ?_
        · trivial
        · split at hp
          · cases List.mem_singleton.mp hp
            trivial
          · cases hp
      | snapshot src work =>
        refine h.act_routine ?_ hs fun out p hp => ?_
        · trivial
        · split at hp
          · cases List.mem_singleton.mp hp
            trivial
          · cases hp
      | appendReply dst work reply | snapshotReply dst work reply =>
        refine h.act_routine ?_ hs fun out p hp => ?_
        · trivial
        · cases hp
    · cases hs

end Fairness

theorem fair_init (machine : σ) : Fair C (World.init machine : World δ σ) where
  ahead := fun _ => ⟨Nat.le_refl _, fun _ => .inr rfl⟩
  granted := by
    rintro v t c ⟨reply, hmem, _⟩
    cases hmem
  stands := by
    rintro v t (hwon | ⟨el, hel, _⟩)
    · cases hwon
    · cases hel
  grantedOnce := by
    rintro v t c c' ⟨reply, hmem, _⟩
    cases hmem
  standsOnce := by
    rintro v t c _ ⟨reply, hmem, _⟩
    cases hmem
  tally := fun _ _ hel => nomatch hel
  elected := fun _ _ hwon => nomatch hwon
  requests := fun _ _ _ _ hmem => nomatch hmem

/-- Two majorities of one term share a voter, and it has voted once. -/
theorem Fair.one_leader (h : Fair C w) {a b : NodeId} {t : Nat} (ha : t ∈ (w.node a).won)
    (hb : t ∈ (w.node b).won) : a = b := by
  obtain ⟨voters, hmajority, hgranted⟩ := h.elected a t ha
  obtain ⟨voters', hmajority', hgranted'⟩ := h.elected b t hb
  obtain ⟨v, hv, hv'⟩ := hmajority.meet hmajority'
  rcases List.mem_cons.mp hv with rfl | hv
  · rcases List.mem_cons.mp hv' with rfl | hv'
    · rfl
    · exact (h.standsOnce v t b (.inl ha) (hgranted' v hv')).symm
  · rcases List.mem_cons.mp hv' with rfl | hv'
    · exact h.standsOnce v t a (.inl hb) (hgranted v hv)
    · exact h.grantedOnce v t a b (hgranted v hv) (hgranted' v hv')

/-- **Election safety.** In every run of a cluster, with messages lost, late, repeated or out of
order, with crashes and restarts, and with any durable write failing and leaving the old or the new
contents, no two nodes enter the leader state in one term. -/
theorem election_safety (C : Cluster) (M : Machine δ σ) (machine : σ) (acts : List (Action δ))
    {w : World δ σ} (hrun : exec (World.step C M) (World.init machine) acts = some w)
    (a b : NodeId) (t : Nat) (ha : t ∈ (w.node a).won) (hb : t ∈ (w.node b).won) : a = b := by
  have hfair : Fair C w := by
    apply exec_invariant (I := fun w : World δ σ => Fair C w) _ acts (fair_init machine) hrun
    exact fun w act w' h hs => h.step hs
  exact hfair.one_leader ha hb

/-- Three nodes that neither batch nor compact. -/
def threeNodes : Cluster where
  nodes := [⟨"a", "a:1"⟩, ⟨"b", "b:1"⟩, ⟨"c", "c:1"⟩]
  distinct := by decide
  named := by decide
  maxBatchSize := fun _ => 1
  snapshotThresholdLogs := 0

/-- "a" stands for election and "b" grants it its vote, while "c" is down. -/
def electA : List (Action Byte) :=
  [.restart "a", .restart "b", .own "a" .electionTimeout [], .deliver 0 [], .deliver 2 []]

theorem election_safety_elected :
    ∃ w : World Byte Bytes, exec (World.step threeNodes tape) (World.init []) electA = some w ∧
      1 ∈ (w.node "a").won ∧ ∀ b, 1 ∈ (w.node b).won → b = "a" := by
  have hwon : (1 : Nat) ∈ [1] := List.mem_singleton.mpr rfl
  refine ⟨_, rfl, hwon, ?_⟩
  exact fun b hb => election_safety threeNodes tape [] electA rfl b "a" 1 hb hwon

end Election

end Sandstore.Raft
