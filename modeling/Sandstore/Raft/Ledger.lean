import Sandstore.Lib.Ballot
import Sandstore.Raft.Effects

/-!
# Terms and votes of one node

The four numbers `FileStableStore` is about (the term and the vote in memory, and their copy on
disk) seen as a `Ballot`. The log side of a node does not touch them (`LogStroke.sameStanding`).
What does touch them moves the ballot by its own steps and no others (`program_evolves`), whatever
becomes of the writes, so every law of ballots is a law of nodes.

The second half is what a node's answer promises: a granted vote is on disk when the reply leaves
(`handleRequestVote_granted`), and so is a candidate's vote for itself before its first request.
-/

namespace Sandstore.Raft

open Lib Lib.Proc

variable {δ σ : Type}

/-- The term and the vote of a node, in memory and on disk. -/
def Node.ballot (n : Node δ σ) : Ballot NodeId :=
  ⟨n.mem.currentTerm, n.mem.votedFor, (getState n.disk.stable).term,
    (getState n.disk.stable).votedFor⟩

/-- The terms in which the node has entered the leader state. -/
def Node.won (n : Node δ σ) : List Nat :=
  n.events.filterMap fun
    | .becameLeader term => some term
    | _ => none

/-- Everything about a node that elections depend on and the log does not. -/
structure Standing where
  ballot : Ballot NodeId
  election : Option Election
  won : List Nat

def Node.standing (n : Node δ σ) : Standing := ⟨n.ballot, n.mem.election, n.won⟩

/-- A step that elections do not notice. -/
def SameStanding (n n' : Node δ σ) : Prop := n'.standing = n.standing

theorem SameStanding.trans (a b c : Node δ σ) (hab : SameStanding a b) (hbc : SameStanding b c) :
    SameStanding a c := Eq.trans hbc hab

section Frame

variable {ok : Fate → Prop} {n : Node δ σ}

theorem applied_standing (n : Node δ σ) (entry : LogEntry δ) (m : σ) : (n.applied entry m).standing = n.standing := by
  simp [Node.standing, Node.applied, Node.withMem, Node.emit, Node.ballot, Node.won, List.filterMap_append]

theorem emit_notified_standing (n : Node δ σ) (call : CallId) (err : Option Err) :
    (n.emit (.notified call err)).standing = n.standing := by
  simp [Node.standing, Node.emit, Node.ballot, Node.won, List.filterMap_append]

theorem notify_standing (n : Node δ σ) (index : Int) (err : Option Err) :
    (n.notify index err).standing = n.standing := by
  unfold Node.notify
  split
  · exact emit_notified_standing _ _ err
  · rfl

theorem failAllPending_standing (n : Node δ σ) (err : Err) : (n.failAllPending err).standing = n.standing := by
  have hnone : (n.mem.pendingClients.values.map fun call => (Event.notified call (some err) : Event δ)).filterMap (fun | .becameLeader term => some term | _ => none) = [] := by
    simp [List.filterMap_map]
  simp only [Node.standing, Node.failAllPending, Node.ballot, Node.won, List.filterMap_append, hnone, List.append_nil]

variable [Conv]

theorem storeBatch_standing (batch : List (LogEntry δ)) : Within ok SameStanding (storeBatch batch) n := by

  refine meets_ite (fun _ => meets_pure rfl) fun _ => within_bind SameStanding.trans ?_ fun err m _ => ?_
  · refine within_step SameStanding.trans rfl (fun commit hc => ?_) fun _ _ _ => meets_pure rfl
    dsimp only at hc
    split at hc <;> cases hc
    rfl
  · cases err with
    | none => exact meets_pure rfl
    | some err =>
      exact meets_update (List.foldlRecOn batch _ rfl fun m' hm e _ => (notify_standing m' e.index _).trans hm)

variable {c : Charter δ σ}

theorem LogStroke.sameStanding {n n' : Node δ σ} (h : LogStroke c n n') : SameStanding n n' := by
  cases h with
  | apply entry m => exact applied_standing n entry m
  | answer entry m err => exact (notify_standing _ _ err).trans (applied_standing n entry m)
  | refuse _ index err => exact notify_standing n index _
  | skip | enqueue | take | flush | follow | store | cut | trim | putWal | save | restore | adopt | publish
  | commit => rfl

theorem SameStanding.log {n m m' : Node δ σ} (h : SameStanding n m) (hs : LogStroke c m m') :
    SameStanding n m' := .trans _ _ _ h hs.sameStanding

/-- What is accepted changes the log, and the reply carries the term the node has. -/
theorem standing_of_watched {α : Type} {p : Proc (Node δ σ) α} {reply : α → Int}
    (h : Watched ok c.seen (SameStanding n) p n fun a _ => ∃ m, SameStanding n m ∧ reply a = int64 m.mem.currentTerm)
    (hseen : ∀ m, c.seen m) :
    Meets ok p n (fun a n' => SameStanding n n' ∧ reply a = int64 n.mem.currentTerm) (SameStanding n) := by
  refine (h.meets hseen rfl).weaken ?_
  rintro a n' ⟨hsame, m, hm, hterm⟩
  exact ⟨hsame, hterm.trans (congrArg (fun s : Standing => int64 s.ballot.term) hm)⟩

theorem acceptEntries_standing (M : Machine δ σ) (req : AppendEntriesRequest δ) : Meets ok (acceptEntries M req) n
      (fun reply n' => SameStanding n n' ∧ reply.term = int64 n.mem.currentTerm) (SameStanding n) :=
  standing_of_watched (c := .plain M (.appendEntries req))
    (acceptEntries_strokes .log rfl (fun _ => trivial) rfl) fun _ => trivial

theorem acceptSnapshot_standing (M : Machine δ σ) (req : InstallSnapshotRequest) : Meets ok (acceptSnapshot M req) n
      (fun reply n' => SameStanding n n' ∧ reply.term = int64 n.mem.currentTerm) (SameStanding n) :=
  standing_of_watched (c := .plain M (.installSnapshot req))
    (acceptSnapshot_strokes .log rfl (fun _ => trivial) rfl) fun _ => trivial

end Frame

/-! ## What moves the ballot

From here on conversions are exact: a comparison of terms on the wire is one of the terms. -/

section Moves

attribute [local instance] Conv.exact

variable {ok : Fate → Prop} {n n' : Node δ σ}

/-- A step that moves the ballot by its own rules, and starts and wins no election. -/
structure Moves (n n' : Node δ σ) : Prop where
  evolves : n.ballot.Evolves "" n'.ballot
  election : n'.mem.election = n.mem.election
  won : n'.won = n.won

theorem SameStanding.moves (h : SameStanding n n') : Moves n n' := by
  have hb : n'.ballot = n.ballot := congrArg Standing.ballot h
  exact ⟨hb ▸ .refl, congrArg Standing.election h, congrArg Standing.won h⟩

theorem Moves.trans (a b c : Node δ σ) (hab : Moves a b) (hbc : Moves b c) : Moves a c :=
  ⟨hab.evolves.trans hbc.evolves, hbc.election.trans hab.election, hbc.won.trans hab.won⟩

theorem Moves.refl (n : Node δ σ) : Moves n n := ⟨.refl, rfl, rfl⟩

theorem moves_demote {newTerm : Nat} (ht : n.mem.currentTerm < newTerm) (leaderID : NodeId) :
    Moves n (n.demote newTerm leaderID) where
  evolves := .single (.raise n.ballot newTerm ht)
  election := rfl
  won := congrArg Standing.won (failAllPending_standing _ _)

theorem moves_putStable (n : Node δ σ) : Moves n n.putStable := ⟨.single (.persist n.ballot), rfl, rfl⟩

theorem handleStableStoreFailure_standing (err : Err) : Meets ok (handleStableStoreFailure err) n
      (fun e n' => e = some err ∧ SameStanding n n' ∧ n'.mem.state = .follower) (SameStanding n) := by
  refine meets_update_bind (meets_pure ⟨rfl, ?_, rfl⟩)
  exact failAllPending_standing (n.withMem fun r => { r with state := .follower }) _

/-- Stepping down to a higher term: the new term is in memory in any case, and on disk where no
error came back. -/
theorem stepDown_spec {newTerm : Nat} (ht : n.mem.currentTerm < newTerm) (leaderID : NodeId) :
    Meets ok (stepDown newTerm leaderID) n
      (fun err n' => Moves n n' ∧ n'.mem.currentTerm = newTerm ∧ n'.mem.state = .follower ∧
        (err = none → n'.ballot = Ballot.settled newTerm "")) (Moves n) := by
  have hdemote := moves_demote ht leaderID
  have hput := hdemote.trans _ _ _ (moves_putStable _)
  -- a failed write leaves the disk as it was or as it would have been; both are moves
  have hfail : ∀ m : Node δ σ, Moves n m → m.mem.currentTerm = newTerm →
      Meets ok (handleStableStoreFailure (.stableStoreWrite newTerm)) m
        (fun err n' => Moves n n' ∧ n'.mem.currentTerm = newTerm ∧ n'.mem.state = .follower ∧
          (err = none → n'.ballot = Ballot.settled newTerm ""))
        (Moves n) := by
    intro m hm hterm
    refine (handleStableStoreFailure_standing _).imp ?_ fun m' h => hm.trans _ _ _ h.moves
    rintro e m' ⟨rfl, hsame, hstate⟩
    have hb : m'.ballot = m.ballot := congrArg Standing.ballot hsame
    exact ⟨hm.trans _ _ _ hsame.moves, (congrArg Ballot.term hb).trans hterm, hstate, fun h => nomatch h⟩
  refine meets_update_bind (meets_bind (meets_write ?_ ?_ ?_ ?_ ?_))
  · exact ⟨hput, rfl, rfl, fun _ => rfl⟩
  · exact fun _ => hfail _ hdemote rfl
  · exact fun _ => hfail _ hput rfl
  · exact fun _ => hdemote
  · exact fun _ => hput

/-! ## The three handlers -/

/-- What a request that was answered has done to the ballot: a higher term is on disk when the
answer leaves, and an equal term is left as it was. -/
structure Answered (n n' : Node δ σ) (reqTerm replyTerm : Int) : Prop where
  current : n.mem.currentTerm ≤ reqTerm
  term : replyTerm = n'.mem.currentTerm
  raised : n.mem.currentTerm < reqTerm → n'.ballot.diskTerm = n'.ballot.term
  kept : ¬ n.mem.currentTerm < reqTerm → n'.ballot = n.ballot

/-- The term handling that `HandleAppendEntries` and `HandleInstallSnapshot` share. -/
theorem answered_of_body {α : Type} {reqTerm : Int} {leaderID : NodeId} {body : Proc (Node δ σ) α}
    (reply : α → Int) (good : α → Prop) {stale : α} {failed : Err → α} (hstale : ¬ good stale)
    (hfailed : ∀ err, ¬ good (failed err)) (hbody : ∀ m : Node δ σ, Meets ok body m
      (fun a m' => SameStanding m m' ∧ (good a → reply a = m.mem.currentTerm)) (SameStanding m)) :
    Meets ok (underTerm n reqTerm leaderID stale failed body) n
      (fun a n' => Moves n n' ∧ (good a → Answered n n' reqTerm (reply a))) (Moves n) := by
  refine meets_ite (fun _ => meets_pure ⟨.refl n, fun h => absurd h hstale⟩) fun hlt => ?_
  have hcurrent : (n.mem.currentTerm : Int) ≤ reqTerm := Int.not_lt.mp hlt
  refine meets_ite (fun hgt => ?_) fun hgt => ?_
  · have hgt' : (n.mem.currentTerm : Int) < reqTerm := hgt
    have ht : n.mem.currentTerm < uint64 reqTerm := by
      show n.mem.currentTerm < reqTerm.toNat
      omega
    refine (stepDown_spec ht leaderID).bind ?_
    rintro err m ⟨hm, hterm, -, hdisk⟩
    cases err with
    | some err => exact meets_pure ⟨hm, fun h => absurd h (hfailed err)⟩
    | none =>
      have hball := hdisk rfl
      refine (hbody m).imp ?_ fun m' h => hm.trans _ _ _ h.moves
      rintro a m' ⟨hsame, hreply⟩
      have hb : m'.ballot = m.ballot := congrArg Standing.ballot hsame
      refine ⟨hm.trans _ _ _ hsame.moves, fun hgood => ⟨hcurrent, ?_, ?_, fun h => absurd hgt' h⟩⟩
      · rw [hreply hgood]
        exact congrArg (fun b : Ballot NodeId => (b.term : Int)) hb.symm
      · intro _
        rw [hb, hball]
        rfl
  · refine (hbody n).imp ?_ fun m' h => h.moves
    rintro a m' ⟨hsame, hreply⟩
    have hb : m'.ballot = n.ballot := congrArg Standing.ballot hsame
    refine ⟨hsame.moves, fun hgood => ⟨hcurrent, ?_, fun h => absurd h hgt, fun _ => hb⟩⟩
    rw [hreply hgood]
    exact congrArg (fun b : Ballot NodeId => (b.term : Int)) hb.symm

theorem handleAppendEntries_spec (M : Machine δ σ) (req : AppendEntriesRequest δ) :
    Meets ok (handleAppendEntries M req) n
      (fun a n' => Moves n n' ∧ (a.1.success = true → Answered n n' req.term a.1.term)) (Moves n) := by
  refine meets_read_bind (answered_of_body
    (fun a : AppendEntriesReply × Option Err => a.1.term) (·.1.success = true) Bool.false_ne_true
    (fun _ => Bool.false_ne_true) fun m => ?_)
  refine (acceptEntries_standing M req).bind ?_
  rintro reply m' ⟨hsame, hterm⟩
  exact meets_pure ⟨hsame, fun _ => hterm⟩

theorem handleInstallSnapshot_spec (M : Machine δ σ) (req : InstallSnapshotRequest) :
    Meets ok (handleInstallSnapshot M req) n
      (fun a n' => Moves n n' ∧ (a.1.success = true → Answered n n' req.term a.1.term)) (Moves n) := by
  refine meets_read_bind (answered_of_body
    (fun a : InstallSnapshotReply × Option Err => a.1.term) (·.1.success = true) Bool.false_ne_true
    (fun _ => Bool.false_ne_true) fun m => ?_)
  refine (acceptSnapshot_standing M req).bind ?_
  rintro reply m' ⟨hsame, hterm⟩
  exact meets_pure ⟨hsame, fun _ => hterm⟩

/-- A vote is on disk before it is granted. -/
theorem decideVote_spec (req : RequestVoteArgs) : Meets ok (decideVote req) n
      (fun a n' => Moves n n' ∧ (a.1.voteGranted = true → a.1.term = n.mem.currentTerm ∧
        n'.ballot = Ballot.settled n.mem.currentTerm req.candidateID)) (Moves n) := by
  refine meets_read_bind (meets_ite (fun hcan => ?_) fun _ => meets_pure ⟨.refl n, fun h => nomatch h⟩)
  have hcast : Moves n (n.withMem fun r => { r with votedFor := req.candidateID }) :=
    ⟨.single (.cast n.ballot req.candidateID hcan.1), rfl, rfl⟩
  have hput := hcast.trans _ _ _ (moves_putStable _)
  have hfail : ∀ m : Node δ σ, Moves n m →
      Meets ok (handleStableStoreFailure (.stableStoreWrite n.mem.currentTerm) >>= fun err =>
          pure ((⟨int64 n.mem.currentTerm, false⟩, err) : RequestVoteReply × Option Err)) m
        (fun a n' => Moves n n' ∧ (a.1.voteGranted = true → a.1.term = n.mem.currentTerm ∧
          n'.ballot = Ballot.settled n.mem.currentTerm req.candidateID))
        (Moves n) := by
    intro m hm
    refine meets_bind ((handleStableStoreFailure_standing _).imp ?_ fun _ h => hm.trans _ _ _ h.moves)
    rintro e m' ⟨-, hsame, -⟩
    exact meets_pure ⟨hm.trans _ _ _ hsame.moves, fun h => nomatch h⟩
  refine meets_update_bind (meets_bind (meets_write ?_ ?_ ?_ ?_ ?_))
  · exact meets_pure ⟨hput, fun _ => ⟨rfl, rfl⟩⟩
  · exact fun _ => hfail _ hcast
  · exact fun _ => hfail _ hput
  · exact fun _ => hcast
  · exact fun _ => hput

theorem handleRequestVote_spec (req : RequestVoteArgs) : Meets ok (handleRequestVote req) n
      (fun a n' => Moves n n' ∧ (a.1.voteGranted = true → a.1.term = req.term ∧
        n'.ballot = Ballot.settled req.term.toNat req.candidateID)) (Moves n) := by
  refine meets_read_bind (meets_ite (fun _ => meets_pure ⟨.refl n, fun h => nomatch h⟩) fun hlt => ?_)
  have hlt' : ¬ req.term < (n.mem.currentTerm : Int) := hlt
  refine meets_ite (fun hgt => ?_) fun hgt => ?_
  · have hgt' : (n.mem.currentTerm : Int) < req.term := hgt
    have ht : n.mem.currentTerm < req.term.toNat := by omega
    refine (stepDown_spec ht "").bind ?_
    rintro err m ⟨hm, hterm, -, -⟩
    cases err with
    | some err => exact meets_read_bind (meets_pure ⟨hm, fun h => nomatch h⟩)
    | none =>
      refine (decideVote_spec req).imp ?_ fun _ h => hm.trans _ _ _ h
      rintro a m' ⟨hm', hgrant⟩
      refine ⟨hm.trans _ _ _ hm', fun h => ?_⟩
      obtain ⟨hreply, hball⟩ := hgrant h
      rw [hterm] at hreply hball
      exact ⟨by rw [hreply]; omega, hball⟩
  · have hgt' : ¬ (n.mem.currentTerm : Int) < req.term := hgt
    have hterm : n.mem.currentTerm = req.term.toNat := by omega
    refine (decideVote_spec req).weaken ?_
    rintro a m' ⟨hm', hgrant⟩
    refine ⟨hm', fun h => ?_⟩
    obtain ⟨hreply, hball⟩ := hgrant h
    rw [hterm] at hreply hball
    exact ⟨by rw [hreply]; omega, hball⟩

/-! ## Elections -/

/-- What starting an election does. Alone in its cluster the node leads at once; otherwise it opens
an election and asks its peers. Either way its vote for itself is on disk by then. -/
structure Campaigned (env : Env) (n : Node δ σ) (requests : List (NodeId × RequestVoteArgs))
    (n' : Node δ σ) : Prop where
  evolves : n.ballot.Evolves "" n'.ballot
  won : n'.won = n.won ∨ n'.won = n.won ++ [n.mem.currentTerm + 1] ∧
    n'.ballot = Ballot.settled (n.mem.currentTerm + 1) env.id ∧
      ∃ nodes, env.getAllNodes = some nodes ∧ nodes.length = 1
  election : n'.mem.election = n.mem.election ∧ requests = [] ∨
    n'.ballot = Ballot.settled (n.mem.currentTerm + 1) env.id ∧
      n'.won = n.won ∧ ∃ nodes, env.getAllNodes = some nodes ∧
      n'.mem.election = some ⟨n.mem.currentTerm + 1, 1, nodes.length / 2 + 1, peersOf env.id nodes⟩ ∧
      ∀ r ∈ requests, r.1 ∈ peersOf env.id nodes ∧ r.2.term = (n.mem.currentTerm + 1 : Nat) ∧
        r.2.candidateID = env.id

theorem Moves.campaigned {env : Env} (h : Moves n n') : Campaigned env n [] n' :=
  ⟨h.evolves, .inl h.won, .inl ⟨h.election, rfl⟩⟩

theorem becomeLeader_standing (env : Env) (nodes : List ClusterNode) :
    Within ok (fun n n' => n'.standing = ⟨n.ballot, n.mem.election, n.won ++ [n.mem.currentTerm]⟩)
      (becomeLeader env nodes) n := by
  have hled : ((n.withMem fun r => { r.lead env.id nodes with pendingBatch := [] }).emit
      (.becameLeader n.mem.currentTerm)).standing =
      ⟨n.ballot, n.mem.election, n.won ++ [n.mem.currentTerm]⟩ := by
    simp [Node.standing, Node.won, Node.emit, Node.withMem, Node.ballot, Replicator.lead, List.filterMap_append]
  exact meets_read_bind (meets_update_bind (Meets.imp (storeBatch_standing _)
    (fun _ _ h => Eq.trans h hled) fun _ h => Eq.trans h hled))

theorem startElection_spec (env : Env) : Meets ok (startElection env) n (Campaigned env n) (Campaigned env n []) := by
  have hstand : Moves n (n.withMem fun r =>
      { r with state := .candidate, currentTerm := succ64 r.currentTerm, votedFor := env.id }) := by
    have hlt : n.ballot.term < n.mem.currentTerm + 1 := Nat.lt_succ_self _
    exact ⟨.tail (.single (.raise n.ballot _ hlt)) (.cast _ env.id (.inl rfl)), rfl, rfl⟩
  have hput := hstand.trans _ _ _ (moves_putStable _)
  have hfail : ∀ m : Node δ σ, Moves n m → ∀ err,
      Meets ok (handleStableStoreFailure err >>= fun _ => pure []) m (Campaigned env n)
        (Campaigned env n []) := by
    intro m hm err
    refine meets_bind ((handleStableStoreFailure_standing err).imp ?_ fun _ h => (hm.trans _ _ _ h.moves).campaigned)
    rintro e m' ⟨-, hsame, -⟩
    exact meets_pure (hm.trans _ _ _ hsame.moves).campaigned
  refine meets_update_bind (meets_read_bind (meets_bind (meets_write ?_ ?_ ?_ ?_ ?_)))
  · rw [if_pos rfl]
    cases hnodes : env.getAllNodes with
    | none => exact meets_pure hput.campaigned
    | some nodes =>
      refine meets_ite (fun hone => ?_) fun _ => ?_
      · -- alone in the cluster: leader at once
        have hled : ∀ m : Node δ σ, m.standing = ⟨⟨n.mem.currentTerm + 1, env.id,
            n.mem.currentTerm + 1, env.id⟩, n.mem.election, n.won ++ [n.mem.currentTerm + 1]⟩ →
            Campaigned env n [] m := by
          intro m hm
          have hb := congrArg Standing.ballot hm
          have hball : m.ballot = _ := hb
          refine ⟨hball ▸ hput.evolves, .inr ⟨congrArg Standing.won hm, ?_, nodes, hnodes, hone⟩,
            .inl ⟨congrArg Standing.election hm, rfl⟩⟩
          exact hball
        exact meets_bind ((becomeLeader_standing env nodes).imp
          (fun _ m hm => meets_pure (hled m hm)) fun m hm => hled m hm)
      · refine meets_update_bind (meets_pure
          ⟨hput.evolves, .inl rfl, .inr ⟨rfl, rfl, nodes, hnodes, rfl, ?_⟩⟩)
        intro r hr
        obtain ⟨p, hp, rfl⟩ := List.mem_map.mp hr
        exact ⟨hp, rfl, rfl⟩
  · exact fun _ => hfail _ hstand _
  · exact fun _ => hfail _ hput _
  · exact fun _ => hstand.campaigned
  · exact fun _ => hput.campaigned

/-- What taking the reply of `peer` does. A reply that grants is counted once, and only in the term
the election was started for; the last one that was missing makes the node a leader. -/
inductive Counted (peer : NodeId) (savedTerm : Nat) (reply : RequestVoteReply) (n n' : Node δ σ) :
    Prop where
  | ignored (h : Moves n n')
  | taken (el : Election) (hel : n.mem.election = some el)
      (evolves : n.ballot.Evolves "" n'.ballot) (won : n'.won = n.won)
      (election : n'.mem.election = some { el with waiting := el.waiting.erase peer })
  | granted (el : Election) (hel : n.mem.election = some el) (hterm : el.savedTerm = savedTerm)
      (hpeer : peer ∈ el.waiting) (hreply : reply.voteGranted = true)
      (ballot : n'.ballot = n.ballot)
      (election : n'.mem.election = some
        { el with waiting := el.waiting.erase peer, votesReceived := el.votesReceived + 1 })
      (won : n'.won = n.won ∨
        el.votesReceived + 1 ≥ el.quorum ∧ n'.won = n.won ++ [savedTerm])

theorem Counted.evolves {peer : NodeId} {savedTerm : Nat} {reply : RequestVoteReply}
    (h : Counted peer savedTerm reply n n') : n.ballot.Evolves "" n'.ballot := by
  cases h with
  | ignored h => exact h.evolves
  | taken el _ evolves => exact evolves
  | granted el _ _ _ _ ballot => exact ballot ▸ .refl

theorem handleVoteReply_spec (env : Env) (peer : NodeId) (savedTerm : Nat) (reply : RequestVoteReply) :
    Within ok (Counted peer savedTerm reply) (handleVoteReply env peer savedTerm reply) n := by
  refine meets_read_bind ?_
  cases hel : n.mem.election with
  | none => exact meets_pure (.ignored (.refl _))
  | some el =>
    refine meets_ite (fun _ => meets_pure (.ignored (.refl _))) fun hwait => ?_
    obtain ⟨hsaved, hpeer⟩ := not_or.mp hwait
    have hsaved := not_not.mp hsaved
    have hpeer := not_not.mp hpeer
    refine meets_update_bind (meets_ite (fun _ => ?_) fun hcur => ?_)
    · exact meets_pure (.taken el hel .refl rfl rfl)
    have hterm : n.mem.currentTerm = savedTerm := not_not.mp (not_or.mp hcur).2
    refine meets_ite (fun hgt => ?_) fun _ => meets_ite (fun hgranted => ?_) fun _ => ?_
    · have hgt' : (n.mem.currentTerm : Int) < reply.term := hgt
      have ht : n.mem.currentTerm < uint64 reply.term := by
        show n.mem.currentTerm < reply.term.toNat
        omega
      have htaken : ∀ m : Node δ σ, Moves (n.withMem fun r =>
          { r with election := some { el with waiting := el.waiting.erase peer } }) m →
          Counted peer savedTerm reply n m :=
        fun m hm => .taken el hel hm.evolves hm.won hm.election
      refine meets_bind (Meets.imp (stepDown_spec (n := n.withMem _) ht "") ?_ htaken)
      rintro err m ⟨hm, -⟩
      exact meets_pure (htaken m hm)
    · have hcount : ∀ m : Node δ σ, m.mem.election = some { el with
            waiting := el.waiting.erase peer, votesReceived := el.votesReceived + 1 } →
          m.ballot = n.ballot → (m.won = n.won ∨ el.votesReceived + 1 ≥ el.quorum ∧ m.won = n.won ++ [savedTerm]) →
          Counted peer savedTerm reply n m :=
        fun m he hb hw => .granted el hel hsaved hpeer hgranted hb he hw
      refine meets_update_bind (meets_ite (fun hquorum => ?_) fun _ => ?_)
      · refine Meets.imp (becomeLeader_standing env _) (fun _ m hm => ?_) fun m hm => ?_
        all_goals
          exact hcount m (congrArg Standing.election hm) (congrArg Standing.ballot hm)
            (.inr ⟨hquorum, (congrArg Standing.won hm).trans (by rw [← hterm]; rfl)⟩)
      · exact meets_pure (hcount _ rfl rfl (.inl rfl))
    · exact meets_pure (.taken el hel .refl rfl rfl)

/-! ## Every input -/

/-- An input that neither starts an election nor is a reply to one. -/
def Input.routine : Input δ → Prop
  | .electionTimeout => False
  | .voteReply _ _ _ => False
  | _ => True

theorem Stroke.moves {c : Charter δ σ} (hi : c.input.routine) (h : Stroke c n n') : Moves n n' := by
  have hseeks : c.input.seeksOffice = true → False := by
    intro hseeks
    cases hinput : c.input <;> rw [hinput] at hi hseeks <;> first | exact hi | cases hseeks
  cases h with
  | log _ h => exact h.sameStanding.moves
  | demote term leaderID hnew =>
    refine moves_demote ?_ leaderID
    simp only [uint64, int64] at hnew ⊢
    omega
  | fail => exact SameStanding.moves (failAllPending_standing (n.withMem _) _)
  | persist => exact moves_putStable n
  | vote req _ hfree => exact ⟨.single (.cast n.ballot req.candidateID hfree), rfl, rfl⟩
  | stand _ h | campaign _ h | lead _ _ h => exact (hseeks h).elim
  | setPeer => exact SameStanding.moves rfl
  | cancel index call => exact SameStanding.moves (emit_notified_standing (n.withMem _) _ _)

/-- A routine input moves the ballot by its own rules, and starts and wins no election. -/
theorem program_moves (env : Env) (M : Machine δ σ) {i : Input δ} (hi : i.routine) :
    Within ok Moves (program env M i) n := program_within env M i .refl Moves.trans fun _ _ h => h.moves (by exact hi)

theorem electionTick_spec (env : Env) : Meets ok (electionTick env) n
      (fun out n' => out = .nothing ∧ n' = n ∨ ∃ requests, out = .campaign requests ∧ Campaigned env n requests n')
      (Campaigned env n []) := by
  refine meets_read_bind (meets_ite (fun _ => meets_pure (.inl ⟨rfl, rfl⟩)) fun _ => ?_)
  refine (startElection_spec env).bind ?_
  exact fun requests m hm => meets_pure (.inr ⟨requests, rfl, hm⟩)

/-- Whatever happens to a node, and whatever becomes of its writes, moves its ballot by the
ballot's own steps. -/
theorem program_evolves (env : Env) (M : Machine δ σ) (i : Input δ) :
    Within ok (fun n n' => n.ballot.Evolves "" n'.ballot) (program env M i) n := by
  by_cases hi : i.routine
  · exact (program_moves env M hi).mono fun _ h => h.evolves
  · cases i with
    | electionTimeout =>
      refine (electionTick_spec env).imp ?_ fun _ h => h.evolves
      rintro out m (⟨-, rfl⟩ | ⟨requests, -, hm⟩)
      · exact .refl
      · exact hm.evolves
    | voteReply peer savedTerm reply =>
      refine meets_bind (Meets.imp (handleVoteReply_spec env peer savedTerm reply) ?_
        fun _ h => h.evolves)
      exact fun _ m hm => meets_pure hm.evolves
    | _ => exact absurd trivial hi

theorem recovered_ballot (n : Node δ σ) {n' : Node δ σ} (h : reboot n = some n') :
    n'.ballot = ⟨n.ballot.diskTerm, n.ballot.diskVote, n.ballot.diskTerm, n.ballot.diskVote⟩ := by
  obtain ⟨hstart, hdisk, -⟩ := reboot_eq h
  have hmem := start_eq hstart
  unfold Node.ballot
  rw [hdisk, hmem]
  unfold recovered
  dsimp only
  split <;> rfl

theorem step_evolves {env : Env} {M : Machine δ σ} {a : Act δ} (h : step env M n a = some n') :
    n.ballot.Evolves "" n'.ballot := by
  have hprogram : ∀ i, Within (fun _ => True) _ (program env M i) n := fun i => program_evolves env M i
  refine step_cases h (fun _ _ _ _ _ => trivial) hprogram .refl ?_
  intro m hm hreboot
  rw [recovered_ballot m hreboot]
  exact hm.tail (.crash m.ballot)

/-- The ballot of a node along a whole run. -/
theorem exec_evolves {env : Env} {M : Machine δ σ} (acts : List (Act δ))
    (h : exec (step env M) n acts = some n') : n.ballot.Evolves "" n'.ballot := by
  refine exec_invariant (I := fun m : Node δ σ => n.ballot.Evolves "" m.ballot) ?_ acts .refl h
  intro m a m' hm hs
  exact hm.trans (step_evolves hs)

theorem started_ahead (h : Started n) : n.ballot.Ahead "" := by
  have hmem := start_eq h
  have hterm : n.ballot.diskTerm = n.ballot.term ∧ n.ballot.diskVote = n.ballot.vote := by
    unfold Node.ballot
    rw [hmem]
    unfold recovered
    dsimp only
    split <;> exact ⟨rfl, rfl⟩
  exact ⟨Nat.le_of_eq hterm.1, fun _ => .inr hterm.2⟩

end Moves

end Sandstore.Raft
