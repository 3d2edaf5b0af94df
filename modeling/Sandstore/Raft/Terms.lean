import Sandstore.Raft.Ledger

/-!
# Terms on the machine's integers

A node keeps its term as a `uint64`, counts it up without looking, and compares it as an `int64`. Below
`2 ^ 63` the two agree and a term that is taken over is a larger one. From `2 ^ 63` on the node's own term
is negative where it is compared, so every request whose term is not negative looks newer, and the term it
brings is smaller. One request of term `2 ^ 63 - 1` and one election timeout lead there.

`contact_spec` is what one request or timeout does to the term and the vote, as an equation. **The law**
(`terms_ordered_iff`) is about every sequence of them: terms never go back, and a term has one vote,
exactly if no request of a term that is not negative meets a node from `2 ^ 63` on and no election is
started at the largest term. All writes may fail; a node that dies in one is not heard of again.
-/

namespace Sandstore.Raft

open Lib Lib.Proc

variable {δ σ : Type}

section Terms

attribute [local instance] Conv.go

/-! ## Contacts -/

/-- The values of an `int64`. -/
def IsInt64 (z : Int) : Prop := -2 ^ 63 ≤ z ∧ z < 2 ^ 63

instance (z : Int) : Decidable (IsInt64 z) := inferInstanceAs (Decidable (-2 ^ 63 ≤ z ∧ z < 2 ^ 63))

/-- What reaches a node: the requests of others, whose term is an `int64`, and its election timeout. -/
inductive Contact (δ : Type) where
  | requestVote (req : RequestVoteArgs) (hterm : IsInt64 req.term)
  | appendEntries (req : AppendEntriesRequest δ) (hterm : IsInt64 req.term)
  | installSnapshot (req : InstallSnapshotRequest) (hterm : IsInt64 req.term)
  | electionTimeout

def Contact.input : Contact δ → Input δ
  | .requestVote req _ => .requestVote req
  | .appendEntries req _ => .appendEntries req
  | .installSnapshot req _ => .installSnapshot req
  | .electionTimeout => .electionTimeout

/-- One contact, under the fates of its writes. -/
def contact (env : Env) (M : Machine δ σ) (n : Node δ σ) (c : Contact δ × List Fate) : Option (Node δ σ) :=
  match (program env M c.1.input).run n c.2 with
  | .back _ n' => some n'
  | .died _ => none

/-- The term a node has after it has seen a request of this one. -/
def Replicator.termFrom (r : Replicator δ) (term : Int) : Nat :=
  if term > int64 r.currentTerm then uint64 term else r.currentTerm

/-- The term a contact leaves the node with. -/
def Contact.termAfter (r : Replicator δ) : Contact δ → Nat
  | .requestVote req _ => r.termFrom req.term
  | .appendEntries req _ => r.termFrom req.term
  | .installSnapshot req _ => r.termFrom req.term
  | .electionTimeout => if r.state = .leader then r.currentTerm else succ64 r.currentTerm

/-- What a contact has to meet for the term not to go back. -/
def Contact.InOrder (n : Node δ σ) : Contact δ → Prop
  | .requestVote req _ => n.mem.currentTerm < 2 ^ 63 ∨ req.term < 0
  | .appendEntries req _ => n.mem.currentTerm < 2 ^ 63 ∨ req.term < 0
  | .installSnapshot req _ => n.mem.currentTerm < 2 ^ 63 ∨ req.term < 0
  | .electionTimeout => n.mem.state = .leader ∨ n.mem.currentTerm ≠ 2 ^ 64 - 1

/-! ## What a contact does -/

/-- A term that looks newer is another one. -/
theorem uint64_ne_of_newer {term : Int} (h : IsInt64 term) {t : Nat} (hnew : term > int64 t) : uint64 term ≠ t := by
  obtain ⟨hlow, hhigh⟩ := h
  simp only [int64, uint64] at hnew ⊢
  split at hnew <;> omega

theorem uint64_lt (z : Int) : uint64 z < 2 ^ 64 := by
  simp only [uint64]
  omega

theorem succ64_ne (t : Nat) : succ64 t ≠ t := by
  simp only [succ64, uint64]
  omega

theorem termFrom_le_iff {r : Replicator δ} (h : r.currentTerm < 2 ^ 64) {term : Int} (hterm : IsInt64 term) :
    r.currentTerm ≤ r.termFrom term ↔ r.currentTerm < 2 ^ 63 ∨ term < 0 := by
  obtain ⟨hlow, hhigh⟩ := hterm
  simp only [Replicator.termFrom, int64, uint64]
  split <;> split <;> omega

theorem succ64_le_iff {t : Nat} (h : t < 2 ^ 64) : t ≤ succ64 t ↔ t ≠ 2 ^ 64 - 1 := by
  simp only [succ64, uint64]
  omega

/-- **The term goes back exactly where the contact is out of order.** -/
theorem Contact.le_termAfter_iff (c : Contact δ) {n : Node δ σ} (h : n.mem.currentTerm < 2 ^ 64) :
    n.mem.currentTerm ≤ c.termAfter n.mem ↔ c.InOrder n := by
  cases c with
  | requestVote req hterm => exact termFrom_le_iff h hterm
  | appendEntries req hterm => exact termFrom_le_iff h hterm
  | installSnapshot req hterm => exact termFrom_le_iff h hterm
  | electionTimeout =>
    simp only [Contact.termAfter, Contact.InOrder]
    split
    · next hleads => simp [hleads]
    · next hleads =>
      rw [succ64_le_iff h]
      simp [hleads]

section Programs

variable {ok : Fate → Prop} {n : Node δ σ}

/-- Term and vote as they were. -/
def SameVote (n n' : Node δ σ) : Prop :=
  n'.mem.currentTerm = n.mem.currentTerm ∧ n'.mem.votedFor = n.mem.votedFor

theorem SameStanding.sameVote {n' : Node δ σ} (h : SameStanding n n') : SameVote n n' :=
  ⟨congrArg (·.ballot.term) h, congrArg (·.ballot.vote) h⟩

theorem stepDown_term (newTerm : Nat) (leaderID : NodeId) :
    Meets ok (stepDown newTerm leaderID) n (fun _ m => m.mem.currentTerm = newTerm) fun _ => True := by
  refine meets_update_bind (meets_bind (meets_write rfl ?_ ?_ (fun _ => trivial) fun _ => trivial)) <;>
    exact fun _ => meets_update_bind (meets_pure rfl)

/-- The term handling of two handlers. -/
theorem handled_term {α : Type} {reqTerm : Int} {leaderID : NodeId} {body : Proc (Node δ σ) α} {stale : α}
    {failed : Err → α} (hbody : ∀ m : Node δ σ, Within ok SameStanding body m) :
    Meets ok (underTerm n reqTerm leaderID stale failed body) n
      (fun _ m => m.mem.currentTerm = n.mem.termFrom reqTerm ∧
        (reqTerm ≤ int64 n.mem.currentTerm → m.mem.votedFor = n.mem.votedFor)) fun _ => True := by
  have hsame : ∀ {m m' : Node δ σ}, SameStanding m m' → SameVote m m' := SameStanding.sameVote
  refine meets_ite (fun hold => meets_pure ⟨?_, fun _ => rfl⟩) fun _ => meets_ite (fun hnew => ?_) fun hold => ?_
  · rw [Replicator.termFrom, if_neg (Int.not_lt.mpr (Int.le_of_lt hold))]
  · have hterm : n.mem.termFrom reqTerm = uint64 reqTerm := if_pos hnew
    refine (stepDown_term _ _).bind ?_
    intro err m hm
    cases err with
    | some err => exact meets_pure ⟨hm.trans hterm.symm, fun hle => absurd hnew (Int.not_lt.mpr hle)⟩
    | none =>
      refine Meets.imp (hbody m) (fun _ m' h => ⟨?_, fun hle => absurd hnew (Int.not_lt.mpr hle)⟩) fun _ _ => trivial
      rw [(hsame h).1, hm, hterm]
  · refine Meets.imp (hbody n) (fun _ m' h => ⟨?_, fun _ => (hsame h).2⟩) fun _ _ => trivial
    rw [(hsame h).1, Replicator.termFrom, if_neg hold]

theorem handleAppendEntries_term (M : Machine δ σ) (req : AppendEntriesRequest δ) :
    Meets ok (handleAppendEntries M req) n (fun _ m => m.mem.currentTerm = n.mem.termFrom req.term ∧
      (req.term ≤ int64 n.mem.currentTerm → m.mem.votedFor = n.mem.votedFor)) fun _ => True := by
  refine meets_read_bind (handled_term fun m => ?_)
  exact meets_bind_pure ((acceptEntries_standing M req).weaken (fun _ _ h => h.1))

theorem handleInstallSnapshot_term (M : Machine δ σ) (req : InstallSnapshotRequest) :
    Meets ok (handleInstallSnapshot M req) n (fun _ m => m.mem.currentTerm = n.mem.termFrom req.term ∧
      (req.term ≤ int64 n.mem.currentTerm → m.mem.votedFor = n.mem.votedFor)) fun _ => True := by
  refine meets_read_bind (handled_term fun m => ?_)
  exact meets_bind_pure ((acceptSnapshot_standing M req).weaken (fun _ _ h => h.1))

/-- A vote is cast where there is none, or once more for the same candidate. -/
theorem decideVote_term (req : RequestVoteArgs) :
    Meets ok (decideVote req) n (fun _ m => m.mem.currentTerm = n.mem.currentTerm ∧
      (n.mem.votedFor ≠ "" → m.mem.votedFor = n.mem.votedFor)) fun _ => True := by
  refine meets_read_bind (meets_ite (fun hgrant => ?_) fun _ => meets_pure ⟨rfl, fun _ => rfl⟩)
  have hcast : n.mem.votedFor ≠ "" → req.candidateID = n.mem.votedFor :=
    fun hvote => (hgrant.1.resolve_left hvote).symm
  refine meets_update_bind (meets_bind (meets_write ?_ ?_ ?_ (fun _ => trivial) fun _ => trivial))
  · exact meets_pure ⟨rfl, hcast⟩
  · exact fun _ => meets_bind (meets_update_bind (meets_pure (meets_pure ⟨rfl, hcast⟩)))
  · exact fun _ => meets_bind (meets_update_bind (meets_pure (meets_pure ⟨rfl, hcast⟩)))

theorem handleRequestVote_term (req : RequestVoteArgs) :
    Meets ok (handleRequestVote req) n (fun _ m => m.mem.currentTerm = n.mem.termFrom req.term ∧
      (req.term ≤ int64 n.mem.currentTerm → n.mem.votedFor ≠ "" → m.mem.votedFor = n.mem.votedFor))
      fun _ => True := by
  refine meets_read_bind (meets_ite (fun hold => meets_pure ⟨?_, fun _ _ => rfl⟩) fun _ =>
    meets_ite (fun hnew => ?_) fun hold => ?_)
  · rw [Replicator.termFrom, if_neg (Int.not_lt.mpr (Int.le_of_lt hold))]
  · have hterm : n.mem.termFrom req.term = uint64 req.term := if_pos hnew
    refine (stepDown_term _ _).bind ?_
    intro err m hm
    cases err with
    | some err =>
      exact meets_read_bind (meets_pure ⟨hm.trans hterm.symm, fun hle => absurd hnew (Int.not_lt.mpr hle)⟩)
    | none =>
      refine (decideVote_term req).weaken fun _ m' h => ⟨?_, fun hle => absurd hnew (Int.not_lt.mpr hle)⟩
      rw [h.1, hm, hterm]
  · refine (decideVote_term req).weaken fun _ m' h => ⟨?_, fun _ => h.2⟩
    rw [h.1, Replicator.termFrom, if_neg hold]

theorem becomeLeader_term (env : Env) (nodes : List ClusterNode) :
    Meets ok (becomeLeader env nodes) n (fun _ m => m.mem.currentTerm = n.mem.currentTerm) fun _ => True :=
  meets_read_bind (meets_update_bind (Meets.imp (storeBatch_standing _)
    (fun _ _ h => SameStanding.sameVote h |>.1) fun _ _ => trivial))

theorem startElection_term (env : Env) :
    Meets ok (startElection env) n (fun _ m => m.mem.currentTerm = succ64 n.mem.currentTerm) fun _ => True := by
  refine meets_update_bind (meets_read_bind (meets_bind (meets_write ?_ ?_ ?_ (fun _ => trivial) fun _ => trivial)))
  · refine meets_ite (fun _ => ?_) fun hwrote => absurd rfl hwrote
    cases env.getAllNodes with
    | none => exact meets_pure rfl
    | some nodes =>
      refine meets_ite (fun _ => ?_) fun _ => meets_update_bind (meets_pure rfl)
      exact (becomeLeader_term env nodes).bind fun _ _ h => meets_pure h
  · exact fun _ => meets_bind (p := handleStableStoreFailure _) (meets_update_bind (meets_pure (meets_pure rfl)))
  · exact fun _ => meets_bind (p := handleStableStoreFailure _) (meets_update_bind (meets_pure (meets_pure rfl)))

end Programs

variable {env : Env} {M : Machine δ σ} {n n' : Node δ σ}

/-- **What a contact does**: the term it leaves, and in the same term a vote that is cast stays. -/
theorem contact_spec {c : Contact δ × List Fate} (h : contact env M n c = some n') :
    n'.mem.currentTerm = c.1.termAfter n.mem ∧
      (n'.mem.currentTerm = n.mem.currentTerm → n.mem.votedFor ≠ "" → n'.mem.votedFor = n.mem.votedFor) := by
  obtain ⟨c, fates⟩ := c
  -- what each program meets, read off the run
  have hread : ∀ {P : Node δ σ → Prop},
      Meets (fun _ => True) (program env M c.input) n (fun _ => P) (fun _ => True) → P n' := by
    intro P hmeets
    unfold contact at h
    split at h
    · next hback =>
      cases h
      exact hmeets.back (fun _ _ => trivial) hback
    · cases h
  have hsame : ∀ {term : Int}, IsInt64 term → n.mem.termFrom term = n.mem.currentTerm →
      term ≤ int64 n.mem.currentTerm := by
    intro term hterm heq
    by_contra hnew
    rw [Replicator.termFrom, if_pos (Int.not_le.mp hnew)] at heq
    exact uint64_ne_of_newer hterm (Int.not_le.mp hnew) heq
  cases c with
  | requestVote req hterm =>
    obtain ⟨hafter, hvote⟩ := hread (meets_bind_pure (handleRequestVote_term req))
    exact ⟨hafter, fun heq => hvote (hsame hterm (hafter.symm.trans heq))⟩
  | appendEntries req hterm =>
    obtain ⟨hafter, hvote⟩ := hread (meets_bind_pure (handleAppendEntries_term M req))
    exact ⟨hafter, fun heq _ => hvote (hsame hterm (hafter.symm.trans heq))⟩
  | installSnapshot req hterm =>
    obtain ⟨hafter, hvote⟩ := hread (meets_bind_pure (handleInstallSnapshot_term M req))
    exact ⟨hafter, fun heq _ => hvote (hsame hterm (hafter.symm.trans heq))⟩
  | electionTimeout =>
    have hmeets : Meets (fun _ => True) (electionTick env) n (fun _ m =>
        m.mem.currentTerm = Contact.termAfter n.mem (.electionTimeout : Contact δ) ∧
          (n.mem.state = .leader → m.mem.votedFor = n.mem.votedFor)) fun _ => True := by
      refine meets_read_bind (meets_ite (fun hleads => meets_pure ⟨(if_pos hleads).symm, fun _ => rfl⟩) fun hleads => ?_)
      refine (startElection_term env).bind fun _ m hm => meets_pure ⟨?_, fun h => absurd h hleads⟩
      rw [hm, Contact.termAfter, if_neg hleads]
    obtain ⟨hafter, hvote⟩ := hread hmeets
    refine ⟨hafter, fun heq _ => hvote ?_⟩
    by_contra hleads
    rw [hafter, Contact.termAfter, if_neg hleads] at heq
    exact succ64_ne _ heq

/-! ## Every sequence of contacts -/

/-- What should hold of an earlier and a later state: the term has not gone back, and if it is the same there
is one candidate at most. -/
structure TermsOrdered (n n' : Node δ σ) : Prop where
  term : n.mem.currentTerm ≤ n'.mem.currentTerm
  vote : n.mem.currentTerm = n'.mem.currentTerm → n.mem.votedFor ≠ "" → n'.mem.votedFor ≠ "" →
    n.mem.votedFor = n'.mem.votedFor

theorem contact_bound {c : Contact δ × List Fate} (h : contact env M n c = some n') (hn : n.mem.currentTerm < 2 ^ 64) :
    n'.mem.currentTerm < 2 ^ 64 := by
  have hfrom : ∀ term, n.mem.termFrom term < 2 ^ 64 := by
    intro term
    unfold Replicator.termFrom
    split
    · exact uint64_lt term
    · exact hn
  rw [(contact_spec h).1]
  cases hc : c.1 with
  | requestVote req _ => exact hfrom req.term
  | appendEntries req _ => exact hfrom req.term
  | installSnapshot req _ => exact hfrom req.term
  | electionTimeout =>
    rw [Contact.termAfter]
    split
    · exact hn
    · exact uint64_lt _

theorem exec_ordered (hn : n.mem.currentTerm < 2 ^ 64) {cs : List (Contact δ × List Fate)}
    (hok : Along (contact env M) (fun n c => c.1.InOrder n) n cs) (hrun : exec (contact env M) n cs = some n') :
    TermsOrdered n n' := by
  have hstep : ∀ (m : Node δ σ) (c : Contact δ × List Fate) (m' : Node δ σ),
      (m.mem.currentTerm < 2 ^ 64 ∧ n.mem.currentTerm ≤ m.mem.currentTerm ∧
        (n.mem.currentTerm = m.mem.currentTerm → n.mem.votedFor ≠ "" → m.mem.votedFor = n.mem.votedFor)) →
      c.1.InOrder m → contact env M m c = some m' →
      m'.mem.currentTerm < 2 ^ 64 ∧ n.mem.currentTerm ≤ m'.mem.currentTerm ∧
        (n.mem.currentTerm = m'.mem.currentTerm → n.mem.votedFor ≠ "" → m'.mem.votedFor = n.mem.votedFor) := by
    rintro m c m' ⟨hm, hterm, hvote⟩ horder hs
    obtain ⟨hafter, hstays⟩ := contact_spec hs
    have hle : m.mem.currentTerm ≤ m'.mem.currentTerm := hafter ▸ (c.1.le_termAfter_iff hm).mpr horder
    refine ⟨contact_bound hs hm, hterm.trans hle, fun heq hcast => ?_⟩
    -- both steps of the way stay in the term
    have hsame : n.mem.currentTerm = m.mem.currentTerm := by omega
    have hcast' : m.mem.votedFor ≠ "" := by
      rw [hvote hsame hcast]
      exact hcast
    rw [hstays (by omega) hcast', hvote hsame hcast]
  obtain ⟨-, hterm, hvote⟩ := exec_along hstep cs ⟨hn, le_rfl, fun _ _ => rfl⟩ hok hrun
  exact ⟨hterm, fun heq hcast _ => (hvote heq hcast).symm⟩

/-- **Terms never go back, and a term has one vote, exactly if every contact is in order.** -/
theorem terms_ordered_iff (env : Env) (M : Machine δ σ) {n last : Node δ σ} (hn : n.mem.currentTerm < 2 ^ 64)
    (cs : List (Contact δ × List Fate)) (hrun : exec (contact env M) n cs = some last) :
    (∀ front back s s', front ++ back <+: cs → exec (contact env M) n front = some s →
      exec (contact env M) s back = some s' → TermsOrdered s s') ↔
    Along (contact env M) (fun n c => c.1.InOrder n) n cs := by
  have hbound : ∀ front s, exec (contact env M) n front = some s → s.mem.currentTerm < 2 ^ 64 := by
    intro front s hfront
    exact exec_invariant (I := fun m : Node δ σ => m.mem.currentTerm < 2 ^ 64)
      (fun _ _ _ hm hs => contact_bound hs hm) front hn hfront
  constructor
  · intro h
    refine along_of_at hrun fun before c s s' hbefore hs hs' => ?_
    have hordered := h before [c] s s' hbefore hs (by simp [exec, hs'])
    refine (c.1.le_termAfter_iff (hbound before s hs)).mp ?_
    rw [← (contact_spec hs').1]
    exact hordered.term
  · rintro hok front back s s' ⟨rest, rfl⟩ hfront hback
    rw [List.append_assoc] at hok
    exact exec_ordered (hbound front s hfront) ((hok.split hfront).2.split hback).1 hback

/-- The request of a candidate whose log is empty. -/
def candidacy (term : Int) (hterm : IsInt64 term) (id : NodeId) : Contact Byte × List Fate :=
  (.requestVote ⟨term, id, 0, 0⟩ hterm, [])

/-- A vote for "b" in term 1, a timeout, and a vote for "c" in term 5. -/
def orderlyContacts : List (Contact Byte × List Fate) :=
  [candidacy 1 (by decide) "b", (.electionTimeout, []), candidacy 5 (by decide) "c"]

theorem terms_ordered_orderly :
    ∃ last : Node Byte Bytes, exec (contact demoEnv tape) (Node.fresh []) orderlyContacts = some last ∧
      last.mem.currentTerm = 5 ∧ last.mem.votedFor = "c" ∧ TermsOrdered (Node.fresh []) last := by
  have hok : Along (contact demoEnv tape) (fun n c => c.1.InOrder n) (Node.fresh [] : Node Byte Bytes)
      orderlyContacts := by
    refine along_cons (.inl ?_) rfl (along_cons (.inr ?_) rfl (along_cons (.inl ?_) rfl trivial)) <;> decide
  obtain ⟨last, hrun, hterm, hvote⟩ : ∃ last : Node Byte Bytes,
      exec (contact demoEnv tape) (Node.fresh []) orderlyContacts = some last ∧ last.mem.currentTerm = 5 ∧
        last.mem.votedFor = "c" := ⟨_, rfl, rfl, rfl⟩
  have hlaw := (terms_ordered_iff demoEnv tape (by decide) orderlyContacts hrun).mpr hok
  exact ⟨last, hrun, hterm, hvote, hlaw [] orderlyContacts _ last List.prefix_rfl rfl hrun⟩

/-- A vote for "b" in term 1, a request of the largest term, and a timeout. -/
def overflowingContacts : List (Contact Byte × List Fate) :=
  [candidacy 9223372036854775807 (by decide) "b", (.electionTimeout, [])]

/-- The node votes for "b" in term 1, comes to term `2 ^ 63`, goes back to term 1, and votes for "c". -/
theorem terms_go_back :
    ∃ first high last : Node Byte Bytes,
      exec (contact demoEnv tape) (Node.fresh []) [candidacy 1 (by decide) "b"] = some first ∧
      exec (contact demoEnv tape) first overflowingContacts = some high ∧
      exec (contact demoEnv tape) high [candidacy 1 (by decide) "c"] = some last ∧
      first.mem.currentTerm = 1 ∧ first.mem.votedFor = "b" ∧ high.mem.currentTerm = 2 ^ 63 ∧
      last.mem.currentTerm = 1 ∧ last.mem.votedFor = "c" ∧ ¬ TermsOrdered high last ∧ ¬ TermsOrdered first last := by
  refine ⟨_, _, _, rfl, rfl, rfl, rfl, rfl, rfl, rfl, rfl, fun h => ?_, fun h => ?_⟩
  · exact absurd h.term (by decide)
  · exact absurd (h.vote rfl (by decide) (by decide)) (by decide)

end Terms

end Sandstore.Raft
