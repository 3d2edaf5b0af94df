import Sandstore.Lib.Agreement
import Sandstore.Raft.Election
import Sandstore.Raft.LogList

/-!
# Nodes as members of a history

How a cluster without snapshots is an instance of `Consensus`. The members are the nodes, the
entries are `LogEntry`s, and a quorum is a majority of the cluster view. A history `H` accounts for a
cluster when each node's files say what the history says of it (`Durable`), each running node
remembers no more than its files and its role allow (`Live`), and each packet on the network said
something that was true when it was sent and, histories only growing, still is (`Honest`).

A member's term, vote and log are those on disk: what a node only remembers can be lost, so nothing
may depend on it. A critical section is a simulation (`Sim`): wherever it stops, alive or dead, there
is a later point of the history, reached by this node's steps alone (`Moved`), that accounts for it.
-/

namespace Sandstore.Raft

open Lib Lib.Proc Lib.Consensus

section Refinement

attribute [local instance] Conv.exact

variable {δ σ : Type}

/-- The history of a cluster's logs. -/
abbrev History (δ : Type) := Consensus.State NodeId (LogEntry δ)

/-- Terms as entries carry them, and majorities of the cluster view. -/
def rules (C : Cluster) : Consensus.Rules NodeId (LogEntry δ) where
  termOf e := e.term.toNat
  Quorum P := ∃ part, Majority C.ids part ∧ ∀ v ∈ part, P v
  meet := by
    rintro P Q ⟨p, hp, hP⟩ ⟨q, hq, hQ⟩
    obtain ⟨v, hv, hv'⟩ := hp.meet hq
    exact ⟨v, hP v hv, hQ v hv'⟩

/-- A history of this cluster: it keeps the invariant, its votes are for nodes of the cluster, and
its entries carry their positions. -/
structure Legit (C : Cluster) (H : History δ) : Prop where
  inv : Inv (rules C) H
  named : ∀ i t c l, H.ballot i t = some (c, l) → c ∈ C.ids
  numbered : ∀ t, Numbered (H.reign t)

/-- The vote of a member in its term, as the stable store spells it. -/
def voteOf (H : History δ) (i : NodeId) : NodeId :=
  match H.ballot i (H.term i) with
  | some (c, _) => c
  | none => ""

/-- The files of a node, and the applier calls it has made. -/
structure Durable (C : Cluster) (H : History δ) (i : NodeId) (n : Node δ σ) : Prop where
  stable : getState n.disk.stable = ⟨H.term i, voteOf H i⟩
  log : Spells (FileLogStore.load n.disk.wal) (H.log i)
  snapshot : n.disk.snapshot = none
  events : ∀ k data, Event.applied k data ∈ n.events →
    ∃ e, 0 < k ∧ Chosen (rules C) H (k - 1) e ∧ e.data = data

/-- The first `c` entries of a member's log are committed, in its term or an earlier one. -/
structure SafeTo (C : Cluster) (H : History δ) (i : NodeId) (c : Nat) : Prop where
  within : c ≤ (H.log i).length
  settled : c = 0 ∨ ∃ t k, Committed (rules C) H t k ∧ c ≤ k ∧ t ≤ H.term i ∧
    (H.log i).take c = (H.reign t).take c

/-- What a node that leads in its term may believe of its peers' logs. -/
structure Leads (C : Cluster) (H : History δ) (i : NodeId) (matchIndex : NodeId → Nat) : Prop where
  crowned : ∃ l, H.crown (H.term i) = some (i, l)
  own : (H.log i).length ≤ H.ack i (H.term i)
  matched : ∀ p ∈ peersOf i C.nodes, matchIndex p ≤ H.ack p (H.term i)

/-- A batch that continues the log in the member's term. -/
def Continues (H : History δ) (i : NodeId) (batch : List (LogEntry δ)) : Prop :=
  ∀ k e, batch[k]? = some e →
    e.index = (((H.log i).length + k + 1 : Nat) : Int) ∧ e.term = ((H.term i : Nat) : Int)

/-- A running node between two critical sections. -/
structure Live (C : Cluster) (H : History δ) (i : NodeId) (n : Node δ σ) : Prop where
  durable : Durable C H i n
  term : n.mem.currentTerm = H.term i
  vote : n.mem.votedFor = voteOf H i
  log : n.mem.logStore = FileLogStore.load n.disk.wal
  included : n.mem.lastIncludedIndex = 0
  includedTerm : n.mem.lastIncludedTerm = 0
  commit : SafeTo C H i n.mem.commitIndex
  batch : n.mem.pendingBatch = [] ∨ n.mem.state = .leader ∧ Continues H i n.mem.pendingBatch
  leading : n.mem.state = .leader → Leads C H i n.mem.matchIndex
  standing : n.mem.state = .candidate →
    H.ballot i (H.term i) = some (i, H.log i) ∧ ∀ l, H.crown (H.term i) ≠ some (i, l)
  tally : ∀ el, n.mem.election = some el →
    ∃ voters, Tally C i el (fun v => ∃ l, H.ballot v el.savedTerm = some (i, l)) voters

/-! ## Packets -/

/-- The term of the entry before position `p`, 0 where there is none. -/
def termBefore (l : List (LogEntry δ)) : Nat → Int
  | 0 => 0
  | p + 1 => (l[p]?.map (·.term)).getD 0

/-- A work carries the entries of `r` from position `p` up to `m`, and commits none after them. -/
structure Slice (r : List (LogEntry δ)) (w : AppendWork δ) (p m : Nat) : Prop where
  le : p ≤ m
  within : m ≤ r.length
  prev : w.prevLogIndex = ((p : Nat) : Int)
  prevTerm : w.prevLogTerm = termBefore r p
  entries : w.entries = (r.take m).drop p
  commit : w.commitIndex ≤ m

/-- An append work of `src`: a slice of its term's log, with a commit index that is safe there. -/
structure Sent (C : Cluster) (H : History δ) (src : NodeId) (w : AppendWork δ) : Prop where
  peer : w.node ∈ peersOf src C.nodes
  crowned : ∃ l, H.crown w.term = some (src, l)
  slice : ∃ p m, Slice (H.reign w.term) w p m
  commit : w.commitIndex = 0 ∨
    ∃ t k, Committed (rules C) H t k ∧ w.commitIndex ≤ k ∧ t ≤ w.term

/-- What a packet says is true. -/
def Honest (C : Cluster) (H : History δ) : Packet δ → Prop
  | .voteRequest src _ savedTerm req => req.term = ((savedTerm : Nat) : Int) ∧
      req.candidateID = src ∧ src ∈ C.ids ∧ ∃ l, H.ballot src savedTerm = some (src, l) ∧
        req.lastLogIndex = ((l.length : Nat) : Int) ∧ req.lastLogTerm = ((lastTermOf l : Nat) : Int)
  | .voteReply src dst savedTerm reply =>
      reply.voteGranted = true → ∃ l, H.ballot src savedTerm = some (dst, l)
  | .append src w => Sent C H src w
  | .appendReply dst w reply =>
      Sent C H dst w ∧ (reply.success = true → w.newMatchIndex ≤ H.ack w.node w.term)
  | .snapshot _ _ => False
  | .snapshotReply _ _ _ => False

/-- A history accounts for a cluster. -/
structure Accounts (C : Cluster) (H : History δ) (w : World δ σ) : Prop where
  legit : Legit C H
  durable : ∀ i, Durable C H i (w.node i)
  live : ∀ i, (w.host i).up = true → Live C H i (w.node i)
  honest : ∀ p ∈ w.net, Honest C H p

/-! ## Histories only grow -/

section Growth

variable {C : Cluster} {H H' : History δ} {i : NodeId} {n : Node δ σ}

theorem voteOf_congr {H H' : History δ} {i : NodeId} (hterm : H'.term i = H.term i)
    (hballot : ∀ t, H'.ballot i t = H.ballot i t) : voteOf H' i = voteOf H i := by
  unfold voteOf
  rw [hterm, hballot]

theorem Durable.grows (h : Durable C H i n) (hg : Grows H H') (hterm : H'.term i = H.term i)
    (hlog : H'.log i = H.log i) (hballot : ∀ t, H'.ballot i t = H.ballot i t) : Durable C H' i n where
  stable := by
    rw [h.stable, hterm, voteOf_congr hterm hballot]
  log := by
    rw [hlog]
    exact h.log
  snapshot := h.snapshot
  events := by
    intro k data hmem
    obtain ⟨e, hpos, hchosen, hdata⟩ := h.events k data hmem
    exact ⟨e, hpos, hchosen.grows hg, hdata⟩

theorem SafeTo.grows {c : Nat} (h : SafeTo C H i c) (hg : Grows H H')
    (hlog : H.log i <+: H'.log i) : SafeTo C H' i c where
  within := h.within.trans hlog.length_le
  settled := by
    rcases h.settled with hzero | ⟨t, k, hc, hck, ht, hsame⟩
    · exact .inl hzero
    · refine .inr ⟨t, k, hc.grows hg, hck, ht.trans (hg.term i), ?_⟩
      have hreign := hc.le_length
      rw [take_stable hlog h.within, take_stable (hg.reign t) (by omega), hsame]

theorem termBefore_stable {l l' : List (LogEntry δ)} (h : l <+: l') {p : Nat} (hp : p ≤ l.length) :
    termBefore l' p = termBefore l p := by
  cases p with
  | zero => rfl
  | succ p =>
    have hat : l[p]? = some l[p] := List.getElem?_eq_getElem hp
    simp only [termBefore, hat, getElem?_stable h hat]

theorem Slice.grows {r r' : List (LogEntry δ)} {w : AppendWork δ} {p m : Nat} (h : Slice r w p m)
    (hr : r <+: r') : Slice r' w p m where
  le := h.le
  within := h.within.trans hr.length_le
  prev := h.prev
  prevTerm := by rw [h.prevTerm, termBefore_stable hr (h.le.trans h.within)]
  entries := by rw [h.entries, take_stable hr h.within]
  commit := h.commit

theorem Sent.grows {src : NodeId} {w : AppendWork δ} (h : Sent C H src w) (hg : Grows H H') : Sent C H' src w where
  peer := h.peer
  crowned := by
    obtain ⟨l, hcrown⟩ := h.crowned
    exact ⟨l, hg.crown _ _ hcrown⟩
  slice := by
    obtain ⟨p, m, hslice⟩ := h.slice
    exact ⟨p, m, hslice.grows (hg.reign w.term)⟩
  commit := by
    rcases h.commit with hzero | ⟨t, k, hc, hk, ht⟩
    · exact .inl hzero
    · exact .inr ⟨t, k, hc.grows hg, hk, ht⟩

/-- What was true when it was sent stays true. -/
theorem Honest.grows {p : Packet δ} (h : Honest C H p) (hg : Grows H H') : Honest C H' p := by
  cases p with
  | voteRequest src dst savedTerm req =>
    obtain ⟨hterm, hcandidate, hsrc, l, hballot, hlast⟩ := h
    exact ⟨hterm, hcandidate, hsrc, l, hg.ballot _ _ _ hballot, hlast⟩
  | voteReply src dst savedTerm reply =>
    intro hgranted
    obtain ⟨l, hballot⟩ := h hgranted
    exact ⟨l, hg.ballot _ _ _ hballot⟩
  | append src w => exact Sent.grows h hg
  | appendReply dst w reply =>
    exact ⟨h.1.grows hg, fun hsuccess => (h.2 hsuccess).trans (hg.ack _ _)⟩
  | snapshot src w => exact h
  | snapshotReply dst w reply => exact h

end Growth

/-! ## One node's steps -/

/-- The history has gone on by steps of the member `i` alone. -/
structure Moved (C : Cluster) (i : NodeId) (H H' : History δ) : Prop where
  steps : Steps (rules C) H H'
  legit : Legit C H'
  term : ∀ j, j ≠ i → H'.term j = H.term j
  log : ∀ j, j ≠ i → H'.log j = H.log j
  ballot : ∀ j, j ≠ i → ∀ t, H'.ballot j t = H.ballot j t
  crown : ∀ t c l, H'.crown t = some (c, l) → H.crown t = some (c, l) ∨ c = i

namespace Moved

variable {C : Cluster} {i j : NodeId} {H H' H'' : History δ} {n : Node δ σ}

theorem refl (h : Legit C H) : Moved C i H H :=
  ⟨.refl, h, fun _ _ => rfl, fun _ _ => rfl, fun _ _ _ => rfl, fun _ _ _ h => .inl h⟩

theorem trans (h : Moved C i H H') (h' : Moved C i H' H'') : Moved C i H H'' where
  steps := Relation.ReflTransGen.trans h.steps h'.steps
  legit := h'.legit
  term := fun j hj => (h'.term j hj).trans (h.term j hj)
  log := fun j hj => (h'.log j hj).trans (h.log j hj)
  ballot := fun j hj t => (h'.ballot j hj t).trans (h.ballot j hj t)
  crown := by
    intro t c l hcrown
    rcases h'.crown t c l hcrown with hold | hnew
    · exact h.crown t c l hold
    · exact .inr hnew

theorem grows (h : Moved C i H H') (hl : Legit C H) : Grows H H' := h.steps.grows hl.inv

theorem durable (h : Moved C i H H') (hl : Legit C H) (hj : j ≠ i) (hd : Durable C H j n) : Durable C H' j n :=
  hd.grows (h.grows hl) (h.term j hj) (h.log j hj) (h.ballot j hj)

theorem live (h : Moved C i H H') (hl : Legit C H) (hj : j ≠ i) (hlive : Live C H j n) : Live C H' j n where
  durable := h.durable hl hj hlive.durable
  term := by rw [hlive.term, h.term j hj]
  vote := by rw [hlive.vote, voteOf_congr (h.term j hj) (h.ballot j hj)]
  log := hlive.log
  included := hlive.included
  includedTerm := hlive.includedTerm
  commit := hlive.commit.grows (h.grows hl) (by rw [h.log j hj])
  batch := by
    unfold Continues
    rw [h.term j hj, h.log j hj]
    exact hlive.batch
  leading := by
    intro hleader
    obtain ⟨⟨l, hcrown⟩, hown, hmatched⟩ := hlive.leading hleader
    have hg := h.grows hl
    constructor
    · rw [h.term j hj]
      exact ⟨l, hg.crown _ _ hcrown⟩
    · rw [h.term j hj, h.log j hj]
      exact hown.trans (hg.ack _ _)
    · intro p hp
      rw [h.term j hj]
      exact (hmatched p hp).trans (hg.ack _ _)
  standing := by
    intro hcandidate
    obtain ⟨hballot, hcrown⟩ := hlive.standing hcandidate
    rw [h.term j hj, h.log j hj, h.ballot j hj]
    refine ⟨hballot, fun l hl => ?_⟩
    rcases h.crown _ _ _ hl with hold | hnew
    · exact hcrown l hold
    · exact hj hnew
  tally := by
    intro el hel
    obtain ⟨voters, htally⟩ := hlive.tally el hel
    refine ⟨voters, htally.mono ?_⟩
    rintro v ⟨l, hballot⟩
    exact ⟨l, (h.grows hl).ballot _ _ _ hballot⟩

/-! ### The steps a node takes -/

theorem observe (hl : Legit C H) {t : Nat} (ht : H.term i ≤ t) :
    Moved C i H { H with term := Function.update H.term i t } where
  steps := .single (.observe i t ht)
  legit := ⟨hl.inv.observe ht, hl.named, hl.numbered⟩
  term := fun _ hj => Function.update_of_ne hj _ _
  log := fun _ _ => rfl
  ballot := fun _ _ _ => rfl
  crown := fun _ _ _ h => .inl h

theorem cast (hl : Legit C H) {c : NodeId} (hc : c ∈ C.ids) (hfree : H.ballot i (H.term i) = none)
    (hlog : i = c ∨ ∃ l, H.ballot c (H.term i) = some (c, l) ∧ (rules C).UpToDate l (H.log i)) :
    Moved C i H { H with
      ballot := Function.update H.ballot i
        (Function.update (H.ballot i) (H.term i) (some (c, H.log i))) } where
  steps := .single (.cast i c _ rfl hfree hlog)
  legit := by
    refine ⟨hl.inv.cast rfl hfree hlog, fun j t c' l hballot => ?_, hl.numbered⟩
    by_cases hj : j = i
    · subst hj
      simp only [Function.update_self] at hballot
      by_cases ht : t = H.term j
      · subst ht
        rw [Function.update_self] at hballot
        cases hballot
        exact hc
      · rw [Function.update_of_ne ht] at hballot
        exact hl.named _ _ _ _ hballot
    · simp only [Function.update_of_ne hj] at hballot
      exact hl.named _ _ _ _ hballot
  term := fun _ _ => rfl
  log := fun _ _ => rfl
  ballot := fun _ hj t => congrFun (Function.update_of_ne hj _ _) t
  crown := fun _ _ _ h => .inl h

theorem crowned (hl : Legit C H) {part : List NodeId} (hpart : Majority C.ids part)
    (hown : H.ballot i (H.term i) = some (i, H.log i)) (hfree : ∀ l, H.crown (H.term i) ≠ some (i, l))
    (hvotes : ∀ v ∈ part, ∃ l, H.ballot v (H.term i) = some (i, l)) (hnumbered : Numbered (H.log i)) :
    Moved C i H { H with
      crown := Function.update H.crown (H.term i) (some (i, H.log i))
      reign := Function.update H.reign (H.term i) (H.log i) } := by
  have hquorum : (rules C : Rules NodeId (LogEntry δ)).Quorum (· ∈ part) := ⟨part, hpart, fun _ hv => hv⟩
  -- somebody else's voters would share one with these
  have hnone : H.crown (H.term i) = none := by
    cases hcrown : H.crown (H.term i) with
    | none => rfl
    | some b =>
      obtain ⟨P, hP, hvoted⟩ := hl.inv.elected _ b.1 b.2 hcrown
      obtain ⟨v, hv, hv'⟩ := (rules C).meet _ _ hquorum hP
      obtain ⟨l, hballot⟩ := hvotes v hv
      obtain ⟨l', hballot', _⟩ := hvoted v hv'
      have heq : some (i, l) = some (b.1, l') := hballot.symm.trans hballot'
      cases heq
      exact absurd hcrown (hfree b.2)
  constructor
  · exact .single (.crown i _ (· ∈ part) hnone rfl hown hquorum hvotes)
  · refine ⟨hl.inv.crown hnone rfl hown hquorum hvotes, hl.named, fun t => ?_⟩
    by_cases ht : t = H.term i
    · subst ht
      simpa using hnumbered
    · simpa [Function.update_of_ne ht] using hl.numbered t
  · exact fun _ _ => rfl
  · exact fun _ _ => rfl
  · exact fun _ _ _ => rfl
  · intro t c l hcrown
    by_cases ht : t = H.term i
    · subst ht
      simp only [Function.update_self] at hcrown
      cases hcrown
      exact .inr rfl
    · simp only [Function.update_of_ne ht] at hcrown
      exact .inl hcrown

theorem extend (hl : Legit C H) {l es : List (LogEntry δ)} (hcrown : H.crown (H.term i) = some (i, l))
    (hes : ∀ e ∈ es, e.term = ((H.term i : Nat) : Int)) (hnumbered : Numbered (H.log i ++ es)) :
    Moved C i H { H with
      log := Function.update H.log i (H.log i ++ es)
      reign := Function.update H.reign (H.term i) (H.reign (H.term i) ++ es) } := by
  have hterm : ∀ e ∈ es, (rules C).termOf e = H.term i := by
    intro e he
    simp [rules, hes e he]
  constructor
  · exact .single (.extend i _ l es hcrown rfl hterm)
  · refine ⟨hl.inv.extend hcrown rfl hterm, hl.named, fun t => ?_⟩
    by_cases ht : t = H.term i
    · subst ht
      rw [hl.inv.leader _ _ _ hcrown rfl] at hnumbered
      simpa using hnumbered
    · simpa [Function.update_of_ne ht] using hl.numbered t
  · exact fun _ _ => rfl
  · exact fun _ hj => Function.update_of_ne hj _ _
  · exact fun _ _ _ => rfl
  · exact fun _ _ _ h => .inl h

theorem trim (hl : Legit C H) {j : Nat} {e e' : LogEntry δ} (hmine : (H.log i)[j]? = some e)
    (htheirs : (H.reign (H.term i))[j]? = some e') (hne : (rules C).termOf e ≠ (rules C).termOf e') :
    Moved C i H { H with log := Function.update H.log i ((H.log i).take j) } where
  steps := .single (.trim i _ j e e' rfl hmine htheirs hne)
  legit := ⟨hl.inv.trim rfl hmine htheirs hne, hl.named, hl.numbered⟩
  term := fun _ _ => rfl
  log := fun _ hj => Function.update_of_ne hj _ _
  ballot := fun _ _ _ => rfl
  crown := fun _ _ _ h => .inl h

theorem store (hl : Legit C H) {k : Nat} (hlog : H.log i <+: (H.reign (H.term i)).take k) :
    Moved C i H { H with log := Function.update H.log i ((H.reign (H.term i)).take k) } where
  steps := .single (.store i _ k rfl hlog)
  legit := ⟨hl.inv.store rfl hlog, hl.named, hl.numbered⟩
  term := fun _ _ => rfl
  log := fun _ hj => Function.update_of_ne hj _ _
  ballot := fun _ _ _ => rfl
  crown := fun _ _ _ h => .inl h

theorem acknowledge (hl : Legit C H) {k : Nat} (hk : k ≤ (H.reign (H.term i)).length)
    (hlog : (H.reign (H.term i)).take k <+: H.log i) :
    Moved C i H { H with
      ack := Function.update H.ack i
        (Function.update (H.ack i) (H.term i) (max (H.ack i (H.term i)) k)) } where
  steps := .single (.acknowledge i _ k rfl hk hlog)
  legit := ⟨hl.inv.acknowledge rfl hk hlog, hl.named, hl.numbered⟩
  term := fun _ _ => rfl
  log := fun _ _ => rfl
  ballot := fun _ _ _ => rfl
  crown := fun _ _ _ h => .inl h

end Moved

/-! ## Simulation -/

/-- The program's critical section simulates steps of the member `i`: it comes back accounted for,
with `Post`, or dies with its files accounted for, provided no write returns an error. -/
def Sim {α : Type} (C : Cluster) (i : NodeId) (H : History δ) (p : Proc (Node δ σ) α) (n : Node δ σ)
    (Post : α → History δ → Node δ σ → Prop) : Prop :=
  Meets Fate.fine p n (fun a n' => ∃ H', Moved C i H H' ∧ Live C H' i n' ∧ Post a H' n')
    fun n' => ∃ H', Moved C i H H' ∧ Durable C H' i n'

section Sim

variable {α β : Type} {C : Cluster} {i : NodeId} {H H' : History δ} {n : Node δ σ}
  {Post : α → History δ → Node δ σ → Prop}

theorem sim_pure {a : α} (hl : Legit C H) (h : Live C H i n) (hpost : Post a H n) :
    Sim C i H (pure a) n Post := ⟨H, .refl hl, h, hpost⟩

variable {p : Proc (Node δ σ) α}

/-- From a later point of the history the simulation goes on. -/
theorem Sim.after (hm : Moved C i H H') (h : Sim C i H' p n Post) : Sim C i H p n Post := by
  apply Meets.imp h
  · rintro a n' ⟨H'', hm', hrest⟩
    exact ⟨H'', hm.trans hm', hrest⟩
  · rintro n' ⟨H'', hm', hrest⟩
    exact ⟨H'', hm.trans hm', hrest⟩

theorem sim_bind {g : α → Proc (Node δ σ) β} {Q : α → History δ → Node δ σ → Prop}
    {Post : β → History δ → Node δ σ → Prop} (hp : Sim C i H p n Q)
    (hg : ∀ a H' n', Legit C H' → Live C H' i n' → Moved C i H H' → Q a H' n' →
      Sim C i H' (g a) n' Post) : Sim C i H (p >>= g) n Post := by
  apply meets_bind
  apply Meets.imp hp
  · rintro a n' ⟨H', hm, hlive, hq⟩
    exact Sim.after hm (hg a H' n' hm.legit hlive hm hq)
  · exact fun n' h => h

theorem Sim.imp {Post' : α → History δ → Node δ σ → Prop}
    (h : Sim C i H p n Post) (himp : ∀ a H' n', Post a H' n' → Post' a H' n') : Sim C i H p n Post' := by
  apply Meets.imp h
  · rintro a n' ⟨H', hm, hlive, hpost⟩
    exact ⟨H', hm, hlive, himp a H' n' hpost⟩
  · exact fun n' h => h

theorem sim_read_bind {g : Node δ σ → Proc (Node δ σ) α} (h : Sim C i H (g n) n Post) :
    Sim C i H (read >>= g) n Post := meets_read_bind h

theorem sim_update_bind {f : Node δ σ → Node δ σ} {g : Unit → Proc (Node δ σ) α}
    (h : Sim C i H (g ()) (f n) Post) : Sim C i H (update f >>= g) n Post := meets_update_bind h

theorem sim_update {f : Node δ σ → Node δ σ} {Post : Unit → History δ → Node δ σ → Prop}
    (hl : Legit C H) (h : Live C H i (f n)) (hpost : Post () H (f n)) :
    Sim C i H (update f) n Post := meets_update ⟨H, .refl hl, h, hpost⟩

theorem sim_ite {c : Prop} [Decidable c] {q : Proc (Node δ σ) α} (hp : c → Sim C i H p n Post)
    (hq : ¬ c → Sim C i H q n Post) : Sim C i H (if c then p else q) n Post := meets_ite hp hq

/-- A write of the files: with the old contents the old history accounts for the node, with the new
contents the later one does. -/
theorem sim_commit {f : Node δ σ → Node δ σ × Option (Node δ σ → Node δ σ)}
    {k : Node δ σ → Bool → Proc (Node δ σ) α} {m : Node δ σ} {commit : Node δ σ → Node δ σ}
    (hl : Legit C H) (hf : f n = (m, some commit)) (hold : Durable C H i m) (hm : Moved C i H H')
    (hnew : Durable C H' i (commit m)) (hk : Sim C i H' (k n true) (commit m) Post) :
    Sim C i H (.step f k) n Post := by
  apply meets_commit hf
  · exact Sim.after hm hk
  · exact fun hfine => absurd rfl hfine.1
  · exact fun hfine => absurd rfl hfine.2
  · exact fun _ => ⟨H, .refl hl, hold⟩
  · exact fun _ => ⟨H', hm, hnew⟩

theorem sim_persist {k : Bool → Proc (Node δ σ) α} (hl : Legit C H) (hold : Durable C H i n)
    (hm : Moved C i H H') (hnew : Live C H' i n.putStable)
    (hk : Sim C i H' (k true) n.putStable Post) : Sim C i H (persistStable >>= k) n Post :=
  sim_commit (k := fun _ wrote => k wrote) hl rfl hold hm hnew.durable hk

end Sim

end Refinement

end Sandstore.Raft
