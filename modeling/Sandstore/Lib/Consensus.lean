import Mathlib.Data.List.Infix
import Mathlib.Logic.Function.Basic
import Mathlib.Logic.Relation

/-!
# Agreement on a log, term by term

A replicated log as a history. Besides what each member holds (its term and its log) the state
remembers what has happened: who voted for whom in which term and with which log (`ballot`), who
was elected and with which log (`crown`), the log of each term's leader as far as it has grown
(`reign`), and how much of a term's log each member has acknowledged (`ack`). Nothing of a history
is ever taken back (`Grows`), so whatever a message said when it was sent stays true.

**Coherence.** Every prefix of every log is a prefix of the log of the term its last entry was made
in. Two logs that hold entries of one term at one position agree up to there (`Coherent.agree`).

**Memory.** A member that has acknowledged entries still holds them, or has come to follow a leader
that was elected without them (`Inv.kept`), and a voter told its candidate's term as much
(`Inv.told`). This is what an election passes on; `Agreement` draws the conclusion.

Members are of any type, quorums are any family of sets that pairwise meet, and of entries only
their terms are known.
-/

namespace Sandstore.Lib.Consensus

variable {ι ε : Type}

/-- The state of all members and the history that led there. -/
structure State (ι ε : Type) where
  term : ι → Nat
  log : ι → List ε
  ballot : ι → Nat → Option (ι × List ε)
  crown : Nat → Option (ι × List ε)
  reign : Nat → List ε
  ack : ι → Nat → Nat

/-- What the laws are relative to: the terms of entries, and the quorums. -/
structure Rules (ι ε : Type) where
  termOf : ε → Nat
  Quorum : (ι → Prop) → Prop
  meet : ∀ P Q, Quorum P → Quorum Q → ∃ i, P i ∧ Q i

variable [DecidableEq ι] (R : Rules ι ε)

/-- The term of the last entry, 0 for an empty log. -/
def Rules.lastTerm (l : List ε) : Nat := (l.getLast?.map R.termOf).getD 0

/-- `l` may lead a voter that holds `l'`. -/
def Rules.UpToDate (l l' : List ε) : Prop :=
  R.lastTerm l' < R.lastTerm l ∨ R.lastTerm l' = R.lastTerm l ∧ l'.length ≤ l.length

/-- What may happen. -/
inductive Step (s : State ι ε) : State ι ε → Prop where
  /-- A member hears of a term. -/
  | observe (i : ι) (t : Nat) (h : s.term i ≤ t) :
      Step s { s with term := Function.update s.term i t }
  /-- A member votes: for itself, or for a candidate whose log may lead its own. -/
  | cast (i c : ι) (t : Nat) (hterm : s.term i = t) (hfree : s.ballot i t = none)
      (hlog : i = c ∨ ∃ l, s.ballot c t = some (c, l) ∧ R.UpToDate l (s.log i)) :
      Step s { s with
        ballot := Function.update s.ballot i (Function.update (s.ballot i) t (some (c, s.log i))) }
  /-- A candidate has the votes of a quorum, and the log it asked for them with. -/
  | crown (c : ι) (t : Nat) (P : ι → Prop) (hfree : s.crown t = none) (hterm : s.term c = t)
      (hown : s.ballot c t = some (c, s.log c)) (hquorum : R.Quorum P)
      (hvotes : ∀ v, P v → ∃ l, s.ballot v t = some (c, l)) :
      Step s { s with
        crown := Function.update s.crown t (some (c, s.log c))
        reign := Function.update s.reign t (s.log c) }
  /-- A leader adds entries of its term. -/
  | extend (c : ι) (t : Nat) (l es : List ε) (hcrown : s.crown t = some (c, l)) (hterm : s.term c = t)
      (hes : ∀ e ∈ es, R.termOf e = t) :
      Step s { s with
        log := Function.update s.log c (s.log c ++ es)
        reign := Function.update s.reign t (s.reign t ++ es) }
  /-- A member cuts its log where the leader of its term contradicts it. -/
  | trim (i : ι) (t j : Nat) (e e' : ε) (hterm : s.term i = t) (hmine : (s.log i)[j]? = some e)
      (htheirs : (s.reign t)[j]? = some e') (hne : R.termOf e ≠ R.termOf e') :
      Step s { s with log := Function.update s.log i ((s.log i).take j) }
  /-- A member stores more of the log of its term's leader. -/
  | store (i : ι) (t k : Nat) (hterm : s.term i = t) (hlog : s.log i <+: (s.reign t).take k) :
      Step s { s with log := Function.update s.log i ((s.reign t).take k) }
  /-- A member acknowledges what it holds of the log of its term's leader. -/
  | acknowledge (i : ι) (t k : Nat) (hterm : s.term i = t) (hk : k ≤ (s.reign t).length)
      (hlog : (s.reign t).take k <+: s.log i) :
      Step s { s with
        ack := Function.update s.ack i (Function.update (s.ack i) t (max (s.ack i t) k)) }

/-- Nothing has happened yet. -/
def State.init : State ι ε where
  term := fun _ => 0
  log := fun _ => []
  ballot := fun _ _ => none
  crown := fun _ => none
  reign := fun _ => []
  ack := fun _ _ => 0

/-! ## Prefixes -/

omit [DecidableEq ι] in
theorem take_stable {l l' : List ε} (h : l <+: l') {k : Nat} (hk : k ≤ l.length) : l'.take k = l.take k := by
  obtain ⟨r, rfl⟩ := h
  exact List.take_append_of_le_length hk

omit [DecidableEq ι] in
theorem getElem?_stable {l l' : List ε} (h : l <+: l') {k : Nat} {e : ε} (hk : l[k]? = some e) : l'[k]? = some e := by
  obtain ⟨r, rfl⟩ := h
  obtain ⟨hlt, _⟩ := List.getElem?_eq_some_iff.mp hk
  rw [List.getElem?_append_left hlt]
  exact hk

/-! ## Growth -/

/-- A later point of the same history. -/
structure Grows (s s' : State ι ε) : Prop where
  term : ∀ i, s.term i ≤ s'.term i
  ballot : ∀ i t b, s.ballot i t = some b → s'.ballot i t = some b
  crown : ∀ t c, s.crown t = some c → s'.crown t = some c
  reign : ∀ t, s.reign t <+: s'.reign t
  ack : ∀ i t, s.ack i t ≤ s'.ack i t

omit [DecidableEq ι] in
theorem Grows.refl (s : State ι ε) : Grows s s :=
  ⟨fun _ => Nat.le_refl _, fun _ _ _ h => h, fun _ _ h => h, fun _ => List.prefix_rfl, fun _ _ => Nat.le_refl _⟩

omit [DecidableEq ι] in
theorem Grows.trans {a b c : State ι ε} (hab : Grows a b) (hbc : Grows b c) : Grows a c where
  term := fun i => (hab.term i).trans (hbc.term i)
  ballot := fun i t x h => hbc.ballot i t x (hab.ballot i t x h)
  crown := fun t x h => hbc.crown t x (hab.crown t x h)
  reign := fun t => (hab.reign t).trans (hbc.reign t)
  ack := fun i t => (hab.ack i t).trans (hbc.ack i t)

/-! ## The invariant -/

omit [DecidableEq ι] in
/-- Every prefix is a prefix of the log of the term its last entry was made in. -/
def Coherent (s : State ι ε) (l : List ε) : Prop :=
  ∀ k e, l[k]? = some e → l.take (k + 1) <+: s.reign (R.termOf e)

omit [DecidableEq ι] in
/-- Whatever `i` has acknowledged of term `t` is in `l`, or a leader of a term above `t` and below
`bound` was elected without it. -/
def Holds (s : State ι ε) (i : ι) (t : Nat) (l : List ε) (bound : Nat) : Prop :=
  ∀ k, k ≤ s.ack i t → (s.reign t).take k <+: l ∨
    ∃ u c l', t < u ∧ u < bound ∧ s.crown u = some (c, l') ∧ ¬ (s.reign t).take k <+: l'

omit [DecidableEq ι] in
structure Inv (s : State ι ε) : Prop where
  ballot_le : ∀ i t b, s.ballot i t = some b → t ≤ s.term i
  crown_le : ∀ t c l, s.crown t = some (c, l) → t ≤ s.term c
  uncrowned : ∀ t, s.crown t = none → s.reign t = []
  before : ∀ t c l, s.crown t = some (c, l) → ∀ e ∈ l, R.termOf e < t
  founded : ∀ t c l, s.crown t = some (c, l) →
    ∃ es, s.reign t = l ++ es ∧ ∀ e ∈ es, R.termOf e = t
  coherent : ∀ i, Coherent R s (s.log i)
  coherentReign : ∀ t, Coherent R s (s.reign t)
  coherentBallot : ∀ i t c l, s.ballot i t = some (c, l) → Coherent R s l
  log_le : ∀ i, ∀ e ∈ s.log i, R.termOf e ≤ s.term i
  leader : ∀ t c l, s.crown t = some (c, l) → s.term c = t → s.log c = s.reign t
  backed : ∀ i t c l, s.ballot i t = some (c, l) →
    i = c ∨ ∃ lc, s.ballot c t = some (c, lc) ∧ R.UpToDate lc l
  told : ∀ i t c l, s.ballot i t = some (c, l) → s.crown t = none → ∀ u < t, Holds s i u l t
  elected : ∀ t c l, s.crown t = some (c, l) → ∃ P, R.Quorum P ∧ ∀ v, P v →
    ∃ lv, s.ballot v t = some (c, lv) ∧ R.UpToDate l lv ∧ ∀ u < t, Holds s v u lv t
  ack_le : ∀ i t, s.ack i t ≤ (s.reign t).length
  ack_term : ∀ i t, 0 < s.ack i t → t ≤ s.term i
  kept : ∀ i t, Holds s i t (s.log i) (s.term i + 1)

variable {R} {s s' : State ι ε}

section Growth

omit [DecidableEq ι]

variable {l : List ε}

theorem Coherent.grows (h : Coherent R s l) (hg : Grows s s') : Coherent R s' l :=
  fun k e hk => (h k e hk).trans (hg.reign _)

theorem Coherent.take (h : Coherent R s l) (j : Nat) : Coherent R s (l.take j) := by
  intro k e hk
  rw [List.getElem?_take] at hk
  split at hk
  · next hlt =>
    rw [List.take_take, Nat.min_eq_left hlt]
    exact h k e hk
  · cases hk

/-- **Log matching.** Logs that hold entries of one term at one position agree up to there. -/
theorem Coherent.agree {l' : List ε} (h : Coherent R s l) (h' : Coherent R s l') {k : Nat}
    {e e' : ε} (he : l[k]? = some e) (he' : l'[k]? = some e') (hterm : R.termOf e = R.termOf e') :
    l.take (k + 1) = l'.take (k + 1) := by
  have hpre := h k e he
  have hpre' := h' k e' he'
  rw [← hterm] at hpre'
  obtain ⟨hlt, _⟩ := List.getElem?_eq_some_iff.mp he
  obtain ⟨hlt', _⟩ := List.getElem?_eq_some_iff.mp he'
  apply (List.prefix_of_prefix_length_le hpre hpre' _).eq_of_length
  · simp only [List.length_take]
    omega
  · simp only [List.length_take]
    omega

/-- What is held stays held while the acknowledgements stay the same. -/
theorem Holds.grows {i : ι} {t : Nat} {b b' : Nat} (h : Holds s i t l b) (hg : Grows s s')
    (hack : s'.ack i t = s.ack i t) (hle : s.ack i t ≤ (s.reign t).length) (hb : b ≤ b') : Holds s' i t l b' := by
  intro k hk
  rw [hack] at hk
  rw [take_stable (hg.reign t) (hk.trans hle)]
  rcases h k hk with hpre | ⟨u, c, l', htu, hub, hcrown, hnot⟩
  · exact .inl hpre
  · exact .inr ⟨u, c, l', htu, Nat.lt_of_lt_of_le hub hb, hg.crown u _ hcrown, hnot⟩

theorem Holds.longer {i : ι} {t : Nat} {l' : List ε} {b : Nat} (h : Holds s i t l b)
    (hl : l <+: l') : Holds s i t l' b := fun k hk => (h k hk).imp (fun hpre => hpre.trans hl) id

end Growth

theorem le_update {f : ι → Nat} {i : ι} {t : Nat} (h : f i ≤ t) (j : ι) : f j ≤ Function.update f i t j :=
  (Function.forall_update_iff f fun j n => f j ≤ n).mpr ⟨h, fun _ _ => Nat.le_refl _⟩ j

omit [DecidableEq ι] in
theorem update_of_free {α β : Type} [DecidableEq α] {f : α → Option β} {a : α} (hfree : f a = none)
    (v : Option β) {x : α} {b : β} (hx : f x = some b) : Function.update f a v x = some b := by
  have hne : x ≠ a := by
    rintro rfl
    exact absurd (hx.symm.trans hfree) (Option.some_ne_none b)
  rw [Function.update_of_ne hne, hx]

theorem Step.grows (h : Inv R s) (hs : Step R s s') : Grows s s' := by
  cases hs with
  | observe i t hterm => exact { Grows.refl s with term := le_update hterm }
  | cast i c t hterm hfree hlog =>
    refine { Grows.refl s with ballot := ?_ }
    exact (Function.forall_update_iff s.ballot fun j f => ∀ u b, s.ballot j u = some b → f u = some b).mpr
      ⟨fun _ _ hb => update_of_free hfree _ hb, fun _ _ _ _ hb => hb⟩
  | crown c t P hfree hterm hown hquorum hvotes =>
    refine { Grows.refl s with crown := fun _ _ hb => update_of_free hfree _ hb, reign := ?_ }
    refine (Function.forall_update_iff s.reign fun u l => s.reign u <+: l).mpr ⟨?_, fun _ _ => List.prefix_rfl⟩
    rw [h.uncrowned t hfree]
    exact List.nil_prefix
  | extend c t l es hcrown hterm hes =>
    refine { Grows.refl s with reign := ?_ }
    exact (Function.forall_update_iff s.reign fun u l => s.reign u <+: l).mpr
      ⟨List.prefix_append _ _, fun _ _ => List.prefix_rfl⟩
  | trim | store => exact { Grows.refl s with }
  | acknowledge i t k hterm hk hlog =>
    refine { Grows.refl s with ack := ?_ }
    exact (Function.forall_update_iff s.ack fun j f => ∀ u, s.ack j u ≤ f u).mpr
      ⟨fun u => le_update (Nat.le_max_left _ _) u, fun _ _ _ => Nat.le_refl _⟩

/-! ## Every step keeps the invariant -/

section Preservation

variable {t : Nat} {i : ι}

theorem Inv.observe (h : Inv R s) (hterm : s.term i ≤ t) : Inv R { s with term := Function.update s.term i t } := by
  have hmono := le_update hterm
  have hgrows : Grows s { s with term := Function.update s.term i t } := { Grows.refl s with term := hmono }
  refine { h with ballot_le := ?_, crown_le := ?_, log_le := ?_, leader := ?_, ack_term := ?_, kept := ?_ }
  · exact fun j u b hb => (h.ballot_le j u b hb).trans (hmono j)
  · exact fun u c l hc => (h.crown_le u c l hc).trans (hmono c)
  · exact fun j e he => (h.log_le j e he).trans (hmono j)
  · intro u c l hc hu
    -- a leader of a term has heard of it
    have hle := h.crown_le u c l hc
    have hge := hmono c
    dsimp only at hu
    exact h.leader u c l hc (by omega)
  · exact fun j u hu => (h.ack_term j u hu).trans (hmono j)
  · exact fun j u => (h.kept j u).grows hgrows rfl (h.ack_le j u) (Nat.succ_le_succ (hmono j))

omit [DecidableEq ι] in
/-- An election is remembered while its voters acknowledge nothing more of earlier terms. -/
theorem Inv.elected_grows (h : Inv R s) (hg : Grows s s')
    (hack : ∀ v b, s.ballot v t = some b → ∀ x < t, s'.ack v x = s.ack v x) {c : ι} {l : List ε}
    (hcrown : s.crown t = some (c, l)) : ∃ P, R.Quorum P ∧ ∀ v, P v →
      ∃ lv, s'.ballot v t = some (c, lv) ∧ R.UpToDate l lv ∧ ∀ x < t, Holds s' v x lv t := by
  obtain ⟨P, hquorum, hvotes⟩ := h.elected t c l hcrown
  refine ⟨P, hquorum, fun v hv => ?_⟩
  obtain ⟨lv, hlv, hup, htold⟩ := hvotes v hv
  exact ⟨lv, hg.ballot v t _ hlv, hup, fun x hx =>
    (htold x hx).grows hg (hack v _ hlv x hx) (h.ack_le v x) (Nat.le_refl _)⟩

theorem Inv.cast (h : Inv R s) {c : ι} (hterm : s.term i = t) (hfree : s.ballot i t = none)
    (hlog : i = c ∨ ∃ l, s.ballot c t = some (c, l) ∧ R.UpToDate l (s.log i)) :
    Inv R { s with
      ballot := Function.update s.ballot i (Function.update (s.ballot i) t (some (c, s.log i))) } := by
  have hgrows := (Step.cast (R := R) i c t hterm hfree hlog).grows h
  -- a ballot is an old one or the new one
  have hcases : ∀ j u b, Function.update s.ballot i
      (Function.update (s.ballot i) t (some (c, s.log i))) j u = some b →
      s.ballot j u = some b ∨ j = i ∧ u = t ∧ b = (c, s.log i) := by
    intro j u b hb
    by_cases hj : j = i
    · subst hj
      by_cases hu : u = t
      · subst hu
        simp only [Function.update_self, Option.some.injEq] at hb
        exact .inr ⟨rfl, rfl, hb.symm⟩
      · simp only [Function.update_self, Function.update_of_ne hu] at hb
        exact .inl hb
    · rw [Function.update_of_ne hj] at hb
      exact .inl hb
  refine { h with ballot_le := ?_, coherentBallot := ?_, backed := ?_, told := ?_, elected := ?_ }
  · intro j u b hb
    rcases hcases j u b hb with hold | ⟨rfl, rfl, _⟩
    · exact h.ballot_le j u b hold
    · exact Nat.le_of_eq hterm.symm
  · intro j u c' l hb
    rcases hcases j u _ hb with hold | ⟨rfl, rfl, heq⟩
    · exact h.coherentBallot j u c' l hold
    · cases heq
      exact h.coherent j
  · intro j u c' l hb
    rcases hcases j u _ hb with hold | ⟨rfl, rfl, heq⟩
    · exact (h.backed j u c' l hold).imp id fun ⟨lc, hlc, hup⟩ => ⟨lc, hgrows.ballot _ _ _ hlc, hup⟩
    · cases heq
      exact hlog.imp id fun ⟨lc, hlc, hup⟩ => ⟨lc, hgrows.ballot _ _ _ hlc, hup⟩
  · intro j u c' l hb hnone
    rcases hcases j u _ hb with hold | ⟨rfl, rfl, heq⟩
    · exact h.told j u c' l hold hnone
    · cases heq
      intro v hv k hk
      rcases h.kept j v k hk with hpre | ⟨x, d, l', hvx, hxt, hcrown, hnot⟩
      · exact .inl hpre
      · -- no leader of this very term yet
        have hne : x ≠ u := by
          rintro rfl
          rw [hnone] at hcrown
          cases hcrown
        exact .inr ⟨x, d, l', hvx, by omega, hcrown, hnot⟩
  · exact fun u d l hu => h.elected_grows hgrows (fun _ _ _ _ _ => rfl) hu

omit [DecidableEq ι] in
theorem Inv.termOf_ne (h : Inv R s) {l : List ε} (hl : Coherent R s l)
    (hnone : s.crown t = none) {e : ε} (he : e ∈ l) : R.termOf e ≠ t := by
  rintro rfl
  obtain ⟨k, hk⟩ := List.getElem?_of_mem he
  have hpre := hl k e hk
  obtain ⟨hlt, _⟩ := List.getElem?_eq_some_iff.mp hk
  rw [h.uncrowned _ hnone, List.prefix_nil, List.take_eq_nil_iff] at hpre
  rcases hpre with hzero | hnil
  · omega
  · simp [hnil] at hlt

theorem Inv.crown (h : Inv R s) {c : ι} {P : ι → Prop} (hfree : s.crown t = none)
    (hterm : s.term c = t) (hown : s.ballot c t = some (c, s.log c)) (hquorum : R.Quorum P)
    (hvotes : ∀ v, P v → ∃ l, s.ballot v t = some (c, l)) :
    Inv R { s with
      crown := Function.update s.crown t (some (c, s.log c))
      reign := Function.update s.reign t (s.log c) } := by
  have hgrows := (Step.crown c t P hfree hterm hown hquorum hvotes).grows h
  have hcases : ∀ u d l, Function.update s.crown t (some (c, s.log c)) u = some (d, l) →
      s.crown u = some (d, l) ∧ u ≠ t ∨ u = t ∧ d = c ∧ l = s.log c := by
    intro u d l hu
    by_cases hut : u = t
    · subst hut
      simp only [Function.update_self, Option.some.injEq, Prod.mk.injEq] at hu
      exact .inr ⟨rfl, hu.1.symm, hu.2.symm⟩
    · rw [Function.update_of_ne hut] at hu
      exact .inl ⟨hu, hut⟩
  refine { h with
    crown_le := ?_, uncrowned := ?_, before := ?_, founded := ?_, leader := ?_, told := ?_, elected := ?_
    coherent := fun i => (h.coherent i).grows hgrows
    coherentReign := ?_
    coherentBallot := fun i u d l hb => (h.coherentBallot i u d l hb).grows hgrows
    ack_le := fun i u => (h.ack_le i u).trans (hgrows.reign u).length_le
    kept := fun i u => (h.kept i u).grows hgrows rfl (h.ack_le i u) (Nat.le_refl _) }
  · intro u d l hu
    rcases hcases u d l hu with ⟨hold, _⟩ | ⟨rfl, rfl, _⟩
    · exact h.crown_le u d l hold
    · exact Nat.le_of_eq hterm.symm
  · intro u hu
    by_cases hut : u = t
    · subst hut
      simp at hu
    · simp only [Function.update_of_ne hut] at hu ⊢
      exact h.uncrowned u hu
  · intro u d l hu e he
    rcases hcases u d l hu with ⟨hold, _⟩ | ⟨rfl, rfl, rfl⟩
    · exact h.before u d l hold e he
    · have hne := h.termOf_ne (h.coherent d) hfree he
      have hle := h.log_le d e he
      omega
  · intro u d l hu
    rcases hcases u d l hu with ⟨hold, hut⟩ | ⟨rfl, rfl, rfl⟩
    · simp only [Function.update_of_ne hut]
      exact h.founded u d l hold
    · exact ⟨[], by simp, fun _ he => nomatch he⟩
  · exact (Function.forall_update_iff s.reign fun _ l => Coherent R _ l).mpr
      ⟨(h.coherent c).grows hgrows, fun u _ => (h.coherentReign u).grows hgrows⟩
  · intro u d l hu hd
    rcases hcases u d l hu with ⟨hold, hut⟩ | ⟨rfl, rfl, rfl⟩
    · simp only [Function.update_of_ne hut]
      exact h.leader u d l hold hd
    · simp
  · intro i u d l hb hu v hv
    have hnone : s.crown u = none := by
      by_cases hut : u = t
      · exact hut ▸ hfree
      · simpa [Function.update_of_ne hut] using hu
    exact (h.told i u d l hb hnone v hv).grows hgrows rfl (h.ack_le i v) (Nat.le_refl _)
  · intro u d l hu
    rcases hcases u d l hu with ⟨hold, _⟩ | ⟨rfl, rfl, rfl⟩
    · exact h.elected_grows hgrows (fun _ _ _ _ _ => rfl) hold
    · refine ⟨P, hquorum, fun v hv => ?_⟩
      obtain ⟨lv, hlv⟩ := hvotes v hv
      have hup : R.UpToDate (s.log d) lv := by
        rcases h.backed v u d lv hlv with rfl | ⟨lc, hlc, hup⟩
        · rw [hown] at hlv
          cases hlv
          exact .inr ⟨rfl, Nat.le_refl _⟩
        · rw [hown] at hlc
          cases hlc
          exact hup
      exact ⟨lv, hlv, hup, fun x hx =>
        (h.told v u d lv hlv hfree x hx).grows hgrows rfl (h.ack_le v x) (Nat.le_refl _)⟩

omit [DecidableEq ι] in
theorem Inv.reign_le (h : Inv R s) {e : ε} (he : e ∈ s.reign t) : R.termOf e ≤ t := by
  cases hcrown : s.crown t with
  | none =>
    rw [h.uncrowned t hcrown] at he
    cases he
  | some b =>
    obtain ⟨es, hes, hnew⟩ := h.founded t b.1 b.2 hcrown
    rw [hes] at he
    rcases List.mem_append.mp he with hold | he
    · exact Nat.le_of_lt (h.before t b.1 b.2 hcrown e hold)
    · exact Nat.le_of_eq (hnew e he)

theorem Inv.extend (h : Inv R s) {c : ι} {l es : List ε} (hcrown : s.crown t = some (c, l))
    (hterm : s.term c = t) (hes : ∀ e ∈ es, R.termOf e = t) :
    Inv R { s with
      log := Function.update s.log c (s.log c ++ es)
      reign := Function.update s.reign t (s.reign t ++ es) } := by
  have hgrows := (Step.extend c t l es hcrown hterm hes).grows h
  have hlog := h.leader t c l hcrown hterm
  have hnew : Coherent R { s with
      log := Function.update s.log c (s.log c ++ es)
      reign := Function.update s.reign t (s.reign t ++ es) } (s.reign t ++ es) := by
    intro k e hk
    by_cases hlt : k < (s.reign t).length
    · rw [List.getElem?_append_left hlt] at hk
      rw [List.take_append_of_le_length hlt]
      exact (h.coherentReign t).grows hgrows k e hk
    · rw [List.getElem?_append_right (Nat.not_lt.mp hlt)] at hk
      rw [hes e (List.mem_of_getElem? hk)]
      simp only [Function.update_self]
      exact List.take_prefix _ _
  refine { h with
    uncrowned := ?_, founded := ?_, coherent := ?_, coherentReign := ?_, log_le := ?_, leader := ?_, kept := ?_
    coherentBallot := fun i u d l' hb => (h.coherentBallot i u d l' hb).grows hgrows
    told := fun i u d l' hb hu v hv => (h.told i u d l' hb hu v hv).grows hgrows rfl (h.ack_le i v) (Nat.le_refl _)
    elected := fun u d l' hu => h.elected_grows hgrows (fun _ _ _ _ _ => rfl) hu
    ack_le := fun i u => (h.ack_le i u).trans (hgrows.reign u).length_le }
  · intro u hu
    have hut : u ≠ t := by
      rintro rfl
      rw [hcrown] at hu
      cases hu
    simp only [Function.update_of_ne hut]
    exact h.uncrowned u hu
  · intro u d l' hu
    obtain ⟨es', heq, hterms⟩ := h.founded u d l' hu
    by_cases hut : u = t
    · subst hut
      refine ⟨es' ++ es, by simp [heq], fun e he => ?_⟩
      rcases List.mem_append.mp he with he | he
      · exact hterms e he
      · exact hes e he
    · simp only [Function.update_of_ne hut]
      exact ⟨es', heq, hterms⟩
  · exact (Function.forall_update_iff s.log fun _ l => Coherent R _ l).mpr
      ⟨hlog ▸ hnew, fun i _ => (h.coherent i).grows hgrows⟩
  · exact (Function.forall_update_iff s.reign fun _ l => Coherent R _ l).mpr
      ⟨hnew, fun u _ => (h.coherentReign u).grows hgrows⟩
  · refine (Function.forall_update_iff s.log fun i l => ∀ e ∈ l, R.termOf e ≤ s.term i).mpr
      ⟨fun e he => ?_, fun i _ => h.log_le i⟩
    rcases List.mem_append.mp he with he | he
    · exact h.log_le c e he
    · exact Nat.le_of_eq ((hes e he).trans hterm.symm)
  · intro u d l' hu hd
    have hd : s.term d = u := hd
    by_cases hut : u = t
    · subst hut
      have hdc : d = c := by
        have hu : s.crown u = some (d, l') := hu
        rw [hcrown] at hu
        cases hu
        rfl
      subst hdc
      simp [hlog]
    · have hdc : d ≠ c := by
        rintro rfl
        exact hut (hd.symm.trans hterm)
      simp only [Function.update_of_ne hut, Function.update_of_ne hdc]
      exact h.leader u d l' hu hd
  · have hold := fun i u => (h.kept i u).grows hgrows rfl (h.ack_le i u) (Nat.le_refl _)
    exact (Function.forall_update_iff s.log fun i l => ∀ u, Holds _ i u l (s.term i + 1)).mpr
      ⟨fun u => (hold c u).longer (List.prefix_append _ _), fun i _ => hold i⟩

theorem Inv.relog (h : Inv R s) {l : List ε} (hcoherent : Coherent R s l) (hle : ∀ e ∈ l, R.termOf e ≤ s.term i)
    (hleader : ∀ l', s.crown (s.term i) = some (i, l') → l = s.reign (s.term i))
    (hkept : ∀ u, Holds s i u l (s.term i + 1)) : Inv R { s with log := Function.update s.log i l } := by
  refine { h with coherent := ?_, log_le := ?_, leader := ?_, kept := ?_ }
  · exact (Function.forall_update_iff s.log fun _ l => Coherent R s l).mpr ⟨hcoherent, fun j _ => h.coherent j⟩
  · exact (Function.forall_update_iff s.log fun j l => ∀ e ∈ l, R.termOf e ≤ s.term j).mpr
      ⟨hle, fun j _ => h.log_le j⟩
  · intro u d l' hu hd
    have hd : s.term d = u := hd
    subst hd
    by_cases hj : d = i
    · subst hj
      simp only [Function.update_self]
      exact hleader l' hu
    · simp only [Function.update_of_ne hj]
      exact h.leader _ d l' hu rfl
  · exact (Function.forall_update_iff s.log fun j l => ∀ u, Holds s j u l (s.term j + 1)).mpr
      ⟨hkept, fun j _ => h.kept j⟩

theorem Inv.trim (h : Inv R s) {j : Nat} {e e' : ε} (hterm : s.term i = t) (hmine : (s.log i)[j]? = some e)
    (htheirs : (s.reign t)[j]? = some e') (hne : R.termOf e ≠ R.termOf e') :
    Inv R { s with log := Function.update s.log i ((s.log i).take j) } := by
  subst hterm
  -- the leader's log holds something else at `j`
  have hconflict : ∀ {l : List ε}, l <+: s.reign (s.term i) → l[j]? ≠ some e := by
    intro l hl hj
    have heq := getElem?_stable hl hj
    rw [htheirs] at heq
    cases heq
    exact hne rfl
  apply h.relog ((h.coherent i).take j)
  · exact fun e he => h.log_le i e (List.mem_of_mem_take he)
  · intro l hcrown
    rw [h.leader _ i l hcrown rfl] at hmine
    exact absurd hmine (hconflict List.prefix_rfl)
  · intro u k hk
    rcases h.kept i u k hk with hpre | hcut
    · by_cases hkj : k ≤ j
      · left
        rw [List.prefix_take_iff]
        exact ⟨hpre, by simp only [List.length_take]; omega⟩
      · -- what was acknowledged reaches the cut: a later leader was elected without it
        right
        have hlen : j < ((s.reign u).take k).length := by
          have := h.ack_le i u
          simp only [List.length_take]
          omega
        have hat : ((s.reign u).take k)[j]? = some e := by
          have heq := List.getElem?_eq_getElem hlen
          rw [heq, ← hmine]
          rw [← getElem?_stable hpre heq]
        have hut : u < s.term i := by
          have hle : u ≤ s.term i := h.ack_term i u (by omega)
          rcases Nat.lt_or_eq_of_le hle with hlt | heq
          · exact hlt
          · subst heq
            exact absurd hat (hconflict (List.take_prefix _ _))
        cases hcrown : s.crown (s.term i) with
        | none =>
          rw [h.uncrowned _ hcrown] at htheirs
          cases htheirs
        | some b =>
          refine ⟨s.term i, b.1, b.2, hut, Nat.lt_succ_self _, hcrown, fun hbad => ?_⟩
          obtain ⟨es, hes, _⟩ := h.founded _ b.1 b.2 hcrown
          have hreign : b.2 <+: s.reign (s.term i) := ⟨es, hes.symm⟩
          exact hconflict hreign (getElem?_stable hbad hat)
    · exact .inr hcut

theorem Inv.store (h : Inv R s) {k : Nat} (hterm : s.term i = t) (hlog : s.log i <+: (s.reign t).take k) :
    Inv R { s with log := Function.update s.log i ((s.reign t).take k) } := by
  subst hterm
  apply h.relog ((h.coherentReign _).take k)
  · exact fun e he => h.reign_le (List.mem_of_mem_take he)
  · intro l hcrown
    rw [h.leader _ i l hcrown rfl] at hlog
    exact (List.take_prefix k _).eq_of_length_le hlog.length_le
  · exact fun u => (h.kept i u).longer hlog

theorem Inv.acknowledge (h : Inv R s) {k : Nat} (hterm : s.term i = t)
    (hk : k ≤ (s.reign t).length) (hlog : (s.reign t).take k <+: s.log i) :
    Inv R { s with
      ack := Function.update s.ack i (Function.update (s.ack i) t (max (s.ack i t) k)) } := by
  have hgrows := (Step.acknowledge (R := R) i t k hterm hk hlog).grows h
  have hsame : ∀ j u, ¬ (j = i ∧ u = t) →
      Function.update s.ack i (Function.update (s.ack i) t (max (s.ack i t) k)) j u = s.ack j u := by
    intro j u hju
    by_cases hj : j = i
    · subst hj
      have hu : u ≠ t := fun hu => hju ⟨rfl, hu⟩
      simp [Function.update_of_ne hu]
    · simp [Function.update_of_ne hj]
  -- a voter of a term has nothing more to acknowledge of the terms below it
  have hvoter : ∀ u j b, s.ballot j u = some b → ∀ v < u,
      Function.update s.ack i (Function.update (s.ack i) t (max (s.ack i t) k)) j v = s.ack j v := by
    intro u j b hb v hv
    apply hsame
    rintro ⟨rfl, rfl⟩
    have := h.ballot_le j u b hb
    omega
  refine { h with told := ?_, elected := ?_, ack_le := ?_, ack_term := ?_, kept := ?_ }
  · exact fun j u d l hb hu v hv =>
      (h.told j u d l hb hu v hv).grows hgrows (hvoter u j _ hb v hv) (h.ack_le j v) (Nat.le_refl _)
  · exact fun u d l hu => h.elected_grows hgrows (hvoter u) hu
  · intro j u
    by_cases hju : j = i ∧ u = t
    · obtain ⟨rfl, rfl⟩ := hju
      have := h.ack_le j u
      simp only [Function.update_self]
      omega
    · simp only [hsame j u hju]
      exact h.ack_le j u
  · intro j u hpos
    by_cases hju : j = i ∧ u = t
    · obtain ⟨rfl, rfl⟩ := hju
      exact Nat.le_of_eq hterm.symm
    · simp only [hsame j u hju] at hpos
      exact h.ack_term j u hpos
  · intro j u
    by_cases hju : j = i ∧ u = t
    · obtain ⟨rfl, rfl⟩ := hju
      intro k' hk'
      simp only [Function.update_self] at hk'
      by_cases hold : k' ≤ s.ack j u
      · exact h.kept j u k' hold
      · left
        have hle : k' ≤ k := by omega
        exact (List.take_prefix_take_left hle).trans hlog
    · exact (h.kept j u).grows hgrows (hsame j u hju) (h.ack_le j u) (Nat.le_refl _)

/-- **Every step keeps the invariant.** -/
theorem Inv.step (h : Inv R s) (hs : Step R s s') : Inv R s' := by
  cases hs with
  | observe i t hterm => exact h.observe hterm
  | cast i c t hterm hfree hlog => exact h.cast hterm hfree hlog
  | crown c t P hfree hterm hown hquorum hvotes => exact h.crown hfree hterm hown hquorum hvotes
  | extend c t l es hcrown hterm hes => exact h.extend hcrown hterm hes
  | trim i t j e e' hterm hmine htheirs hne => exact h.trim hterm hmine htheirs hne
  | store i t k hterm hlog => exact h.store hterm hlog
  | acknowledge i t k hterm hk hlog => exact h.acknowledge hterm hk hlog

end Preservation

omit [DecidableEq ι] in
theorem Inv.init : Inv R (State.init : State ι ε) where
  ballot_le := fun _ _ _ h => nomatch h
  crown_le := fun _ _ _ h => nomatch h
  uncrowned := fun _ _ => rfl
  before := fun _ _ _ h => nomatch h
  founded := fun _ _ _ h => nomatch h
  coherent := fun _ _ _ h => nomatch h
  coherentReign := fun _ _ _ h => nomatch h
  coherentBallot := fun _ _ _ _ h => nomatch h
  log_le := fun _ _ h => nomatch h
  leader := fun _ _ _ h => nomatch h
  backed := fun _ _ _ _ h => nomatch h
  told := fun _ _ _ _ h => nomatch h
  elected := fun _ _ _ h => nomatch h
  ack_le := fun _ _ => Nat.le_refl 0
  ack_term := fun _ _ h => absurd h (Nat.lt_irrefl 0)
  kept := fun _ _ _ _ => .inl (by simp [State.init])

/-- Any number of steps. -/
def Steps (R : Rules ι ε) : State ι ε → State ι ε → Prop := Relation.ReflTransGen (Step R)

theorem Steps.inv (h : Inv R s) (hs : Steps R s s') : Inv R s' := by
  induction hs with
  | refl => exact h
  | tail _ hstep ih => exact ih.step hstep

theorem Steps.grows (h : Inv R s) (hs : Steps R s s') : Grows s s' := by
  induction hs with
  | refl => exact Grows.refl s
  | tail hsteps hstep ih => exact ih.trans (hstep.grows (Steps.inv h hsteps))

end Sandstore.Lib.Consensus
