import Sandstore.Lib.Consensus

/-!
# What a quorum has acknowledged is settled

**Completeness.** What a quorum has acknowledged of a term's own entries is in the log of every later
leader (`leader_completeness`), by induction over the later terms. The leader's voters meet the
quorum. A voter in both still held the entries, and then the candidate's log, which goes at least as
far, has them too; or it had come to follow a leader elected without them, which the induction
excludes.

**Agreement.** No two entries are chosen for one position (`Chosen.unique`).
-/

namespace Sandstore.Lib.Consensus

variable {ι ε : Type} {R : Rules ι ε} {s s' : State ι ε}

/-- A quorum has acknowledged the first `k` entries of term `t`, the last of them made in that
term. -/
structure Committed (R : Rules ι ε) (s : State ι ε) (t k : Nat) : Prop where
  last : ∃ e, (s.reign t)[k - 1]? = some e ∧ R.termOf e = t
  pos : 0 < k
  quorum : ∃ P, R.Quorum P ∧ ∀ i, P i → k ≤ s.ack i t

variable {t k : Nat}

theorem Committed.le_length (h : Committed R s t k) : k ≤ (s.reign t).length := by
  obtain ⟨e, he, _⟩ := h.last
  obtain ⟨hlt, _⟩ := List.getElem?_eq_some_iff.mp he
  have := h.pos
  omega

theorem Committed.grows (h : Committed R s t k) (hg : Grows s s') : Committed R s' t k := by
  obtain ⟨e, he, hterm⟩ := h.last
  obtain ⟨P, hP, hack⟩ := h.quorum
  exact ⟨⟨e, getElem?_stable (hg.reign t) he, hterm⟩, h.pos, P, hP, fun i hi => (hack i hi).trans (hg.ack i t)⟩

theorem lastTerm_pos {l : List ε} (hne : l ≠ []) : ∃ e, l[l.length - 1]? = some e ∧ R.lastTerm l = R.termOf e := by
  refine ⟨l.getLast hne, ?_, ?_⟩
  · rw [← List.getLast?_eq_getElem?, List.getLast?_eq_some_getLast hne]
  · simp [Rules.lastTerm, List.getLast?_eq_some_getLast hne]

/-- A coherent log is a prefix of the log of its last term. -/
theorem Coherent.prefix_reign {l : List ε} (h : Coherent R s l) (hne : l ≠ []) : l <+: s.reign (R.lastTerm l) := by
  obtain ⟨e, he, hterm⟩ := lastTerm_pos (R := R) hne
  have hpos := List.length_pos_of_ne_nil hne
  have hpre := h _ e he
  rwa [Nat.sub_add_cancel hpos, List.take_length, ← hterm] at hpre

/-- **Leader completeness.** What is committed in a term is in the log of every later leader at its
election. -/
theorem leader_completeness (h : Inv R s) (hcommit : Committed R s t k) :
    ∀ (u : Nat) (c : ι) (l : List ε), t < u → s.crown u = some (c, l) → (s.reign t).take k <+: l := by
  obtain ⟨e, he, heterm⟩ := hcommit.last
  obtain ⟨P, hP, hack⟩ := hcommit.quorum
  have hpos := hcommit.pos
  have hlen := hcommit.le_length
  intro u
  induction u using Nat.strongRecOn with
  | ind u ih =>
    intro c l htu hcrown
    obtain ⟨Q, hQ, hvotes⟩ := h.elected u c l hcrown
    obtain ⟨v, hv, hv'⟩ := R.meet P Q hP hQ
    obtain ⟨lv, hlv, hup, htold⟩ := hvotes v hv'
    rcases htold t htu k (hack v hv) with hpre | ⟨x, d, l', htx, hxu, hx, hnot⟩
    · -- the voter still held the entries; the candidate's log goes at least as far
      have hat : lv[k - 1]? = some e := by
        apply getElem?_stable hpre
        rw [List.getElem?_take, if_pos (by omega)]
        exact he
      have hlvne : lv ≠ [] := by
        rintro rfl
        cases hat
      have hvreign := (h.coherentBallot v u c lv hlv).prefix_reign hlvne
      have htv : t ≤ R.lastTerm lv := by
        rw [← heterm]
        exact h.reign_le (List.mem_of_getElem? (getElem?_stable hvreign hat))
      have hklv : k ≤ lv.length := by
        obtain ⟨hlt, _⟩ := List.getElem?_eq_some_iff.mp hat
        omega
      have hlne : l ≠ [] := by
        rintro rfl
        rcases hup with hlt | ⟨_, hle⟩
        · simp [Rules.lastTerm] at hlt
        · simp at hle
          exact hlvne hle
      have hlcoh : Coherent R s l := by
        obtain ⟨es, hes, _⟩ := h.founded u c l hcrown
        have := (h.coherentReign u).take l.length
        rwa [hes, List.take_left] at this
      have hlreign := hlcoh.prefix_reign hlne
      by_cases hlater : t < R.lastTerm l
      · -- its last term is later: that term's leader already had them
        obtain ⟨eₗ, heₗ, hlast⟩ := lastTerm_pos (R := R) hlne
        have hlu : R.lastTerm l < u := by
          rw [hlast]
          exact h.before u c l hcrown _ (List.mem_of_getElem? heₗ)
        cases hcr : s.crown (R.lastTerm l) with
        | none =>
          rw [h.uncrowned _ hcr, List.prefix_nil] at hlreign
          exact absurd hlreign hlne
        | some b =>
          have hbase := ih _ hlu b.1 b.2 hlater hcr
          obtain ⟨es, hes, _⟩ := h.founded _ b.1 b.2 hcr
          apply hbase.trans
          apply List.prefix_of_prefix_length_le ⟨es, hes.symm⟩ hlreign
          -- its last entry was made in that term, so it is not among those of its election
          by_contra hshort
          have hin : b.2[l.length - 1]? = some eₗ := by
            have hreign := getElem?_stable hlreign heₗ
            have hpos := List.length_pos_of_ne_nil hlne
            rwa [hes, List.getElem?_append_left (by omega)] at hreign
          have hbefore := h.before _ b.1 b.2 hcr eₗ (List.mem_of_getElem? hin)
          omega
      · -- same last term: both are prefixes of one log
        have hsame : R.lastTerm l = t ∧ lv.length ≤ l.length := by
          rcases hup with hlt | ⟨heq, hle⟩
          · omega
          · exact ⟨by omega, hle⟩
        rw [hsame.1] at hlreign
        apply List.prefix_of_prefix_length_le (List.take_prefix _ _) hlreign
        simp only [List.length_take]
        omega
    · exact absurd (ih x hxu d l' htx hx) hnot

/-- The entry at a position is settled. -/
def Chosen (R : Rules ι ε) (s : State ι ε) (j : Nat) (e : ε) : Prop :=
  ∃ t k, Committed R s t k ∧ j < k ∧ (s.reign t)[j]? = some e

theorem Chosen.grows {j : Nat} {e : ε} (h : Chosen R s j e) (hg : Grows s s') : Chosen R s' j e := by
  obtain ⟨t, k, hcommit, hj, he⟩ := h
  exact ⟨t, k, hcommit.grows hg, hj, getElem?_stable (hg.reign t) he⟩

/-- What is committed in a term is in the log of that term and of every later one that has a
leader. -/
theorem Committed.prefix_reign (h : Inv R s) {u : Nat} (hcommit : Committed R s t k) (htu : t ≤ u)
    (hu : s.crown u ≠ none) : (s.reign t).take k <+: s.reign u := by
  rcases Nat.lt_or_eq_of_le htu with hlt | rfl
  · cases hcr : s.crown u with
    | none => exact absurd hcr hu
    | some b =>
      obtain ⟨es, hes, _⟩ := h.founded u b.1 b.2 hcr
      exact (leader_completeness h hcommit u b.1 b.2 hlt hcr).trans ⟨es, hes.symm⟩
  · exact List.take_prefix _ _

theorem Committed.crowned (h : Inv R s) (hcommit : Committed R s t k) : s.crown t ≠ none := by
  intro hnone
  have hle := hcommit.le_length
  rw [h.uncrowned t hnone] at hle
  have := hcommit.pos
  simp at hle
  omega

/-- **Agreement.** At most one entry is chosen for a position. -/
theorem Chosen.unique (h : Inv R s) {j : Nat} {e e' : ε} (he : Chosen R s j e) (he' : Chosen R s j e') : e = e' := by
  have hordered : ∀ {t k u m : Nat} {a b : ε}, t ≤ u → Committed R s t k → Committed R s u m →
      j < k → (s.reign t)[j]? = some a → (s.reign u)[j]? = some b → a = b := by
    intro t k u m a b htu hc hc' hj ha hb
    have hpre := hc.prefix_reign h htu (hc'.crowned h)
    have hin : ((s.reign t).take k)[j]? = some a := by
      rw [List.getElem?_take, if_pos hj]
      exact ha
    have heq := getElem?_stable hpre hin
    rw [hb] at heq
    cases heq
    rfl
  obtain ⟨t, k, hc, hj, ha⟩ := he
  obtain ⟨u, m, hc', hj', hb⟩ := he'
  rcases Nat.le_total t u with htu | hut
  · exact hordered htu hc hc' hj ha hb
  · exact (hordered hut hc' hc hj' hb ha).symm

end Sandstore.Lib.Consensus
