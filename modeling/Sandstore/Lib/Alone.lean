import Sandstore.Lib.Company

/-!
# Sections that run alone

`Sound` asks every critical section to bear with the background job. Some do not, and are entered only
while the job is away. They need no more than that: the job takes the lock to choose, so it stays away
until they are over.

`Apart` is the rule for a company with both kinds. A section either bears with the job, and then the job
with it, or finds the job idle and runs alone. `Rest` is what holds whenever the job is idle and nobody
runs alone: it is what the job starts from, and what it and the sections that run alone come back to.

There are two conclusions. `I` holds in every state of every run (`Apart.inv`), and what none of the moves
undoes stays (`Apart.stays`). A sound company is one in which nobody runs alone (`Sound.apart`).
-/

namespace Sandstore.Lib

open Proc

variable {σ α κ ι : Type}

/-- The rest of a program none of whose writes fails, with the other thread moving by `R`. -/
abbrev Bears (R : σ → σ → Prop) (I : σ → Prop) (G : σ → σ → Prop) (p : Proc σ α) (s : σ)
    (Q : α → σ → Prop) : Prop :=
  Guarded (fun _ => False) R I G (fun _ => True) p s Q

/-- A write that succeeds is not the last thing a program does. -/
theorem outcome_done (f : σ → σ × Option (σ → σ)) (s : σ) : ∃ r, outcome f s .done = .inl r := by
  unfold outcome
  split
  · exact ⟨_, rfl⟩
  · exact ⟨_, rfl⟩

/-- What has to be shown of each thread. `R` is what the job does, `G` what a section does that bears
with it, and `H` what a section does that runs alone; `J` is what the job may rely on about its label
until it sets to work, and `K` what it has brought about when it is done. -/
structure Apart (C : Company σ α κ ι) (I Rest : σ → Prop) (R G H : σ → σ → Prop) (J K : κ → σ → Prop)
    (allow : Threads σ α κ → Move ι → Prop) : Prop where
  relyRefl : ∀ s, R s s
  relyTrans : ∀ a b c, R a b → R b c → R a c
  moveRefl : ∀ s, G s s
  moveTrans : ∀ a b c, G a b → G b c → G a c
  fate : ∀ t f, allow t (.advance f) ∨ allow t (.work f) → f = .done
  enter : ∀ t i, allow t (.enter i) → I t.state → (t.stage = .idle → Rest t.state) →
    Bears R I G (C.sections i) t.state (fun _ _ => True) ∨
      (t.stage = .idle ∧ Bears Eq I H (C.sections i) t.state fun _ s => Rest s)
  choose : ∀ s k, I s → Rest s → C.choose s = some k → J k s
  chosen : ∀ k s s', I s → I s' → J k s → G s s' → J k s'
  giveUp : ∀ k s, I s → J k s → Rest s
  launch : ∀ t k p, allow t .launch → t.stage = .chosen k → I t.state → J k t.state →
    C.launch k t.state = some p → Bears G I R p t.state fun done s => if done then K k s else Rest s
  closing : ∀ k s s', I s → I s' → K k s → G s s' → K k s'
  publish : ∀ k s, I s → K k s → I (C.publish k s) ∧ Rest (C.publish k s)
  rest : ∀ s s', I s' → Rest s → G s s' → Rest s'
  restart : ∀ t s, allow t .crash → I t.state → C.restart t.state = some s → I s ∧ Rest s

namespace Apart

variable {C : Company σ α κ ι} {I Rest : σ → Prop} {R G H : σ → σ → Prop} {J K : κ → σ → Prop}
  {allow : Threads σ α κ → Move ι → Prop} {t t' : Threads σ α κ}

/-- What the job's stage says about the state. -/
def StageOk (I Rest : σ → Prop) (R G : σ → σ → Prop) (J K : κ → σ → Prop) (s : σ) : Stage σ κ → Prop
  | .idle => True
  | .chosen k => J k s
  | .working k rest => Bears G I R rest s fun done s' => if done then K k s' else Rest s'
  | .closing k => K k s

/-- What the section that holds the lock may count on. -/
inductive HolderOk (I Rest : σ → Prop) (R G H : σ → σ → Prop) (t : Threads σ α κ) : Prop
  | free (hnone : t.holder = none) (hrest : t.stage = .idle → Rest t.state)
  | beside (p : Proc σ α) (hp : t.holder = some p) (hbears : Bears R I G p t.state fun _ _ => True)
      (hrest : t.stage = .idle → Rest t.state)
  | alone (p : Proc σ α) (hp : t.holder = some p) (hidle : t.stage = .idle)
      (hbears : Bears Eq I H p t.state fun _ s => Rest s)

structure Inv (I Rest : σ → Prop) (R G H : σ → σ → Prop) (J K : κ → σ → Prop) (t : Threads σ α κ) :
    Prop where
  state : I t.state
  holder : HolderOk I Rest R G H t
  stage : StageOk I Rest R G J K t.state t.stage

theorem inv_start {s : σ} (hI : I s) (hrest : Rest s) : Inv I Rest R G H J K ({ state := s } : Threads σ α κ) :=
  ⟨hI, .free rfl fun _ => hrest, trivial⟩

theorem HolderOk.interfered (h : HolderOk I Rest R G H t) (hbusy : t.stage ≠ .idle)
    (htrans : ∀ a b c, R a b → R b c → R a c) {s : σ} (hR : R t.state s) {stage : Stage σ κ}
    (hrest : stage = .idle → Rest s) : HolderOk I Rest R G H { t with state := s, stage := stage } := by
  cases h with
  | free hnone _ => exact .free hnone hrest
  | beside p hp hbears _ => exact .beside p hp (hbears.rely htrans hR) hrest
  | alone p hp hidle _ => exact absurd hidle hbusy

theorem stageOk_move (h : Apart C I Rest R G H J K allow) {s s' : σ} (hI : I s) (hI' : I s')
    (hG : G s s') {stage : Stage σ κ} (hst : StageOk I Rest R G J K s stage) : StageOk I Rest R G J K s' stage := by
  cases stage with
  | idle => trivial
  | chosen k => exact h.chosen k s s' hI hI' hst hG
  | working k rest => exact Guarded.rely h.moveTrans hst hG
  | closing k => exact h.closing k s s' hI hI' hst hG

theorem enter_inv (h : Apart C I Rest R G H J K allow) {i : ι} (hinv : Inv I Rest R G H J K t)
    (ha : allow t (.enter i)) (hs : C.step t (.enter i) = some t') :
    Inv I Rest R G H J K t' ∧ t'.state = t.state := by
  have hfree : t.holder = none → Inv I Rest R G H J K { t with holder := some (C.sections i) } := by
    intro hnone
    have hrest : t.stage = .idle → Rest t.state := by
      cases hinv.holder with
      | free _ hrest => exact hrest
      | beside p hp => simp [hnone] at hp
      | alone p hp => simp [hnone] at hp
    refine ⟨hinv.state, ?_, hinv.stage⟩
    rcases h.enter t i ha hinv.state hrest with hbears | ⟨hidle, hbears⟩
    · exact .beside _ rfl hbears hrest
    · exact .alone _ rfl hidle hbears
  dsimp only [Company.step] at hs
  split at hs
  · next hnone _ =>
    cases hs
    exact ⟨hfree hnone, rfl⟩
  · next hnone _ =>
    split at hs
    · cases hs
    · cases hs
      exact ⟨hfree hnone, rfl⟩
  · cases hs

theorem advance_inv (h : Apart C I Rest R G H J K allow) {fate : Fate} (hinv : Inv I Rest R G H J K t)
    (ha : allow t (.advance fate)) (hs : C.step t (.advance fate) = some t') :
    Inv I Rest R G H J K t' ∧ (t'.state = t.state ∨ G t.state t'.state ∨ H t.state t'.state) := by
  cases h.fate t fate (.inl ha)
  dsimp only [Company.step] at hs
  split at hs
  · cases hs
  · next a hret =>
    cases hs
    refine ⟨⟨hinv.state, .free rfl fun hidle => ?_, hinv.stage⟩, .inl rfl⟩
    cases hinv.holder with
    | free hnone => simp [hret] at hnone
    | beside _ _ _ hrest => exact hrest hidle
    | alone p hp _ hbears =>
      rw [hret, Option.some_inj] at hp
      subst hp
      exact hbears t.state rfl hinv.state
  · next f k hstep =>
    obtain ⟨r, ho⟩ := outcome_done f t.state
    cases hinv.holder with
    | free hnone => simp [hstep] at hnone
    | beside p hp hbears hrest =>
      rw [hstep, Option.some_inj] at hp
      subst hp
      have hguard := hbears t.state (h.relyRefl _) hinv.state .done (.inl rfl)
      rw [ho] at hs hguard
      cases hs
      obtain ⟨hI, hG, hbears'⟩ := hguard
      refine ⟨⟨hI, .beside _ rfl hbears' fun hidle => ?_, h.stageOk_move hinv.state hI hG hinv.stage⟩, .inr (.inl hG)⟩
      exact h.rest _ _ hI (hrest hidle) hG
    | alone p hp hidle hbears =>
      rw [hstep, Option.some_inj] at hp
      subst hp
      have hguard := hbears t.state rfl hinv.state .done (.inl rfl)
      rw [ho] at hs hguard
      cases hs
      obtain ⟨hI, hH, hbears'⟩ := hguard
      refine ⟨⟨hI, .alone _ rfl hidle hbears', ?_⟩, .inr (.inr hH)⟩
      show StageOk I Rest R G J K r.1 t.stage
      rw [hidle]
      trivial

theorem work_inv (h : Apart C I Rest R G H J K allow) {fate : Fate} (hinv : Inv I Rest R G H J K t)
    (ha : allow t (.work fate)) (hs : C.step t (.work fate) = some t') :
    Inv I Rest R G H J K t' ∧ (t'.state = t.state ∨ R t.state t'.state) := by
  cases h.fate t fate (.inr ha)
  have hstage := hinv.stage
  dsimp only [Company.step] at hs
  split at hs
  · next k hst =>
    rw [hst] at hstage
    cases hs
    have hholder := hinv.holder.interfered (by simp [hst]) h.relyTrans (h.relyRefl t.state)
      (show Stage.closing k = .idle → _ from (nomatch ·))
    exact ⟨⟨hinv.state, hholder, hstage t.state (h.moveRefl _) hinv.state⟩, .inl rfl⟩
  · next k hst =>
    rw [hst] at hstage
    cases hs
    have hholder := hinv.holder.interfered (by simp [hst]) h.relyTrans (h.relyRefl t.state)
      (show Stage.idle = Stage.idle → _ from fun _ => hstage t.state (h.moveRefl _) hinv.state)
    exact ⟨⟨hinv.state, hholder, trivial⟩, .inl rfl⟩
  · next k f g hst =>
    rw [hst] at hstage
    obtain ⟨r, ho⟩ := outcome_done f t.state
    have hguard := hstage t.state (h.moveRefl _) hinv.state .done (.inl rfl)
    rw [ho] at hs hguard
    cases hs
    obtain ⟨hI, hR, hbears⟩ := hguard
    have hholder := hinv.holder.interfered (by simp [hst]) h.relyTrans hR
      (show Stage.working k (g t.state r.2) = .idle → _ from (nomatch ·))
    exact ⟨⟨hI, hholder, hbears⟩, .inr hR⟩
  · cases hs

/-- What a step does to the state. -/
inductive Moved (C : Company σ α κ ι) (R G H : σ → σ → Prop) (s : σ) : σ → Prop
  | still : Moved C R G H s s
  | job {s' : σ} (h : R s s') : Moved C R G H s s'
  | beside {s' : σ} (h : G s s') : Moved C R G H s s'
  | alone {s' : σ} (h : H s s') : Moved C R G H s s'
  | publish (k : κ) : Moved C R G H s (C.publish k s)
  | restart {s' : σ} (h : C.restart s = some s') : Moved C R G H s s'

/-- **One step** keeps the invariant, and is one of these moves. -/
theorem step_inv (h : Apart C I Rest R G H J K allow) {m : Move ι} (hinv : Inv I Rest R G H J K t)
    (ha : allow t m) (hs : C.step t m = some t') : Inv I Rest R G H J K t' ∧ Moved C R G H t.state t'.state := by
  have hstage := hinv.stage
  cases m with
  | enter i =>
    obtain ⟨hinv', hsame⟩ := h.enter_inv hinv ha hs
    exact ⟨hinv', hsame ▸ .still⟩
  | advance fate =>
    obtain ⟨hinv', hsame | hG | hH⟩ := h.advance_inv hinv ha hs
    · exact ⟨hinv', hsame ▸ .still⟩
    · exact ⟨hinv', .beside hG⟩
    · exact ⟨hinv', .alone hH⟩
  | work fate =>
    obtain ⟨hinv', hsame | hR⟩ := h.work_inv hinv ha hs
    · exact ⟨hinv', hsame ▸ .still⟩
    · exact ⟨hinv', .job hR⟩
  | crash =>
    obtain ⟨s, hrestart, rfl⟩ := Option.map_eq_some_iff.mp hs
    obtain ⟨hI, hrest⟩ := h.restart t s ha hinv.state hrestart
    exact ⟨inv_start hI hrest, .restart hrestart⟩
  | choose =>
    dsimp only [Company.step] at hs
    split at hs
    · next k hnone hidle hk =>
      cases hs
      refine ⟨⟨hinv.state, .free hnone (nomatch ·), ?_⟩, .still⟩
      cases hinv.holder with
      | free _ hrest => exact h.choose _ k hinv.state (hrest hidle) hk
      | beside p hp => simp [hnone] at hp
      | alone p hp => simp [hnone] at hp
    · cases hs
  | launch =>
    dsimp only [Company.step] at hs
    split at hs
    · next k hst =>
      rw [hst] at hstage
      have hbusy : t.stage ≠ .idle := by simp [hst]
      split at hs
      · next p hp =>
        cases hs
        have hholder := hinv.holder.interfered hbusy h.relyTrans (h.relyRefl t.state)
          (show Stage.working k p = .idle → _ from (nomatch ·))
        exact ⟨⟨hinv.state, hholder, h.launch t k p ha hst hinv.state hstage hp⟩, .still⟩
      · cases hs
        have hholder := hinv.holder.interfered hbusy h.relyTrans (h.relyRefl t.state)
          (show Stage.idle = Stage.idle → _ from fun _ => h.giveUp k _ hinv.state hstage)
        exact ⟨⟨hinv.state, hholder, trivial⟩, .still⟩
    · cases hs
  | publish =>
    dsimp only [Company.step] at hs
    split at hs
    · next k hnone hst =>
      rw [hst] at hstage
      cases hs
      obtain ⟨hI, hrest⟩ := h.publish k _ hinv.state hstage
      exact ⟨⟨hI, .free hnone fun _ => hrest, trivial⟩, .publish k⟩
    · cases hs

theorem inv (h : Apart C I Rest R G H J K allow) {s : σ} (hI : I s) (hrest : Rest s)
    (moves : List (Move ι)) (ha : Along C.step allow { state := s } moves)
    (hs : exec C.step { state := s } moves = some t) : Inv I Rest R G H J K t :=
  exec_along (fun _ _ _ hinv ha hs => (h.step_inv hinv ha hs).1) moves (inv_start hI hrest) ha hs

theorem stays (h : Apart C I Rest R G H J K allow) {P : σ → Prop}
    (hP : ∀ s s', P s → I s' → Moved C R G H s s' → P s') (hinv : Inv I Rest R G H J K t) (ht : P t.state)
    (moves : List (Move ι)) (ha : Along C.step allow t moves) (hs : exec C.step t moves = some t') : P t'.state := by
  refine (exec_along (I := fun t => Inv I Rest R G H J K t ∧ P t.state) ?_ moves ⟨hinv, ht⟩ ha hs).2
  intro t a t' hboth ha hs
  obtain ⟨hinv', hmoved⟩ := h.step_inv hboth.1 ha hs
  exact ⟨hinv', hP _ _ hboth.2 hinv'.state hmoved⟩

end Apart

/-! ## Companies in which nobody runs alone -/

variable {R G : σ → σ → Prop}

theorem Guarded.keeps {ok : Fate → Prop} {I D P : σ → Prop} {p : Proc σ α} {s : σ}
    (h : Guarded ok R I G D p s fun _ _ => True) (hI : I s) (hs : P s)
    (hP : ∀ a b, I a → I b → P a → R a b ∨ G a b → P b) : Guarded ok R I G (fun _ => True) p s fun _ => P := by
  induction p generalizing s with
  | ret a => exact fun s' hR hI' => hP s s' hI hI' hs (.inl hR)
  | step f k ih =>
    intro s' hR hI' fate hfate
    have hstep := h s' hR hI' fate hfate
    cases ho : outcome f s' fate with
    | inl r =>
      simp only [ho] at hstep
      obtain ⟨hnew, hG, hrest⟩ := hstep
      exact ⟨hnew, hG, ih s' r.2 hrest hnew (hP s' r.1 hI' hnew (hP s s' hI hI' hs (.inl hR)) (.inr hG))⟩
    | inr s'' => trivial

theorem Sound.apart {C : Company σ α κ ι} {I D : σ → Prop} {J : κ → σ → Prop}
    {allow : Threads σ α κ → Move ι → Prop} (h : Sound C (fun _ => False) I R G J D allow) :
    Apart C I (fun _ => True) R G Eq J J allow where
  relyRefl := h.relyRefl
  relyTrans := h.relyTrans
  moveRefl := h.moveRefl
  moveTrans := h.moveTrans
  fate := fun t f ha => (h.fate t f ha).resolve_right id
  enter := fun t i ha hI _ => .inl ((h.enter t i ha hI).keeps hI trivial fun _ _ _ _ _ _ => trivial)
  choose := fun s k hI _ => h.choose s k hI
  chosen := fun k s s' hI hI' hJ hG => h.label k s s' hI hI' hJ (.inr hG)
  giveUp := fun _ _ _ _ => trivial
  launch := by
    intro t k p ha hst hI hJ hp
    refine ((h.launch t k p ha hst hI hJ hp).keeps hI hJ fun a b ha hb hJ hmove => ?_).imp fun done s _ hs => ?_
    · exact h.label k a b ha hb hJ hmove.symm
    · cases done with
      | true => exact hs
      | false => trivial
  closing := fun k s s' hI hI' hJ hG => h.label k s s' hI hI' hJ (.inr hG)
  publish := fun k s hI hJ => ⟨h.publish k s hI hJ, trivial⟩
  rest := fun _ _ _ _ _ => trivial
  restart := fun t s ha hI hs => ⟨h.restart _ s (h.crash t ha hI) hs, trivial⟩

/-- **Rely and guarantee.** The invariant holds in every state of every run whose moves are allowed. -/
theorem Sound.invariant {C : Company σ α κ ι} {I D : σ → Prop} {J : κ → σ → Prop}
    {allow : Threads σ α κ → Move ι → Prop} (h : Sound C (fun _ => False) I R G J D allow) {s : σ} (hI : I s)
    (moves : List (Move ι)) {t : Threads σ α κ} (ha : Along C.step allow { state := s } moves)
    (hs : exec C.step { state := s } moves = some t) : I t.state := (h.apart.inv hI trivial moves ha hs).state

end Sandstore.Lib
