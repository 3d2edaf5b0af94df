import Sandstore.Lib.Proc

/-!
# The states a program passes

`run` answers where a program ends. `passes` lists the states it is in before each of its atomic steps,
for statements about a moment inside a run: that something was the case when a step was taken.

`Watched` is the judgement for both. From `s`, with `I` after every step, the program comes back in a
state that meets `Q`; and it may count on `V` in each state it takes a step from. With `V` the states that
one particular run passes, the program is told of its own past, and so its invariant may be about it.
-/

namespace Sandstore.Lib

namespace Proc

variable {σ α β : Type}

/-- The states a run takes a step from. -/
def passes : Proc σ α → σ → List Fate → List σ
  | .ret _, _, _ => []
  | .step f k, s, fs =>
    s :: match outcome f s (draw (f s).2 fs).1 with
      | .inl r => (k s r.2).passes r.1 (draw (f s).2 fs).2
      | .inr _ => []

/-- Every step, taken from a state of `V`, leads to a state of `I`, and the end meets `Q`. -/
def Watched (ok : Fate → Prop) (V I : σ → Prop) : Proc σ α → σ → (α → σ → Prop) → Prop
  | .ret a, s, Q => Q a s
  | .step f k, s, Q => V s → ∀ fate, (fate = .done ∨ ok fate) →
      match outcome f s fate with
      | .inl (s', b) => I s' ∧ Watched ok V I (k s b) s' Q
      | .inr s' => I s'

variable {ok : Fate → Prop} {V I : σ → Prop} {s : σ}

variable {Q : α → σ → Prop}

theorem watched_pure {a : α} (h : Q a s) : Watched ok V I (pure a) s Q := h

variable {p : Proc σ α}

theorem watched_bind {g : α → Proc σ β} {Q : β → σ → Prop}
    (h : Watched ok V I p s fun a s' => Watched ok V I (g a) s' Q) : Watched ok V I (p >>= g) s Q := by
  induction p generalizing s with
  | ret a => exact h
  | step f k ih =>
    intro hV fate hfate
    have hstep := h hV fate hfate
    cases ho : outcome f s fate with
    | inl r =>
      simp only [ho] at hstep
      exact ⟨hstep.1, ih s r.2 hstep.2⟩
    | inr s' =>
      simp only [ho] at hstep
      exact hstep

theorem watched_ite {c : Prop} [Decidable c] {q : Proc σ α}
    (hp : c → Watched ok V I p s Q) (hq : ¬ c → Watched ok V I q s Q) : Watched ok V I (if c then p else q) s Q := by
  by_cases hc : c
  · rw [if_pos hc]
    exact hp hc
  · rw [if_neg hc]
    exact hq hc

theorem watched_read_bind {g : σ → Proc σ β} {Q : β → σ → Prop} (hs : I s)
    (h : V s → Watched ok V I (g s) s Q) : Watched ok V I (read >>= g) s Q := watched_bind fun hV _ _ => ⟨hs, h hV⟩

theorem watched_update {f : σ → σ} {Q : Unit → σ → Prop} (hI : I (f s)) (hQ : Q () (f s)) :
    Watched ok V I (update f) s Q := fun _ _ _ => ⟨hI, hQ⟩

theorem watched_update_bind {f : σ → σ} {g : Unit → Proc σ β} {Q : β → σ → Prop} (hI : I (f s))
    (h : Watched ok V I (g ()) (f s) Q) : Watched ok V I (update f >>= g) s Q := watched_bind (watched_update hI h)

variable {f : σ → σ × Option (σ → σ)} {k : σ → Bool → Proc σ α}

theorem watched_step {s' : σ} {w : Option (σ → σ)} (hf : f s = (s', w)) (hquiet : I s')
    (hcommit : ∀ commit, w = some commit → I (commit s'))
    (hk : V s → ∀ b s'', (s'' = s' ∨ ∃ commit, w = some commit ∧ s'' = commit s') → Watched ok V I (k s b) s'' Q) :
    Watched ok V I (.step f k) s Q := by
  intro hV fate _
  simp only [outcome, hf]
  cases w with
  | none => exact ⟨hquiet, hk hV true s' (.inl rfl)⟩
  | some commit =>
    have hnew := hcommit commit rfl
    have hlast : ∀ b, Watched ok V I (k s b) (commit s') Q := fun b => hk hV b _ (.inr ⟨commit, rfl, rfl⟩)
    cases fate with
    | done => exact ⟨hnew, hlast true⟩
    | failedOld => exact ⟨hquiet, hk hV false s' (.inl rfl)⟩
    | failedNew => exact ⟨hnew, hlast false⟩
    | diedOld => exact hquiet
    | diedNew => exact hnew

/-- A program that takes a step may count on the state it takes it from. -/
theorem watched_seen (h : V s → Watched ok V I (.step f k) s Q) : Watched ok V I (.step f k) s Q := fun hV => h hV hV

theorem watched_quiet {s' : σ} (hf : f s = (s', none)) (hI : I s') (hk : V s → Watched ok V I (k s true) s' Q) :
    Watched ok V I (.step f k) s Q := by
  intro hV fate _
  simp only [outcome, hf]
  exact ⟨hI, hk hV⟩

theorem watched_write {commit : σ → σ} {Q : Bool → σ → Prop} (hs : I s) (hI : I (commit s))
    (hQ : ∀ b s', s' = s ∨ s' = commit s → Q b s') : Watched ok V I (write commit) s Q := by
  refine watched_step rfl hs (fun c hc => ?_) fun _ b s' hs' => hQ b s' ?_
  · cases hc
    exact hI
  · rcases hs' with rfl | ⟨c, hc, rfl⟩
    · exact .inl rfl
    · cases hc
      exact .inr rfl

/-- A weaker promise, made to more. -/
theorem Watched.imp {V' I' : σ → Prop} {Q' : α → σ → Prop} (h : Watched ok V I p s Q) (hs : I s)
    (hV : ∀ s, V' s → V s) (hI : ∀ s, I s → I' s) (hQ : ∀ a s, I s → Q a s → Q' a s) : Watched ok V' I' p s Q' := by
  induction p generalizing s with
  | ret a => exact hQ a s hs h
  | step f k ih =>
    intro hV' fate hfate
    have hstep := h (hV s hV') fate hfate
    cases ho : outcome f s fate with
    | inl r =>
      simp only [ho] at hstep
      exact ⟨hI _ hstep.1, ih s r.2 hstep.2 hstep.1⟩
    | inr s' =>
      simp only [ho] at hstep
      exact hI s' hstep

/-- Sequencing, with the invariant and what the first part promises for the second. -/
theorem Watched.bind {g : α → Proc σ β} {Q' : β → σ → Prop}
    (hp : Watched ok V I p s Q) (hs : I s) (hg : ∀ a s', I s' → Q a s' → Watched ok V I (g a) s' Q') :
    Watched ok V I (p >>= g) s Q' := watched_bind (hp.imp hs (fun _ h => h) (fun _ h => h) hg)

theorem Watched.ends {g : α → β} (hp : Watched ok V I p s Q) (hs : I s) :
    Watched ok V I (p >>= fun a => pure (g a)) s fun _ _ => True := hp.bind hs fun _ _ _ _ => trivial

/-- What the judgement says of one run: of the states it passes, and of its end. -/
theorem Watched.run (h : Watched ok V I p s Q) {fs : List Fate}
    (hfs : ∀ f ∈ fs, ok f) (hV : ∀ s' ∈ p.passes s fs, V s') (hs : I s) :
    (∀ s' ∈ p.passes s fs, I s') ∧ match p.run s fs with
      | .back a s' => I s' ∧ Q a s'
      | .died s' => I s' := by
  induction p generalizing s fs with
  | ret a => exact ⟨by simp [passes], hs, h⟩
  | step f k ih =>
    obtain ⟨hfate, hrest⟩ := draw_ok (f s).2 hfs
    have hstep := h (hV s (by simp [passes])) _ hfate
    simp only [Proc.run, passes, List.forall_mem_cons] at hV ⊢
    cases ho : outcome f s (draw (f s).2 fs).1 with
    | inl r =>
      simp only [ho] at hstep hV ⊢
      obtain ⟨hpassed, hend⟩ := ih s r.2 hstep.2 hrest hV.2 hstep.1
      exact ⟨⟨hs, hpassed⟩, hend⟩
    | inr s' =>
      simp only [ho] at hstep ⊢
      exact ⟨⟨hs, by simp⟩, hstep⟩

/-- Where the program needs to be told nothing, the judgement is one about its ends. -/
theorem Watched.meets (h : Watched ok V I p s Q) (hV : ∀ s, V s) (hs : I s) :
    Meets ok p s (fun a s' => I s' ∧ Q a s') I := by
  induction p generalizing s with
  | ret a => exact ⟨hs, h⟩
  | step f k ih =>
    intro fate hfate
    have hstep := h (hV s) fate hfate
    cases ho : outcome f s fate with
    | inl r =>
      simp only [ho] at hstep
      exact ih s r.2 hstep.2 hstep.1
    | inr s' =>
      simp only [ho] at hstep
      exact hstep

theorem Watched.stays (h : Watched ok V I p s Q) (hV : ∀ s, V s) (hs : I s) :
    Stays ok I p s := (h.meets hV hs).imp (fun _ _ h => h.1) fun _ h => h

theorem run_nil (p : Proc σ α) (s : σ) : ∃ a s', p.run s [] = .back a s' := by
  induction p generalizing s with
  | ret a => exact ⟨a, s, rfl⟩
  | step f k ih =>
    have hdraw : draw (f s).2 [] = (.done, []) := by
      cases (f s).2 <;> rfl
    simp only [Proc.run, hdraw, outcome]
    rcases f s with ⟨s', _ | commit⟩
    · exact ih s true s'
    · exact ih s true (commit s')

end Proc

end Sandstore.Lib
