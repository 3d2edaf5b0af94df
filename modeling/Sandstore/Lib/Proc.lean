import Mathlib.Logic.Basic

/-!
# Programs with durable writes

A program computes over a state of type `σ` that holds both what it remembers and what it has put
on disk. It is a sequence of atomic steps, and a step may end in one durable write, which may
succeed, fail or be the last thing the program does. The outcome is not chosen by the program: it
is a `Fate` handed in from outside, so one run is one list of fates and "for every run" is a
quantifier over lists.

A program is a tree of steps, not a function, because the same text is run in two ways. `run` runs
it to its end with nobody else moving. `outcome` is one step of it, for a system in which another
thread moves between two steps.

An error is a value the program goes on with; death is not. `Ran.died` keeps the state at the
moment of death, and a client of this module reads the durable part of it and nothing else.

`Meets` is the specification judgement, defined by recursion over the tree: from this state, under
every admissible fate, the program comes back with a result that meets `Q` or dies in a state that
meets `D`. `meets_bind` composes it along the program text, and `Meets.back` and `Meets.died` read
it off a run. `Within` is its special case for relations between the state before and the state
after, which compose by themselves, and `Stays` the one for an invariant.
-/

namespace Sandstore.Lib

/-- What becomes of one durable write: it succeeds, it returns an error with the old or with the
new contents on disk, or the process dies in it with the old or with the new contents on disk. -/
inductive Fate where
  | done
  | failedOld
  | failedNew
  | diedOld
  | diedNew
  deriving DecidableEq, Repr

/-- The write does not come back with an error. -/
def Fate.fine (f : Fate) : Prop := f ≠ .failedOld ∧ f ≠ .failedNew

/-- A program: a result, or an atomic step and what follows it. At `s` the step leaves `(f s).1`,
then makes the write `(f s).2` if there is one, and goes on with `k s true`, or with `k s false`
where the write returned an error. -/
inductive Proc (σ α : Type) where
  | ret (a : α)
  | step (f : σ → σ × Option (σ → σ)) (k : σ → Bool → Proc σ α)

/-- How a run ended: control came back with a value, or the process died. -/
inductive Ran (σ α : Type) where
  | back (a : α) (s : σ)
  | died (s : σ)

namespace Proc

variable {σ α β : Type}

/-- Sequencing: what follows the first program's result is grafted onto its ends. -/
def andThen (p : Proc σ α) (g : α → Proc σ β) : Proc σ β :=
  match p with
  | .ret a => g a
  | .step f k => .step f fun s b => (k s b).andThen g

instance : Monad (Proc σ) where
  pure := .ret
  bind := andThen

/-- Read the state. -/
def read : Proc σ σ := .step (fun s => (s, none)) fun s _ => .ret s

/-- Change the state without a write. -/
def update (f : σ → σ) : Proc σ Unit := .step (fun s => (f s, none)) fun _ _ => .ret ()

/-- Make one durable write, and answer whether it returned without an error. -/
def write (commit : σ → σ) : Proc σ Bool := .step (fun s => (s, some commit)) fun _ b => .ret b

/-! ## Running a program -/

/-- One step of a program that was about to take the step `f`: the state it leaves and whether its
write, if any, returned without an error (`Sum.inl`), or the state it died in (`Sum.inr`). -/
def outcome (f : σ → σ × Option (σ → σ)) (s : σ) (fate : Fate) : Sum (σ × Bool) σ :=
  match f s with
  | (s', none) => .inl (s', true)
  | (s', some commit) =>
    match fate with
    | .done => .inl (commit s', true)
    | .failedOld => .inl (s', false)
    | .failedNew => .inl (commit s', false)
    | .diedOld => .inr s'
    | .diedNew => .inr (commit s')

/-- The fate of a step's write, and those left for the writes after it. A step without a write takes
none, and where the list has run out writes succeed. -/
def draw (w : Option (σ → σ)) (fs : List Fate) : Fate × List Fate :=
  match w, fs with
  | some _, f :: fs => (f, fs)
  | some _, [] => (.done, [])
  | none, fs => (.done, fs)

/-- Run a program with nobody else moving. -/
def run : Proc σ α → σ → List Fate → Ran σ α
  | .ret a, s, _ => .back a s
  | .step f k, s, fs =>
    match outcome f s (draw (f s).2 fs).1 with
    | .inl r => (k s r.2).run r.1 (draw (f s).2 fs).2
    | .inr s' => .died s'

/-! ## The specification judgement -/

/-- From `s`, under every admissible fate, the program comes back with a result and a state that
meet `Q`, or dies in a state that meets `D`. A write that succeeds is always admissible. -/
def Meets (ok : Fate → Prop) : Proc σ α → σ → (α → σ → Prop) → (σ → Prop) → Prop
  | .ret a, s, Q, _ => Q a s
  | .step f k, s, Q, D =>
    ∀ fate, (fate = .done ∨ ok fate) →
      match outcome f s fate with
      | .inl (s', b) => Meets ok (k s b) s' Q D
      | .inr s' => D s'

variable {ok : Fate → Prop} {s : σ} {D : σ → Prop}

variable {Q : α → σ → Prop}

theorem meets_pure {a : α} (h : Q a s) : Meets ok (pure a) s Q D := h

variable {p : Proc σ α}

/-- Sequencing: the rest of the program is met from wherever the first part came back. -/
theorem meets_bind {g : α → Proc σ β} {Q : β → σ → Prop}
    (h : Meets ok p s (fun a s' => Meets ok (g a) s' Q D) D) : Meets ok (p >>= g) s Q D := by
  induction p generalizing s with
  | ret a => exact h
  | step f k ih =>
    intro fate hfate
    have hstep := h fate hfate
    cases ho : outcome f s fate with
    | inl r =>
      simp only [ho] at hstep
      exact ih s r.2 hstep
    | inr s' =>
      simp only [ho] at hstep
      exact hstep

theorem meets_read {Q : σ → σ → Prop} (h : Q s s) : Meets ok read s Q D := fun _ _ => h

theorem meets_update {f : σ → σ} {Q : Unit → σ → Prop} (h : Q () (f s)) : Meets ok (update f) s Q D := fun _ _ => h

theorem meets_read_bind {g : σ → Proc σ β} {Q : β → σ → Prop} (h : Meets ok (g s) s Q D) :
    Meets ok (read >>= g) s Q D := meets_bind (meets_read h)

theorem meets_update_bind {f : σ → σ} {g : Unit → Proc σ β} {Q : β → σ → Prop}
    (h : Meets ok (g ()) (f s) Q D) : Meets ok (update f >>= g) s Q D := meets_bind (meets_update h)

variable {s' : σ}

theorem meets_quiet {f : σ → σ × Option (σ → σ)} {k : σ → Bool → Proc σ α}
    (hf : f s = (s', none)) (h : Meets ok (k s true) s' Q D) : Meets ok (.step f k) s Q D := by
  intro fate _
  simp only [outcome, hf]
  exact h

theorem meets_commit {f : σ → σ × Option (σ → σ)} {k : σ → Bool → Proc σ α} {commit : σ → σ}
    (hf : f s = (s', some commit)) (hdone : Meets ok (k s true) (commit s') Q D)
    (hfailedOld : ok .failedOld → Meets ok (k s false) s' Q D)
    (hfailedNew : ok .failedNew → Meets ok (k s false) (commit s') Q D) (hdiedOld : ok .diedOld → D s')
    (hdiedNew : ok .diedNew → D (commit s')) : Meets ok (.step f k) s Q D := by
  intro fate hfate
  simp only [outcome, hf]
  rcases hfate with rfl | hok
  · exact hdone
  · cases fate with
    | done => exact hdone
    | failedOld => exact hfailedOld hok
    | failedNew => exact hfailedNew hok
    | diedOld => exact hdiedOld hok
    | diedNew => exact hdiedNew hok

theorem meets_write {commit : σ → σ} {Q : Bool → σ → Prop} (hdone : Q true (commit s))
    (hfailedOld : ok .failedOld → Q false s) (hfailedNew : ok .failedNew → Q false (commit s))
    (hdiedOld : ok .diedOld → D s) (hdiedNew : ok .diedNew → D (commit s)) : Meets ok (write commit) s Q D :=
  meets_commit rfl hdone hfailedOld hfailedNew hdiedOld hdiedNew

theorem Meets.imp {Q' : α → σ → Prop} {D' : σ → Prop}
    (h : Meets ok p s Q D) (hQ : ∀ a s', Q a s' → Q' a s') (hD : ∀ s', D s' → D' s') : Meets ok p s Q' D' := by
  induction p generalizing s with
  | ret a => exact hQ a s h
  | step f k ih =>
    intro fate hfate
    have hstep := h fate hfate
    cases ho : outcome f s fate with
    | inl r =>
      simp only [ho] at hstep
      exact ih s r.2 hstep
    | inr s' =>
      simp only [ho] at hstep
      exact hD s' hstep

theorem Meets.weaken {Q' : α → σ → Prop} (h : Meets ok p s Q D) (hQ : ∀ a s', Q a s' → Q' a s') : Meets ok p s Q' D :=
  h.imp hQ fun _ hs => hs

theorem Meets.bind {g : α → Proc σ β} {Q' : β → σ → Prop} (h : Meets ok p s Q D)
    (hg : ∀ a s', Q a s' → Meets ok (g a) s' Q' D) : Meets ok (p >>= g) s Q' D := meets_bind (h.weaken hg)

theorem Meets.and {Q' : α → σ → Prop} {D' : σ → Prop} (h : Meets ok p s Q D) (h' : Meets ok p s Q' D') :
    Meets ok p s (fun a s' => Q a s' ∧ Q' a s') fun s' => D s' ∧ D' s' := by
  induction p generalizing s with
  | ret a => exact ⟨h, h'⟩
  | step f k ih =>
    intro fate hfate
    have hstep := h fate hfate
    have hstep' := h' fate hfate
    cases ho : outcome f s fate with
    | inl r =>
      simp only [ho] at hstep hstep'
      exact ih s r.2 hstep hstep'
    | inr s' =>
      simp only [ho] at hstep hstep'
      exact ⟨hstep, hstep'⟩

theorem meets_trivial (p : Proc σ α) : Meets ok p s (fun _ _ => True) fun _ => True := by
  induction p generalizing s with
  | ret a => trivial
  | step f k ih =>
    intro fate _
    cases outcome f s fate with
    | inl r => exact ih s r.2
    | inr s' => trivial

theorem meets_bind_pure {f : α → β} {I : σ → Prop} (h : Meets ok p s (fun _ => I) D) :
    Meets ok (p >>= fun a => pure (f a)) s (fun _ => I) D := h.bind fun _ _ hs => meets_pure hs

theorem meets_ite {c : Prop} [Decidable c] {q : Proc σ α} (hp : c → Meets ok p s Q D) (hq : ¬ c → Meets ok q s Q D) :
    Meets ok (if c then p else q) s Q D := by
  by_cases hc : c
  · rw [if_pos hc]
    exact hp hc
  · rw [if_neg hc]
    exact hq hc

/-! ## Staying within a relation -/

/-- Wherever the program ends from `s`, alive or dead, it ends in a state `R` relates `s` to. -/
def Within (ok : Fate → Prop) (R : σ → σ → Prop) (p : Proc σ α) (s : σ) : Prop :=
  Meets ok p s (fun _ s' => R s s') (R s)

section Within

variable {R : σ → σ → Prop}

/-- A relation that composes is kept by a sequence whose parts keep it. -/
theorem within_bind {p : Proc σ α} {g : α → Proc σ β} (htrans : ∀ a b c, R a b → R b c → R a c)
    (hp : Within ok R p s) (hg : ∀ a s', R s s' → Within ok R (g a) s') : Within ok R (p >>= g) s := by
  apply hp.bind
  intro a s' hs'
  exact (hg a s' hs').imp (fun _ s'' h => htrans s s' s'' hs' h) fun s'' h => htrans s s' s'' hs' h

theorem within_step {f : σ → σ × Option (σ → σ)} {k : σ → Bool → Proc σ α}
    (htrans : ∀ a b c, R a b → R b c → R a c) (hquiet : R s (f s).1)
    (hcommit : ∀ commit, (f s).2 = some commit → R s (commit (f s).1))
    (hk : ∀ b s', R s s' → Within ok R (k s b) s') : Within ok R (.step f k) s := by
  have hgo : ∀ b s', R s s' → Meets ok (k s b) s' (fun _ s'' => R s s'') (R s) := by
    intro b s' hs'
    exact (hk b s' hs').imp (fun _ s'' h => htrans s s' s'' hs' h)
      fun s'' h => htrans s s' s'' hs' h
  obtain ⟨s', w, hf⟩ : ∃ s' w, f s = (s', w) := ⟨_, _, rfl⟩
  rw [hf] at hquiet hcommit
  cases w with
  | none => exact meets_quiet hf (hgo true s' hquiet)
  | some commit =>
    have hnew := hcommit commit rfl
    exact meets_commit hf (hgo true _ hnew) (fun _ => hgo false s' hquiet)
      (fun _ => hgo false _ hnew) (fun _ => hquiet) (fun _ => hnew)

theorem Within.mono {p : Proc σ α} {R' : σ → σ → Prop} (h : Within ok R p s)
    (hR : ∀ s', R s s' → R' s s') : Within ok R' p s := Meets.imp h (fun _ s' => hR s') fun s' => hR s'

end Within

/-! ## Keeping an invariant -/

/-- Wherever the program ends from `s`, alive or dead, the invariant holds. -/
def Stays (ok : Fate → Prop) (I : σ → Prop) (p : Proc σ α) (s : σ) : Prop :=
  Meets ok p s (fun _ s' => I s') I

section Stays

variable {I : σ → Prop}

theorem stays_pure {a : α} (h : I s) : Stays ok I (pure a) s := h

theorem stays_update {f : σ → σ} (h : I (f s)) : Stays ok I (update f) s := meets_update h

theorem stays_bind {p : Proc σ α} {g : α → Proc σ β} (hp : Stays ok I p s)
    (hg : ∀ a s', I s' → Stays ok I (g a) s') : Stays ok I (p >>= g) s := Meets.bind hp hg

theorem stays_step {f : σ → σ × Option (σ → σ)} {k : σ → Bool → Proc σ α} (hquiet : I (f s).1)
    (hcommit : ∀ commit, (f s).2 = some commit → I (commit (f s).1))
    (hk : ∀ b s', I s' → Stays ok I (k s b) s') : Stays ok I (.step f k) s :=
  within_step (R := fun _ => I) (fun _ _ _ _ h => h) hquiet hcommit hk

theorem stays_write {commit : σ → σ} (h : I s) (hcommit : I (commit s)) : Stays ok I (write commit) s :=
  meets_write hcommit (fun _ => h) (fun _ => hcommit) (fun _ => h) fun _ => hcommit

end Stays

/-! ## Reading a run off the judgement -/

variable {fs : List Fate}

theorem draw_ok (w : Option (σ → σ)) (hfs : ∀ f ∈ fs, ok f) :
    ((draw w fs).1 = .done ∨ ok (draw w fs).1) ∧ ∀ f ∈ (draw w fs).2, ok f := by
  cases w with
  | none => exact ⟨.inl rfl, hfs⟩
  | some commit =>
    cases fs with
    | nil => exact ⟨.inl rfl, hfs⟩
    | cons f fs =>
      exact ⟨.inr (hfs f List.mem_cons_self), fun g hg => hfs g (List.mem_cons_of_mem _ hg)⟩

theorem Meets.run (h : Meets ok p s Q D) (hfs : ∀ f ∈ fs, ok f) : match p.run s fs with
    | .back a s' => Q a s'
    | .died s' => D s' := by
  induction p generalizing s fs with
  | ret a => exact h
  | step f k ih =>
    obtain ⟨hfate, hrest⟩ := draw_ok (f s).2 hfs
    have hstep := h _ hfate
    simp only [Proc.run]
    cases ho : outcome f s (draw (f s).2 fs).1 with
    | inl r =>
      simp only [ho] at hstep
      exact ih s r.2 hstep hrest
    | inr s' =>
      simp only [ho] at hstep
      exact hstep

theorem Meets.back (h : Meets ok p s Q D) {a : α} (hfs : ∀ f ∈ fs, ok f) (hr : p.run s fs = .back a s') : Q a s' := by
  have hrun := h.run hfs
  rw [hr] at hrun
  exact hrun

/-- A program that can end in one way only. -/
theorem Meets.run_eq {b : α} {t : σ} (h : Meets ok p s (fun a s' => a = b ∧ s' = t) fun _ => False)
    (hfs : ∀ f ∈ fs, ok f) : p.run s fs = .back b t := by
  have hrun := h.run hfs
  cases hr : p.run s fs with
  | back a s' =>
    rw [hr] at hrun
    rw [hrun.1, hrun.2]
  | died s' =>
    rw [hr] at hrun
    exact hrun.elim

theorem Meets.died (h : Meets ok p s Q D) (hfs : ∀ f ∈ fs, ok f) (hr : p.run s fs = .died s') : D s' := by
  have hrun := h.run hfs
  rw [hr] at hrun
  exact hrun

/-! ## Running in parts -/

/-- The fate of the next write, and those after it. -/
def next : List Fate → Fate × List Fate
  | [] => (.done, [])
  | f :: fs => (f, fs)

/-- Run a program and keep the fates it has not used. -/
def runLeft : Proc σ α → σ → List Fate → Ran σ (α × List Fate)
  | .ret a, s, fs => .back (a, fs) s
  | .step f k, s, fs =>
    match outcome f s (draw (f s).2 fs).1 with
    | .inl r => (k s r.2).runLeft r.1 (draw (f s).2 fs).2
    | .inr s' => .died s'

theorem run_eq_runLeft (p : Proc σ α) (s : σ) (fs : List Fate) : p.run s fs = match p.runLeft s fs with
      | .back (a, _) s' => .back a s'
      | .died s' => .died s' := by
  induction p generalizing s fs with
  | ret a => rfl
  | step f k ih =>
    simp only [Proc.run, runLeft]
    cases outcome f s (draw (f s).2 fs).1 with
    | inl r => exact ih s r.2 r.1 _
    | inr s' => rfl

theorem runLeft_of_run {a : α} (h : p.run s fs = .back a s') : ∃ fs', p.runLeft s fs = .back (a, fs') s' := by
  rw [run_eq_runLeft] at h
  cases hr : p.runLeft s fs with
  | back r t =>
    rw [hr] at h
    cases h
    exact ⟨r.2, rfl⟩
  | died t =>
    rw [hr] at h
    cases h

/-- The second part of a program runs where the first came back, on the fates it left. -/
theorem runLeft_bind (p : Proc σ α) (g : α → Proc σ β) (s : σ) (fs : List Fate) : (p >>= g).runLeft s fs =
      match p.runLeft s fs with
      | .back (a, fs') s' => (g a).runLeft s' fs'
      | .died s' => .died s' := by
  induction p generalizing s fs with
  | ret a => rfl
  | step f k ih =>
    show (Proc.step f fun s b => (k s b).andThen g).runLeft s fs = _
    simp only [runLeft]
    cases outcome f s (draw (f s).2 fs).1 with
    | inl r => exact ih s r.2 r.1 _
    | inr s' => rfl

theorem run_bind (p : Proc σ α) (g : α → Proc σ β) (s : σ) (fs : List Fate) : (p >>= g).run s fs =
      match p.runLeft s fs with
      | .back (a, fs') s' => (g a).run s' fs'
      | .died s' => .died s' := by
  rw [run_eq_runLeft, runLeft_bind]
  cases p.runLeft s fs with
  | back r s' => exact (run_eq_runLeft (g r.1) s' r.2).symm
  | died s' => rfl

theorem runLeft_read_bind (g : σ → Proc σ β) (s : σ) (fs : List Fate) :
    (read >>= g).runLeft s fs = (g s).runLeft s fs := rfl

theorem run_read_bind (g : σ → Proc σ β) (s : σ) (fs : List Fate) : (read >>= g).run s fs = (g s).run s fs := rfl

theorem run_update_bind (f : σ → σ) (g : Unit → Proc σ β) (s : σ) (fs : List Fate) :
    (update f >>= g).run s fs = (g ()).run (f s) fs := rfl

end Proc

end Sandstore.Lib
