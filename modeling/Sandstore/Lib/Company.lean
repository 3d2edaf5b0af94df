import Sandstore.Lib.Exec
import Sandstore.Lib.Proc

/-!
# Programs in company

One process, one lock, two threads. The first runs critical sections, one after the other, each
holding the lock from its first step to its last. The second is a background job that takes the
lock twice and works without it in between: it chooses a label under the lock, turns the label into
a program and runs it without the lock, and publishes the label under the lock again. So between
any two atomic steps of a critical section the job may take one of its own, and the other way
round. A crash ends both.

The rule for it is rely and guarantee. `Guarded R I G p s` says that the rest of a program, with
the other thread moving by `R` between its steps, keeps `I` and moves by `G`. `Sound` collects what
has to be shown of the sections and of the job apart, each against the other's relation, for `I` to hold
in every state of every run.
-/

namespace Sandstore.Lib

open Proc

variable {σ α κ ι : Type}

/-! ## A program under interference -/

/-- The rest of a program from `s`: whatever `R` has done in the meantime, each step keeps `I` and is
a move of `G`, and a death leaves a state that meets `D`. -/
def Guarded (ok : Fate → Prop) (R : σ → σ → Prop) (I : σ → Prop) (G : σ → σ → Prop) (D : σ → Prop) :
    Proc σ α → σ → (α → σ → Prop) → Prop
  | .ret a, s, Q => ∀ s', R s s' → I s' → Q a s'
  | .step f k, s, Q => ∀ s', R s s' → I s' → ∀ fate, (fate = .done ∨ ok fate) →
      match outcome f s' fate with
      | .inl (s'', b) => I s'' ∧ G s' s'' ∧ Guarded ok R I G D (k s' b) s'' Q
      | .inr s'' => D s''

section Guarded

variable {ok : Fate → Prop} {R G : σ → σ → Prop} {I D : σ → Prop} {s : σ} {β : Type}

variable {Q : α → σ → Prop} {p : Proc σ α}

theorem Guarded.rely (htrans : ∀ a b c, R a b → R b c → R a c)
    (h : Guarded ok R I G D p s Q) {s' : σ} (hs : R s s') : Guarded ok R I G D p s' Q := by
  cases p with
  | ret a => exact fun s'' hs'' => h s'' (htrans s s' s'' hs hs'')
  | step f k => exact fun s'' hs'' => h s'' (htrans s s' s'' hs hs'')

theorem guarded_pure {a : α} (h : ∀ s', R s s' → I s' → Q a s') : Guarded ok R I G D (pure a) s Q := h

theorem Guarded.imp {Q' : α → σ → Prop} (h : Guarded ok R I G D p s Q)
    (hQ : ∀ a s', I s' → Q a s' → Q' a s') : Guarded ok R I G D p s Q' := by
  induction p generalizing s with
  | ret a => exact fun s' hs hI => hQ a s' hI (h s' hs hI)
  | step f k ih =>
    intro s' hs hI fate hfate
    have hstep := h s' hs hI fate hfate
    cases ho : outcome f s' fate with
    | inl r =>
      simp only [ho] at hstep
      exact ⟨hstep.1, hstep.2.1, ih s' r.2 hstep.2.2⟩
    | inr s'' =>
      simp only [ho] at hstep
      exact hstep

theorem guarded_bind {g : α → Proc σ β} {Q : β → σ → Prop} (hrefl : ∀ s, R s s)
    (h : Guarded ok R I G D p s fun a s' => Guarded ok R I G D (g a) s' Q) : Guarded ok R I G D (p >>= g) s Q := by
  induction p generalizing s with
  | ret a =>
    -- the interference before the end of the first part is interference with the second
    have hg : ∀ s', R s s' → I s' → Guarded ok R I G D (g a) s' Q := h
    show Guarded ok R I G D (g a) s Q
    cases hp : g a with
    | ret b =>
      intro s' hs hI
      have := hg s' hs hI
      rw [hp] at this
      exact this s' (hrefl s') hI
    | step f k =>
      intro s' hs hI
      have := hg s' hs hI
      rw [hp] at this
      exact this s' (hrefl s') hI
  | step f k ih =>
    intro s' hs hI fate hfate
    have hstep := h s' hs hI fate hfate
    cases ho : outcome f s' fate with
    | inl r =>
      simp only [ho] at hstep
      exact ⟨hstep.1, hstep.2.1, ih s' r.2 hstep.2.2⟩
    | inr s'' =>
      simp only [ho] at hstep
      exact hstep

theorem guarded_ite {c : Prop} [Decidable c] {q : Proc σ α}
    (hp : c → Guarded ok R I G D p s Q) (hq : ¬ c → Guarded ok R I G D q s Q) :
    Guarded ok R I G D (if c then p else q) s Q := by
  by_cases hc : c
  · rw [if_pos hc]
    exact hp hc
  · rw [if_neg hc]
    exact hq hc

/-- An update that keeps the invariant and is a move of the guarantee, from wherever interference
has led. -/
theorem guarded_update {f : σ → σ} {Q : Unit → σ → Prop}
    (h : ∀ s', R s s' → I s' → I (f s') ∧ G s' (f s') ∧ ∀ s'', R (f s') s'' → I s'' → Q () s'') :
    Guarded ok R I G D (update f) s Q := by
  intro s' hs hI fate _
  exact h s' hs hI

theorem guarded_read_bind {g : σ → Proc σ β} {Q : β → σ → Prop} (hrefl : ∀ s, R s s)
    (htrans : ∀ a b c, R a b → R b c → R a c) (hG : ∀ s, G s s)
    (h : ∀ s', R s s' → I s' → Guarded ok R I G D (g s') s' Q) : Guarded ok R I G D (read >>= g) s Q := by
  apply guarded_bind hrefl
  intro s' hs hI fate _
  exact ⟨hI, hG s', fun s'' hs'' _ => (h s' hs hI).rely htrans hs''⟩

theorem guarded_seq {g : α → Proc σ β} {Q' : β → σ → Prop} (hrefl : ∀ s, R s s) (hp : Guarded ok R I G D p s Q)
    (hg : ∀ a s', Q a s' → Guarded ok R I G D (g a) s' Q') : Guarded ok R I G D (p >>= g) s Q' :=
  guarded_bind hrefl (hp.imp fun a s' _ h => hg a s' h)

end Guarded

/-! ## Facts that last -/

/-- A fact that neither the other thread nor a step of `N` disturbs. -/
structure Lasts (R N : σ → σ → Prop) (P : σ → Prop) : Prop where
  rely : ∀ a b, P a → R a b → P b
  same : ∀ a b, P a → N a b → P b

section Lasts

variable {R G N : σ → σ → Prop} {I D P : σ → Prop} {s : σ}

theorem lasts_true : Lasts R N fun _ => True := ⟨fun _ _ h _ => h, fun _ _ h _ => h⟩

theorem Lasts.pure {ok : Fate → Prop} (hP : Lasts R N P) (hs : P s) (a : α) :
    Guarded ok R I G D (pure a) s fun _ s' => P s' := guarded_pure fun s' hs' _ => hP.rely s s' hs hs'

variable (hP : Lasts R N P) (hN : ∀ s s', I s → N s s' → I s' ∧ G s s') (hs : P s)

include hP hN hs

theorem Lasts.step {f : σ → σ × Option (σ → σ)} {k : σ → Bool → α} {t : σ → σ}
    (hf : ∀ s, outcome f s .done = .inl (t s, true)) (ht : ∀ s, N s (t s)) :
    Guarded (fun _ => False) R I G D (.step f fun s b => .ret (k s b)) s fun _ s' => P s' := by
  intro s' hs' hI fate hfate
  cases hfate.resolve_right id
  rw [hf]
  obtain ⟨hI', hG⟩ := hN s' _ hI (ht s')
  exact ⟨hI', hG, fun s'' hs'' _ => hP.rely _ s'' (hP.same s' _ (hP.rely s s' hs hs') (ht s')) hs''⟩

theorem Lasts.update {f : σ → σ} (hf : ∀ s, N s (f s)) :
    Guarded (fun _ => False) R I G D (update f) s fun _ s' => P s' := hP.step hN hs (fun _ => rfl) hf

theorem Lasts.write {f : σ → σ} (hf : ∀ s, N s (f s)) :
    Guarded (fun _ => False) R I G D (write f) s fun _ s' => P s' := hP.step hN hs (fun _ => rfl) hf

end Lasts

/-! ## The two threads -/

/-- Critical sections and a background job over one state. `apart` marks the sections that are run by
the job's own thread, and so never while it is at work. -/
structure Company (σ α κ ι : Type) where
  sections : ι → Proc σ α
  apart : ι → Bool
  choose : σ → Option κ
  launch : κ → σ → Option (Proc σ Bool)
  publish : κ → σ → σ
  restart : σ → Option σ

/-- How far the job has come. -/
inductive Stage (σ κ : Type) where
  | idle
  | chosen (k : κ)
  | working (k : κ) (rest : Proc σ Bool)
  | closing (k : κ)

/-- The state, what is left of the section that holds the lock, and the job. -/
structure Threads (σ α κ : Type) where
  state : σ
  holder : Option (Proc σ α) := none
  stage : Stage σ κ := .idle

/-- One move of one thread, or a crash. -/
inductive Move (ι : Type) where
  | enter (i : ι)
  | advance (fate : Fate)
  | choose
  | launch
  | work (fate : Fate)
  | publish
  | crash

namespace Company

variable (C : Company σ α κ ι)

/-- The process after a restart over what was left. -/
def reopen (s : σ) : Option (Threads σ α κ) := (C.restart s).map fun s' => { state := s' }

def step (t : Threads σ α κ) : Move ι → Option (Threads σ α κ)
  | .enter i =>
    match t.holder, t.stage with
    | none, .idle => some { t with holder := some (C.sections i) }
    | none, _ => if C.apart i then none else some { t with holder := some (C.sections i) }
    | some _, _ => none
  | .advance fate =>
    match t.holder with
    | none => none
    | some (.ret _) => some { t with holder := none }
    | some (.step f k) =>
      match outcome f t.state fate with
      | .inl r => some { t with state := r.1, holder := some (k t.state r.2) }
      | .inr s => C.reopen s
  | .choose =>
    match t.holder, t.stage, C.choose t.state with
    | none, .idle, some k => some { t with stage := .chosen k }
    | _, _, _ => none
  | .launch =>
    match t.stage with
    | .chosen k =>
      match C.launch k t.state with
      | some p => some { t with stage := .working k p }
      | none => some { t with stage := .idle }
    | _ => none
  | .work fate =>
    match t.stage with
    | .working k (.ret true) => some { t with stage := .closing k }
    | .working _ (.ret false) => some { t with stage := .idle }
    | .working k (.step f g) =>
      match outcome f t.state fate with
      | .inl r => some { t with state := r.1, stage := .working k (g t.state r.2) }
      | .inr s => C.reopen s
    | _ => none
  | .publish =>
    match t.holder, t.stage with
    | none, .closing k => some { t with state := C.publish k t.state, stage := .idle }
    | _, _ => none
  | .crash => C.reopen t.state

end Company

/-- What has to be shown of each thread for `I` to hold throughout, in the runs whose moves are
allowed. `R` is what the job may do while a section runs, and `G` what a section may do while the
job runs; `J k` is what the job may rely on about its label. -/
structure Sound (C : Company σ α κ ι) (ok : Fate → Prop) (I : σ → Prop) (R G : σ → σ → Prop)
    (J : κ → σ → Prop) (D : σ → Prop) (allow : Threads σ α κ → Move ι → Prop) : Prop where
  relyRefl : ∀ s, R s s
  relyTrans : ∀ a b c, R a b → R b c → R a c
  moveRefl : ∀ s, G s s
  moveTrans : ∀ a b c, G a b → G b c → G a c
  fate : ∀ t f, allow t (.advance f) ∨ allow t (.work f) → f = .done ∨ ok f
  enter : ∀ t i, allow t (.enter i) → I t.state →
    Guarded ok R I G D (C.sections i) t.state fun _ _ => True
  choose : ∀ s k, I s → C.choose s = some k → J k s
  label : ∀ k s s', I s → I s' → J k s → R s s' ∨ G s s' → J k s'
  launch : ∀ t k p, allow t .launch → t.stage = .chosen k → I t.state → J k t.state →
    C.launch k t.state = some p →
    Guarded ok G I R D p t.state fun _ _ => True
  publish : ∀ k s, I s → J k s → I (C.publish k s)
  crash : ∀ t, allow t .crash → I t.state → D t.state
  restart : ∀ s s', D s → C.restart s = some s' → I s'

end Sandstore.Lib
