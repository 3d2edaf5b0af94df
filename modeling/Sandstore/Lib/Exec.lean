import Mathlib.Logic.Basic

/-!
# Runs of a transition function

A system is a function `step` that answers, for a state and an action, the next state, or nothing
where the action is not enabled. A run is a list of actions, `exec` folds it, and a state is reached
when some run from the initial state ends there. The run itself is data: a witness is a list, and
the kernel can compute where it leads.

`exec_invariant` is the only induction over runs that a safety proof needs. `Along` carries a
condition on each step of one particular run, for the laws that hold of the runs that keep it.
-/

namespace Sandstore.Lib

variable {σ α : Type}

/-- The state a run ends in, or nothing where one of its actions was not enabled. -/
def exec (step : σ → α → Option σ) : σ → List α → Option σ
  | s, [] => some s
  | s, a :: as =>
    match step s a with
    | some s' => exec step s' as
    | none => none

/-- A state some run from `init` ends in. -/
def Reached (step : σ → α → Option σ) (init s : σ) : Prop := ∃ as, exec step init as = some s

/-- Every step the run takes from `s` meets `ok`. -/
def Along (step : σ → α → Option σ) (ok : σ → α → Prop) : σ → List α → Prop
  | _, [] => True
  | s, a :: as => ok s a ∧ ∀ s', step s a = some s' → Along step ok s' as

variable {step : σ → α → Option σ}

theorem exec_cons {s s'' : σ} {a : α} {as : List α} (h : exec step s (a :: as) = some s'') :
    ∃ s', step s a = some s' ∧ exec step s' as = some s'' := by
  unfold exec at h
  cases hs : step s a with
  | none => rw [hs] at h; cases h
  | some s' =>
    rw [hs] at h
    exact ⟨s', rfl, h⟩

variable {ok : σ → α → Prop}

theorem along_cons {s s' : σ} {a : α} {as : List α}
    (h : ok s a) (hs : step s a = some s') (hrest : Along step ok s' as) : Along step ok s (a :: as) := by
  refine ⟨h, fun s'' hs'' => ?_⟩
  cases hs.symm.trans hs''
  exact hrest

instance Along.decidable {step : σ → α → Option σ} {ok : σ → α → Prop} [∀ s a, Decidable (ok s a)] :
    ∀ (s : σ) (as : List α), Decidable (Along step ok s as)
  | _, [] => isTrue trivial
  | s, a :: as =>
    match hs : step s a with
    | none => decidable_of_iff (ok s a) ⟨fun h => ⟨h, fun _ hs' => nomatch hs.symm.trans hs'⟩, And.left⟩
    | some s' =>
      have : Decidable (Along step ok s' as) := Along.decidable s' as
      decidable_of_iff (ok s a ∧ Along step ok s' as)
        ⟨fun h => along_cons h.1 hs h.2, fun h => ⟨h.1, h.2 s' hs⟩⟩

theorem along_of_mem : ∀ (as : List α) (s : σ), (∀ a ∈ as, ∀ s, ok s a) → Along step ok s as := by
  intro as
  induction as with
  | nil => exact fun _ _ => trivial
  | cons a as ih =>
    intro s h
    exact ⟨h a List.mem_cons_self s, fun s' _ => ih s' fun b hb => h b (List.mem_cons_of_mem _ hb)⟩

/-- What every step that meets the condition preserves, every run whose steps meet it preserves. -/
theorem exec_along {I : σ → Prop} (hstep : ∀ s a s', I s → ok s a → step s a = some s' → I s') :
    ∀ (as : List α) {s s' : σ}, I s → Along step ok s as → exec step s as = some s' → I s' := by
  intro as
  induction as with
  | nil =>
    intro s s' hI _ h
    cases h
    exact hI
  | cons a as ih =>
    intro s s'' hI hok h
    obtain ⟨s', hs, hrest⟩ := exec_cons h
    exact ih (hstep s a s' hI hok.1 hs) (hok.2 s' hs) hrest

/-- What each step keeps or ends holds to the end of a run, or up to a step that ends it. -/
theorem exec_until {P : σ → Prop} {R : σ → α → σ → Prop}
    (hstep : ∀ s a s', P s → ok s a → step s a = some s' → P s' ∨ R s a s') (as : List α) {s s' : σ} (hP : P s)
    (hok : Along step ok s as) (h : exec step s as = some s') :
    P s' ∨ ∃ before a after m m', as = before ++ a :: after ∧ exec step s before = some m ∧
      step m a = some m' ∧ R m a m' ∧ Along step ok m' after ∧ exec step m' after = some s' := by
  induction as generalizing s with
  | nil => exact .inl (Option.some.inj h ▸ hP)
  | cons a as ih =>
    obtain ⟨t, hs, hrest⟩ := exec_cons h
    rcases hstep s a t hP hok.1 hs with hP | hR
    · refine (ih hP (hok.2 t hs) hrest).imp id fun ⟨before, b, after, m, m', heq, hm, h⟩ => ?_
      exact ⟨a :: before, b, after, m, m', by rw [heq]; rfl, by simp [exec, hs, hm], h⟩
    · exact .inr ⟨[], a, as, s, t, rfl, rfl, hs, hR, hok.2 t hs, hrest⟩

theorem exec_invariant {I : σ → Prop} (hstep : ∀ s a s', I s → step s a = some s' → I s') (as : List α) {s s' : σ}
    (hI : I s) (h : exec step s as = some s') : I s' := by
  have htriv : Along step (fun _ _ => True) s as := along_of_mem as s fun _ _ _ => trivial
  exact exec_along (fun s a s' hI _ hs => hstep s a s' hI hs) as hI htriv h

theorem Reached.invariant {init s : σ} {I : σ → Prop} (hr : Reached step init s) (hinit : I init)
    (hstep : ∀ s a s', I s → step s a = some s' → I s') : I s := by
  obtain ⟨as, h⟩ := hr
  exact exec_invariant hstep as hinit h

/-! ## A run and its past -/

theorem exec_append {s s'' : σ} (as bs : List α) :
    exec step s (as ++ bs) = some s'' ↔ ∃ s', exec step s as = some s' ∧ exec step s' bs = some s'' := by
  induction as generalizing s with
  | nil => simp [exec]
  | cons a as ih =>
    cases hs : step s a with
    | none => simp [exec, hs]
    | some s' => simp [exec, hs, ih]

theorem Along.split {s s' : σ} {as bs : List α} (h : Along step ok s (as ++ bs)) (hs : exec step s as = some s') :
    Along step ok s as ∧ Along step ok s' bs := by
  induction as generalizing s with
  | nil =>
    cases hs
    exact ⟨trivial, h⟩
  | cons a as ih =>
    obtain ⟨m, hm, hrest⟩ := exec_cons hs
    obtain ⟨hfirst, hsecond⟩ := ih (h.2 m hm) hrest
    exact ⟨along_cons h.1 hm hfirst, hsecond⟩

theorem exec_history {init : σ} {J : List α → σ → Prop} (hinit : J [] init)
    (hstep : ∀ before s a s', exec step init before = some s → J before s → ok s a → step s a = some s' →
      J (before ++ [a]) s') (as : List α) {s' : σ} (hok : Along step ok init as)
    (h : exec step init as = some s') : J as s' := by
  have hgo : ∀ as before s, exec step init before = some s → J before s → Along step ok s as →
      ∀ s', exec step s as = some s' → J (before ++ as) s' := by
    intro as
    induction as with
    | nil =>
      intro before s _ hJ _ s' hs
      cases hs
      simpa using hJ
    | cons a as ih =>
      intro before s hbefore hJ hok s'' hs
      obtain ⟨s', hs', hrest⟩ := exec_cons hs
      have hnext : exec step init (before ++ [a]) = some s' :=
        (exec_append before [a]).mpr ⟨s, hbefore, by simp [exec, hs']⟩
      have hend := ih (before ++ [a]) s' hnext (hstep before s a s' hbefore hJ hok.1 hs') (hok.2 s' hs') s'' hrest
      simpa using hend
  exact hgo as [] init rfl hinit hok s' h

/-- **A property holds all along a run exactly if each step meets the condition**, where the condition is
what a step from a good state needs to lead to one. -/
theorem exec_along_iff {P : σ → Prop} {J : List α → σ → Prop}
    {init last : σ} (as : List α) (hinit : J [] init) (hJ : ∀ before s, J before s → P s)
    (hstep : ∀ before s a s', before ++ [a] <+: as → exec step init before = some s → J before s →
      step s a = some s' → (P s' ↔ ok s a) ∧ (P s' → J (before ++ [a]) s')) (hrun : exec step init as = some last) :
    (∀ front s, front <+: as → exec step init front = some s → P s) ↔ Along step ok init as := by
  -- `before` is what has been run, `rest` what is left of `as`
  have hgo : ∀ rest before s, before ++ rest = as → exec step init before = some s → J before s →
      ∀ last, exec step s rest = some last →
      ((∀ front s', front <+: rest → exec step s front = some s' → P s') ↔ Along step ok s rest) := by
    intro rest
    induction rest with
    | nil =>
      intro before s _ _ hs last _
      refine iff_of_true ?_ trivial
      intro front s' hfront hend
      cases List.prefix_nil.mp hfront
      cases hend
      exact hJ before s hs
    | cons a rest ih =>
      intro before s hsplit hbefore hs last hall
      obtain ⟨s', hnext, hlast⟩ := exec_cons hall
      have hsplit' : (before ++ [a]) ++ rest = as := by rw [← hsplit, List.append_assoc]; rfl
      have hbefore' : exec step init (before ++ [a]) = some s' :=
        (exec_append before [a]).mpr ⟨s, hbefore, by simp [exec, hnext]⟩
      obtain ⟨hiff, hkeeps⟩ := hstep before s a s' ⟨rest, hsplit'⟩ hbefore hs hnext
      constructor
      · intro h
        have hhere : P s' := h [a] s' (List.prefix_append [a] rest) (by simp [exec, hnext])
        refine along_cons (hiff.mp hhere) hnext ?_
        refine (ih (before ++ [a]) s' hsplit' hbefore' (hkeeps hhere) last hlast).mp ?_
        intro front s'' hfront hend
        refine h (a :: front) s'' (List.cons_prefix_cons.mpr ⟨rfl, hfront⟩) ?_
        rw [exec, hnext]
        exact hend
      · intro h front s'' hfront hend
        cases front with
        | nil =>
          cases hend
          exact hJ before s hs
        | cons first front =>
          obtain ⟨rfl, hbehind⟩ := List.cons_prefix_cons.mp hfront
          obtain ⟨t, ht, hend⟩ := exec_cons hend
          cases hnext.symm.trans ht
          exact (ih (before ++ [first]) s' hsplit' hbefore' (hkeeps (hiff.mpr h.1)) last hlast).mpr
            (h.2 s' hnext) front s'' hbehind hend
  exact hgo as [] init rfl rfl hinit last hrun

theorem Along.at {s s' : σ} {before as : List α} {a : α}
    (h : Along step ok s as) (hfront : before ++ [a] <+: as) (hs : exec step s before = some s') : ok s' a := by
  obtain ⟨rest, rfl⟩ := hfront
  rw [List.append_assoc] at h
  exact (h.split hs).2.1

theorem along_of_at {s last : σ} {as : List α} (hrun : exec step s as = some last)
    (h : ∀ before a m m', before ++ [a] <+: as → exec step s before = some m → step m a = some m' → ok m a) :
    Along step ok s as := by
  induction as generalizing s with
  | nil => trivial
  | cons a as ih =>
    obtain ⟨m, hm, hrest⟩ := exec_cons hrun
    refine along_cons (h [] a s m (List.prefix_append [a] as) rfl hm) hm (ih hrest ?_)
    intro before b m' m'' hfront hbefore hnext
    refine h (a :: before) b m' m'' (List.cons_prefix_cons.mpr ⟨rfl, hfront⟩) ?_ hnext
    rw [exec, hm]
    exact hbefore

/-! ## Two sequences in one -/

/-- The third list has the elements of the first two, each in its order. -/
inductive Interleaving : List α → List α → List α → Prop
  | nil : Interleaving [] [] []
  | left {a : α} {l r m : List α} : Interleaving l r m → Interleaving (a :: l) r (a :: m)
  | right {a : α} {l r m : List α} : Interleaving l r m → Interleaving l (a :: r) (a :: m)

theorem Interleaving.two {a b c d : α} {m : List α} (h : Interleaving [a, b] [c, d] m) :
    m = [a, b, c, d] ∨ m = [a, c, b, d] ∨ m = [a, c, d, b] ∨ m = [c, a, b, d] ∨ m = [c, a, d, b] ∨
      m = [c, d, a, b] := by
  have hone : ∀ {x y : α} {m : List α}, Interleaving [x] [y] m → m = [x, y] ∨ m = [y, x] := by
    intro x y m h
    rcases h with _ | h | h <;> rcases h with _ | h | h <;> cases h <;> simp
  rcases h with _ | h | h <;> rcases h with _ | h | h
  · rcases h with _ | h | h
    rcases h with _ | h | h
    cases h
    simp
  · rcases hone h with rfl | rfl <;> simp
  · rcases hone h with rfl | rfl <;> simp
  · rcases h with _ | h | h
    rcases h with _ | h | h
    cases h
    simp

end Sandstore.Lib
