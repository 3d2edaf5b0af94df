import Mathlib.Logic.Relation

/-!
# Trees of named edges

A hierarchy as a database keeps it: edges under keys, each key with the node it belongs to (`home`) and,
where the edge is there, the node it leads to (`target`); and the nodes there are. It is a tree when every
edge goes from a node to a node, no node is the target of two edges, the root is the target of none, and
the root reaches every node (`Rooted`). That no node is below itself is a consequence (`Rooted.acyclic`).

Three things are done to it. `Rooted.add` hangs a new node on it, and `Rooted.remove_iff` takes one away. A move takes an edge away and writes its
target over another key, and the node that was there before goes. **What is moved may not come to be
below itself, and what goes may have nothing below it**; where the hierarchy was a tree, these two are
all that it takes to stay one (`Rooted.move_iff`).
-/

namespace Sandstore.Lib

open Relation

variable {K V : Type}

/-- There is an edge from the one node to the other. -/
def Edge (home : K → V) (target : K → Option V) (p c : V) : Prop := ∃ k, home k = p ∧ target k = some c

/-- The second node is the first or below it. -/
abbrev Below (home : K → V) (target : K → Option V) : V → V → Prop := ReflTransGen (Edge home target)

/-- The node has no edges. -/
def Bare (home : K → V) (target : K → Option V) (v : V) : Prop := ∀ k x, target k = some x → home k ≠ v

/-- The root reaches every node, each in one way. -/
structure Rooted (home : K → V) (root : V) (nodes : V → Prop) (target : K → Option V) : Prop where
  top : nodes root
  leads : ∀ k c, target k = some c → nodes (home k) ∧ nodes c
  once : ∀ k k' c, target k = some c → target k' = some c → k = k'
  unnamed : ∀ k, target k ≠ some root
  reach : ∀ v, nodes v → Below home target root v

namespace Rooted

variable {home : K → V} {root : V} {nodes : V → Prop} {target : K → Option V}

theorem not_loop (h : Rooted home root nodes target) {v : V} (hv : Below home target root v) :
    ¬ TransGen (Edge home target) v v := by
  induction hv with
  | refl =>
    intro hloop
    obtain ⟨p, -, k, -, hk⟩ := TransGen.tail'_iff.mp hloop
    exact h.unnamed k hk
  | tail _ hedge ih =>
    intro hloop
    -- the loop comes back through the one edge to `v`, so there is one at its home already
    obtain ⟨k, rfl, hk⟩ := hedge
    obtain ⟨p, hback, k', rfl, hk'⟩ := TransGen.tail'_iff.mp hloop
    cases h.once k k' _ hk hk'
    exact ih (TransGen.head' ⟨k, rfl, hk⟩ hback)

/-- **No node is below what it leads to.** -/
theorem acyclic (h : Rooted home root nodes target) {k : K} {c : V} (hk : target k = some c) :
    ¬ Below home target c (home k) := by
  intro hbelow
  exact h.not_loop (h.reach _ (h.leads k c hk).1) (TransGen.head' ⟨k, rfl, hk⟩ hbelow)

theorem named_of_reach {v : V} (h : Below home target root v) : v = root ∨ ∃ k, target k = some v := by
  rcases ReflTransGen.cases_tail h with heq | ⟨p, -, k, -, hk⟩
  · exact .inl heq
  · exact .inr ⟨k, hk⟩

theorem eq_of_below {c v : V} (hbare : Bare home target c) (h : Below home target c v) : v = c := by
  rcases ReflTransGen.cases_head h with heq | ⟨x, ⟨k, hhome, hk⟩, -⟩
  · exact heq.symm
  · exact absurd hhome (hbare k x hk)

theorem add [DecidableEq K] (h : Rooted home root nodes target) {k : K} {c : V} (hfree : target k = none)
    (hhome : nodes (home k)) (hnew : ¬ nodes c) :
    Rooted home root (fun v => v = c ∨ nodes v) (fun j => if j = k then some c else target j) := by
  have hcases : ∀ {j v}, (if j = k then some c else target j) = some v →
      j = k ∧ v = c ∨ j ≠ k ∧ target j = some v := by
    intro j v hj
    split at hj
    · next heq => exact .inl ⟨heq, (Option.some_inj.mp hj).symm⟩
    · next hne => exact .inr ⟨hne, hj⟩
  have hways : ∀ {v}, Below home target root v → Below home (fun j => if j = k then some c else target j) root v := by
    intro v hv
    induction hv with
    | refl => exact .refl
    | tail _ hedge ih =>
      obtain ⟨j, rfl, hj⟩ := hedge
      refine ih.tail ⟨j, rfl, (if_neg ?_).trans hj⟩
      rintro rfl
      cases hfree.symm.trans hj
  refine ⟨.inr h.top, fun j v hj => ?_, fun j j' v hj hj' => ?_, fun j hj => ?_, fun v hv => ?_⟩
  · rcases hcases hj with ⟨rfl, rfl⟩ | ⟨-, hold⟩
    · exact ⟨.inr hhome, .inl rfl⟩
    · exact ⟨.inr (h.leads j v hold).1, .inr (h.leads j v hold).2⟩
  · rcases hcases hj with ⟨rfl, rfl⟩ | ⟨-, hold⟩
    · rcases hcases hj' with ⟨rfl, -⟩ | ⟨-, hold'⟩
      · rfl
      · exact absurd (h.leads j' v hold').2 hnew
    · rcases hcases hj' with ⟨rfl, rfl⟩ | ⟨-, hold'⟩
      · exact absurd (h.leads j v hold).2 hnew
      · exact h.once j j' v hold hold'
  · rcases hcases hj with ⟨-, rfl⟩ | ⟨-, hold⟩
    · exact hnew h.top
    · exact h.unnamed j hold
  · rcases hv with rfl | hv
    · exact (hways (h.reach _ hhome)).tail ⟨k, rfl, if_pos rfl⟩
    · exact hways (h.reach v hv)

/-- **A node may be taken away with the edge to it just if it has no edges itself.** -/
theorem remove_iff [DecidableEq K] (h : Rooted home root nodes target) {k : K} {c : V} (hk : target k = some c) :
    Rooted home root (fun v => nodes v ∧ v ≠ c) (fun j => if j = k then none else target j) ↔ Bare home target c := by
  have hleft : ∀ {j v}, target j = some v → v ≠ c → (if j = k then none else target j) = some v := by
    intro j v hj hne
    rw [if_neg, hj]
    rintro rfl
    cases hk.symm.trans hj
    exact hne rfl
  constructor
  · rintro h' j v hj rfl
    have hjk : j ≠ k := by
      rintro rfl
      cases hk.symm.trans hj
      exact h.acyclic hk .refl
    exact (h'.leads j v ((if_neg hjk).trans hj)).1.2 rfl
  · intro hbare
    have hcases : ∀ {j v}, (if j = k then none else target j) = some v → j ≠ k ∧ target j = some v := by
      intro j v hj
      split at hj
      · cases hj
      · next hne => exact ⟨hne, hj⟩
    refine ⟨⟨h.top, fun hroot => h.unnamed k (hroot ▸ hk)⟩, fun j v hj => ?_, fun j j' v hj hj' => ?_,
      fun j hj => h.unnamed j (hcases hj).2, fun v hv => ?_⟩
    · obtain ⟨hjk, hold⟩ := hcases hj
      refine ⟨⟨(h.leads j v hold).1, hbare j v hold⟩, (h.leads j v hold).2, ?_⟩
      rintro rfl
      exact hjk (h.once j k _ hold hk)
    · exact h.once j j' v (hcases hj).2 (hcases hj').2
    · -- the way to another node does not lead through `c`
      obtain ⟨hnode, hne⟩ := hv
      have hway := h.reach v hnode
      clear hnode
      induction hway with
      | refl => exact .refl
      | tail _ hedge ih =>
        obtain ⟨j, rfl, hj⟩ := hedge
        exact (ih (hbare j _ hj)).tail ⟨j, rfl, hleft hj hne⟩

end Rooted

/-! ## Moving an edge -/

section Move

variable [DecidableEq K] (home : K → V) (target : K → Option V) (nodes : V → Prop) (src dst : K) (c : V)

/-- The edges after one is taken from `src` and written at `dst`. -/
def moveEdge (k : K) : Option V := if k = dst then some c else if k = src then none else target k

/-- The node that is written over: what is at `dst` once `src` is gone. -/
def displaced : Option V := if dst = src then none else target dst

/-- The nodes after it is gone; the two homes are written back. -/
def moveNodes (v : V) : Prop :=
  v = home src ∨ v = home dst ∨ displaced target src dst ≠ some v ∧ nodes v

variable {home target nodes src dst c} {root : V}

omit home nodes c root in
theorem displaced_eq_some {o : V} : displaced target src dst = some o ↔ dst ≠ src ∧ target dst = some o := by
  unfold displaced
  split
  · next heq => exact iff_of_false (Option.some_ne_none o).symm fun h => h.1 heq
  · next hne => exact ⟨fun h => ⟨hne, h⟩, And.right⟩

theorem moveEdge_dst : moveEdge target src dst c dst = some c := if_pos rfl

theorem moveEdge_ne {k : K} (hdst : k ≠ dst) (hsrc : k ≠ src) : moveEdge target src dst c k = target k := by
  rw [moveEdge, if_neg hdst, if_neg hsrc]

/-- An edge of the moved hierarchy is the new one or one that was there. -/
theorem moveEdge_cases {k : K} {v : V} (h : moveEdge target src dst c k = some v) :
    k = dst ∧ v = c ∨ k ≠ dst ∧ k ≠ src ∧ target k = some v := by
  unfold moveEdge at h
  split at h
  · next hdst => exact .inl ⟨hdst, (Option.some_inj.mp h).symm⟩
  · next hdst =>
    split at h
    · cases h
    · next hsrc => exact .inr ⟨hdst, hsrc, h⟩

variable (h : Rooted home root nodes target) (hsrc : target src = some c)
include h hsrc

theorem Rooted.displaced_ne : displaced target src dst ≠ some c := by
  intro hover
  obtain ⟨hne, hdst⟩ := displaced_eq_some.mp hover
  exact hne (h.once dst src c hdst hsrc)

omit h in
/-- A node that stays is reached without the moved edge, or is below what is moved. -/
theorem reach_or_below (hempty : ∀ o, displaced target src dst = some o → Bare home target o)
    {v : V} (hv : Below home target root v) (hstays : displaced target src dst ≠ some v) :
    Below home (moveEdge target src dst c) root v ∨ Below home target c v := by
  induction hv with
  | refl => exact .inl .refl
  | tail _ hedge ih =>
    obtain ⟨k, rfl, hk⟩ := hedge
    have hhome : displaced target src dst ≠ some (home k) := fun hover => hempty _ hover k _ hk rfl
    by_cases hks : k = src
    · subst hks
      cases hk.symm.trans hsrc
      exact .inr .refl
    · have hkd : k ≠ dst := by
        rintro rfl
        exact hstays (displaced_eq_some.mpr ⟨hks, hk⟩)
      rcases ih hhome with hreach | hbelow
      · exact .inl (hreach.tail ⟨k, rfl, (moveEdge_ne hkd hks).trans hk⟩)
      · exact .inr (hbelow.tail ⟨k, rfl, hk⟩)

/-- What is below the moved node stays below it, if the way there does not lead through the new edge. -/
theorem Rooted.below_stays {v : V} (hv : Below home target c v)
    (hway : ∀ x, target dst = some x → Below home target c (home dst) → ¬ Below home target x v) :
    Below home (moveEdge target src dst c) c v := by
  induction hv with
  | refl => exact .refl
  | tail hp hedge ih =>
    obtain ⟨k, rfl, hk⟩ := hedge
    have hks : k ≠ src := by
      rintro rfl
      exact h.acyclic hsrc hp
    have hkd : k ≠ dst := by
      rintro rfl
      exact hway _ hk hp .refl
    have hbefore := ih fun x hx hc hunder => hway x hx hc (hunder.tail ⟨k, rfl, hk⟩)
    exact hbefore.tail ⟨k, rfl, (moveEdge_ne hkd hks).trans hk⟩

/-- A move that meets the two conditions leaves a tree. -/
theorem Rooted.move (hdst : nodes (home dst)) (hbelow : ¬ Below home target c (home dst))
    (hempty : ∀ o, displaced target src dst = some o → Bare home target o) :
    Rooted home root (moveNodes home target nodes src dst) (moveEdge target src dst c) := by
  have hstays : ∀ {v}, displaced target src dst ≠ some v → nodes v → moveNodes home target nodes src dst v :=
    fun hne hv => .inr (.inr ⟨hne, hv⟩)
  have hhome : displaced target src dst ≠ some (home dst) := fun hover =>
    hempty _ hover dst _ (displaced_eq_some.mp hover).2 rfl
  have hsrchome : displaced target src dst ≠ some (home src) := fun hover => hempty _ hover src c hsrc rfl
  have hmoved : Below home (moveEdge target src dst c) root c :=
    ((reach_or_below hsrc hempty (h.reach _ hdst) hhome).resolve_right hbelow).tail ⟨dst, rfl, moveEdge_dst⟩
  refine ⟨hstays (fun hover => h.unnamed dst (displaced_eq_some.mp hover).2) h.top, ?_, ?_, ?_, ?_⟩
  · intro k v hk
    rcases moveEdge_cases hk with ⟨rfl, rfl⟩ | ⟨hkd, hks, hk⟩
    · exact ⟨.inr (.inl rfl), hstays (h.displaced_ne hsrc) (h.leads src _ hsrc).2⟩
    · obtain ⟨hnode, hchild⟩ := h.leads k v hk
      refine ⟨hstays (fun hover => hempty _ hover k v hk rfl) hnode, hstays (fun hover => ?_) hchild⟩
      exact hkd (h.once k dst v hk (displaced_eq_some.mp hover).2)
  · intro k k' v hk hk'
    rcases moveEdge_cases hk with ⟨rfl, rfl⟩ | ⟨-, hks, hold⟩
    · rcases moveEdge_cases hk' with ⟨rfl, -⟩ | ⟨-, hks', hold'⟩
      · rfl
      · exact absurd (h.once k' src v hold' hsrc) hks'
    · rcases moveEdge_cases hk' with ⟨rfl, rfl⟩ | ⟨-, -, hold'⟩
      · exact absurd (h.once k src v hold hsrc) hks
      · exact h.once k k' v hold hold'
  · intro k hk
    rcases moveEdge_cases hk with ⟨rfl, rfl⟩ | ⟨-, -, hk⟩
    · exact h.unnamed src hsrc
    · exact h.unnamed k hk
  · intro v hv
    have hold : displaced target src dst ≠ some v ∧ nodes v := by
      rcases hv with rfl | rfl | hold
      · exact ⟨hsrchome, (h.leads src c hsrc).1⟩
      · exact ⟨hhome, hdst⟩
      · exact hold
    rcases reach_or_below hsrc hempty (h.reach v hold.2) hold.1 with hreach | hunder
    · exact hreach
    · exact hmoved.trans (h.below_stays hsrc hunder fun _ _ hc => absurd hc hbelow)

/-- Where a move leaves a tree, what it moved has not come to be below itself. -/
theorem Rooted.not_below_of_move
    (h' : Rooted home root (moveNodes home target nodes src dst) (moveEdge target src dst c)) :
    ¬ Below home target c (home dst) := by
  intro hbelow
  -- a tree has no way back
  exact h'.acyclic moveEdge_dst (h.below_stays hsrc hbelow fun _ hx _ => h.acyclic hx)

/-- Where a move leaves a tree, what it wrote over had nothing below it. -/
theorem Rooted.empty_of_move
    (h' : Rooted home root (moveNodes home target nodes src dst) (moveEdge target src dst c)) {o : V}
    (hover : displaced target src dst = some o) {k : K} {x : V} (hk : target k = some x) : home k ≠ o := by
  rintro rfl
  obtain ⟨hne, hdst⟩ := displaced_eq_some.mp hover
  have hdstHome : home k ≠ home dst := fun heq => h.acyclic hdst (heq ▸ .refl)
  -- nothing leads to it any more
  have hunnamed : ∀ j, moveEdge target src dst c j ≠ some (home k) := by
    intro j hj
    rcases moveEdge_cases hj with ⟨rfl, heq⟩ | ⟨hjd, -, hj⟩
    · exact h.displaced_ne hsrc (heq ▸ hover)
    · exact hjd (h.once j dst _ hj hdst)
  have hgone : ¬ moveNodes home target nodes src dst (home k) := by
    intro hnode
    rcases Rooted.named_of_reach (h'.reach _ hnode) with heq | ⟨j, hj⟩
    · exact h.unnamed dst (heq ▸ hdst)
    · exact hunnamed j hj
  have hks : k ≠ src := by
    rintro rfl
    exact hgone (.inl rfl)
  have hkd : k ≠ dst := fun heq => hdstHome (congrArg home heq)
  exact hgone (h'.leads k x ((moveEdge_ne hkd hks).trans hk)).1

/-- **A move leaves a tree exactly if** what it moves is not above its new home, and what it writes over
has nothing below it. -/
theorem Rooted.move_iff (hdst : nodes (home dst)) :
    Rooted home root (moveNodes home target nodes src dst) (moveEdge target src dst c) ↔
      ¬ Below home target c (home dst) ∧ ∀ o, displaced target src dst = some o → Bare home target o := by
  constructor
  · intro h'
    exact ⟨h.not_below_of_move hsrc h', fun o hover k x hk => h.empty_of_move hsrc h' hover hk⟩
  · rintro ⟨hbelow, hempty⟩
    exact h.move hsrc hdst hbelow hempty

end Move

end Sandstore.Lib
