import Mathlib.Data.List.Induction
import Sandstore.Raft.Registry
import Sandstore.Raft.Waiters

/-!
# Calls that give up

A `Replicate` call whose context is done takes the lock again and deletes `pendingClients[entry.Index]`,
whoever is registered there by now. By then its own registration may be gone: a node that steps down answers
everybody, drops its batch, and after its next election gives the same index to another call. The other call
loses its registration, and is never answered.

Two things keep registrations apart as long as this does not happen. Every other step answers a call whose
registration it removes (`Tells`, from the list of touches), and no call is registered at an index at which
another one is: a leader gives out indices beyond its log and its batch (`Node.top`), nobody is registered
beyond them (`Room`), and they never recede while it leads (`program_top`). So **if a call gives up only
while it is unanswered, or finds nobody at its index, a call that is still waiting is registered at every
moment of every critical section**, and gets the result of its entry (`cancel_disturbs_nobody`).
-/

namespace Sandstore.Raft

open Lib Lib.Proc
open FileLogStore

variable {δ σ : Type}

section Cancelling

attribute [local instance] Conv.exact

/-! ## The indices a leader has given out -/

/-- The last index a leader has given out. -/
def Node.top (n : Node δ σ) : Nat := n.mem.logStore.last + n.mem.pendingBatch.length

/-- Nobody is registered beyond it. -/
def Room (n : Node δ σ) : Prop := ∀ i call, n.mem.pendingClients.get i = some call → i ≤ int64 n.top

variable {n n' : Node δ σ} {ok : Fate → Prop} {Made : CallId → LogEntry δ → Prop}

/-- Entries that go on where the log ends all come to stand behind it. -/
theorem last_storeLoop {s : FileLogStore δ} {entries : List (LogEntry δ)} (hfrom : From (s.last + 1) entries)
    (hbase : s.compactedUntil ≤ s.last) : s.last + entries.length ≤ (s.storeLoop entries).1.last := by
  induction entries generalizing s with
  | nil => exact Nat.le_refl _
  | cons e entries ih =>
    obtain ⟨hindex, hrest⟩ := hfrom
    have hlast : (s.place e).last = s.last + 1 := by
      rw [place_last, hindex]
      exact Nat.max_eq_right (Nat.le_succ _)
    have hbase' : (s.place e).compactedUntil ≤ (s.place e).last := by
      rw [hlast]
      exact Nat.le_succ_of_le hbase
    have hbehind := ih (hlast ▸ hrest) hbase'
    rw [FileLogStore.storeLoop, if_neg (by omega)]
    simp only [List.length_cons]
    omega

theorem notifyAll_last (batch : List (LogEntry δ)) (n : Node δ σ) (err : Err) :
    (n.notifyAll batch err).mem.logStore = n.mem.logStore := by
  refine List.foldlRecOn (motive := fun m : Node δ σ => m.mem.logStore = n.mem.logStore) batch _ rfl ?_
  intro m hm entry _
  refine Eq.trans ?_ hm
  unfold Node.notify
  split <;> rfl

theorem storeBatch_last {t : Nat} {batch : List (LogEntry δ)} (h : t ≤ (n.mem.logStore.storeLoop batch).1.last) :
    Stays ok (fun m => t ≤ m.mem.logStore.last) (storeBatch batch) n := by
  apply meets_ite
  · rintro rfl
    exact stays_pure h
  intro _
  apply stays_bind
  · apply stays_step h
    · intro commit hc
      split at hc <;> cases hc
      exact h
    · exact fun _ _ hm => stays_pure hm
  intro err m hm
  cases err with
  | none => exact stays_pure hm
  | some err => exact stays_update (by rwa [notifyAll_last])

theorem flushPendingBatch_top (h : Attended Made n) (hrole : n.mem.state = .leader) :
    Stays ok (fun m => n.top ≤ m.mem.logStore.last) flushPendingBatch n :=
  meets_read_bind (meets_update_bind (storeBatch_last (last_storeLoop (h.ahead hrole) h.kept.base)))

/-- The log ends where it did, and the batch is the same. -/
structure SameEnd (n m : Node δ σ) : Prop where
  kept : Kept m.mem.logStore
  last : m.mem.logStore.last = n.mem.logStore.last
  batch : m.mem.pendingBatch = n.mem.pendingBatch

/-- A leader has the same indices given out. -/
def SameReign (n m : Node δ σ) : Prop := m.mem.state = .leader → SameEnd n m

theorem SameReign.notify {m : Node δ σ} (h : SameReign n m) (index : Int) (err : Option Err) :
    SameReign n (m.notify index err) := by
  unfold Node.notify
  split
  · exact fun hleads => { h hleads with }
  · exact h

theorem SameReign.stroke {c : Charter δ σ} {m m' : Node δ σ} (h : SameReign n m)
    (hi : c.input.flushes = false) (hs : Stroke c m m') : SameReign n m' := by
  have happlied : ∀ entry k, SameReign n (m.applied entry k) := fun _ _ hleads => { h hleads with }
  have hfollows : ∀ {m' : Node δ σ}, m'.mem.state = .follower → SameReign n m' :=
    fun hrole hleads => by cases hrole.symm.trans hleads
  cases hs with
  | demote | fail => exact hfollows rfl
  | persist | vote | setPeer | cancel => exact fun hleads => { h hleads with }
  | stand _ hseeks | campaign _ hseeks | lead _ _ hseeks =>
    cases hi.symm.trans (Input.flushes_of_seeksOffice hseeks)
  | log _ hs =>
    cases hs with
    | apply entry k => exact happlied entry k
    | answer entry k err => exact (happlied entry k).notify _ _
    | refuse hflushes | take hflushes | flush hflushes => cases hi.symm.trans hflushes
    | enqueue _ _ _ _ hinput =>
      rw [hinput] at hi
      cases hi
    | follow => exact hfollows rfl
    | store _ _ _ _ _ _ hrole => exact hfollows hrole
    | cut _ _ _ _ hrole => exact hfollows hrole
    | trim k s _ hs =>
      intro hleads
      obtain ⟨hkept, hlast, hbatch⟩ := h hleads
      obtain ⟨-, hend, -⟩ := deleteRange_prefix hkept hs
      exact ⟨hkept.deleteRange hs, hend.trans hlast, hbatch⟩
    | skip | putWal | save | restore | adopt | publish | commit => exact fun hleads => { h hleads with }

/-- Whoever leads after a request of another leader has not taken it up. -/
theorem handled_rests {α : Type} {reqTerm : Int} {leaderID : NodeId} {body : Proc (Node δ σ) α} {stale : α}
    {failed : Err → α} (M : Machine δ σ) (hother : n.mem.state = .leader → reqTerm ≠ int64 n.mem.currentTerm)
    (hbody : ∀ m : Node δ σ, Meets ok body m (fun _ m' => Seated m m') fun _ => True) :
    Meets ok (underTerm n reqTerm leaderID stale failed body) n (fun _ m => m.mem.state = .leader → m = n) fun _ => True := by
  have hends : ∀ m : Node δ σ, m.mem.state ≠ .leader →
      Meets ok body m (fun _ m' => m'.mem.state = .leader → m' = n) fun _ => True := by
    intro m hm
    exact (hbody m).weaken fun _ _ hm' hleads => absurd hleads (hm'.not_leader hm)
  apply meets_ite
  · exact fun _ => meets_pure fun _ => rfl
  intro hfresh
  apply meets_ite
  · intro hnew
    have hdown : Stroking ok (.plain M .batchTick) n (stepDown (uint64 reqTerm) leaderID) n fun _ m =>
        m.mem.state = .follower := stepDown_strokes .refl hnew leaderID
    apply meets_bind
    apply (hdown.meets (fun _ => trivial) .refl).imp _ fun _ _ => trivial
    intro err m hm
    have hrests : m.mem.state ≠ .leader := fun hleads => by cases hm.2.symm.trans hleads
    cases err with
    | some err => exact meets_pure fun hleads => absurd hleads hrests
    | none => exact hends m hrests
  · intro hsame
    have heq := Int.le_antisymm (Int.not_lt.mp hsame) (Int.not_lt.mp hfresh)
    exact hends n fun hleads => hother hleads heq

theorem handleAppendEntries_rests (M : Machine δ σ) (req : AppendEntriesRequest δ)
    (hother : n.mem.state = .leader → req.term ≠ int64 n.mem.currentTerm) :
    Meets ok (handleAppendEntries M req) n (fun _ m => m.mem.state = .leader → m = n) fun _ => True :=
  meets_read_bind (handled_rests M hother fun _ => meets_bind_pure
    (Stroking.seated (i := .appendEntries req) (acceptEntries_strokes Strokes.log rfl (fun _ => trivial) .refl) rfl))

theorem handleInstallSnapshot_rests (M : Machine δ σ) (req : InstallSnapshotRequest)
    (hother : n.mem.state = .leader → req.term ≠ int64 n.mem.currentTerm) :
    Meets ok (handleInstallSnapshot M req) n (fun _ m => m.mem.state = .leader → m = n) fun _ => True :=
  meets_read_bind (handled_rests M hother fun _ => meets_bind_pure
    (Stroking.seated (i := .installSnapshot req) (acceptSnapshot_strokes Strokes.log rfl (fun _ => trivial) .refl) rfl))

/-- **The indices a leader has given out do not recede while it leads.** -/
theorem program_top (env : Env) (M : Machine δ σ) {i : Input δ} (h : Attended Made n)
    (hplain : i.plain = true) (hrole : n.mem.state = .leader) :
    Meets ok (program env M i) n (fun _ m => m.mem.state = .leader → n.top ≤ m.top) fun _ => True := by
  by_cases hflushes : i.flushes = true
  · cases i with
    | electionTimeout =>
      apply meets_read_bind
      rw [if_pos hrole]
      exact meets_pure fun _ => Nat.le_refl _
    | batchTick =>
      have hflush : Stays ok (fun m => n.top ≤ m.mem.logStore.last) flushPendingBatch n :=
        flushPendingBatch_top h hrole
      apply meets_bind
      apply meets_read_bind
      rw [if_pos hrole]
      apply Meets.imp hflush _ fun _ _ => trivial
      exact fun _ m hm => meets_pure fun _ => Nat.le_trans hm (Nat.le_add_right _ _)
    | voteReply peer savedTerm reply =>
      -- a leader is no candidate, whatever election the vote is for
      apply meets_bind
      apply meets_read_bind
      cases n.mem.election with
      | none => exact meets_pure (meets_pure fun _ => Nat.le_refl _)
      | some el =>
        apply meets_ite
        · exact fun _ => meets_pure (meets_pure fun _ => Nat.le_refl _)
        intro _
        apply meets_update_bind
        rw [if_pos (.inl (by rw [hrole]; decide))]
        exact meets_pure (meets_pure fun _ => Nat.le_refl _)
    | replicate data call => cases hplain
    | _ => cases hflushes
  · have hsame : SameReign n n := fun _ => ⟨h.kept, rfl, rfl⟩
    have hkeeps : Stays ok (SameReign n) (program env M i) n :=
      program_keeps env M i hsame fun _ _ hm hs => hm.stroke (Bool.eq_false_iff.mpr hflushes) hs
    apply Meets.imp hkeeps _ fun _ _ => trivial
    intro _ m hm hleads
    rw [Node.top, Node.top, (hm hleads).last, (hm hleads).batch]

/-! ## Registering -/

/-- A call is registered at the index of the entry it has made. -/
def Node.enroll (n : Node δ σ) (e : LogEntry δ) (call : CallId) : Node δ σ :=
  n.withMem fun r =>
    { r with pendingBatch := r.pendingBatch ++ [e], pendingClients := r.pendingClients.insert e.index call }

/-- The entry a call makes is the next one. -/
theorem Node.Makes.index {data : δ} {e : LogEntry δ} (h : Attended Made n) (hmakes : n.Makes data e) :
    e.index = int64 (n.top + 1) := by
  obtain ⟨_, lastIdx, term, hlast, rfl⟩ := hmakes
  obtain ⟨_, hend⟩ := lastIndexAndTerm_of_kept h.kept
  cases hlast.symm.trans hend
  simp only [Replicator.entryFor, Node.top, uint64, int64]
  omega

/-- Where a node has room, nobody is registered where a new call is going to be. -/
theorem Room.heeds {data : δ} {e : LogEntry δ} (h : Room n) (hn : Attended Made n) (hmakes : n.Makes data e)
    (call : CallId) : Heeds n (n.enroll e call) where
  events := List.prefix_rfl
  told := by
    intro i c hc
    have hne : i ≠ e.index := by
      have hbelow := h i c hc
      rw [hmakes.index hn]
      simp only [int64] at hbelow ⊢
      omega
    refine .inl ?_
    rw [Node.enroll, Node.withMem, OrdMap.get_insert_ne _ _ hne]
    exact hc

/-- Storing the batch answers whoever it lets go. -/
theorem flushPendingBatch_tells (M : Machine δ σ) (hrole : n.mem.state = .leader) {V : Node δ σ → Prop} :
    Watched ok V (Tells n) flushPendingBatch n fun _ _ => True := by
  have hstrokes : Stroking ok (.plain M .batchTick) n flushPendingBatch n fun _ _ => True :=
    flushPendingBatch_strokes Strokes.log rfl hrole .refl
  exact hstrokes.imp .refl (fun _ _ => trivial) (fun _ hm => hm.tells rfl) fun _ _ _ h => h

/-- Every state `Replicate` passes heeds the calls before it. -/
theorem replicate_heeds (env : Env) (M : Machine δ σ) (data : δ) (call : CallId) (h : Room n)
    (hn : Attended Made n) {V : Node δ σ → Prop} :
    Watched ok V (Heeds n) (replicate env data call) n fun _ _ => True := by
  have hrefl : Heeds n n := (Tells.refl n).toHeeds
  apply watched_read_bind hrefl
  intro _
  apply watched_ite
  · exact fun _ => watched_pure trivial
  intro hrole
  cases hlast : n.mem.logStore.lastIndexAndTerm with
  | error err => exact watched_pure trivial
  | ok last =>
    have hmakes : n.Makes data (n.mem.entryFor last.1 data) :=
      ⟨Decidable.not_not.mp hrole, last.1, last.2, hlast, rfl⟩
    have hadded := h.heeds hn hmakes call
    apply watched_update_bind hadded
    apply watched_ite
    · intro _
      have hflush : Watched ok V (Tells (n.enroll (n.mem.entryFor last.1 data) call)) flushPendingBatch
          (n.enroll (n.mem.entryFor last.1 data) call) fun _ _ => True := flushPendingBatch_tells M (by exact hmakes.1)
      have hheeds := hflush.imp (.refl _) (fun _ h => h) (fun _ hm => hadded.trans hm.toHeeds) fun _ _ _ h => h
      exact hheeds.ends hadded
    · exact fun _ => watched_pure trivial

/-- Where `Replicate` ends: with the call registered or answered, or with nothing done. -/
theorem replicate_ends (env : Env) (M : Machine δ σ) (data : δ) (call : CallId) (hn : Attended Made n) :
    Meets ok (replicate env data call) n
      (fun _ m => (∀ e, n.Makes data e → Tells (n.enroll e call) m ∧ n.top + 1 ≤ m.top) ∧
        ((∀ e, ¬ n.Makes data e) → m = n)) fun _ => True := by
  apply meets_read_bind
  apply meets_ite
  · exact fun hrole => meets_pure ⟨fun _ hmakes => absurd hmakes.1 hrole, fun _ => rfl⟩
  intro hrole
  obtain ⟨term, hlast⟩ := lastIndexAndTerm_of_kept hn.kept
  rw [hlast]
  have hleads : n.mem.state = .leader := Decidable.not_not.mp hrole
  have hmakes : n.Makes data (n.mem.entryFor n.mem.logStore.last data) :=
    ⟨hleads, n.mem.logStore.last, term, hlast, rfl⟩
  have hsame : ∀ e, n.Makes data e → e = n.mem.entryFor n.mem.logStore.last data := by
    rintro e ⟨_, lastIdx, term', hlast', rfl⟩
    cases hlast'.symm.trans hlast
    rfl
  let entry := n.mem.entryFor n.mem.logStore.last data
  have hadded : Attended (fun _ _ => True) (n.enroll entry call) := by
    have hany : Attended (fun _ _ => True) n :=
      ⟨hn.kept, fun _ _ _ _ _ => trivial, fun _ _ _ _ => trivial, hn.ahead, hn.idle⟩
    exact hany.enqueue hleads hlast trivial
  have htop : (n.enroll entry call).top = n.top + 1 := by
    simp [Node.top, Node.enroll, Node.withMem, Nat.add_assoc]
  apply meets_update_bind
  have hends : Meets ok (if env.maxBatchSize ≤ 1 ∨ env.maxBatchSize ≤ n.mem.pendingBatch.length + 1 then do
      flushPendingBatch
      return none
    else return none : Proc (Node δ σ) (Option Err)) (n.enroll entry call)
      (fun _ m => Tells (n.enroll entry call) m ∧ n.top + 1 ≤ m.top) fun _ => True := by
    apply meets_ite
    · intro _
      have hflush : Stays ok (fun m => (n.enroll entry call).top ≤ m.mem.logStore.last) flushPendingBatch
          (n.enroll entry call) := flushPendingBatch_top hadded hleads
      have htells : Watched ok (fun _ => True) (Tells (n.enroll entry call)) flushPendingBatch
          (n.enroll entry call) fun _ _ => True := flushPendingBatch_tells M (by exact hleads)
      apply meets_bind
      apply Meets.imp (Meets.and (htells.meets (fun _ => trivial) (.refl _)) hflush) _ fun _ _ => trivial
      intro _ m hm
      rw [htop] at hm
      exact ⟨hm.1.1, Nat.le_trans hm.2 (Nat.le_add_right _ _)⟩
    · exact fun _ => meets_pure ⟨.refl _, Nat.le_of_eq htop.symm⟩
  apply Meets.imp hends _ fun _ _ => trivial
  intro _ m hm
  refine ⟨fun e he => ?_, fun hno => absurd hmakes (hno _)⟩
  rw [hsame e he]
  exact hm

/-! ## Lives -/

/-- Whether the process goes on after a happening. -/
def Happening.survives (env : Env) (M : Machine δ σ) (n : Node δ σ) : Happening δ → Bool
  | .act (.input i fates) =>
    match (program env M i).run n fates with
    | .back _ _ => true
    | .died _ => false
  | .act .crash => false
  | .stop => true

/-- In this life from `init`, the call of this id made this entry, and its process has not ended since. -/
def CalledIn (env : Env) (M : Machine δ σ) (init : Node δ σ) (life : List (Happening δ)) (call : CallId)
    (e : LogEntry δ) : Prop :=
  ∃ before fates after n, life = before ++ .act (.input (.replicate e.data call) fates) :: after ∧
    exec (happen env M) init before = some n ∧ n.Makes e.data e ∧
    Along (happen env M) (fun n h => h.survives env M n = true) n
      (.act (.input (.replicate e.data call) fates) :: after)

/-- A branch that ends a call is taken by a call of this process, with the index of the entry it made. -/
def OwnBranches (env : Env) (M : Machine δ σ) (init : Node δ σ) (life : List (Happening δ)) : Prop :=
  ∀ before index call fates after, life = before ++ .act (.input (.cancel index call) fates) :: after →
    ∃ e, CalledIn env M init before call e ∧ e.index = index

/-- A call gives up only while it is unanswered, or finds nobody at its index. -/
def Happening.Timely (n : Node δ σ) : Happening δ → Prop
  | .act (.input (.cancel index call) _) => ¬ n.Answered call ∨ n.mem.pendingClients.get index = none
  | _ => True

section Life

variable {env : Env} {M : Machine δ σ} {init : Node δ σ} {life : List (Happening δ)}

theorem ownBranches_nil : OwnBranches env M init [] := by
  intro before index call fates after hsplit
  exact absurd hsplit (by simp)

variable {h : Happening δ}

theorem OwnBranches.snoc (hlife : OwnBranches env M init life)
    (hlast : ∀ index call fates, h = .act (.input (.cancel index call) fates) →
      ∃ e, CalledIn env M init life call e ∧ e.index = index) : OwnBranches env M init (life ++ [h]) := by
  intro before index call fates after hsplit
  rcases List.eq_nil_or_concat after with rfl | ⟨after, last, rfl⟩
  · obtain ⟨rfl, heq⟩ := List.append_inj' hsplit rfl
    cases heq
    exact hlast index call fates rfl
  · have hsplit' : life ++ [h] = (before ++ .act (.input (.cancel index call) fates) :: after) ++ [last] := by
      rw [hsplit]
      simp
    obtain ⟨rfl, -⟩ := List.append_inj' hsplit' rfl
    exact hlife before index call fates after rfl

/-- Where nobody gives up, there is nothing to show. -/
theorem OwnBranches.quiet (hlife : OwnBranches env M init life) {rest : List (Happening δ)}
    (hrest : ∀ index call fates, .act (.input (.cancel index call) fates) ∉ rest) :
    OwnBranches env M init (life ++ rest) := by
  induction rest using List.reverseRecOn with
  | nil => rwa [List.append_nil]
  | append_singleton rest h ih =>
    rw [← List.append_assoc]
    refine (ih fun i c fs hmem => hrest i c fs (List.mem_append_left _ hmem)).snoc ?_
    rintro index call fates rfl
    exact absurd (List.mem_append_right _ List.mem_cons_self) (hrest index call fates)

theorem OwnBranches.of_append {rest : List (Happening δ)} (h : OwnBranches env M init (life ++ rest)) :
    OwnBranches env M init life := by
  rintro before index call fates after rfl
  exact h before index call fates (after ++ rest) (by simp)

variable {call : CallId}

/-- A call made so far was made before the last happening, which its process survived, or is that
happening. -/
theorem CalledIn.snoc {e : LogEntry δ}
    (hcalled : CalledIn env M init (life ++ [h]) call e) (hlife : exec (happen env M) init life = some n) :
    h.survives env M n = true ∧ (CalledIn env M init life call e ∨
      (∃ fates, h = .act (.input (.replicate e.data call) fates)) ∧ n.Makes e.data e) := by
  obtain ⟨before, fates, after, m, hsplit, hbefore, hmakes, hgoes⟩ := hcalled
  rcases List.eq_nil_or_concat after with rfl | ⟨after, last, rfl⟩
  · obtain ⟨rfl, hlast⟩ := List.append_inj' hsplit rfl
    cases hlast
    cases hlife.symm.trans hbefore
    exact ⟨hgoes.1, .inr ⟨⟨fates, rfl⟩, hmakes⟩⟩
  · have hsplit' : life ++ [h] = (before ++ .act (.input (.replicate e.data call) fates) :: after) ++ [last] := by
      rw [hsplit]
      simp
    obtain ⟨rfl, hlast⟩ := List.append_inj' hsplit' rfl
    cases hlast
    obtain ⟨m', hm', hrest⟩ := (exec_append before _).mp hlife
    cases hbefore.symm.trans hm'
    rw [List.concat_eq_append, ← List.cons_append] at hgoes
    obtain ⟨hfirst, hlast⟩ := hgoes.split hrest
    exact ⟨hlast.1, .inl ⟨before, fates, after, m, rfl, hbefore, hmakes, hfirst⟩⟩

/-- There is room for the next call, and every call that waits is registered. -/
structure Waiting (env : Env) (M : Machine δ σ) (init : Node δ σ) (life : List (Happening δ)) (n : Node δ σ) :
    Prop where
  room : Room n
  registered : ∀ call e, CalledIn env M init life call e →
    n.mem.pendingClients.get e.index = some call ∨ n.Answered call

/-- Whoever waits after a happening that heeds them all, and is no call of its own. -/
theorem Waiting.heeds (hw : Waiting env M init life n) (hh : Heeds n n')
    (hlife : exec (happen env M) init life = some n) (hcall : h.call = none) (hroom : Room n') :
    Waiting env M init (life ++ [h]) n' where
  room := hroom
  registered := by
    intro call e hcalled
    obtain ⟨-, hbefore | ⟨⟨fates, rfl⟩, -⟩⟩ := hcalled.snoc hlife
    · rcases hw.registered call e hbefore with hreg | hans
      · exact hh.told _ call hreg
      · exact .inr (hans.mono hh.events)
    · cases hcall

/-- A process that has ended leaves nobody waiting. -/
theorem Waiting.ended (hlife : exec (happen env M) init life = some n)
    (hends : h.survives env M n = false) (hclients : n'.mem.pendingClients = ∅) :
    Waiting env M init (life ++ [h]) n' where
  room := by simp [Room, hclients]
  registered := by
    intro call e hcalled
    obtain ⟨hgoes, -⟩ := hcalled.snoc hlife
    exact nomatch hends.symm.trans hgoes

/-- A call that gives up in time finds nobody else at its index. -/
theorem Waiting.own {index : Int} {fates : List Fate} (hw : Waiting env M init life n)
    (hown : OwnBranches env M init (life ++ [.act (.input (.cancel index call) fates)]))
    (htimely : (Happening.act (.input (.cancel index call) fates) : Happening δ).Timely n) :
    ∀ other, n.mem.pendingClients.get index = some other → other = call := by
  intro other hother
  obtain ⟨e, hcalled, hindex⟩ := hown life index call fates [] rfl
  rcases htimely with hun | hnone
  · have hreg := (hw.registered call e hcalled).resolve_right hun
    rw [hindex, hother] at hreg
    exact Option.some.inj hreg
  · cases hnone.symm.trans hother

theorem clients_of_started {d : Disk δ σ} (h : start d = .ok n.mem) : n.mem.pendingClients = ∅ := by
  have hstarted : Attended (fun _ _ => True) n := attended_started h
  have hmem := start_eq h
  refine (hstarted.idle ?_).2
  rw [hmem]
  unfold recovered
  dsimp only
  split <;> exact nofun

/-- Room after a section that registers nobody. -/
theorem Room.after {MadeNow : CallId → LogEntry δ → Prop} (h : Room n) (hn : Attended Made n)
    (hn' : Attended MadeNow n') (ht : Tells n n')
    (htop : n.mem.state = .leader → n'.mem.state = .leader → n.top ≤ n'.top) : Room n' := by
  intro i call hc
  have hold := ht.fewer i call hc
  have hleads : n.mem.state = .leader := by
    by_contra hno
    rw [(hn.idle hno).2, OrdMap.get_empty] at hold
    cases hold
  have hleads' : n'.mem.state = .leader := by
    by_contra hno
    rw [(hn'.idle hno).2, OrdMap.get_empty] at hc
    cases hc
  have hbelow := h i call hold
  have := htop hleads hleads'
  simp only [int64] at hbelow ⊢
  omega

/-- Every state a critical section passes heeds the calls before it. -/
theorem program_heeds {i : Input δ} {V : Node δ σ → Prop} (h : Room n) (hn : Attended Made n)
    (hcancel : ∀ index call, i = .cancel index call →
      Tells n ((n.withMem fun r => { r with pendingClients := r.pendingClients.erase index }).emit
        (.notified call (some .contextDone)))) :
    Watched ok V (Heeds n) (program env M i) n fun _ _ => True := by
  have hrefl : Heeds n n := (Tells.refl n).toHeeds
  by_cases hplain : i.plain = true
  · have hstrokes : Stroking ok (.plain M i) n (program env M i) n fun _ _ => True :=
      program_strokes env (.plain M i) n (fun _ _ _ _ _ _ _ => trivial) fun _ _ _ => trivial
    exact hstrokes.imp .refl (fun _ _ => trivial) (fun _ hm => (hm.tells hplain).toHeeds) fun _ _ _ h => h
  · cases i with
    | replicate data call =>
      exact (replicate_heeds env M data call h hn).ends hrefl
    | cancel index call =>
      exact watched_bind (watched_update (hcancel index call rfl).toHeeds (watched_pure trivial))
    | _ => exact absurd rfl hplain

/-- A `Replicate` call that comes back leaves everybody registered or answered, itself included. -/
theorem Waiting.replicate {data : δ} {fates : List Fate} {out : Output}
    (hw : Waiting env M init life n) (hn : Attended Made n) (hlife : exec (happen env M) init life = some n)
    (hback : (program env M (.replicate data call)).run n fates = .back out n') :
    Waiting env M init (life ++ [.act (.input (.replicate data call) fates)]) n' := by
  have hends : Meets (fun _ => True) (program env M (.replicate data call)) n
      (fun _ m => (∀ e, n.Makes data e → Tells (n.enroll e call) m ∧ n.top + 1 ≤ m.top) ∧
        ((∀ e, ¬ n.Makes data e) → m = n)) fun _ => True := by
    apply meets_bind
    exact (replicate_ends env M data call hn).weaken fun _ m hm => meets_pure hm
  obtain ⟨hmade, hnone⟩ := hends.back (fun _ _ => trivial) hback
  by_cases hmakes : ∃ e, n.Makes data e
  · obtain ⟨e, he⟩ := hmakes
    obtain ⟨htells, htop⟩ := hmade e he
    have hindex := he.index hn
    have hheeds := (hw.room.heeds hn he call).trans htells.toHeeds
    constructor
    · intro i c hc
      have hin := htells.fewer i c hc
      rw [Node.enroll, Node.withMem, OrdMap.get_insert] at hin
      simp only [int64] at hindex ⊢
      split at hin
      · omega
      · have hbelow := hw.room i c hin
        simp only [int64] at hbelow
        omega
    · intro c e' hcalled
      obtain ⟨-, hbefore | ⟨⟨_, heq⟩, hmakes'⟩⟩ := hcalled.snoc hlife
      · rcases hw.registered c e' hbefore with hreg | hans
        · exact hheeds.told _ c hreg
        · exact .inr (hans.mono hheeds.events)
      · cases heq
        rw [hmakes'.index hn, ← hindex]
        exact htells.told e.index call (OrdMap.get_insert_self _ _ _)
  · cases hnone fun e he => hmakes ⟨e, he⟩
    refine ⟨hw.room, fun c e' hcalled => ?_⟩
    obtain ⟨-, hbefore | ⟨⟨_, heq⟩, hmakes'⟩⟩ := hcalled.snoc hlife
    · exact hw.registered c e' hbefore
    · cases heq
      exact absurd ⟨e', hmakes'⟩ hmakes

/-- One critical section in the life of a node whose calls give up in time. -/
theorem Waiting.section {i : Input δ} (fates : List Fate) (hw : Waiting env M init life n)
    (hcandid : CandidIn env M init life n) (hlife : exec (happen env M) init life = some n)
    (hi : i.Foreign n) (htimely : (Happening.act (.input i fates) : Happening δ).Timely n)
    (hown : OwnBranches env M init (life ++ [.act (.input i fates)])) :
    (∀ a ∈ (program env M i).passes n fates, Heeds n a) ∧ ∀ out n', (program env M i).run n fates = .back out n' →
        Waiting env M init (life ++ [.act (.input i fates)]) n' := by
  have hcancel : ∀ index call, i = .cancel index call →
      Tells n ((n.withMem fun r => { r with pendingClients := r.pendingClients.erase index }).emit
        (.notified call (some .contextDone))) := by
    rintro index call rfl
    exact .erase rfl rfl (hw.own hown htimely)
  have hn := hcandid.toAttended
  constructor
  · have hheeds : Watched (fun _ => True) (fun _ => True) (Heeds n) (program env M i) n fun _ _ => True :=
      program_heeds hw.room hn hcancel
    exact (hheeds.run (fun _ _ => trivial) (fun _ _ => trivial) (Tells.refl n).toHeeds).1
  · intro out n' hback
    have hn' : Attended (MadeIn env M init (life ++ [.act (.input i fates)])) n' := by
      have hend := (CandidIn.section fates hlife hcandid hi).2
      rw [hback] at hend
      exact hend.toAttended
    by_cases hplain : i.plain = true
    · have hwithin : Stays (fun _ => True) (Tells n) (program env M i) n :=
        program_keeps env M i (.refl n) fun _ _ hm hs => hm.trans (hs.tells hplain)
      have htells : Tells n n' := hwithin.back (fun _ _ => trivial) hback
      have hroom : Room n' := by
        refine hw.room.after hn hn' htells fun hleads => ?_
        have htop : Meets (fun _ => True) (program env M i) n
            (fun _ m => m.mem.state = .leader → n.top ≤ m.top) fun _ => True :=
          program_top env M hn hplain hleads
        exact htop.back (fun _ _ => trivial) hback
      refine hw.heeds htells.toHeeds hlife ?_ hroom
      cases i <;> first | rfl | cases hplain
    · cases i with
      | replicate data call => exact hw.replicate hn hlife hback
      | cancel index call =>
        have htells := hcancel index call rfl
        cases hback
        exact hw.heeds htells.toHeeds hlife rfl (hw.room.after hn hn' htells fun _ _ => Nat.le_refl _)
      | _ => exact absurd rfl hplain

/-- **In the life of a node whose calls give up in time, whoever waits is registered.** -/
theorem waiting_life (hstart : Started init) (hnew : init.events = [])
    (hforeign : Along (happen env M) (fun n h => h.Foreign n) init life)
    (htimely : Along (happen env M) (fun n h => h.Timely n) init life)
    (hown : OwnBranches env M init life) (hrun : exec (happen env M) init life = some n) :
    Waiting env M init life n := by
  induction life using List.reverseRecOn generalizing n with
  | nil =>
    cases hrun
    refine ⟨by simp [Room, clients_of_started hstart], ?_⟩
    rintro call e ⟨before, fates, after, m, hsplit, -⟩
    exact absurd hsplit (by simp)
  | append_singleton life h ih =>
    obtain ⟨m, hlife, hlast⟩ := (exec_append life [h]).mp hrun
    obtain ⟨n', hstep, hend⟩ := exec_cons hlast
    cases hend
    obtain ⟨hforeign, hf⟩ := hforeign.split hlife
    obtain ⟨htimely, ht⟩ := htimely.split hlife
    have hw := ih hforeign htimely hown.of_append hlife
    have hcandid := candidIn_life hstart hnew hforeign hlife
    cases h with
    | stop =>
      cases hstep
      exact hw.heeds (Tells.all rfl rfl).toHeeds hlife rfl (by simp [Room, Node.stop])
    | act act =>
      cases act with
      | crash => exact .ended hlife rfl (clients_of_started (reboot_eq hstep).1)
      | input i fates =>
        simp only [happen, step] at hstep
        cases hr : (program env M i).run m fates with
        | back out m' =>
          rw [hr] at hstep
          cases hstep
          exact (hw.section fates hcandid hlife hf.1 ht.1 hown).2 out _ hr
        | died m' =>
          rw [hr] at hstep
          exact .ended hlife (by simp [Happening.survives, hr]) (clients_of_started (reboot_eq hstep).1)

/-- The result of an entry goes to the call registered at its index. -/
theorem applyEntry_answers (k : Nat) {e : LogEntry δ} (h : n.mem.pendingClients.get e.index = some call) :
    Meets ok (applyEntry M k e) n (fun _ m => ∃ r, (r = (M.apply e.data n.disk.machine).2 ∨ r = some .writeFailed) ∧
        m.events = n.events ++ [.applied k e.data, .notified call r]) fun _ => True := by
  have hanswer : ∀ (m : Node δ σ) (r : Option Err), m.mem.pendingClients = n.mem.pendingClients →
      m.events = n.events ++ [.applied k e.data] →
      (m.notify e.index r).events = n.events ++ [.applied k e.data, .notified call r] := by
    intro m r hclients hevents
    rw [Node.notify, hclients, h]
    simp [Node.emit, Node.withMem, hevents]
  apply meets_commit rfl
  · exact meets_update ⟨_, .inl rfl, hanswer _ _ rfl rfl⟩
  · exact fun _ => meets_update ⟨_, .inr rfl, hanswer _ _ rfl rfl⟩
  · exact fun _ => meets_update ⟨_, .inr rfl, hanswer _ _ rfl rfl⟩
  · exact fun _ => trivial
  · exact fun _ => trivial

/-- **Calls that give up in time disturb nobody.** No request of its own term reaches a leader, and a call
gives up only while it is unanswered, or finds nobody at its index. Then giving up removes no other call's
registration; and at every step of every critical section, a call that has been made in this process and is
not answered yet is registered at the index of its entry, so that the applier's call on the entry is followed
by its result, for this call. -/
theorem cancel_disturbs_nobody (env : Env) (M : Machine δ σ) {init : Node δ σ} {life : List (Happening δ)}
    (hstart : Started init) (hnew : init.events = [])
    (hforeign : Along (happen env M) (fun n h => h.Foreign n) init life) (hown : OwnBranches env M init life)
    (htimely : Along (happen env M) (fun n h => h.Timely n) init life) :
    (∀ before index call fates after n n',
      life = before ++ .act (.input (.cancel index call) fates) :: after →
      exec (happen env M) init before = some n →
      happen env M n (.act (.input (.cancel index call) fates)) = some n' →
      ∀ i other, other ≠ call → n.mem.pendingClients.get i = some other →
        n'.mem.pendingClients.get i = some other) ∧
    ∀ before i fates after n a call e, life = before ++ .act (.input i fates) :: after →
      exec (happen env M) init before = some n → a ∈ (program env M i).passes n fates →
      CalledIn env M init before call e → ¬ a.Answered call →
      a.mem.pendingClients.get e.index = some call ∧
      ∀ fates' a', (applyEntry M (a.mem.lastApplied + 1) e).run a fates' = .back () a' →
        ∃ r, (r = (M.apply e.data a.disk.machine).2 ∨ r = some .writeFailed) ∧
          a'.events = a.events ++ [.applied (a.mem.lastApplied + 1) e.data, .notified call r] := by
  constructor
  · rintro before index call fates after n n' rfl hbefore hstep i other hother hreg
    obtain ⟨hforeign, _⟩ := hforeign.split hbefore
    obtain ⟨htimely, ht⟩ := htimely.split hbefore
    have hw := waiting_life hstart hnew hforeign htimely hown.of_append hbefore
    have hall : OwnBranches env M init ((before ++ [.act (.input (.cancel index call) fates)]) ++ after) := by
      simpa using hown
    cases hstep
    have hne : i ≠ index := by
      rintro rfl
      exact hother (hw.own hall.of_append ht.1 other hreg)
    exact (OrdMap.get_erase_ne _ hne).trans hreg
  · rintro before i fates after n a call e rfl hbefore ha hcalled hun
    obtain ⟨hforeign, hf⟩ := hforeign.split hbefore
    obtain ⟨htimely, ht⟩ := htimely.split hbefore
    have hw := waiting_life hstart hnew hforeign htimely hown.of_append hbefore
    have hcandid := candidIn_life hstart hnew hforeign hbefore
    have hall : OwnBranches env M init ((before ++ [.act (.input i fates)]) ++ after) := by
      simpa using hown
    have hheeds := (hw.section fates hcandid hbefore hf.1 ht.1 hall.of_append).1 a ha
    have hreg : a.mem.pendingClients.get e.index = some call := by
      rcases hw.registered call e hcalled with hreg | hans
      · exact (hheeds.told _ call hreg).resolve_right hun
      · exact absurd (hans.mono hheeds.events) hun
    refine ⟨hreg, fun fates' a' hback => ?_⟩
    have hanswers : Meets (fun _ => True) (applyEntry M (a.mem.lastApplied + 1) e) a _ fun _ => True :=
      applyEntry_answers _ hreg
    exact hanswers.back (fun _ _ => trivial) hback

end Life

/-- The node "a" with batches of five. -/
def batchEnv : Env := { demoEnv with maxBatchSize := 5 }

/-- "a" leads, takes two commands, and the first call gives up. -/
def givenUp : List (Happening Byte) :=
  [.act (.input .electionTimeout []), .act (.input (.voteReply "b" 1 ⟨1, true⟩) []),
    .act (.input (.replicate 7 0) []), .act (.input (.replicate 8 1) []), .act (.input (.cancel 1 0) [])]

/-- Then it stores its batch, and hears that "b" has it. -/
def storedByTwo : List (Happening Byte) :=
  [.act (.input .batchTick []),
    .act (.input (.appendReply ⟨"b", 0, 0, [⟨1, 1, 7⟩, ⟨2, 1, 8⟩], 1, 0⟩ ⟨1, true, 0, 0⟩) [])]

/-- The second call is registered when the reply comes in. -/
theorem cancel_disturbs_nobody_second :
    ∃ n : Node Byte Bytes,
      exec (happen batchEnv tape) (Node.fresh []) (givenUp ++ [.act (.input .batchTick [])]) = some n ∧
      n.Answered 0 ∧ n.mem.pendingClients.get 1 = none ∧ n.mem.pendingClients.get 2 = some 1 := by
  have hforeign : Along (happen batchEnv tape) (fun n h => h.Foreign n) (Node.fresh [] : Node Byte Bytes)
      (givenUp ++ storedByTwo) := by
    iterate 7 refine along_cons trivial rfl ?_
    trivial
  have htimely : Along (happen batchEnv tape) (fun n h => h.Timely n) (Node.fresh [] : Node Byte Bytes)
      (givenUp ++ storedByTwo) := by
    iterate 4 refine along_cons trivial rfl ?_
    refine along_cons (.inl ?_) rfl ?_
    · rintro ⟨err, herr⟩
      cases List.mem_singleton.mp (herr : Event.notified 0 err ∈ [Event.becameLeader 1])
    · iterate 2 refine along_cons trivial rfl ?_
      trivial
  have hown : OwnBranches batchEnv tape (Node.fresh [] : Node Byte Bytes) (givenUp ++ storedByTwo) := by
    have hfirst : OwnBranches batchEnv tape (Node.fresh [] : Node Byte Bytes) (givenUp.take 4) :=
      ownBranches_nil.quiet (by simp)
    refine (hfirst.snoc (h := .act (.input (.cancel 1 0) [])) ?_).quiet (by simp [storedByTwo])
    rintro index call fates heq
    cases heq
    exact ⟨⟨1, 1, 7⟩, ⟨givenUp.take 2, [], _, _, rfl, rfl, ⟨rfl, 0, 0, rfl, rfl⟩, by decide +kernel⟩, rfl⟩
  obtain ⟨n, hrun, hevents, hgone⟩ : ∃ n : Node Byte Bytes,
      exec (happen batchEnv tape) (Node.fresh []) (givenUp ++ [.act (.input .batchTick [])]) = some n ∧
      n.events = [.becameLeader 1, .notified 0 (some .contextDone)] ∧ n.mem.pendingClients.get 1 = none :=
    ⟨_, rfl, rfl, rfl⟩
  have hcalled : CalledIn batchEnv tape (Node.fresh [] : Node Byte Bytes)
      (givenUp ++ [.act (.input .batchTick [])]) 1 ⟨2, 1, 8⟩ :=
    ⟨givenUp.take 3, [], _, _, rfl, rfl, ⟨rfl, 0, 0, rfl, rfl⟩, by decide +kernel⟩
  have hun : ¬ n.Answered 1 := by
    rintro ⟨err, herr⟩
    simp [hevents] at herr
  have hlast := (cancel_disturbs_nobody batchEnv tape (fresh_started []) rfl hforeign hown htimely).2 _ _ _ [] n n 1
    ⟨2, 1, 8⟩ rfl hrun List.mem_cons_self hcalled hun
  exact ⟨n, hrun, ⟨_, hevents ▸ List.mem_cons_of_mem _ List.mem_cons_self⟩, hgone, hlast.1⟩

/-- "a" leads and takes a command; it steps down, is elected again, and takes another one. -/
def twoTerms : List (Happening Byte) :=
  [.act (.input .electionTimeout []), .act (.input (.voteReply "b" 1 ⟨1, true⟩) []),
    .act (.input (.replicate 7 0) []), .act (.input (.requestVote ⟨2, "b", 0, 0⟩) []),
    .act (.input .electionTimeout []), .act (.input (.voteReply "b" 3 ⟨3, true⟩) []),
    .act (.input (.replicate 8 1) [])]

/-- The second command is stored, and "b" has it. -/
def storedLate : List (Happening Byte) :=
  [.act (.input .batchTick []),
    .act (.input (.appendReply ⟨"b", 0, 0, [⟨1, 3, 8⟩], 3, 0⟩ ⟨3, true, 0, 0⟩) [])]

/-- The first call, answered when the node stepped down, gives up at index 1, where the second one is
registered by then. The second command is applied, and its call is never answered. -/
theorem cancel_silences_another :
    Along (happen batchEnv tape) (fun n h => h.Foreign n) (Node.fresh [] : Node Byte Bytes)
      (twoTerms ++ [.act (.input (.cancel 1 0) [])] ++ storedLate) ∧
    OwnBranches batchEnv tape (Node.fresh [] : Node Byte Bytes)
      (twoTerms ++ [.act (.input (.cancel 1 0) [])] ++ storedLate) ∧
    CalledIn batchEnv tape (Node.fresh [] : Node Byte Bytes)
      (twoTerms ++ [.act (.input (.cancel 1 0) [])] ++ storedLate) 1 ⟨1, 3, 8⟩ ∧
    ∃ n₁ n₂ n₃ : Node Byte Bytes, exec (happen batchEnv tape) (Node.fresh []) twoTerms = some n₁ ∧
      n₁.mem.pendingClients.get 1 = some 1 ∧
      happen batchEnv tape n₁ (.act (.input (.cancel 1 0) [])) = some n₂ ∧
      n₂.mem.pendingClients.get 1 = none ∧ exec (happen batchEnv tape) n₂ storedLate = some n₃ ∧
      n₃.events = [.becameLeader 1, .notified 0 (some .leadershipChanged), .becameLeader 3,
        .notified 0 (some .contextDone), .applied 1 8] := by
  refine ⟨?_, ?_, ?_, _, _, _, rfl, rfl, rfl, rfl, rfl, rfl⟩
  · iterate 10 refine along_cons trivial rfl ?_
    trivial
  · have hfirst : OwnBranches batchEnv tape (Node.fresh [] : Node Byte Bytes) twoTerms :=
      ownBranches_nil.quiet (by simp)
    refine (hfirst.snoc ?_).quiet (by simp [storedLate])
    rintro index call fates heq
    cases heq
    exact ⟨⟨1, 1, 7⟩, ⟨twoTerms.take 2, [], _, _, rfl, rfl, ⟨rfl, 0, 0, rfl, rfl⟩, by decide +kernel⟩, rfl⟩
  · exact ⟨twoTerms.take 6, [], _, _, rfl, rfl, ⟨rfl, 0, 0, rfl, rfl⟩, by decide +kernel⟩

end Cancelling

end Sandstore.Raft
