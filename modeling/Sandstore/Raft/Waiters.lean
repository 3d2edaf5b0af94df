import Sandstore.Raft.Coverage

/-!
# Acknowledged means applied

A `Replicate` call waits at the index of the entry it made, and the apply loop gives the result of the
entry it finds at that index to whoever waits there. The map of the waiters knows no terms and no data, and
indices are used again after a log has been cut. What keeps results apart is that a node empties the map
whenever it stops leading, and that entries come to an index with a waiter only through the batch the
waiter's own entry is in (`Attended`).

`Candid` adds what an observer can check: each call that got a nil result got it right after the applier
had been called on the very entry the call had made, and had returned nil. It is kept by every atomic step of
every critical section, whatever becomes of its writes, as long as no request of its own term reaches a
leader. So **a call that returns nil has been applied, and nobody gets the result of another's entry**
(`acknowledged_applied`).
-/

namespace Sandstore.Raft

open Lib Lib.Proc
open FileLogStore

variable {δ σ : Type}

section Waiters

attribute [local instance] Conv.exact

/-! ## Waiters and entries -/

/-- The entry a `Replicate` call of this data makes in this state. -/
def Node.Makes (n : Node δ σ) (data : δ) (e : LogEntry δ) : Prop :=
  n.mem.state = .leader ∧
    ∃ lastIdx term, n.mem.logStore.lastIndexAndTerm = .ok (lastIdx, term) ∧ e = n.mem.entryFor lastIdx data

/-- The entry an input makes, and its client. -/
def Node.mayTake (n : Node δ σ) : Input δ → CallId → LogEntry δ → Prop
  | .replicate data call, c, e => c = call ∧ n.Makes data e
  | _, _, _ => False

/-- More events, none of which tells a client that its entry has been applied. -/
def Quietly (n n' : Node δ σ) : Prop :=
  ∃ new, n'.events = n.events ++ new ∧ ∀ call, Event.notified call none ∉ new

/-- Whoever waits at the index of an entry, in the log or in the batch, has made it; a leader's batch goes
on where its log ends; and nobody waits at a node that does not lead. -/
structure Attended (Made : CallId → LogEntry δ → Prop) (n : Node δ σ) : Prop where
  kept : Kept n.mem.logStore
  logged : ∀ k e call, n.mem.logStore.getLog k = .ok e → n.mem.pendingClients.get (int64 k) = some call →
    Made call e
  batched : ∀ e call, e ∈ n.mem.pendingBatch → n.mem.pendingClients.get e.index = some call → Made call e
  ahead : n.mem.state = .leader → From (n.mem.logStore.last + 1) n.mem.pendingBatch
  idle : n.mem.state ≠ .leader → n.mem.pendingBatch = [] ∧ n.mem.pendingClients = ∅

/-- The node is about to apply this entry. -/
def Node.Due (n : Node δ σ) (e : LogEntry δ) : Prop :=
  n.mem.lastApplied < n.mem.commitIndex ∧ n.mem.logStore.getLog (n.mem.lastApplied + 1) = .ok e

/-- The observer's record of a call that got the applier's nil: a moment at which the call's own entry was
due and the call waiting for it, the applier's call, its result, and the call's. -/
def Acknowledged (M : Machine δ σ) (Made : CallId → LogEntry δ → Prop) (Seen : Node δ σ → Prop)
    (call : CallId) (events : List (Event δ)) : Prop :=
  ∃ a e, Made call e ∧ Seen a ∧ a.Due e ∧ a.mem.pendingClients.get e.index = some call ∧
    (M.apply e.data a.disk.machine).2 = none ∧
    a.events ++ [.applied (a.mem.lastApplied + 1) e.data, .notified call none] <+: events

/-- Waiters are attended to, and every nil is accounted for. -/
structure Candid (M : Machine δ σ) (Made : CallId → LogEntry δ → Prop) (Seen : Node δ σ → Prop)
    (n : Node δ σ) : Prop extends Attended Made n where
  told : ∀ call, Event.notified call none ∈ n.events → Acknowledged M Made Seen call n.events

variable {M : Machine δ σ} {Made Made' : CallId → LogEntry δ → Prop} {Seen Seen' : Node δ σ → Prop}
  {n n' : Node δ σ}

theorem Quietly.of_events (h : n'.events = n.events) : Quietly n n' := ⟨[], by simp [h]⟩

theorem Acknowledged.mono {call : CallId} {events events' : List (Event δ)}
    (h : Acknowledged M Made Seen call events) (hmade : ∀ c e, Made c e → Made' c e)
    (hseen : ∀ a, Seen a → Seen' a) (hevents : events <+: events') : Acknowledged M Made' Seen' call events' := by
  obtain ⟨a, e, hm, hs, hdue, hwaits, hnil, hrecord⟩ := h
  exact ⟨a, e, hmade call e hm, hseen a hs, hdue, hwaits, hnil, hrecord.trans hevents⟩

theorem Candid.mono (h : Candid M Made Seen n) (hmade : ∀ c e, Made c e → Made' c e)
    (hseen : ∀ a, Seen a → Seen' a) : Candid M Made' Seen' n where
  kept := h.kept
  logged := fun k e call hk hc => hmade call e (h.logged k e call hk hc)
  batched := fun e call he hc => hmade call e (h.batched e call he hc)
  ahead := h.ahead
  idle := h.idle
  told := fun call hc => (h.told call hc).mono hmade hseen List.prefix_rfl

/-- A record that goes on without good news. -/
theorem Candid.quietly (h : Candid M Made Seen n) (hn : Attended Made n') (hq : Quietly n n') :
    Candid M Made Seen n' := by
  obtain ⟨new, hevents, hnone⟩ := hq
  refine { hn with told := fun call hc => ?_ }
  rw [hevents] at hc ⊢
  rcases List.mem_append.mp hc with hc | hc
  · exact (h.told call hc).mono (fun _ _ h => h) (fun _ h => h) (List.prefix_append _ _)
  · exact absurd hc (hnone call)

namespace Attended

theorem same (h : Attended Made n) (hlog : n'.mem.logStore = n.mem.logStore) (hrole : n'.mem.state = n.mem.state)
    (hbatch : n'.mem.pendingBatch = n.mem.pendingBatch ∨ n'.mem.pendingBatch = [])
    (hclients : ∀ i call, n'.mem.pendingClients.get i = some call → n.mem.pendingClients.get i = some call) :
    Attended Made n' := by
  have hmem : ∀ e ∈ n'.mem.pendingBatch, e ∈ n.mem.pendingBatch := by
    rcases hbatch with hb | hb <;> simp [hb]
  constructor
  · simpa only [hlog] using h.kept
  · intro k e call hk hc
    rw [hlog] at hk
    exact h.logged k e call hk (hclients _ call hc)
  · exact fun e call he hc => h.batched e call (hmem e he) (hclients _ call hc)
  · intro hleads
    rw [hrole] at hleads
    rw [hlog]
    rcases hbatch with hb | hb <;> rw [hb]
    · exact h.ahead hleads
    · trivial
  · intro hfollows
    rw [hrole] at hfollows
    obtain ⟨hnone, hempty⟩ := h.idle hfollows
    refine ⟨?_, OrdMap.ext_get fun i => ?_⟩
    · rcases hbatch with hb | hb
      · exact hb.trans hnone
      · exact hb
    · rw [OrdMap.get_empty]
      cases hi : n'.mem.pendingClients.get i with
      | none => rfl
      | some call =>
        have := hclients i call hi
        rw [hempty, OrdMap.get_empty] at this
        cases this

theorem vacant (hkept : Kept n.mem.logStore) (hbatch : n.mem.pendingBatch = [])
    (hclients : n.mem.pendingClients = ∅) : Attended Made n where
  kept := hkept
  logged := by simp [hclients]
  batched := by simp [hbatch]
  ahead := by simp [hbatch, From]
  idle := fun _ => ⟨hbatch, hclients⟩

/-- The entry the batch has at an index. -/
theorem index_of_mem {i : Nat} {entries : List (LogEntry δ)} (h : From (i + 1) entries) {e : LogEntry δ}
    (he : e ∈ entries) : e.index = int64 (uint64 e.index) := by
  have hge := h.index_ge e he
  simp only [uint64, int64] at hge ⊢
  omega

theorem enqueue (h : Attended Made n) (hrole : n.mem.state = .leader) {lastIdx term : Nat} {data : δ}
    {call : CallId} (hlast : n.mem.logStore.lastIndexAndTerm = .ok (lastIdx, term))
    (hmade : Made call (n.mem.entryFor lastIdx data)) :
    Attended Made (n.withMem fun r =>
      { r with
        pendingBatch := r.pendingBatch ++ [n.mem.entryFor lastIdx data]
        pendingClients := r.pendingClients.insert (n.mem.entryFor lastIdx data).index call }) := by
  obtain ⟨_, hend⟩ := lastIndexAndTerm_of_kept h.kept
  cases hlast.symm.trans hend
  have hfrom := h.ahead hrole
  have hindex : uint64 (n.mem.entryFor n.mem.logStore.last data).index =
      n.mem.logStore.last + 1 + n.mem.pendingBatch.length := by
    simp only [Replicator.entryFor, uint64, int64]
    omega
  refine { h with logged := ?_, batched := ?_, ahead := fun _ => hfrom.snoc hindex, idle := fun hno => absurd hrole hno }
  · -- the new index is beyond the log
    intro k e c hk hc
    have htop := h.kept.top k e (getLog_eq_ok.mp hk).2
    have hne : int64 k ≠ (n.mem.entryFor n.mem.logStore.last data).index := by
      simp only [uint64, int64] at hindex ⊢
      omega
    refine h.logged k e c hk ?_
    rwa [Node.withMem, OrdMap.get_insert_ne _ _ hne] at hc
  · intro e c he hc
    rcases List.mem_append.mp he with he | he
    · -- and beyond the rest of the batch
      obtain ⟨pre, post, hsplit⟩ := List.append_of_mem he
      have hat : uint64 e.index = n.mem.logStore.last + 1 + pre.length := (hsplit ▸ hfrom).last_index
      have hne : e.index ≠ (n.mem.entryFor n.mem.logStore.last data).index := by
        intro heq
        rw [heq, hindex, hsplit] at hat
        simp at hat
      refine h.batched e c he ?_
      rwa [Node.withMem, OrdMap.get_insert_ne _ _ hne] at hc
    · cases List.mem_singleton.mp he
      rw [Node.withMem, OrdMap.get_insert_self] at hc
      cases hc
      exact hmade

theorem flush (h : Attended Made n) (hrole : n.mem.state = .leader) :
    Attended Made ((n.withMem fun r => { r with pendingBatch := [] }).withLog
      (n.mem.logStore.storeLoop n.mem.pendingBatch).1) where
  kept := h.kept.storeLoop
  logged := by
    intro k e call hk hc
    obtain ⟨hbelow, hget⟩ := getLog_eq_ok.mp hk
    rcases get_storeLoop hget with hold | ⟨he, hindex⟩
    · refine h.logged k e call (getLog_eq_ok.mpr ⟨?_, hold⟩) hc
      exact storeLoop_compactedUntil n.mem.pendingBatch _ ▸ hbelow
    · refine h.batched e call he ?_
      rwa [index_of_mem (h.ahead hrole) he, hindex]
  batched := fun _ _ he => absurd he List.not_mem_nil
  ahead := fun _ => trivial
  idle := fun hno => absurd hrole hno

theorem dropped (h : Attended Made n) (index : Int) (event : Event δ) :
    Attended Made ((n.withMem fun r => { r with pendingClients := r.pendingClients.erase index }).emit event) := by
  refine h.same (by rfl) (by rfl) (.inl (by rfl)) fun i c hi => ?_
  simp only [Node.emit, Node.withMem, OrdMap.get_erase] at hi
  split at hi
  · cases hi
  · exact hi

end Attended

/-! ## Strokes -/

section Sections

variable {ok : Fate → Prop}

theorem Candid.notify (h : Candid M Made Seen n') (hseen : Seen n) {entry : LogEntry δ} (hdue : n.Due entry)
    (hlog : n'.mem.logStore = n.mem.logStore) (hclients : n'.mem.pendingClients = n.mem.pendingClients)
    (hevents : n'.events = n.events ++ [.applied (n.mem.lastApplied + 1) entry.data]) {err : Option Err}
    (hnil : err = none → (M.apply entry.data n.disk.machine).2 = none) :
    Candid M Made Seen (n'.notify entry.index err) := by
  unfold Node.notify
  cases hc : n'.mem.pendingClients.get entry.index with
  | none => exact h
  | some call =>
    have hget : n'.mem.logStore.getLog (n.mem.lastApplied + 1) = .ok entry := hlog ▸ hdue.2
    have hindex : entry.index = int64 (n.mem.lastApplied + 1) := by
      have := h.kept.keyed _ _ (getLog_eq_ok.mp hget).2
      simp only [uint64, int64] at this ⊢
      omega
    have hmade : Made call entry := h.logged _ _ _ hget (hindex ▸ hc)
    refine { h.toAttended.dropped entry.index (.notified call err) with told := fun c hmem => ?_ }
    rcases List.mem_append.mp hmem with hmem | hmem
    · exact (h.told c hmem).mono (fun _ _ h => h) (fun _ h => h) (List.prefix_append _ _)
    · cases List.mem_singleton.mp hmem
      refine ⟨n, entry, hmade, hseen, hdue, hclients ▸ hc, hnil rfl, ?_⟩
      simp [Node.emit, Node.withMem, hevents]

/-- Where nobody waits, the log may be rewritten. -/
theorem Candid.relog (h : Candid M Made Seen n) (hrole : n.mem.state ≠ .leader) {s : FileLogStore δ}
    (hkept : Kept s) : Candid M Made Seen (n.withLog s) :=
  h.quietly (.vacant hkept (h.idle hrole).1 (h.idle hrole).2) (.of_events rfl)

theorem Candid.compacted (h : Candid M Made Seen n) {k : Nat} {s : FileLogStore δ}
    (hs : n.mem.logStore.deleteRange 0 (some k) = some s) : Candid M Made Seen (n.withLog s) := by
  obtain ⟨hlogs, hlast, huntil⟩ := deleteRange_prefix h.kept hs
  refine h.quietly { h.toAttended with kept := h.kept.deleteRange hs, logged := ?_, ahead := ?_ } (.of_events rfl)
  · intro j e call hj hc
    obtain ⟨hbelow, hget⟩ := getLog_eq_ok.mp hj
    refine h.logged j e call (getLog_eq_ok.mpr ⟨?_, hlogs ▸ hget⟩) hc
    have : s.compactedUntil < j := hbelow
    omega
  · intro hrole
    show From (s.last + 1) n.mem.pendingBatch
    rw [hlast]
    exact h.ahead hrole

/-- A node that does not lead may take on any role. -/
theorem Candid.unseated (h : Candid M Made Seen n) (hrole : n.mem.state ≠ .leader)
    (hlog : n'.mem.logStore = n.mem.logStore) (hbatch : n'.mem.pendingBatch = n.mem.pendingBatch)
    (hclients : n'.mem.pendingClients = n.mem.pendingClients) (hq : Quietly n n') : Candid M Made Seen n' :=
  h.quietly (.vacant (hlog ▸ h.kept) (hbatch.trans (h.idle hrole).1) (hclients.trans (h.idle hrole).2)) hq

/-- **Every stroke is candid**, if no leader is told to follow by a request of its own term. -/
theorem Candid.stroke {c : Charter δ σ} (h : Candid c.machine Made c.seen n)
    (hmay : ∀ call e, c.may call e → Made call e) (hdeposes : ¬ c.deposes) (hs : Stroke c n n') :
    Candid c.machine Made c.seen n' := by
  have happlied : ∀ entry m, Candid c.machine Made c.seen (n.applied entry m) := by
    intro entry m
    exact h.quietly (h.toAttended.same rfl rfl (.inl rfl) fun _ _ hc => hc) ⟨[_], rfl, by simp⟩
  have hrests : ∀ {role : RaftState}, n.mem.state = role → role ≠ .leader → n.mem.state ≠ .leader :=
    fun hrole hne => hrole ▸ hne
  cases hs with
  | log _ hlog =>
    cases hlog with
    | apply entry m => exact happlied entry m
    | answer entry m err happ hnil =>
      exact (happlied entry m).notify happ.seen ⟨happ.below, happ.get⟩ rfl rfl rfl hnil
    | refuse _ index err =>
      unfold Node.notify
      split
      · exact h.quietly (h.toAttended.dropped _ _) ⟨[_], rfl, by simp⟩
      · exact h
    | enqueue _ _ _ _ _ hrole hlast hcall =>
      exact h.quietly (h.toAttended.enqueue hrole hlast (hmay _ _ hcall)) (.of_events rfl)
    | take => exact h.quietly (h.toAttended.same rfl rfl (.inr rfl) fun _ _ hc => hc) (.of_events rfl)
    | flush _ hrole => exact h.quietly (h.toAttended.flush hrole) (.of_events rfl)
    | follow _ _ _ hrole => exact h.unseated (fun hleads => hdeposes (hrole hleads)) rfl rfl rfl (.of_events rfl)
    | store _ _ _ _ _ _ hrole => exact h.relog (hrests hrole (by decide)) h.kept.storeLoop
    | cut _ _ _ _ hrole hd => exact h.relog (hrests hrole (by decide)) (h.kept.deleteRange hd)
    | trim _ _ _ hd => exact h.compacted hd
    | skip | putWal | save | restore | adopt | publish | commit => exact { h with }
  | demote | fail => exact h.quietly (.vacant h.kept rfl rfl) ⟨_, rfl, by simp⟩
  | persist | vote | campaign | setPeer => exact { h with }
  | stand _ _ hrole => exact h.unseated hrole rfl rfl rfl (.of_events rfl)
  | lead _ _ _ hrole => exact h.unseated (hrests hrole (by decide)) rfl rfl rfl ⟨[_], rfl, by simp⟩
  | cancel index call => exact h.quietly (h.toAttended.dropped _ _) ⟨[_], rfl, by simp⟩

/-! ## Runs -/

/-- No request of its own term reaches a leader: terms have one leader each. -/
def Input.Foreign (n : Node δ σ) : Input δ → Prop
  | .appendEntries req => n.mem.state = .leader → req.term ≠ int64 n.mem.currentTerm
  | .installSnapshot req => n.mem.state = .leader → req.term ≠ int64 n.mem.currentTerm
  | _ => True

/-- **Every critical section is candid.** -/
theorem program_candid (env : Env) (M : Machine δ σ) {i : Input δ} (h : Candid M Made Seen n)
    (hi : i.Foreign n) (hmay : ∀ call e, n.mayTake i call e → Made call e) :
    Watched ok Seen (Candid M Made Seen) (program env M i) n fun _ _ => True := by
  have hstrokes : Stroking ok ⟨i, M, Seen, n.mayTake i, False⟩ n (program env M i) n fun _ _ => True := by
    refine program_strokes env ⟨i, M, Seen, n.mayTake i, False⟩ n ?_ ?_
    · rintro data call lastIdx term rfl hrole hlast
      exact ⟨rfl, hrole, lastIdx, term, hlast, rfl⟩
    · intro leaderID hclaim hrole
      cases i with
      | appendEntries req | installSnapshot req =>
        obtain ⟨hterm, -⟩ := Prod.mk.inj (Option.some.inj hclaim)
        exact hi hrole hterm
      | _ => cases hclaim
  refine hstrokes.imp .refl (fun _ h => h) (fun _ hm => ?_) fun _ _ _ h => h
  exact hm.keeps h fun _ _ hm hs => hm.stroke hmay (fun h => h) hs

end Sections

/-- `Stop`, less the channel it closes: every waiting call is told that it is cancelled. The batch stays. -/
def Node.stop (n : Node δ σ) : Node δ σ :=
  { n with
    mem := { n.mem with pendingClients := ∅ }
    events := n.events ++ n.mem.pendingClients.values.map
      (fun call => .notified call (some (.other "context canceled"))) }

theorem Candid.stop (h : Candid M Made Seen n) : Candid M Made Seen n.stop :=
  h.quietly (h.toAttended.same rfl rfl (.inl rfl) fun _ _ hc => nomatch hc) ⟨_, rfl, by simp⟩

/-- What happens in the life of a node. -/
inductive Happening (δ : Type) where
  | act (a : Act δ)
  | stop

def happen (env : Env) (M : Machine δ σ) (n : Node δ σ) : Happening δ → Option (Node δ σ)
  | .act a => step env M n a
  | .stop => some n.stop

/-- Election safety, as one node sees it. -/
def Happening.Foreign (n : Node δ σ) : Happening δ → Prop
  | .act (.input i _) => i.Foreign n
  | _ => True

/-- The call that a happening is. -/
def Happening.call : Happening δ → Option CallId
  | .act (.input (.replicate _ call) _) => some call
  | _ => none

/-- In this life from `init`, the call of this id made this entry. -/
def MadeIn (env : Env) (M : Machine δ σ) (init : Node δ σ) (life : List (Happening δ)) (call : CallId)
    (e : LogEntry δ) : Prop :=
  ∃ before fates after n, life = before ++ .act (.input (.replicate e.data call) fates) :: after ∧
    exec (happen env M) init before = some n ∧ n.Makes e.data e

/-- In this life from `init`, a critical section takes a step from this state. -/
def SeenIn (env : Env) (M : Machine δ σ) (init : Node δ σ) (life : List (Happening δ)) (a : Node δ σ) : Prop :=
  ∃ before i fates after n, life = before ++ .act (.input i fates) :: after ∧
    exec (happen env M) init before = some n ∧ a ∈ (program env M i).passes n fates

section Life

variable {env : Env} {init : Node δ σ} {life rest : List (Happening δ)}

theorem MadeIn.append {call : CallId} {e : LogEntry δ} (h : MadeIn env M init life call e) :
    MadeIn env M init (life ++ rest) call e := by
  obtain ⟨before, fates, after, n, rfl, hrun, hmakes⟩ := h
  exact ⟨before, fates, after ++ rest, n, by simp, hrun, hmakes⟩

theorem SeenIn.append {a : Node δ σ} (h : SeenIn env M init life a) : SeenIn env M init (life ++ rest) a := by
  obtain ⟨before, i, fates, after, n, rfl, hrun, ha⟩ := h
  exact ⟨before, i, fates, after ++ rest, n, by simp, hrun, ha⟩

/-- Candid, about the life so far. -/
abbrev CandidIn (env : Env) (M : Machine δ σ) (init : Node δ σ) (life : List (Happening δ)) : Node δ σ → Prop :=
  Candid M (MadeIn env M init life) (SeenIn env M init life)

variable {n : Node δ σ}

/-- One critical section in the life of a node, with every state it passes. -/
theorem CandidIn.section {i : Input δ} (fates : List Fate)
    (hlife : exec (happen env M) init life = some n) (h : CandidIn env M init life n) (hi : i.Foreign n) :
    (∀ a ∈ (program env M i).passes n fates, CandidIn env M init (life ++ [.act (.input i fates)]) a) ∧
      match (program env M i).run n fates with
      | .back _ n' => CandidIn env M init (life ++ [.act (.input i fates)]) n'
      | .died n' => CandidIn env M init (life ++ [.act (.input i fates)]) n' := by
  have hmay : ∀ call e, n.mayTake i call e → MadeIn env M init (life ++ [.act (.input i fates)]) call e := by
    intro call e he
    cases i with
    | replicate data c =>
      obtain ⟨rfl, hmakes⟩ := he
      obtain ⟨_, lastIdx, term, _, rfl⟩ := id hmakes
      exact ⟨life, fates, [], n, rfl, hlife, hmakes⟩
    | _ => exact he.elim
  have hnow : CandidIn env M init (life ++ [.act (.input i fates)]) n :=
    h.mono (fun _ _ h => h.append) fun _ h => h.append
  have hsection : Watched (fun _ => True) (SeenIn env M init (life ++ [.act (.input i fates)]))
      (CandidIn env M init (life ++ [.act (.input i fates)])) (program env M i) n fun _ _ => True :=
    program_candid env M hnow hi hmay
  obtain ⟨hpassed, hend⟩ := hsection.run (fun _ _ => trivial)
    (fun a ha => ⟨life, i, fates, [], n, rfl, hlife, ha⟩) hnow
  refine ⟨hpassed, ?_⟩
  cases hr : (program env M i).run n fates with
  | back out n' =>
    rw [hr] at hend
    exact hend.1
  | died n' =>
    rw [hr] at hend
    exact hend

theorem attended_started {d : Disk δ σ} (h : start d = .ok n.mem) : Attended Made n := by
  have hmem := start_eq h
  obtain ⟨_, _, hlog, hbatch⟩ := recovered_included d
  refine .vacant ?_ ?_ ?_
  · rw [hmem, hlog]
    exact kept_load _
  · rw [hmem, hbatch]
  · rw [hmem]
    unfold recovered
    dsimp only
    split <;> rfl

theorem CandidIn.reboot {n' : Node δ σ} (h : CandidIn env M init life n) (hr : reboot n = some n') :
    CandidIn env M init life n' := by
  obtain ⟨hstart, _, hevents⟩ := reboot_eq hr
  exact h.quietly (attended_started hstart) (.of_events hevents)

/-- **The life of a node is candid.** -/
theorem candidIn_life (hstart : Started init) (hnew : init.events = [])
    (hok : Along (happen env M) (fun n h => h.Foreign n) init life)
    (hrun : exec (happen env M) init life = some n) : CandidIn env M init life n := by
  refine exec_history ?_ ?_ life hok hrun
  · exact { attended_started hstart with told := by simp [hnew] }
  · intro before m a m' hbefore hm ha hs
    have hnow : CandidIn env M init (before ++ [a]) m := hm.mono (fun _ _ h => h.append) fun _ h => h.append
    cases a with
    | stop =>
      cases hs
      exact hnow.stop
    | act a =>
      cases a with
      | crash => exact hnow.reboot hs
      | input i fates =>
        have hend := (CandidIn.section fates hbefore hm ha).2
        simp only [happen, step] at hs
        split at hs
        · next hback =>
          rw [hback] at hend
          cases hs
          exact hend
        · next hdied =>
          rw [hdied] at hend
          exact hend.reboot hs

/-- Calls with ids of their own are the same happening if they have the same id. -/
theorem eq_of_call (hids : (life.filterMap Happening.call).Nodup) {a b : Happening δ} {call : CallId}
    (ha : a ∈ life) (hb : b ∈ life) (hcall : a.call = some call) (hcall' : b.call = some call) : a = b := by
  induction life with
  | nil => cases ha
  | cons h life ih =>
    rw [List.filterMap_cons] at hids
    have hrest : (life.filterMap Happening.call).Nodup := by
      cases hc : h.call with
      | none => simpa [hc] using hids
      | some c => exact (List.nodup_cons.mp (by simpa [hc] using hids)).2
    have hhead : h.call = some call → ∀ x ∈ life, x.call ≠ some call := by
      intro hc x hx hxc
      rw [hc] at hids
      exact (List.nodup_cons.mp hids).1 (List.mem_filterMap.mpr ⟨x, hx, hxc⟩)
    rcases List.mem_cons.mp ha with rfl | halife
    · rcases List.mem_cons.mp hb with rfl | hblife
      · rfl
      · exact absurd hcall' (hhead hcall b hblife)
    · rcases List.mem_cons.mp hb with rfl | hblife
      · exact absurd hcall (hhead hcall' a halife)
      · exact ih hrest halife hblife

/-- **Acknowledged means applied.** Calls have ids of their own, and no request of its own term reaches a
leader. If a `Replicate` call of `data` gets nil, there was a moment at which the entry it had made was
committed and due, the applier was called on it with that data and returned nil, and the call was told next.
And whenever an entry is due while a call waits at its index, the call has made this entry: nobody gets the
result of another's. -/
theorem acknowledged_applied (env : Env) (M : Machine δ σ) {init n : Node δ σ} {life : List (Happening δ)}
    (hstart : Started init) (hnew : init.events = []) (hids : (life.filterMap Happening.call).Nodup)
    (hok : Along (happen env M) (fun n h => h.Foreign n) init life)
    (hrun : exec (happen env M) init life = some n) :
    (∀ data call fates, .act (.input (.replicate data call) fates) ∈ life →
      Event.notified call none ∈ n.events →
      ∃ a e, SeenIn env M init life a ∧ MadeIn env M init life call e ∧ e.data = data ∧ a.Due e ∧
        a.mem.pendingClients.get e.index = some call ∧ (M.apply data a.disk.machine).2 = none ∧
        a.events ++ [.applied (a.mem.lastApplied + 1) data, .notified call none] <+: n.events) ∧
    ∀ a e call, SeenIn env M init life a → a.Due e → a.mem.pendingClients.get e.index = some call →
      MadeIn env M init life call e := by
  constructor
  · intro data call fates hcall hnil
    have hlife := candidIn_life hstart hnew hok hrun
    obtain ⟨a, e, hmade, hseen, hdue, hwaits, happly, hrecord⟩ := hlife.told call hnil
    have hdata : e.data = data := by
      obtain ⟨before, fates', after, m, hsplit, _⟩ := id hmade
      have hmem : .act (.input (.replicate e.data call) fates') ∈ life := by simp [hsplit]
      cases eq_of_call hids hmem hcall rfl rfl
      rfl
    subst hdata
    exact ⟨a, e, hseen, hmade, rfl, hdue, hwaits, happly, hrecord⟩
  · rintro a e call ⟨before, i, fates, after, m, rfl, hbefore, ha⟩ hdue hwaits
    obtain ⟨hfirst, hrest⟩ := hok.split hbefore
    have hm := candidIn_life hstart hnew hfirst hbefore
    have hat := (CandidIn.section fates hbefore hm hrest.1).1 a ha
    have hindex : e.index = int64 (a.mem.lastApplied + 1) := by
      have := hat.kept.keyed _ _ (getLog_eq_ok.mp hdue.2).2
      simp only [uint64, int64] at this ⊢
      omega
    have hmade : MadeIn env M init ((before ++ [.act (.input i fates)]) ++ after) call e :=
      (hat.logged _ e call hdue.2 (hindex ▸ hwaits)).append
    simpa using hmade

end Life

/-- The node "a" is elected with the vote of "b", takes a command, and hears that "b" has stored it. -/
def firstCommand : List (Happening Byte) :=
  [.act (.input .electionTimeout []), .act (.input (.voteReply "b" 1 ⟨1, true⟩) []),
    .act (.input (.replicate 7 0) []), .act (.input (.appendReply ⟨"b", 0, 0, [⟨1, 1, 7⟩], 1, 0⟩ ⟨1, true, 0, 0⟩) [])]

/-- The command's call gets nil, from the applier's own. -/
theorem acknowledged_applied_first :
    ∃ n : Node Byte Bytes, exec (happen demoEnv tape) (Node.fresh []) firstCommand = some n ∧
      Event.notified 0 none ∈ n.events ∧
      ∃ a e, SeenIn demoEnv tape (Node.fresh []) firstCommand a ∧
        MadeIn demoEnv tape (Node.fresh []) firstCommand 0 e ∧ e.data = 7 ∧ a.Due e := by
  have hok : Along (happen demoEnv tape) (fun n h => h.Foreign n) (Node.fresh [] : Node Byte Bytes)
      firstCommand := by
    iterate 4 refine along_cons trivial rfl ?_
    trivial
  obtain ⟨n, hrun, hnil⟩ : ∃ n : Node Byte Bytes,
      exec (happen demoEnv tape) (Node.fresh []) firstCommand = some n ∧ Event.notified 0 none ∈ n.events :=
    ⟨_, rfl, List.mem_of_getElem? (i := 2) rfl⟩
  have hids : (firstCommand.filterMap Happening.call).Nodup := by decide
  obtain ⟨a, e, hseen, hmade, hdata, hdue, _⟩ := (acknowledged_applied demoEnv tape (fresh_started []) rfl hids
    hok hrun).1 7 0 [] (by simp [firstCommand]) hnil
  exact ⟨n, hrun, hnil, a, e, hseen, hmade, hdata, hdue⟩

end Waiters

end Sandstore.Raft
