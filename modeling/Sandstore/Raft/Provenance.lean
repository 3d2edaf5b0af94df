import Sandstore.Raft.Cluster
import Sandstore.Raft.Strokes

/-!
# Where commands come from

A command is in a node's log, in its WAL, in its pending batch, in a request on the network, or has
been handed to an applier. Nothing a node does makes one up: it got there from a `Replicate` call.

`Only P` says of a node, and `Sources P` of a whole cluster, that every command in one of these places
meets `P`. Every program keeps `Only P` if the commands of its input meet `P` (`program_only`), and so
every move but the `Replicate` call of another command keeps `Sources P` (`Sources.step`). With `P` the
commands other than one, the law reads: **a command that is nowhere never comes back by itself.**
-/

namespace Sandstore.Raft

open Lib Lib.Proc

variable {δ σ : Type} {P : δ → Prop}

/-! ## One log store -/

/-- Every entry of the store carries a command that meets `P`. -/
def FileLogStore.Only (P : δ → Prop) (s : FileLogStore δ) : Prop :=
  ∀ k entry, s.logs.get k = some entry → P entry.data

namespace FileLogStore

variable {s s' : FileLogStore δ}

theorem Only.getLog {k : Nat} {entry : LogEntry δ} (h : s.Only P) (hget : s.getLog k = .ok entry) : P entry.data :=
  h k entry (getLog_eq_ok.mp hget).2

theorem Only.slice (h : s.Only P) (idx count : Nat) : ∀ e ∈ s.slice idx count, P e.data := by
  intro e he
  obtain ⟨k, hk⟩ := getLog_of_mem_slice he
  exact h.getLog hk

variable [Conv]

theorem Only.place (h : s.Only P) {entry : LogEntry δ} (hentry : P entry.data) : (s.place entry).Only P := by
  intro k e he
  rw [get_place] at he
  split at he
  · cases he
    exact hentry
  · exact h k e he

theorem Only.storeLoop {entries : List (LogEntry δ)} (h : s.Only P)
    (hentries : ∀ e ∈ entries, P e.data) : (s.storeLoop entries).1.Only P :=
  storeLoop_induct (I := fun s => s.Only P) h fun _ hs e he _ => hs.place (hentries e he)

theorem Only.deleteRange {min : Nat} {max : Option Nat} (h : s.Only P)
    (hs : s.deleteRange min max = some s') : s'.Only P := by
  intro k e he
  exact h k e (get_of_deleteRange hs he)

theorem only_load {wal : Option (WalFile δ)}
    (h : ∀ file, wal = some file → ∀ e ∈ file.logs, P e.data) : (load wal).Only P := by
  cases wal with
  | none => exact fun k e he => (nomatch he)
  | some file =>
    exact List.foldlRecOn file.logs _ (fun k e he => (nomatch he)) fun _ hs e he => hs.place (h file rfl e he)

omit [Conv] in
theorem Only.file (h : s.Only P) : ∀ e ∈ s.file.logs, P e.data := by
  intro e he
  obtain ⟨k, hk⟩ := OrdMap.mem_values_iff.mp ((List.perm_insertionSort _ _).mem_iff.mp he)
  exact h k e hk

end FileLogStore

/-! ## One node -/

/-- Every command the node holds, or has handed to its applier, meets `P`. -/
structure Only (P : δ → Prop) (n : Node δ σ) : Prop where
  batch : ∀ e ∈ n.mem.pendingBatch, P e.data
  log : n.mem.logStore.Only P
  wal : ∀ file, n.disk.wal = some file → ∀ e ∈ file.logs, P e.data
  applied : ∀ index data, Event.applied index data ∈ n.events → P data

section Node

variable {ok : Fate → Prop} {n : Node δ σ}

theorem Only.notify (h : Only P n) (index : Int) (err : Option Err) : Only P (n.notify index err) := by
  unfold Node.notify
  split
  · exact { h with applied := fun k data hk => h.applied k data (by simpa [Node.emit, Node.withMem] using hk) }
  · exact h

theorem Only.failAllPending (h : Only P n) (err : Err) : Only P (n.failAllPending err) where
  batch := fun e he => (nomatch he)
  log := h.log
  wal := h.wal
  applied := fun k data hk => h.applied k data (by simpa [Node.failAllPending] using hk)

/-- What changes neither the places of commands nor the record of the applier. -/
theorem Only.withMem (h : Only P n) {f : Replicator δ → Replicator δ}
    (hbatch : (f n.mem).pendingBatch = n.mem.pendingBatch)
    (hlog : (f n.mem).logStore = n.mem.logStore) : Only P (n.withMem f) where
  batch := fun e he => h.batch e (hbatch ▸ he)
  log := hlog ▸ h.log
  wal := h.wal
  applied := h.applied

/-- A record that goes on without the applier. -/
theorem Only.record (h : Only P n) {f : Replicator δ → Replicator δ} (e : Event δ)
    (hbatch : (f n.mem).pendingBatch = n.mem.pendingBatch) (hlog : (f n.mem).logStore = n.mem.logStore)
    (he : ∀ index data, Event.applied index data ≠ e) : Only P ((n.withMem f).emit e) := by
  refine { h.withMem hbatch hlog with applied := fun k data hk => ?_ }
  rcases List.mem_append.mp hk with hk | hk
  · exact h.applied k data hk
  · exact absurd (List.mem_singleton.mp hk) (he k data)

theorem Only.apply (h : Only P n) {entry : LogEntry δ} {k : Nat} (hget : n.mem.logStore.getLog k = .ok entry)
    (m : σ) : Only P (n.applied entry m) := by
  refine { h with applied := fun k data hk => ?_ }
  rcases List.mem_append.mp hk with hk | hk
  · exact h.applied k data hk
  · cases List.mem_singleton.mp hk
    exact h.log.getLog hget

theorem cancel_only (h : Only P n) (entryIndex : Int) (call : CallId) :
    Stays ok (Only P) (cancel entryIndex call) n := stays_update (h.record _ rfl rfl (by simp))

end Node

section Programs

variable {ok : Fate → Prop} {n : Node δ σ} [Conv]

omit [Conv] in
theorem Only.withLog (h : Only P n) {s : FileLogStore δ} (hs : s.Only P) : Only P (n.withLog s) :=
  { h with log := hs }

theorem Only.putWal (h : Only P n) : Only P n.putWal := by
  refine { h with wal := fun file hfile => ?_ }
  cases hfile
  exact h.log.file

omit [Conv] in
/-- The commands an input brings with it. -/
def Input.Only (P : δ → Prop) : Input δ → Prop
  | .replicate data _ => P data
  | .appendEntries req => ∀ entries, req.entries = some entries → ∀ e ∈ entries, P e.data
  | _ => True

theorem Only.logStroke {c : Charter δ σ} {n' : Node δ σ} (h : Only P n) (hi : c.input.Only P)
    (hs : LogStroke c n n') : Only P n' := by
  cases hs with
  | skip | follow | commit | adopt | publish => exact h.withMem rfl rfl
  | apply entry m happ => exact h.apply happ.get m
  | answer entry m err happ => exact (h.apply happ.get m).notify _ _
  | refuse _ index err => exact h.notify _ _
  | enqueue lastIdx term data call hinput =>
    rw [hinput] at hi
    refine { h with batch := fun e he => ?_ }
    rcases List.mem_append.mp he with he | he
    · exact h.batch e he
    · cases List.mem_singleton.mp he
      exact hi
  | take => exact { h with batch := fun e he => absurd he List.not_mem_nil }
  | flush =>
    refine { h with batch := fun e he => absurd he List.not_mem_nil, log := ?_ }
    exact h.log.storeLoop h.batch
  | store req all new hinput hall hnew =>
    rw [hinput] at hi
    exact h.withLog (h.log.storeLoop fun e he => hi all hall e (hnew e he))
  | cut req index s _ _ hs => exact h.withLog (h.log.deleteRange hs)
  | trim k s _ hs => exact h.withLog (h.log.deleteRange hs)
  | putWal => exact h.putWal
  | save | restore => exact { h with }

theorem Only.stroke {c : Charter δ σ} {n' : Node δ σ} (h : Only P n) (hi : c.input.Only P)
    (hs : Stroke c n n') : Only P n' := by
  cases hs with
  | log _ hs => exact h.logStroke hi hs
  | demote | fail => exact (h.withMem rfl rfl).failAllPending _
  | persist => exact { h with }
  | vote | stand | campaign | setPeer => exact h.withMem rfl rfl
  | lead | cancel => exact h.record _ rfl rfl (by simp)

/-- **A node makes no command up.** -/
theorem program_only (env : Env) (M : Machine δ σ) (h : Only P n) {i : Input δ} (hi : i.Only P) :
    Stays ok (Only P) (program env M i) n := program_keeps env M i h fun _ _ hm hs => hm.stroke hi hs

theorem replicate_only (env : Env) (M : Machine δ σ) (h : Only P n) {data : δ} (hdata : P data) (call : CallId) :
    Stays ok (Only P) (replicate env data call) n := by
  have hstrokes : Stroking ok (.plain M (.replicate data call)) n (replicate env data call) n fun _ _ => True :=
    replicate_strokes Strokes.log env rfl (fun _ _ _ _ => trivial) .refl
  exact hstrokes.stays h fun _ _ hm hs => hm.stroke (by exact hdata) hs

/-- A call that returns at once has put its command nowhere. -/
theorem replicate_refused (env : Env) (data : δ) (call : CallId) (h : Only P n) :
    Meets ok (replicate env data call) n (fun err n' => err.isSome → Only P n') fun _ => True := by
  refine meets_read_bind (meets_ite (fun _ => meets_pure fun _ => h) fun _ => ?_)
  cases n.mem.logStore.lastIndexAndTerm with
  | error err => exact meets_pure fun _ => h
  | ok last =>
    apply meets_update_bind
    refine meets_ite (fun _ => ?_) fun _ => meets_pure fun hsome => (nomatch hsome)
    refine (meets_trivial _).bind fun _ m _ => ?_
    exact meets_pure fun hsome => (nomatch hsome)

theorem Only.reboot {n' : Node δ σ} (h : Only P n) (hr : reboot n = some n') : Only P n' := by
  obtain ⟨hstart, hdisk, hevents⟩ := reboot_eq hr
  have hmem := start_eq hstart
  have hlog : (recovered n.disk).logStore = FileLogStore.load n.disk.wal := by
    unfold recovered
    dsimp only
    split <;> rfl
  have hbatch : (recovered n.disk).pendingBatch = [] := by
    unfold recovered
    dsimp only
    split <;> rfl
  exact
    { batch := by simp [hmem, hbatch]
      log := by
        rw [hmem, hlog]
        exact FileLogStore.only_load h.wal
      wal := hdisk ▸ h.wal
      applied := hevents ▸ h.applied }

end Programs

/-! ## The cluster -/

/-- The commands of a packet. -/
def Packet.Only (P : δ → Prop) : Packet δ → Prop
  | .append _ w => ∀ e ∈ w.entries, P e.data
  | .appendReply _ w _ => ∀ e ∈ w.entries, P e.data
  | _ => True

/-- Every command of the cluster meets `P`. -/
structure Sources (P : δ → Prop) (w : World δ σ) : Prop where
  node : ∀ id, Only P (w.node id)
  net : ∀ p ∈ w.net, p.Only P

/-- The commands a move brings in. -/
def Action.Only (P : δ → Prop) : Action δ → Prop
  | .own _ (.replicate data _) _ => P data
  | _ => True

section Cluster

variable {C : Cluster} {M : Machine δ σ} {w w' : World δ σ} [Conv]

omit [Conv] in
theorem Sources.set (h : Sources P w) {id : NodeId} {n : Node δ σ} (hn : Only P n) (up : Bool) :
    Sources P (w.set id ⟨n, up⟩) := by
  refine ⟨fun j => ?_, h.net⟩
  rw [World.node_set]
  split
  · exact hn
  · exact h.node j

omit [Conv] in
theorem Sources.send (h : Sources P w) {packets : List (Packet δ)}
    (hpackets : ∀ p ∈ packets, p.Only P) : Sources P (w.send packets) := by
  refine ⟨h.node, fun p hp => ?_⟩
  rcases List.mem_append.mp hp with hp | hp
  · exact h.net p hp
  · exact hpackets p hp

theorem Sources.act (h : Sources P w) {id : NodeId} {i : Input δ} (hi : i.Only P) {fates : List Fate}
    {reply : Output → List (Packet δ)} (hreply : ∀ out, ∀ p ∈ reply out, p.Only P)
    (hs : w.act C M id i fates reply = some w') : Sources P w' := by
  apply World.act_cases (fun _ => True) (fun _ _ => trivial) hs
    (fun _ _ => program_only (C.env id) M (h.node id) hi)
  · exact fun out n hn => (h.set hn true).send (hreply out)
  · exact fun n hn => h.set hn false

theorem broadcast_only {env : Env} {n : Node δ σ} (h : Only P n) (id : NodeId) :
    ∀ work ∈ broadcastAppendEntries env n, (work.packet id).Only P := by
  have hwork : ∀ peer nextIdx prevLogTerm, ((n.mem.appendWork peer nextIdx prevLogTerm).packet id).Only P :=
    fun peer nextIdx prevLogTerm => h.log.slice _ _
  intro work hmem
  unfold broadcastAppendEntries at hmem
  split at hmem
  · cases hmem
  · split at hmem
    · cases hmem
    · obtain ⟨peer, _, hfor⟩ := List.mem_filterMap.mp hmem
      unfold Node.workFor at hfor
      dsimp only at hfor
      split at hfor
      · split at hfor <;> cases hfor
        trivial
      · split at hfor
        · cases hfor
          exact hwork _ _ _
        · split at hfor
          · split at hfor
            · cases hfor
              exact hwork _ _ _
            · split at hfor <;> cases hfor
              trivial
          · cases hfor
            exact hwork _ _ _

theorem Sources.handle (h : Sources P w) {packet : Packet δ} (hpacket : packet.Only P)
    {fates : List Fate} (hs : w.handle C M fates packet = some w') : Sources P w' := by
  have hnone : ∀ out : Output, ∀ p ∈ ([] : List (Packet δ)), p.Only P := fun _ _ hp => (nomatch hp)
  cases packet with
  | voteRequest src dst savedTerm req =>
    refine h.act (i := .requestVote req) trivial (fun out p hp => ?_) hs
    split at hp
    · cases List.mem_singleton.mp hp
      trivial
    · cases hp
  | voteReply src dst savedTerm reply =>
    exact h.act (i := .voteReply src savedTerm reply) trivial hnone hs
  | append src work =>
    refine h.act (i := .appendEntries (work.request src)) ?_ (fun out p hp => ?_) hs
    · intro entries hentries
      cases hentries
      exact hpacket
    · split at hp
      · cases List.mem_singleton.mp hp
        exact hpacket
      · cases hp
  | appendReply dst work reply => exact h.act (i := .appendReply work reply) trivial hnone hs
  | snapshot src work =>
    refine h.act (i := .installSnapshot work.req) trivial (fun out p hp => ?_) hs
    split at hp
    · cases List.mem_singleton.mp hp
      trivial
    · cases hp
  | snapshotReply dst work reply => exact h.act (i := .snapshotReply work reply) trivial hnone hs

/-- **Every command comes from a `Replicate` call.** -/
theorem Sources.step (h : Sources P w) {a : Action δ} (ha : a.Only P)
    (hs : w.step C M a = some w') : Sources P w' := by
  cases a with
  | restart id =>
    dsimp only [World.step] at hs
    split at hs
    · obtain ⟨n, hr, rfl⟩ := Option.map_eq_some_iff.mp hs
      exact h.set ((h.node id).reboot hr) true
    · cases hs
  | crash id =>
    cases hs
    exact h.set (h.node id) false
  | own id i fates =>
    dsimp only [World.step] at hs
    split at hs
    · next hlocal =>
      have hi : i.Only P := by
        cases i with
        | replicate data call => exact ha
        | appendEntries req => cases hlocal
        | _ => trivial
      refine h.act hi (fun out p hp => ?_) hs
      unfold ownPackets at hp
      split at hp
      · obtain ⟨r, _, rfl⟩ := List.mem_map.mp hp
        trivial
      · cases hp
    · cases hs
  | broadcast id =>
    dsimp only [World.step] at hs
    split at hs
    · cases hs
      refine h.send fun p hp => ?_
      obtain ⟨work, hwork, rfl⟩ := List.mem_map.mp hp
      exact broadcast_only (h.node id) id work hwork
    · cases hs
  | deliver k fates =>
    dsimp only [World.step] at hs
    split at hs
    · next packet hk => exact h.handle (h.net packet (List.mem_of_getElem? hk)) hs
    · cases hs

omit [Conv] in
theorem sources_init (machine : σ) : Sources P (World.init machine : World δ σ) where
  node := fun _ =>
    { batch := fun _ he => (nomatch he)
      log := fun _ _ he => (nomatch he)
      wal := fun _ hfile => (nomatch hfile)
      applied := fun _ _ he => (nomatch he) }
  net := fun _ hp => (nomatch hp)

end Cluster

end Sandstore.Raft
