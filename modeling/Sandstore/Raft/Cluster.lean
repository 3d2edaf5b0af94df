import Sandstore.Raft.Service

/-!
# A cluster and its network

Several nodes over one network. A packet, once sent, stays: delivering it does not use it up, so a
run may deliver it late, twice, out of order or never. A node runs its critical sections one at a
time; a section that dies in one of its writes leaves its node down, with its files, until it is
restarted over them.

Every goroutine that waits for a reply knows what it asked, so a reply carries the request it
belongs to. A handler that returns an error sends no reply. Broadcasts are moves of their own and
may happen at any time: the source starts them in goroutines of their own, and only a leader has
anything to send.
-/

namespace Sandstore.Raft

open Lib Lib.Proc

variable {δ σ : Type}

/-- A fixed set of nodes, each under a name of its own, and their configuration. -/
structure Cluster where
  nodes : List ClusterNode
  distinct : (nodes.map (·.id)).Nodup
  named : ∀ n ∈ nodes, n.id ≠ ""
  maxBatchSize : NodeId → Int
  snapshotThresholdLogs : Nat

namespace Cluster

/-- The names of the nodes. -/
def ids (C : Cluster) : List NodeId := C.nodes.map (·.id)

/-- What the node `id` is built with: its cluster service answers the whole set. -/
def env (C : Cluster) (id : NodeId) : Env :=
  ⟨id, some C.nodes, C.maxBatchSize id, C.snapshotThresholdLogs⟩

theorem named_of_mem (C : Cluster) {id : NodeId} (h : id ∈ C.ids) : id ≠ "" := by
  obtain ⟨n, hn, rfl⟩ := List.mem_map.mp h
  exact C.named n hn

end Cluster

/-- What travels between nodes. -/
inductive Packet (δ : Type) where
  | voteRequest (src dst : NodeId) (savedTerm : Nat) (req : RequestVoteArgs)
  | voteReply (src dst : NodeId) (savedTerm : Nat) (reply : RequestVoteReply)
  | append (src : NodeId) (w : AppendWork δ)
  | appendReply (dst : NodeId) (w : AppendWork δ) (reply : AppendEntriesReply)
  | snapshot (src : NodeId) (w : SnapshotWork)
  | snapshotReply (dst : NodeId) (w : SnapshotWork) (reply : InstallSnapshotReply)

/-- A node and whether its process is running. -/
structure Host (δ σ : Type) where
  node : Node δ σ
  up : Bool := false

structure World (δ σ : Type) where
  host : NodeId → Host δ σ
  net : List (Packet δ) := []

/-- A move of the cluster. `own` is an input a node gives itself or gets from a client, and
`deliver` hands over the packet at a position of the network. -/
inductive Action (δ : Type) where
  | restart (id : NodeId)
  | crash (id : NodeId)
  | own (id : NodeId) (i : Input δ) (fates : List Fate)
  | broadcast (id : NodeId)
  | deliver (k : Nat) (fates : List Fate)

/-- The inputs that do not come over the network. -/
def Input.local : Input δ → Bool
  | .electionTimeout => true
  | .batchTick => true
  | .replicate _ _ => true
  | .cancel _ _ => true
  | .checkCompaction => true
  | _ => false

/-- The cluster before anything has happened: no files, no process. -/
def World.init (machine : σ) : World δ σ where
  host := fun _ => { node := Node.fresh machine }

def World.node (w : World δ σ) (id : NodeId) : Node δ σ := (w.host id).node

/-- Replace one host. -/
def World.set (w : World δ σ) (id : NodeId) (h : Host δ σ) : World δ σ :=
  { w with host := fun j => if j = id then h else w.host j }

/-- Put packets on the network. -/
def World.send (w : World δ σ) (packets : List (Packet δ)) : World δ σ :=
  { w with net := w.net ++ packets }

variable [Conv]

/-- One critical section of one node, and the packets its answer turns into. -/
def World.act (C : Cluster) (M : Machine δ σ) (w : World δ σ) (id : NodeId) (i : Input δ)
    (fates : List Fate) (reply : Output → List (Packet δ)) : Option (World δ σ) :=
  if id ∈ C.ids ∧ (w.host id).up then
    match (program (C.env id) M i).run (w.node id) fates with
    | .back out n => some ((w.set id ⟨n, true⟩).send (reply out))
    | .died n => some (w.set id ⟨n, false⟩)
  else none

/-- The packets of a campaign. -/
def campaignPackets (id : NodeId) (requests : List (NodeId × RequestVoteArgs)) : List (Packet δ) :=
  requests.map fun r => .voteRequest id r.1 (uint64 r.2.term) r.2

/-- What a node's own input puts on the network by itself. -/
def ownPackets (id : NodeId) : Input δ → Output → List (Packet δ)
  | .electionTimeout, .campaign requests => campaignPackets id requests
  | _, _ => []

omit [Conv] in
/-- The packet of one work of a broadcast. -/
def Work.packet (id : NodeId) : Work δ → Packet δ
  | .append w => .append id w
  | .snapshot w => .snapshot id w

/-- A packet reaches its node. -/
def World.handle (C : Cluster) (M : Machine δ σ) (w : World δ σ) (fates : List Fate) :
    Packet δ → Option (World δ σ)
  | .voteRequest src dst savedTerm req =>
    w.act C M dst (.requestVote req) fates fun
      | .voted reply none => [.voteReply dst src savedTerm reply]
      | _ => []
  | .voteReply src dst savedTerm reply =>
    w.act C M dst (.voteReply src savedTerm reply) fates fun _ => []
  | .append src work =>
    w.act C M work.node (.appendEntries (work.request src)) fates fun
      | .appended reply none => [.appendReply src work reply]
      | _ => []
  | .appendReply dst work reply => w.act C M dst (.appendReply work reply) fates fun _ => []
  | .snapshot src work =>
    w.act C M work.node (.installSnapshot work.req) fates fun
      | .installed reply none => [.snapshotReply src work reply]
      | _ => []
  | .snapshotReply dst work reply => w.act C M dst (.snapshotReply work reply) fates fun _ => []

/-- One move. -/
def World.step (C : Cluster) (M : Machine δ σ) (w : World δ σ) : Action δ → Option (World δ σ)
  | .restart id =>
    if id ∈ C.ids ∧ ¬ (w.host id).up then
      (reboot (w.node id)).map fun n => w.set id ⟨n, true⟩
    else none
  | .crash id => some (w.set id ⟨w.node id, false⟩)
  | .own id i fates => if i.local then w.act C M id i fates (ownPackets id i) else none
  | .broadcast id =>
    if id ∈ C.ids ∧ (w.host id).up then
      some (w.send ((broadcastAppendEntries (C.env id) (w.node id)).map (Work.packet id)))
    else none
  | .deliver k fates =>
    match w.net[k]? with
    | some packet => w.handle C M fates packet
    | none => none

/-! ## What a move changes -/

section Set

omit [Conv]

@[simp] theorem World.node_set (w : World δ σ) (id j : NodeId) (h : Host δ σ) :
    (w.set id h).node j = if j = id then h.node else w.node j := by
  by_cases hj : j = id <;> simp [World.node, World.set, hj]

@[simp] theorem World.net_set (w : World δ σ) (id : NodeId) (h : Host δ σ) : (w.set id h).net = w.net := rfl

@[simp] theorem World.node_send (w : World δ σ) (packets : List (Packet δ)) (j : NodeId) :
    (w.send packets).node j = w.node j := rfl

@[simp] theorem World.net_send (w : World δ σ) (packets : List (Packet δ)) :
    (w.send packets).net = w.net ++ packets := rfl

@[simp] theorem World.set_self (w : World δ σ) (id : NodeId) : w.set id (w.host id) = w := by
  have hhost : (fun j => if j = id then w.host id else w.host j) = w.host := by
    ext1 j
    by_cases hj : j = id <;> simp [hj]
  simp only [World.set, hhost]

@[simp] theorem World.send_nil (w : World δ σ) : w.send [] = w := by simp [World.send]

end Set

theorem World.act_cases {C : Cluster} {M : Machine δ σ} {w w' : World δ σ} {id : NodeId} {i : Input δ}
    {fates : List Fate} {reply : Output → List (Packet δ)} (ok : Fate → Prop)
    {Q : Output → Node δ σ → Prop} {D : Node δ σ → Prop} {P : World δ σ → Prop}
    (hfates : ∀ f ∈ fates, ok f) (hs : w.act C M id i fates reply = some w')
    (hmeets : id ∈ C.ids → (w.host id).up = true → Meets ok (program (C.env id) M i) (w.node id) Q D)
    (hback : ∀ out n, Q out n → P ((w.set id ⟨n, true⟩).send (reply out)))
    (hdied : ∀ n, D n → P (w.set id ⟨n, false⟩)) : P w' := by
  unfold World.act at hs
  split at hs
  · next hup =>
    have hrun := (hmeets hup.1 hup.2).run hfates
    cases hr : (program (C.env id) M i).run (w.node id) fates with
    | back out n =>
      rw [hr] at hs hrun
      cases hs
      exact hback out n hrun
    | died n =>
      rw [hr] at hs hrun
      cases hs
      exact hdied n hrun
  · cases hs

end Sandstore.Raft
