import Sandstore.Server.Write

/-!
# Where the two phases of a write go

`ExecuteWrite` looks the alias of a target up in the cluster view of the moment; `broadcastCommitAsync` and
`broadcastAbortAsync` take the endpoint that was recorded when the chunk was made. **The two agree for
every target exactly if the view has no other address for it** (`outcome_address_iff`). After a node has
moved, it is prepared at its new address and its outcome goes to the old one.
-/

namespace Sandstore.Server

open Metadata
open Orchestrators
open Raft (Bytes)

/-- The prepare call for one target. -/
def prepareLetter (S : Setting) (view : ClusterView) (wr : Write) (finalData : Bytes)
    (target : ChunkLocation) : Option Letter :=
  (resolveEndpoint view target.logicalNodeAlias).map fun address =>
    ⟨address, .prepare wr.ctx.txnID wr.ctx.chunkID finalData (S.calculateChecksum finalData), none⟩

/-- The two notifications for one target. -/
def commitLetter (wr : Write) (target : ChunkLocation) : Letter :=
  ⟨target.physicalEndpoint, .commit wr.ctx.txnID wr.ctx.chunkID, none⟩

def abortLetter (wr : Write) (target : ChunkLocation) : Letter :=
  ⟨target.physicalEndpoint, .abort wr.ctx.txnID wr.ctx.chunkID, none⟩

section

variable (S : Setting) (w : Deployment) (view : ClusterView) (wr : Write) (finalData : Bytes)

/-- What is put on the wire, target by target. -/
theorem wire_sendPrepares : (w.sendPrepares S view wr finalData).wire =
      w.wire ++ wr.ctx.targetNodes.filterMap (prepareLetter S view wr finalData) := by
  unfold Deployment.sendPrepares prepareLetter
  simp only [Deployment.setWrite, Deployment.send, List.map_filterMap]

theorem wire_commitWrite : (w.commitWrite wr).wire = w.wire ++ wr.ctx.targetNodes.map (commitLetter wr) := rfl

theorem wire_abortWrite (err : Orchestrators.Err) :
    (w.abortWrite wr err).wire = w.wire ++ wr.ctx.targetNodes.map (abortLetter wr) := rfl

/-- The view has the recorded endpoint of a target, or does not know the target. -/
def StillAt (target : ChunkLocation) : Prop :=
  ∀ nodes node, view.nodes = some nodes →
    (nodes.find? fun node => node.id = target.logicalNodeAlias) = some node →
      node.address = target.physicalEndpoint

theorem stillAt_iff (target : ChunkLocation) : StillAt view target ↔
      ∀ address, resolveEndpoint view target.logicalNodeAlias = some address → address = target.physicalEndpoint := by
  unfold resolveEndpoint
  constructor
  · intro h address hresolved
    obtain ⟨nodes, hnodes, hfound⟩ := Option.bind_eq_some_iff.mp hresolved
    obtain ⟨node, hnode, rfl⟩ := Option.map_eq_some_iff.mp hfound
    exact h nodes node hnodes hnode
  · intro h nodes node hnodes hnode
    exact h node.address (by rw [hnodes, Option.bind_some, hnode, Option.map_some])

/-- **A prepare and its outcome have one address, for every target, exactly if no target has moved**; and
then every prepare on the wire is followed to its address by either outcome. -/
theorem outcome_address_iff (err : Orchestrators.Err) :
    ((∀ target ∈ wr.ctx.targetNodes, ∀ letter, prepareLetter S view wr finalData target = some letter →
        letter.address = (commitLetter wr target).address ∧
          letter.address = (abortLetter wr target).address) ↔
      ∀ target ∈ wr.ctx.targetNodes, StillAt view target) ∧
    ((∀ target ∈ wr.ctx.targetNodes, StillAt view target) →
      ∀ letter ∈ (w.sendPrepares S view wr finalData).wire.drop w.wire.length,
        (∃ outcome ∈ (w.commitWrite wr).wire.drop w.wire.length, outcome.address = letter.address) ∧
          ∃ outcome ∈ (w.abortWrite wr err).wire.drop w.wire.length, outcome.address = letter.address) := by
  have haddress : ∀ target, StillAt view target → ∀ letter,
      prepareLetter S view wr finalData target = some letter → letter.address = target.physicalEndpoint := by
    intro target h letter hletter
    obtain ⟨address, hresolved, rfl⟩ := Option.map_eq_some_iff.mp hletter
    exact (stillAt_iff view target).mp h address hresolved
  refine ⟨⟨?_, ?_⟩, ?_⟩
  · intro h target htarget
    refine (stillAt_iff view target).mpr fun address hresolved => ?_
    exact (h target htarget ⟨address, .prepare wr.ctx.txnID wr.ctx.chunkID finalData
      (S.calculateChecksum finalData), none⟩ (by rw [prepareLetter, hresolved]; rfl)).1
  · intro h target htarget letter hletter
    have := haddress target (h target htarget) letter hletter
    exact ⟨this, this⟩
  · intro h letter hletter
    rw [wire_sendPrepares, List.drop_left] at hletter
    obtain ⟨target, htarget, hprepare⟩ := List.mem_filterMap.mp hletter
    have hsame := haddress target (h target htarget) letter hprepare
    rw [wire_commitWrite, wire_abortWrite, List.drop_left, List.drop_left]
    exact ⟨⟨commitLetter wr target, List.mem_map_of_mem htarget, hsame.symm⟩,
      ⟨abortLetter wr target, List.mem_map_of_mem htarget, hsame.symm⟩⟩

end

/-- A node that has moved since the chunk was placed on it: it gets the prepare, and its old address gets
the outcome. -/
theorem moved_node_left_prepared :
    let S : Setting := ⟨⟨[⟨"a", "10.0.0.9"⟩], by decide, by decide, fun _ => 1, 0⟩, {}, id, fun _ => [], fun _ => none⟩
    let view : ClusterView := ⟨some [⟨"a", "10.0.0.9"⟩], none⟩
    let wr : Write := ⟨"a", ⟨[1], 0, [7]⟩, ⟨[2], [3], [⟨"a", "10.0.0.1"⟩], false⟩, .reading []⟩
    ((Deployment.init.sendPrepares S view wr [7]).wire.map (·.address),
      (Deployment.init.commitWrite wr).wire.map (·.address),
      (Deployment.init.abortWrite wr .clusterView).wire.map (·.address)) =
        (["10.0.0.9"], ["10.0.0.1"], ["10.0.0.1"]) := by
  decide

end Sandstore.Server
