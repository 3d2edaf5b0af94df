import Sandstore.Orchestrators.Planes

/-!
# Where chunks are placed

`SelectTargets` filters the nodes, sorts them by their IDs and takes as many as it needs. `GetAllNodes`
ranges over a Go map, so the list comes in any order, and `sort.Slice` is not stable; as no two nodes have
one ID, there is only one sorted list (`sorted_unique`), and **the placement depends on the set of nodes
alone** (`selectTargets_placement`).
-/

namespace Sandstore.Orchestrators

open Metadata
open Raft (ClusterNode NodeId)

/-- The nodes a chunk may be placed on. -/
def usable (nodes : List ClusterNode) : List ClusterNode :=
  nodes.filter fun node => node.id ≠ "" ∧ node.address ≠ ""

/-- The number of replicas after both defaults. -/
def effectiveCount (strategyCount replicaCount : Int) : Int :=
  if replicaCount ≤ 0 then if strategyCount ≤ 0 then defaultReplicaCount else strategyCount
  else replicaCount

theorem effectiveCount_pos (strategyCount replicaCount : Int) : 0 < effectiveCount strategyCount replicaCount := by
  unfold effectiveCount defaultReplicaCount
  split_ifs <;> omega

/-- The list `sort.Slice` leaves. -/
def sortedByID (nodes : List ClusterNode) : List ClusterNode := nodes.insertionSort fun a b => a.id ≤ b.id

instance : Std.Total fun a b : ClusterNode => a.id ≤ b.id := ⟨fun a b => String.le_total a.id b.id⟩

instance : IsTrans ClusterNode fun a b => a.id ≤ b.id := ⟨fun _ _ _ => String.le_trans⟩

variable {nodes : List ClusterNode}

/-- Sorted nodes of different IDs are strictly sorted. -/
theorem strictly_sorted {sorted : List ClusterNode} (hperm : sorted.Perm nodes)
    (h : (nodes.map (·.id)).Nodup) (hsorted : sorted.Pairwise fun a b => a.id ≤ b.id) :
    sorted.Pairwise fun a b => a.id < b.id := by
  have hne : sorted.Pairwise fun a b => a.id ≠ b.id := List.pairwise_map.mp (((hperm.map _).nodup_iff).mpr h)
  exact (hsorted.and hne).imp fun hab => String.not_le.mp fun hba => hab.2 (String.le_antisymm hab.1 hba)

theorem sortedByID_lt (h : (nodes.map (·.id)).Nodup) : (sortedByID nodes).Pairwise fun a b => a.id < b.id :=
  strictly_sorted (List.perm_insertionSort _ nodes) h (List.pairwise_insertionSort _ _)

/-- Whatever sorts the nodes by their IDs, stable or not, ends with this list. -/
theorem sorted_unique {sorted : List ClusterNode} (hperm : sorted.Perm nodes)
    (h : (nodes.map (·.id)).Nodup) (hsorted : sorted.Pairwise fun a b => a.id ≤ b.id) : sorted = sortedByID nodes :=
  (hperm.trans (List.perm_insertionSort _ nodes).symm).eq_of_pairwise
    (fun _ _ _ _ hab hba => absurd hab (String.lt_asymm hba)) (strictly_sorted hperm h hsorted)
    (sortedByID_lt h)

theorem sortedByID_perm {nodes' : List ClusterNode} (hperm : nodes'.Perm nodes)
    (h : (nodes.map (·.id)).Nodup) : sortedByID nodes' = sortedByID nodes :=
  sorted_unique ((List.perm_insertionSort _ nodes').trans hperm) h (List.pairwise_insertionSort _ _)

theorem usable_nodup (h : (nodes.map (·.id)).Nodup) : ((usable nodes).map (·.id)).Nodup :=
  h.sublist (List.filter_sublist.map _)

theorem selectTargets_eq {view : ClusterView} (hview : view.allNodes = some nodes)
    (hnodes : nodes ≠ []) (strategyCount replicaCount : Int) : selectTargets view strategyCount replicaCount =
      if ((usable nodes).length : Int) < effectiveCount strategyCount replicaCount then
        .error (.insufficientNodes (effectiveCount strategyCount replicaCount) (usable nodes).length) else
        .ok (((sortedByID (usable nodes)).take (effectiveCount strategyCount replicaCount).toNat).map
          fun node => ⟨node.id, node.address⟩) := by
  obtain ⟨n, ns, rfl⟩ := List.exists_cons_of_ne_nil hnodes
  unfold selectTargets ClusterView.nodes
  rw [hview]
  rfl

/-- **Placement is a function of the node set.** -/
theorem selectTargets_placement (view : ClusterView) (nodes : List ClusterNode)
    (hview : view.allNodes = some nodes) (hnodes : nodes ≠ []) (hdistinct : (nodes.map (·.id)).Nodup)
    (strategyCount replicaCount : Int) :
    ((∃ err, selectTargets view strategyCount replicaCount = .error err) ↔
        ((usable nodes).length : Int) < effectiveCount strategyCount replicaCount) ∧
      (∀ targets, selectTargets view strategyCount replicaCount = .ok targets →
        (targets.length : Int) = effectiveCount strategyCount replicaCount ∧
        (targets.Pairwise fun a b => a.logicalNodeAlias < b.logicalNodeAlias) ∧
        (∀ target ∈ targets, ∃ node ∈ usable nodes, target = ⟨node.id, node.address⟩) ∧
        ∀ node ∈ usable nodes, ⟨node.id, node.address⟩ ∉ targets →
          ∀ target ∈ targets, target.logicalNodeAlias < node.id) ∧
      ∀ nodes', nodes'.Perm nodes →
        selectTargets { view with allNodes := some nodes' } strategyCount replicaCount =
          selectTargets view strategyCount replicaCount := by
  have hsorted := sortedByID_lt (usable_nodup hdistinct)
  have hpos := effectiveCount_pos strategyCount replicaCount
  rw [selectTargets_eq hview hnodes]
  refine ⟨?_, ?_, ?_⟩
  · split <;> simp_all
  · intro targets h
    split at h
    · cases h
    next henough =>
    cases h
    set k := (effectiveCount strategyCount replicaCount).toNat with hk
    have hlength : (sortedByID (usable nodes)).length = (usable nodes).length :=
      List.length_insertionSort _ _
    refine ⟨?_, ?_, ?_, ?_⟩
    · rw [List.length_map, List.length_take, hlength]
      omega
    · exact List.pairwise_map.mpr (hsorted.sublist (List.take_sublist _ _))
    · intro target htarget
      obtain ⟨node, hnode, rfl⟩ := List.mem_map.mp htarget
      exact ⟨node, (List.mem_insertionSort _).mp (List.mem_of_mem_take hnode), rfl⟩
    · intro node hnode hleft target htarget
      obtain ⟨first, hfirst, rfl⟩ := List.mem_map.mp htarget
      have hmem : node ∈ sortedByID (usable nodes) := (List.mem_insertionSort _).mpr hnode
      rw [← List.take_append_drop k (sortedByID (usable nodes))] at hmem hsorted
      rcases List.mem_append.mp hmem with htaken | hdropped
      · exact absurd (List.mem_map.mpr ⟨node, htaken, rfl⟩) hleft
      · exact (List.pairwise_append.mp hsorted).2.2 first hfirst node hdropped
  · intro nodes' hperm
    have husable : (usable nodes').Perm (usable nodes) := hperm.filter _
    have hnodes' : nodes' ≠ [] := fun h => hnodes (List.perm_nil.mp (h ▸ hperm).symm)
    rw [selectTargets_eq rfl hnodes', husable.length_eq,
      sortedByID_perm husable (usable_nodup hdistinct)]

/-- Two nodes in either order. -/
theorem selectTargets_swapped :
    selectTargets ⟨some [⟨"a", "10.0.0.1"⟩, ⟨"b", "10.0.0.2"⟩], none⟩ 0 2 =
      selectTargets ⟨some [⟨"b", "10.0.0.2"⟩, ⟨"a", "10.0.0.1"⟩], none⟩ 0 2 :=
  (selectTargets_placement ⟨some [⟨"b", "10.0.0.2"⟩, ⟨"a", "10.0.0.1"⟩], none⟩ _ rfl
    (List.cons_ne_nil _ _) (by decide) 0 2).2.2 _ (List.Perm.swap _ _ _)

end Sandstore.Orchestrators
