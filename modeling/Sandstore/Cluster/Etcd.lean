import Sandstore.Lib.Exec
import Sandstore.Lib.Feed
import Sandstore.Lib.OrdMap
import Sandstore.Raft.Types
import Mathlib.Data.List.Induction
import Mathlib.Data.List.Lex
import Mathlib.Order.Fin.Basic

/-!
# The cluster view

`EtcdClusterService` keeps a copy of the node configs in etcd. `Start` gets the configs, gets the leases,
and starts a goroutine that opens a watch and applies its events. The two `Get`s and the watch are three
calls, and the watch asks for no revision: it begins at whatever is current when the server opens it. What
was written between the first `Get` and that point is in neither.

The history of etcd is the list of its events, and a revision is how many of them there have been. **The
law** (`config_view_iff`) says what a node's view comes to when the watch has delivered all there is: it
is etcd's current set of configs exactly if every config that changed between the `Get` and the opening
has been written again since. All of it is for histories in which every config is stored under its own
ID; `unmarshal` is the JSON decoder and may be any function.
-/

namespace Sandstore.Cluster

open Lib
open Raft (Byte Bytes NodeId)

/-! ## Data -/

inductive NodeStatus where
  | unknown
  | alive
  | suspect
  | down
  | other (code : Int)
  deriving DecidableEq, Repr

structure ClusterNode where
  id : Bytes
  address : Bytes
  role : Bytes
  metadata : List (Bytes × Bytes)
  deriving DecidableEq, Repr

structure NodeLiveness where
  nodeID : Bytes
  status : NodeStatus
  leaseID : Int
  lastRenewedAt : Int
  deriving DecidableEq, Repr

structure Node where
  id : Bytes
  address : Bytes
  status : NodeStatus
  metadata : List (Bytes × Bytes)
  deriving DecidableEq, Repr

/-- `json.Unmarshal` into the two types, nothing where it fails. -/
structure Unmarshal where
  clusterNode : Bytes → Option ClusterNode
  nodeLiveness : Bytes → Option NodeLiveness

def bytesOf (s : String) : Bytes := s.toList.map fun c => Fin.ofNat 256 c.toNat

@[irreducible] def prefixConfig : Bytes := bytesOf "/sandstore/config/nodes/"

@[irreducible] def prefixLease : Bytes := bytesOf "/sandstore/leases/"

/-! ## etcd -/

inductive Event where
  | put (key value : Bytes)
  | delete (key : Bytes)
  deriving DecidableEq, Repr

def Event.key : Event → Bytes
  | .put key _ => key
  | .delete key => key

@[simp] theorem Event.key_put (key value : Bytes) : (Event.put key value).key = key := rfl

@[simp] theorem Event.key_delete (key : Bytes) : (Event.delete key).key = key := rfl

/-- The keys and values after a history. -/
def kvs (events : List Event) : OrdMap Bytes Bytes :=
  events.foldl (fun m ev =>
    match ev with
    | .put key value => m.insert key value
    | .delete key => m.erase key) ∅

/-- A `Get` with `WithPrefix`. -/
def getFrom (events : List Event) (start : Bytes) : List (Bytes × Bytes) :=
  (kvs events).entries.filter fun kv => start.isPrefixOf kv.1

/-- The config of a node in etcd: the value at its key, if that is a config of this ID. -/
def configAt (unmarshal : Unmarshal) (events : List Event) (id : Bytes) : Option ClusterNode :=
  (((kvs events).get (prefixConfig ++ id)).bind unmarshal.clusterNode).filter (·.id = id)

/-! ## The service -/

/-- How far `Start` and the watch have got. The revisions are those of the first `Get`, of the opening of
the watch, and of the last event delivered. -/
inductive Phase where
  | new
  | gotConfig (got : Nat)
  | gotLeases (got : Nat)
  | watching (got opened delivered : Nat)
  deriving DecidableEq, Repr

structure EtcdClusterService where
  configCache : OrdMap Bytes ClusterNode := ∅
  livenessCache : OrdMap Bytes NodeLiveness := ∅
  phase : Phase := .new

namespace EtcdClusterService

variable (unmarshal : Unmarshal)

/-- The first half of `syncState`. -/
def syncConfig (events : List Event) (s : EtcdClusterService) : EtcdClusterService :=
  { s with
    configCache := (getFrom events prefixConfig).foldl
      (fun cache kv =>
        match unmarshal.clusterNode kv.2 with
        | some n => cache.insert n.id n
        | none => cache)
      s.configCache
    phase := .gotConfig events.length }

/-- The second half of `syncState`. -/
def syncLeases (events : List Event) (got : Nat) (s : EtcdClusterService) : EtcdClusterService :=
  { s with
    livenessCache := (getFrom events prefixLease).foldl
      (fun cache kv =>
        match unmarshal.nodeLiveness kv.2 with
        | some l => cache.insert l.nodeID l
        | none => cache)
      s.livenessCache
    phase := .gotLeases got }

/-- A key with something behind the given front. -/
def isUnder (front key : Bytes) : Bool := decide (key.length > front.length) && front.isPrefixOf key

def handleEvent (s : EtcdClusterService) (ev : Event) : EtcdClusterService :=
  if isUnder prefixConfig ev.key then
    match ev with
    | .put _ value =>
      match unmarshal.clusterNode value with
      | some n => { s with configCache := s.configCache.insert n.id n }
      | none => s
    | .delete key => { s with configCache := s.configCache.erase (key.drop prefixConfig.length) }
  else if isUnder prefixLease ev.key then
    match ev with
    | .put _ value =>
      match unmarshal.nodeLiveness value with
      | some l => { s with livenessCache := s.livenessCache.insert l.nodeID l }
      | none => s
    | .delete key =>
      match s.livenessCache.get (key.drop prefixLease.length) with
      | some entry =>
        { s with livenessCache := s.livenessCache.insert (key.drop prefixLease.length) { entry with status := .down } }
      | none => s
  else s

/-- `GetAllNodes`. Go walks its map in no particular order, here it is that of the IDs. -/
def getAllNodes (s : EtcdClusterService) : List Node :=
  s.configCache.entries.map fun e =>
    { id := e.2.id
      address := e.2.address
      status := ((s.livenessCache.get e.1).map (·.status)).getD .down
      metadata := e.2.metadata }

/-- The quorum that the replicator takes from it. -/
def quorum (s : EtcdClusterService) : Nat := s.getAllNodes.length / 2 + 1

end EtcdClusterService

/-! ## Nodes that start while configs are written -/

structure EtcdCluster where
  events : List Event
  services : NodeId → EtcdClusterService := fun _ => {}

inductive Move where
  | write (ev : Event)
  | getConfig (node : NodeId)
  | getLeases (node : NodeId)
  | openWatch (node : NodeId)
  | deliver (node : NodeId)
  deriving DecidableEq, Repr

namespace EtcdCluster

variable (unmarshal : Unmarshal)

/-- One node's service changes. -/
def set (w : EtcdCluster) (node : NodeId) (s : EtcdClusterService) : EtcdCluster :=
  { w with services := Function.update w.services node s }

/-- Deleting a key that is not there makes no event. -/
def step (w : EtcdCluster) : Move → Option EtcdCluster
  | .write (.put key value) => some { w with events := w.events ++ [.put key value] }
  | .write (.delete key) =>
    if ((kvs w.events).get key).isSome then some { w with events := w.events ++ [.delete key] } else none
  | .getConfig node =>
    match (w.services node).phase with
    | .new => some (w.set node ((w.services node).syncConfig unmarshal w.events))
    | _ => none
  | .getLeases node =>
    match (w.services node).phase with
    | .gotConfig got => some (w.set node ((w.services node).syncLeases unmarshal w.events got))
    | _ => none
  | .openWatch node =>
    match (w.services node).phase with
    | .gotLeases got =>
      some (w.set node { w.services node with phase := .watching got w.events.length w.events.length })
    | _ => none
  | .deliver node =>
    match (w.services node).phase with
    | .watching got opened delivered =>
      w.events[delivered]?.map fun ev =>
        w.set node { (w.services node).handleEvent unmarshal ev with phase := .watching got opened (delivered + 1) }
    | _ => none

end EtcdCluster

/-! ## Histories of configs under their own IDs -/

/-- A config is stored under its ID, which is not empty. -/
def Proper (unmarshal : Unmarshal) : Event → Prop
  | .put key value => prefixConfig <+: key →
      ∃ n, unmarshal.clusterNode value = some n ∧ key = prefixConfig ++ n.id ∧ n.id ≠ []
  | .delete _ => True

/-- What an event writes into the set of configs. -/
def written (unmarshal : Unmarshal) (ev : Event) : Option (KeyWrite Bytes ClusterNode) :=
  if EtcdClusterService.isUnder prefixConfig ev.key then
    some ⟨ev.key.drop prefixConfig.length,
      match ev with
      | .put _ value => unmarshal.clusterNode value
      | .delete _ => none⟩
  else none

def writes (unmarshal : Unmarshal) (events : List Event) : List (KeyWrite Bytes ClusterNode) :=
  events.filterMap (written unmarshal)

section Histories

variable {unmarshal : Unmarshal} {events : List Event} {ev : Event}

theorem isUnder_iff {front key : Bytes} :
    EtcdClusterService.isUnder front key = true ↔ ∃ id, id ≠ [] ∧ key = front ++ id := by
  unfold EtcdClusterService.isUnder
  rw [Bool.and_eq_true, decide_eq_true_iff, List.isPrefixOf_iff_prefix]
  constructor
  · rintro ⟨hlength, id, rfl⟩
    refine ⟨id, ?_, rfl⟩
    rintro rfl
    simp at hlength
  · rintro ⟨id, hid, rfl⟩
    have hpos := List.length_pos_of_ne_nil hid
    exact ⟨by rw [List.length_append]; omega, List.prefix_append front id⟩

theorem get_insert_update (m : OrdMap Bytes ClusterNode) (id : Bytes) (n : ClusterNode) :
    (m.insert id n).get = Function.update m.get id (some n) := by
  ext1 k
  rw [OrdMap.get_insert, Function.update_apply]
  split_ifs <;> rfl

theorem get_erase_update (m : OrdMap Bytes ClusterNode) (id : Bytes) :
    (m.erase id).get = Function.update m.get id none := by
  ext1 k
  rw [OrdMap.get_erase, Function.update_apply]
  split_ifs <;> rfl

theorem kvs_append (events : List Event) (ev : Event) : kvs (events ++ [ev]) = match ev with
    | .put key value => (kvs events).insert key value
    | .delete key => (kvs events).erase key := by
  rw [kvs, List.foldl_append]
  rfl

theorem writes_append (events events' : List Event) :
    writes unmarshal (events ++ events') = writes unmarshal events ++ writes unmarshal events' :=
  List.filterMap_append

/-- The events of such a history: a config under its ID, the deletion of one, and events beside them. -/
theorem Proper.cases (h : Proper unmarshal ev) :
    (∃ n value, n.id ≠ [] ∧ ev = .put (prefixConfig ++ n.id) value ∧ unmarshal.clusterNode value = some n ∧
      written unmarshal ev = some ⟨n.id, some n⟩) ∨
    (∃ id, id ≠ [] ∧ ev = .delete (prefixConfig ++ id) ∧ written unmarshal ev = some ⟨id, none⟩) ∨
    (written unmarshal ev = none ∧ EtcdClusterService.isUnder prefixConfig ev.key = false ∧
      ((∃ key value, ev = .put key value ∧ ¬ prefixConfig <+: key) ∨ ∃ key, ev = .delete key)) := by
  cases hunder : EtcdClusterService.isUnder prefixConfig ev.key with
  | true =>
    obtain ⟨id, hid, hkey⟩ := isUnder_iff.mp hunder
    cases ev with
    | put key value =>
      rw [Event.key_put] at hkey
      obtain ⟨n, hn, rfl, hne⟩ := h (hkey ▸ List.prefix_append prefixConfig id)
      refine .inl ⟨n, value, hne, rfl, hn, ?_⟩
      rw [written, if_pos hunder, Event.key_put, List.drop_left, hn]
    | delete key =>
      subst hkey
      refine .inr (.inl ⟨id, hid, rfl, ?_⟩)
      rw [written, if_pos hunder, Event.key_delete, List.drop_left]
  | false =>
    have hno : ¬ EtcdClusterService.isUnder prefixConfig ev.key = true := by
      rw [hunder]
      exact Bool.false_ne_true
    refine .inr (.inr ⟨if_neg hno, rfl, ?_⟩)
    cases ev with
    | put key value =>
      refine .inl ⟨key, value, rfl, fun hfront => ?_⟩
      obtain ⟨n, -, rfl, hne⟩ := h hfront
      exact hno (isUnder_iff.mpr ⟨n.id, hne, rfl⟩)
    | delete key => exact .inr ⟨key, rfl⟩

theorem writes_ne_nil {w : KeyWrite Bytes ClusterNode} (hw : w ∈ writes unmarshal events) : w.key ≠ [] := by
  obtain ⟨ev, -, hev⟩ := List.mem_filterMap.mp hw
  unfold written at hev
  split at hev
  · next hunder =>
    obtain ⟨id, hid, hkey⟩ := isUnder_iff.mp hunder
    cases hev
    simpa [hkey] using hid
  · cases hev

theorem writes_singleton (ev : Event) : writes unmarshal [ev] = (written unmarshal ev).toList := by
  rw [writes]
  cases hw : written unmarshal ev <;> simp [hw]

/-- **Etcd's set of configs is what its history has written into it.** -/
theorem configAt_eq_play (hproper : ∀ ev ∈ events, Proper unmarshal ev) :
    configAt unmarshal events = play (fun _ => none) (writes unmarshal events) := by
  induction events using List.reverseRecOn with
  | nil => rfl
  | append_singleton events ev ih =>
    have hbefore := ih fun ev' hev' => hproper ev' (List.mem_append_left _ hev')
    have hlast := hproper ev (List.mem_append_right _ List.mem_cons_self)
    rw [writes_append, play_append, ← hbefore, writes_singleton]
    funext id
    rcases hlast.cases with ⟨n, value, hne, rfl, hn, hw⟩ | ⟨id', hne, rfl, hw⟩ | ⟨hw, hunder, hev⟩
    · rw [hw]
      show _ = Function.update (configAt unmarshal events) n.id (some n) id
      rw [configAt, kvs_append, OrdMap.get_insert]
      by_cases hid : id = n.id
      · subst hid
        simp [hn]
      · rw [Function.update_of_ne hid, if_neg fun heq => hid (List.append_cancel_left heq), configAt]
    · rw [hw]
      show _ = Function.update (configAt unmarshal events) id' none id
      rw [configAt, kvs_append, OrdMap.get_erase]
      by_cases hid : id = id'
      · subst hid
        simp
      · rw [Function.update_of_ne hid, if_neg fun heq => hid (List.append_cancel_left heq), configAt]
    · rw [hw]
      show _ = configAt unmarshal events id
      rcases hev with ⟨key, value, rfl, hbeside⟩ | ⟨key, rfl⟩
      · have hkey : prefixConfig ++ id ≠ key := by
          rintro rfl
          exact hbeside (List.prefix_append prefixConfig id)
        rw [configAt, kvs_append, OrdMap.get_insert_ne _ _ hkey, configAt]
      · by_cases hkey : prefixConfig ++ id = key
        · -- no config is ever stored under the empty ID
          have hid : id = [] := by
            by_contra hid
            rw [Event.key, isUnder_iff.mpr ⟨id, hid, hkey.symm⟩] at hunder
            cases hunder
          have hnone : configAt unmarshal events id = none := by
            rw [hbefore, hid]
            exact play_unwritten (fun w hmem => writes_ne_nil hmem) _
          rw [hnone, configAt, kvs_append, hkey, OrdMap.get_erase_self]
          rfl
        · rw [configAt, kvs_append, OrdMap.get_erase_ne _ hkey, configAt]

/-- What etcd holds under the front of the configs are configs under their IDs. -/
theorem kvs_proper (hproper : ∀ ev ∈ events, Proper unmarshal ev) {key value : Bytes}
    (hget : (kvs events).get key = some value) (hfront : prefixConfig <+: key) :
    ∃ n, unmarshal.clusterNode value = some n ∧ key = prefixConfig ++ n.id := by
  induction events using List.reverseRecOn with
  | nil => cases hget
  | append_singleton events ev ih =>
    have hbefore := ih fun ev' hev' => hproper ev' (List.mem_append_left _ hev')
    have hlast := hproper ev (List.mem_append_right _ List.mem_cons_self)
    rw [kvs_append] at hget
    cases ev with
    | put key' value' =>
      rw [OrdMap.get_insert] at hget
      split at hget
      · next hkey =>
        cases hget
        obtain ⟨n, hn, hkey', -⟩ := hlast (hkey ▸ hfront)
        exact ⟨n, hn, hkey.trans hkey'⟩
      · exact hbefore hget
    | delete key' =>
      rw [OrdMap.get_erase] at hget
      split at hget
      · cases hget
      · exact hbefore hget

/-- `handleEvent` writes into the cache what the event writes into etcd's set. -/
theorem handleEvent_configCache (hproper : Proper unmarshal ev) (s : EtcdClusterService) :
    (s.handleEvent unmarshal ev).configCache.get = play s.configCache.get (writes unmarshal [ev]) := by
  rw [writes_singleton]
  unfold EtcdClusterService.handleEvent
  rcases hproper.cases with ⟨n, value, hne, rfl, hn, hw⟩ | ⟨id, hne, rfl, hw⟩ | ⟨hw, hunder, -⟩
  · have hunder : EtcdClusterService.isUnder prefixConfig (Event.put (prefixConfig ++ n.id) value).key = true :=
      isUnder_iff.mpr ⟨n.id, hne, rfl⟩
    rw [hw, if_pos hunder]
    simp only [hn]
    exact get_insert_update _ _ _
  · have hunder : EtcdClusterService.isUnder prefixConfig (Event.delete (prefixConfig ++ id)).key = true :=
      isUnder_iff.mpr ⟨id, hne, rfl⟩
    rw [hw, if_pos hunder]
    simp only [List.drop_left]
    exact get_erase_update _ _
  · -- a lease, or a key that is nobody's
    rw [hw, if_neg (by rw [hunder]; exact Bool.false_ne_true)]
    split
    · split
      · split <;> rfl
      · split <;> rfl
    · rfl

/-- The writes of the configs that a `Get` answers. -/
def listed (unmarshal : Unmarshal) (found : List (Bytes × Bytes)) : List (KeyWrite Bytes ClusterNode) :=
  found.map fun kv => ⟨kv.1.drop prefixConfig.length, unmarshal.clusterNode kv.2⟩

theorem syncConfig_fold {found : List (Bytes × Bytes)}
    (hfound : ∀ kv ∈ found, ∃ n, unmarshal.clusterNode kv.2 = some n ∧ kv.1 = prefixConfig ++ n.id)
    (cache : OrdMap Bytes ClusterNode) : (found.foldl (fun cache kv => match unmarshal.clusterNode kv.2 with
      | some n => cache.insert n.id n
      | none => cache) cache).get = play cache.get (listed unmarshal found) := by
  induction found generalizing cache with
  | nil => rfl
  | cons kv found ih =>
    obtain ⟨n, hn, hkey⟩ := hfound kv List.mem_cons_self
    have hput : (cache.insert n.id n).get =
        Function.update cache.get (kv.1.drop prefixConfig.length) (unmarshal.clusterNode kv.2) := by
      rw [hkey, List.drop_left, hn, get_insert_update]
    rw [List.foldl_cons, hn, ih (fun kv' hkv' => hfound kv' (List.mem_cons_of_mem _ hkv')), hput]
    rfl

/-- **What `syncState` puts into an empty cache is etcd's set of configs at that revision.** -/
theorem syncConfig_configCache (hproper : ∀ ev ∈ events, Proper unmarshal ev) {s : EtcdClusterService}
    (hempty : s.configCache = ∅) : (s.syncConfig unmarshal events).configCache.get = configAt unmarshal events := by
  have hfound : ∀ kv ∈ getFrom events prefixConfig,
      ∃ n, unmarshal.clusterNode kv.2 = some n ∧ kv.1 = prefixConfig ++ n.id := by
    intro kv hkv
    obtain ⟨hmem, hfront⟩ := List.mem_filter.mp hkv
    exact kvs_proper hproper (OrdMap.get_eq_some_iff.mpr hmem) (List.isPrefixOf_iff_prefix.mp hfront)
  have hkeys : ((listed unmarshal (getFrom events prefixConfig)).map (·.key)).Nodup := by
    rw [listed, List.map_map]
    refine List.Nodup.map_on ?_ (((kvs events).entries_nodup).filter _)
    intro kv hkv kv' hkv' heq
    obtain ⟨n, hn, hkey⟩ := hfound kv hkv
    obtain ⟨n', hn', hkey'⟩ := hfound kv' hkv'
    have hsame : kv.1 = kv'.1 := by
      rw [Function.comp_apply, Function.comp_apply, hkey, hkey', List.drop_left, List.drop_left] at heq
      have hids : n.id = n'.id := heq
      rw [hkey, hkey', hids]
    have hmem : (kv'.1, kv.2) ∈ (kvs events).entries := hsame ▸ (List.mem_filter.mp hkv).1
    exact Prod.ext hsame ((kvs events).entry_unique hmem (List.mem_filter.mp hkv').1)
  rw [EtcdClusterService.syncConfig, hempty]
  rw [syncConfig_fold hfound]
  funext id
  cases hget : (kvs events).get (prefixConfig ++ id) with
  | none =>
    rw [configAt, hget, play_unwritten]
    · rfl
    · intro w hw heq
      obtain ⟨kv, hkv, rfl⟩ := List.mem_map.mp hw
      obtain ⟨n, -, hkey⟩ := hfound kv hkv
      rw [hkey, List.drop_left] at heq
      rw [← heq, ← hkey, OrdMap.get_eq_some_iff.mpr (List.mem_filter.mp hkv).1] at hget
      cases hget
  | some value =>
    obtain ⟨n, hn, hkey⟩ := kvs_proper hproper hget (List.prefix_append prefixConfig id)
    have hid : id = n.id := List.append_cancel_left hkey
    have hmem : KeyWrite.mk id (some n) ∈ listed unmarshal (getFrom events prefixConfig) := by
      refine List.mem_map.mpr ⟨(prefixConfig ++ id, value), List.mem_filter.mpr ⟨?_, ?_⟩, ?_⟩
      · exact OrdMap.get_eq_some_iff.mp hget
      · exact List.isPrefixOf_iff_prefix.mpr (List.prefix_append prefixConfig id)
      · rw [List.drop_left, hn]
    rw [configAt, hget, Option.bind_some, hn, Option.filter_some, if_pos (decide_eq_true hid.symm)]
    exact play_of_mem hkeys hmem _

end Histories

/-! ## What a node's cache follows -/

namespace EtcdCluster

variable {unmarshal : Unmarshal}

/-- The cache of a service, by how far it has got. -/
def Follows (unmarshal : Unmarshal) (events : List Event) (s : EtcdClusterService) : Prop :=
  match s.phase with
  | .new => s.configCache = ∅
  | .gotConfig got | .gotLeases got =>
    got ≤ events.length ∧ s.configCache.get = configAt unmarshal (events.take got)
  | .watching got opened delivered =>
    got ≤ opened ∧ opened ≤ delivered ∧ delivered ≤ events.length ∧
      s.configCache.get =
        play (configAt unmarshal (events.take got)) (writes unmarshal ((events.take delivered).drop opened))

variable {events : List Event}

/-- What has not been delivered yet does not matter. -/
theorem Follows.write {s : EtcdClusterService} (h : Follows unmarshal events s) (ev : Event) :
    Follows unmarshal (events ++ [ev]) s := by
  unfold Follows at h ⊢
  have hlonger : ∀ n, n ≤ events.length → n ≤ (events ++ [ev]).length ∧ (events ++ [ev]).take n = events.take n :=
    fun n hn => ⟨by rw [List.length_append]; omega, List.take_append_of_le_length hn⟩
  cases hphase : s.phase with
  | new =>
    rw [hphase] at h
    exact h
  | gotConfig got | gotLeases got =>
    rw [hphase] at h
    obtain ⟨hlength, htake⟩ := hlonger got h.1
    exact ⟨hlength, htake ▸ h.2⟩
  | watching got opened delivered =>
    rw [hphase] at h
    obtain ⟨hgot, hopened, hdelivered, hcache⟩ := h
    have hgotTake := (hlonger got (by omega)).2
    obtain ⟨hlength, htake⟩ := hlonger delivered hdelivered
    refine ⟨hgot, hopened, hlength, ?_⟩
    rw [hgotTake, htake]
    exact hcache

/-- Every service follows, as long as the history is proper. -/
def Sound (unmarshal : Unmarshal) (w : EtcdCluster) : Prop :=
  (∀ ev ∈ w.events, Proper unmarshal ev) → ∀ node, Follows unmarshal w.events (w.services node)

variable {w : EtcdCluster}

theorem Sound.set (h : Sound unmarshal w) {node : NodeId} {s : EtcdClusterService}
    (hs : (∀ ev ∈ w.events, Proper unmarshal ev) → Follows unmarshal w.events s) :
    Sound unmarshal (w.set node s) := by
  intro hproper other
  by_cases hother : other = node
  · rw [hother]
    show Follows unmarshal w.events (Function.update w.services node s node)
    rw [Function.update_self]
    exact hs hproper
  · show Follows unmarshal w.events (Function.update w.services node s other)
    rw [Function.update_of_ne hother]
    exact h hproper other

theorem Sound.write (h : Sound unmarshal w) (ev : Event) : Sound unmarshal { w with events := w.events ++ [ev] } := by
  intro hproper node
  exact (h (fun ev' hev' => hproper ev' (List.mem_append_left _ hev')) node).write ev

theorem Sound.step {w' : EtcdCluster} {m : Move} (h : Sound unmarshal w) (hs : w.step unmarshal m = some w') :
    Sound unmarshal w' := by
  cases m with
  | write ev =>
    cases ev with
    | put key value =>
      cases hs
      exact h.write _
    | delete key =>
      simp only [EtcdCluster.step] at hs
      split at hs
      · cases hs
        exact h.write _
      · cases hs
  | getConfig node =>
    simp only [EtcdCluster.step] at hs
    split at hs
    · next hphase =>
      cases hs
      refine h.set fun hproper => ?_
      have hempty : (w.services node).configCache = ∅ := by
        have hbefore := h hproper node
        rw [Follows, hphase] at hbefore
        exact hbefore
      refine ⟨le_rfl, ?_⟩
      rw [List.take_length]
      exact syncConfig_configCache hproper hempty
    · cases hs
  | getLeases node =>
    simp only [EtcdCluster.step] at hs
    split at hs
    · next got hphase =>
      cases hs
      refine h.set fun hproper => ?_
      have hbefore := h hproper node
      rw [Follows, hphase] at hbefore
      exact hbefore
    · cases hs
  | openWatch node =>
    simp only [EtcdCluster.step] at hs
    split at hs
    · next got hphase =>
      cases hs
      refine h.set fun hproper => ?_
      have hbefore := h hproper node
      rw [Follows, hphase] at hbefore
      refine ⟨hbefore.1, le_rfl, le_rfl, ?_⟩
      rw [List.take_length, List.drop_length]
      exact hbefore.2
    · cases hs
  | deliver node =>
    simp only [EtcdCluster.step] at hs
    split at hs
    · next got opened delivered hphase =>
      obtain ⟨ev, hev, rfl⟩ := Option.map_eq_some_iff.mp hs
      obtain ⟨hbound, rfl⟩ := List.getElem?_eq_some_iff.mp hev
      refine h.set fun hproper => ?_
      have hbefore := h hproper node
      rw [Follows, hphase] at hbefore
      obtain ⟨hgot, hopened, hdelivered, hcache⟩ := hbefore
      refine ⟨hgot, by omega, hbound, ?_⟩
      have hnext : (w.events.take (delivered + 1)).drop opened =
          (w.events.take delivered).drop opened ++ [w.events[delivered]] := by
        rw [List.take_succ_eq_append_getElem hbound, List.drop_append_of_le_length]
        rw [List.length_take]
        omega
      rw [hnext, writes_append, play_append, ← hcache]
      exact handleEvent_configCache (hproper _ (List.getElem_mem hbound)) _
    · cases hs

/-- The watch of a node has delivered all there is; the revisions are those of its first `Get` and of
the opening of its watch. -/
def Drained (w : EtcdCluster) (node : NodeId) (got opened : Nat) : Prop :=
  (w.services node).phase = .watching got opened w.events.length

/-- A config that changed between the two revisions has been written again since. -/
def Unmissed (unmarshal : Unmarshal) (w : EtcdCluster) (got opened : Nat) : Prop :=
  ∀ id, configAt unmarshal (w.events.take got) id ≠ configAt unmarshal (w.events.take opened) id →
    ∃ ev ∈ w.events.drop opened, ev.key = prefixConfig ++ id

/-- The parts of a node that come from its config. -/
def static (n : Node) : Bytes × Bytes × List (Bytes × Bytes) := (n.id, n.address, n.metadata)

theorem writes_key {unmarshal : Unmarshal} {id : Bytes} (hid : id ≠ []) :
    (∃ w ∈ writes unmarshal events, w.key = id) ↔ ∃ ev ∈ events, ev.key = prefixConfig ++ id := by
  constructor
  · rintro ⟨w, hw, rfl⟩
    obtain ⟨ev, hev, hwritten⟩ := List.mem_filterMap.mp hw
    unfold written at hwritten
    split at hwritten
    · next hunder =>
      obtain ⟨id, -, hkey⟩ := isUnder_iff.mp hunder
      cases hwritten
      exact ⟨ev, hev, by rw [hkey, List.drop_left]⟩
    · cases hwritten
  · rintro ⟨ev, hev, hkey⟩
    refine ⟨_, List.mem_filterMap.mpr ⟨ev, hev, if_pos (isUnder_iff.mpr ⟨id, hid, hkey⟩)⟩, ?_⟩
    rw [hkey, List.drop_left]

theorem configAt_nil (hproper : ∀ ev ∈ events, Proper unmarshal ev) : configAt unmarshal events [] = none := by
  rw [configAt_eq_play hproper]
  exact play_unwritten (fun w hw => writes_ne_nil hw) _

theorem Sound.view_iff (h : Sound unmarshal w) (hproper : ∀ ev ∈ w.events, Proper unmarshal ev)
    {node : NodeId} {got opened : Nat} (hdrained : w.Drained node got opened) :
    (w.services node).configCache.get = configAt unmarshal w.events ↔ Unmissed unmarshal w got opened := by
  have hfollows := h hproper node
  rw [Follows, hdrained] at hfollows
  obtain ⟨hgot, hopened, -, hcache⟩ := hfollows
  have hat : ∀ n, ∀ ev ∈ w.events.take n, Proper unmarshal ev :=
    fun n ev hev => hproper ev ((List.take_subset n w.events) hev)
  have hnow : configAt unmarshal w.events =
      play (configAt unmarshal (w.events.take opened)) (writes unmarshal (w.events.drop opened)) := by
    rw [configAt_eq_play (hat opened), ← play_append, ← writes_append, List.take_append_drop,
      configAt_eq_play hproper]
  have hnamed : ∀ id, configAt unmarshal (w.events.take got) id ≠ configAt unmarshal (w.events.take opened) id →
      id ≠ [] := by
    rintro id hchanged rfl
    exact hchanged ((configAt_nil (hat got)).trans (configAt_nil (hat opened)).symm)
  rw [hcache, hnow, List.take_length, play_eq_iff]
  constructor
  · intro hagree id hchanged
    rw [← writes_key (hnamed id hchanged)]
    by_contra hunwritten
    exact hchanged (hagree id fun w hw heq => hunwritten ⟨w, hw, heq⟩)
  · intro hunmissed id hunwritten
    by_contra hchanged
    obtain ⟨w, hw, heq⟩ := (writes_key (hnamed id hchanged)).mpr (hunmissed id hchanged)
    exact hunwritten w hw heq

theorem getAllNodes_static (s : EtcdClusterService) :
    s.getAllNodes.map static = s.configCache.values.map fun n => (n.id, n.address, n.metadata) := by
  rw [EtcdClusterService.getAllNodes, List.map_map, OrdMap.values, List.map_map]
  rfl

end EtcdCluster

/-- **When its watch has delivered all there is, a node's view is etcd's current set of configs if and only
if every config that changed between its `Get` and the opening of its watch has been written since.** Two
nodes whose views are current list the same configs and count the same quorum. -/
theorem config_view_iff (unmarshal : Unmarshal) {history : List Event} {w : EtcdCluster}
    (hreached : Reached (EtcdCluster.step unmarshal) { events := history } w)
    (hproper : ∀ ev ∈ w.events, Proper unmarshal ev) {node : NodeId} {got opened : Nat}
    (hdrained : w.Drained node got opened) :
    ((∀ id, (w.services node).configCache.get id = configAt unmarshal w.events id) ↔
      w.Unmissed unmarshal got opened) ∧
    ∀ node' got' opened', w.Drained node' got' opened' → w.Unmissed unmarshal got opened →
      w.Unmissed unmarshal got' opened' →
      (w.services node).getAllNodes.map EtcdCluster.static =
          (w.services node').getAllNodes.map EtcdCluster.static ∧
        (w.services node).quorum = (w.services node').quorum := by
  have hsound : w.Sound unmarshal :=
    hreached.invariant (fun _ _ => rfl) fun _ _ _ h hs => h.step hs
  refine ⟨⟨fun hview => ?_, fun hunmissed => ?_⟩, ?_⟩
  · exact (hsound.view_iff hproper hdrained).mp (funext hview)
  · exact congrFun ((hsound.view_iff hproper hdrained).mpr hunmissed)
  · intro node' got' opened' hdrained' hunmissed hunmissed'
    have hview := (hsound.view_iff hproper hdrained).mpr hunmissed
    have hview' := (hsound.view_iff hproper hdrained').mpr hunmissed'
    have hcache : (w.services node).configCache = (w.services node').configCache :=
      OrdMap.ext_get (congrFun (hview.trans hview'.symm))
    have hnodes : (w.services node).getAllNodes.map EtcdCluster.static =
        (w.services node').getAllNodes.map EtcdCluster.static := by
      rw [EtcdCluster.getAllNodes_static, EtcdCluster.getAllNodes_static, hcache]
    refine ⟨hnodes, ?_⟩
    have hlength := congrArg List.length hnodes
    rw [List.length_map, List.length_map] at hlength
    rw [EtcdClusterService.quorum, EtcdClusterService.quorum, hlength]

section Demo

instance (w : EtcdCluster) (node : NodeId) (got opened : Nat) : Decidable (w.Drained node got opened) :=
  inferInstanceAs (Decidable (_ = _))

/-- A value that is nothing but the ID. -/
def bareIDs : Unmarshal where
  clusterNode := fun value => some ⟨value, [], [], []⟩
  nodeLiveness := fun _ => none

def configOf (id : Bytes) : Event := .put (prefixConfig ++ id) id

theorem proper_configOf {id : Bytes} (hid : id ≠ []) : Proper bareIDs (configOf id) :=
  fun _ => ⟨⟨id, [], [], []⟩, rfl, rfl, hid⟩

theorem proper_two : ∀ ev ∈ [configOf [97], configOf [98]], Proper bareIDs ev := by
  intro ev hev
  simp only [List.mem_cons, List.not_mem_nil, or_false] at hev
  rcases hev with rfl | rfl
  · exact proper_configOf (by decide)
  · exact proper_configOf (by decide)

/-- Node `a` starts, and a config is written when its watch is open. -/
def lateWrite : List Move :=
  [.getConfig "a", .getLeases "a", .openWatch "a", .write (configOf [98]), .deliver "a"]

theorem config_view_late :
    ∃ w, exec (EtcdCluster.step bareIDs) { events := [configOf [97]] } lateWrite = some w ∧
      ∀ id, (w.services "a").configCache.get id = configAt bareIDs w.events id := by
  obtain ⟨w, hw, hevents, hdrained⟩ : ∃ w,
      exec (EtcdCluster.step bareIDs) { events := [configOf [97]] } lateWrite = some w ∧
        w.events = [configOf [97], configOf [98]] ∧ w.Drained "a" 1 1 := by decide +kernel
  have hproper : ∀ ev ∈ w.events, Proper bareIDs ev := by
    rw [hevents]
    exact proper_two
  exact ⟨w, hw, (config_view_iff bareIDs ⟨lateWrite, hw⟩ hproper hdrained).1.mpr
    fun id hchanged => absurd rfl hchanged⟩

/-- The config is written after the `Get` and before the watch opens; node `b` starts after that. -/
def missedWrite : List Move :=
  [.getConfig "a", .write (configOf [98]), .getLeases "a", .openWatch "a",
    .getConfig "b", .getLeases "b", .openWatch "b"]

/-- A config of ID `y` is written at the key of `x`. -/
def misnamedWrite : List Move :=
  [.getConfig "a", .getLeases "a", .openWatch "a", .write (.put (prefixConfig ++ [120]) [121]), .deliver "a"]

/-- In the first run node `a` never hears of a config, and its quorum is another one than `b`'s. In the second
it takes a config into its view that is not stored under its own ID. -/
theorem config_missed :
    ((∀ ev ∈ [configOf [97], configOf [98]], Proper bareIDs ev) ∧
      ∃ w, exec (EtcdCluster.step bareIDs) { events := [configOf [97]] } missedWrite = some w ∧
        w.events = [configOf [97], configOf [98]] ∧ w.Drained "a" 1 2 ∧ w.Drained "b" 2 2 ∧
        (w.services "a").configCache.get [98] = none ∧
        configAt bareIDs w.events [98] = some ⟨[98], [], [], []⟩ ∧
        (w.services "a").quorum = 1 ∧ (w.services "b").quorum = 2) ∧
      ∃ w, exec (EtcdCluster.step bareIDs) { events := [] } misnamedWrite = some w ∧ w.Drained "a" 0 0 ∧
        (w.services "a").configCache.get [121] = some ⟨[121], [], [], []⟩ ∧
        configAt bareIDs w.events [121] = none :=
  ⟨⟨proper_two, by decide +kernel⟩, by decide +kernel⟩

end Demo

end Sandstore.Cluster
