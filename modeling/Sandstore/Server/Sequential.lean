import Sandstore.Chunk.Slot
import Sandstore.Metadata.Replay
import Sandstore.Orchestrators.Commit
import Sandstore.Server.Read
import Sandstore.Server.Write

/-!
# Writes one after another

`handleWrite` from its request to the last of its commit notifications, with nothing in between: the plan
from one read of the inode, the payload from a read of the chunk where it needs one, the prepares, the
proposal from another read of the inode, which raft applies, and the commits. The nodes are up, their
files do as they are told, and a target is the node it names.

Under such writes a file is a byte array, as long as no write leaves out a chunk
(`files_are_byte_arrays`). A write beyond the next chunk is planned as a new chunk like any other and is
appended to the list, where its position is not the one its offset asks for (`write_beyond_misplaced`).
-/

namespace Sandstore.Server

open Lib Metadata Orchestrators
open Chunk (ChunkService tempFileName)
open Raft (Bytes NodeId)

/-! ## The write -/

/-- The metadata that raft has applied, and the chunk services of the nodes. -/
structure Site where
  store : Store
  chunks : NodeId → ChunkService

/-- What one write draws: the IDs from `uuid.NewString`, and the time. -/
structure Draw where
  newChunkID : Bytes
  txnID : Bytes
  now : Int
  deriving DecidableEq, Repr

/-- The same message to every target. -/
def broadcast (targets : List ChunkLocation) (f : ChunkService → ChunkService)
    (chunks : NodeId → ChunkService) : NodeId → ChunkService :=
  targets.foldl (fun chunks target j => if j = target.logicalNodeAlias then f (chunks j) else chunks j) chunks

namespace Site

def sendReadRPC (s : Site) (target : ChunkLocation) (chunkID : Bytes) : Option Bytes :=
  ((s.chunks target.logicalNodeAlias).readChunk none true 0 chunkID).2.toOption

/-- The prepares and the commits of a write. -/
def writeChunks (calculateChecksum : Bytes → Bytes) (ctx : WriteContext) (finalData : Bytes) (now : Int)
    (chunks : NodeId → ChunkService) : NodeId → ChunkService :=
  broadcast ctx.targetNodes (fun cs => (cs.commitChunk true ctx.txnID ctx.chunkID).1)
    (broadcast ctx.targetNodes (fun cs => (cs.prepareChunk calculateChecksum .done now ctx.txnID
      ctx.chunkID finalData (calculateChecksum finalData)).1) chunks)

/-- What `prepareWritePayload` reads of the chunk, if it reads it. -/
def readExisting (cfg : Config) (s : Site) (req : WriteRequest) (ctx : WriteContext) :
    Except Orchestrators.Err Bytes :=
  if readsFirst cfg.chunkSize req.offset req.data ctx.isNewChunk then
    executeRead s.sendReadRPC ctx.chunkID ctx.targetNodes
  else .ok []

/-- `handleWrite`, and the deliveries it is waiting for or not. -/
def handleWrite (cfg : Config) (view : ClusterView) (calculateChecksum : Bytes → Bytes) (s : Site)
    (req : WriteRequest) (d : Draw) : Except Orchestrators.Err (Site × Int) := do
  let getInode := s.store.getInode req.inodeID
  let ctx ← prepareFileWrite cfg view getInode req.offset req.data.length d.newChunkID d.txnID
  let existingData ← s.readExisting cfg req ctx
  let finalData ← prepareWritePayload cfg.chunkSize req.offset req.data ctx.isNewChunk existingData
  let envelope ← commitFileWrite getInode ctx (wrap64 (req.offset + req.data.length)) d.now d.now
  match s.store.applyTransaction d.now (some envelope) with
  | .error err => .error (.commitFailed err)
  | .ok store =>
    return (⟨store, writeChunks calculateChecksum ctx finalData d.now s.chunks⟩, req.data.length)

/-- A write that succeeds. -/
def step (cfg : Config) (view : ClusterView) (calculateChecksum : Bytes → Bytes) (s : Site)
    (w : WriteRequest × Draw) : Option Site :=
  match s.handleWrite cfg view calculateChecksum w.1 w.2 with
  | .ok (s', _) => some s'
  | .error _ => none

/-- The file of an inode, as `pick` finds the chunks, with missing bytes read as zero. -/
def fileOf (cfg : Config) (s : Site) (inode : Inode) (chunkList : List ChunkDescriptor)
    (pick : ChunkDescriptor → NodeId) : Bytes :=
  assemble 0 cfg.chunkSize.toNat inode.fileSize.toNat
    (chunkList.map fun c => ((s.chunks (pick c)).files.get c.chunkID).getD [])

end Site

/-! ## Broadcasts -/

section Broadcast

variable {targets : List ChunkLocation} {f : ChunkService → ChunkService}
  {chunks : NodeId → ChunkService}

/-- What the message keeps, the broadcast keeps on every node. -/
theorem broadcast_all {P : ChunkService → Prop} {j : NodeId} (hf : ∀ cs, P cs → P (f cs)) (h : P (chunks j)) :
    P (broadcast targets f chunks j) := by
  induction targets generalizing chunks with
  | nil => exact h
  | cons target targets ih =>
    apply ih
    dsimp only
    split
    · exact hf _ h
    · exact h

/-- What the message brings about, it has brought about on every target. -/
theorem broadcast_reach {P Q : ChunkService → Prop} {target : ChunkLocation} (hf : ∀ cs, P cs → P (f cs))
    (hreach : ∀ cs, P cs → Q (f cs)) (hstay : ∀ cs, Q cs → Q (f cs)) (h : P (chunks target.logicalNodeAlias))
    (hmem : target ∈ targets) : Q (broadcast targets f chunks target.logicalNodeAlias) := by
  induction targets generalizing chunks with
  | nil => cases hmem
  | cons first targets ih =>
    rcases List.mem_cons.mp hmem with rfl | hmem
    · -- it stays that way through the rest
      rw [broadcast, List.foldl_cons, ← broadcast]
      apply broadcast_all hstay
      rw [if_pos rfl]
      exact hreach _ h
    · refine ih ?_ hmem
      dsimp only
      split
      · exact hf _ h
      · exact h

end Broadcast

section Write

variable {calculateChecksum : Bytes → Bytes} {ctx : WriteContext} {finalData : Bytes} {now : Int}
  {chunks : NodeId → ChunkService}

/-- Ready for the prepare of a transaction: no other data is in its temp file. -/
def Ready (ctx : WriteContext) (finalData : Bytes) (cs : ChunkService) : Prop :=
  cs.Indexed ∧ ∀ existing,
    cs.files.get (tempFileName ctx.chunkID ctx.txnID) = some existing → existing = finalData

theorem Ready.prepareChunk {cs : ChunkService} (h : Ready ctx finalData cs) :
    Ready ctx finalData (cs.prepareChunk calculateChecksum .done now ctx.txnID ctx.chunkID finalData
      (calculateChecksum finalData)).1 := by
  refine ⟨h.1.perform _ (.prepare _ _ _ _ _ _), fun existing hexisting => ?_⟩
  obtain ⟨cs', heq, hfiles, _⟩ := ChunkService.prepareChunk_eq calculateChecksum now h.2
  rw [heq] at hexisting
  simpa [ChunkService.addToPreparedIndex, hfiles, eq_comm] using hexisting

/-- The transaction has the slot. -/
def Waiting (ctx : WriteContext) (finalData : Bytes) (cs : ChunkService) : Prop :=
  Ready ctx finalData cs ∧ (cs.slot ctx.chunkID).prepared = some (ctx.txnID, finalData)

/-- **A write settles its chunk on every target, and leaves the others settled.** -/
theorem settled_writeChunks (calculateChecksum : Bytes → Bytes) (now : Int) (hready : ∀ j, Ready ctx finalData (chunks j)) :
    (∀ j, (Site.writeChunks calculateChecksum ctx finalData now chunks j).Indexed) ∧ (∀ target ∈ ctx.targetNodes,
        (Site.writeChunks calculateChecksum ctx finalData now chunks target.logicalNodeAlias).Settled
          ctx.chunkID finalData) ∧
      ∀ j other content, other ≠ ctx.chunkID → 95 ∉ other → (chunks j).Settled other content →
        (Site.writeChunks calculateChecksum ctx finalData now chunks j).Settled other content := by
  set prepared := broadcast ctx.targetNodes (fun cs => (cs.prepareChunk calculateChecksum .done now ctx.txnID
    ctx.chunkID finalData (calculateChecksum finalData)).1) chunks with hprepared
  have hindexed : ∀ j, (prepared j).Indexed := fun j => (broadcast_all (fun _ h => h.prepareChunk) (hready j)).1
  have hwaits : ∀ target ∈ ctx.targetNodes, ((prepared target.logicalNodeAlias).slot ctx.chunkID).prepared =
      some (ctx.txnID, finalData) := by
    intro target hmem
    have hreach : ∀ cs, Ready ctx finalData cs → Waiting ctx finalData (cs.prepareChunk calculateChecksum
        .done now ctx.txnID ctx.chunkID finalData (calculateChecksum finalData)).1 :=
      fun cs h => ⟨h.prepareChunk, by rw [ChunkService.slot_prepareChunk _ _ h.2, Chunk.Slot.prepare_prepared]⟩
    exact (broadcast_reach (fun _ h => h.prepareChunk) hreach (fun cs h => hreach cs h.1) (hready _) hmem).2
  refine ⟨fun j => ?_, fun target hmem => ?_, fun j other content hne hname hsettled => ?_⟩
  · exact broadcast_all (fun _ h => h.perform id (.commit _ _ _)) (hindexed j)
  · -- a target has the transaction in its slot, or has settled it already
    have hcommit : ∀ cs : ChunkService, (cs.slot ctx.chunkID).prepared = some (ctx.txnID, finalData) ∨
        cs.Settled ctx.chunkID finalData → (cs.commitChunk true ctx.txnID ctx.chunkID).1.Settled ctx.chunkID
          finalData := by
      intro cs h
      rcases h with hslot | hsettled
      · exact ChunkService.settled_commitChunk hslot
      · exact (hsettled.commitChunk ctx.txnID).symm ▸ hsettled
    exact broadcast_reach (fun cs h => .inr (hcommit cs h)) hcommit (fun cs h => hcommit cs (.inr h))
      (.inl (hwaits target hmem)) hmem
  · have hprepares : (prepared j).Settled other content := by
      refine (broadcast_all (P := fun cs => Ready ctx finalData cs ∧ cs.Settled other content) (fun cs h => ?_)
        ⟨hready j, hsettled⟩).2
      exact ⟨h.1.prepareChunk, h.2.of_prepareChunk hne hname _ _ h.1.2⟩
    exact (broadcast_all (P := fun cs => cs.Indexed ∧ cs.Settled other content)
      (fun cs h => ⟨h.1.perform id (.commit _ _ _), h.2.of_commitChunk hne hname h.1⟩)
      ⟨hindexed j, hprepares⟩).2

/-- A write leaves no temp file of another transaction. -/
theorem temp_writeChunks {chunkID txnID : Bytes} (now : Int) (hready : ∀ j, Ready ctx finalData (chunks j))
    (hchunk : 95 ∉ ctx.chunkID) (htxn : 95 ∉ ctx.txnID) (hother : 95 ∉ txnID) (hne : txnID ≠ ctx.txnID)
    (hnone : ∀ j, (chunks j).files.get (tempFileName chunkID txnID) = none) (j : NodeId) :
    (Site.writeChunks calculateChecksum ctx finalData now chunks j).files.get (tempFileName chunkID txnID) = none := by
  refine broadcast_all (P := fun cs => cs.files.get (tempFileName chunkID txnID) = none) (fun cs => ?_) ?_
  · exact ChunkService.file_commitChunk (ChunkService.ne_tempFileName hchunk chunkID txnID).symm
  · refine (broadcast_all (P := fun cs => Ready ctx finalData cs ∧ cs.files.get (tempFileName chunkID txnID) = none) ?_
      ⟨hready j, hnone j⟩).2
    rintro cs ⟨hcs, hfile⟩
    refine ⟨hcs.prepareChunk, ?_⟩
    rw [ChunkService.file_prepareChunk (fun heq => hne (Chunk.tempFileName_inj hother htxn heq).2) _ _ hcs.2, hfile]

end Write

/-! ## The file -/

/-- The site holds a file in pieces: chunk by chunk the same piece on every location, settled. -/
structure Spells (cfg : Config) (s : Site) (inodeID : Bytes) (inode : Inode)
    (chunkList : List ChunkDescriptor) (pieces : List Bytes) (file : Bytes) : Prop where
  getInode : s.store.getInode inodeID = .ok (inode, chunkList)
  named : inode.inodeID = inodeID
  size : inode.fileSize = file.length
  few : chunkList.length ≤ 2 ^ 63
  count : pieces.length = chunkList.length
  within : Within cfg.chunkSize.toNat file.length pieces
  assembled : assemble 0 cfg.chunkSize.toNat file.length pieces = file
  distinct : (chunkList.map (·.chunkID)).Nodup
  chunk : ∀ i c, chunkList[i]? = some c → c.locations ≠ [] ∧ 95 ∉ c.chunkID ∧
    ∀ target ∈ c.locations,
      (s.chunks target.logicalNodeAlias).Settled c.chunkID (pieces.getD i [])
  indexed : ∀ j, (s.chunks j).Indexed

/-- The offset is not negative, and the write lies in one chunk. -/
structure Proper (cfg : Config) (req : WriteRequest) : Prop where
  nonneg : 0 ≤ req.offset
  inside : req.offset.toNat % cfg.chunkSize.toNat + req.data.length ≤ cfg.chunkSize.toNat

/-- The IDs are new: no chunk of the file has the one, and no temp file the other. -/
structure Drawn (s : Site) (inodeID : Bytes) (d : Draw) : Prop where
  chunkID : 95 ∉ d.newChunkID
  unused : ∀ inode chunkList, s.store.getInode inodeID = .ok (inode, chunkList) →
    ∀ c ∈ chunkList, c.chunkID ≠ d.newChunkID
  txnID : ∀ j chunkID, (s.chunks j).files.get (tempFileName chunkID d.txnID) = none

/-- The write leaves out no chunk, and its end is an `int64`. -/
structure Dense (cfg : Config) (s : Site) (req : WriteRequest) : Prop where
  fits : req.offset + req.data.length < 2 ^ 63
  next : ∀ inode chunkList, s.store.getInode req.inodeID = .ok (inode, chunkList) →
    req.offset.toNat / cfg.chunkSize.toNat ≤ chunkList.length

section Step

variable {cfg : Config} {view : ClusterView} {calculateChecksum : Bytes → Bytes} {s s' : Site}
  {inodeID : Bytes} {inode : Inode} {chunkList : List ChunkDescriptor} {pieces : List Bytes} {file : Bytes}

variable {req : WriteRequest}

theorem Proper.payload (h : Proper cfg req) (hsize : cfg.chunkSize < 2 ^ 63) (isNewChunk : Bool)
    (existing : Bytes) (hexisting : isNewChunk = false → existing.length ≤ cfg.chunkSize.toNat) :
    prepareWritePayload cfg.chunkSize req.offset req.data isNewChunk existing =
      .ok (writeAt 0 (if isNewChunk then [] else existing) (req.offset.toNat % cfg.chunkSize.toNat) req.data) := by
  have hpos := cfg.positive
  have hok := prepareWritePayload_ok (by omega) (by omega) h.inside hexisting
  rwa [Int.toNat_of_nonneg hpos.le, Int.toNat_of_nonneg h.nonneg] at hok

/-- What a write that succeeded has done. -/
theorem handleWrite_ok {d : Draw} {n : Int} (hs : s.handleWrite cfg view calculateChecksum req d = .ok (s', n)) :
    ∃ inode chunkList ctx existingData finalData store, s.store.getInode req.inodeID = .ok (inode, chunkList) ∧
      Plans cfg inode chunkList req.offset d.newChunkID d.txnID ctx ∧ s.readExisting cfg req ctx = .ok existingData ∧
      prepareWritePayload cfg.chunkSize req.offset req.data ctx.isNewChunk existingData = .ok finalData ∧
      s.store.applyTransaction d.now (some (commitEnvelope ctx (metaUpdate inode chunkList ctx
        (wrap64 (req.offset + req.data.length)) d.now) d.now)) = .ok store ∧
      s' = ⟨store, Site.writeChunks calculateChecksum ctx finalData d.now s.chunks⟩ := by
  obtain ⟨ctx, hctx, hs⟩ := bind_ok hs
  obtain ⟨existingData, hexisting, hs⟩ := bind_ok hs
  obtain ⟨finalData, hfinal, hs⟩ := bind_ok hs
  obtain ⟨envelope, henvelope, hs⟩ := bind_ok hs
  obtain ⟨inode, chunkList, hinode, hplans⟩ := prepareFileWrite_ok hctx
  obtain ⟨inode', chunkList', hinode', rfl⟩ := commitFileWrite_ok henvelope
  cases hinode.symm.trans hinode'
  split at hs
  · cases hs
  · next store hstore =>
    cases hs
    exact ⟨inode, chunkList, ctx, existingData, finalData, store, hinode, hplans, hexisting, hfinal, hstore, rfl⟩

/-- A proper write is not taken for one that crosses a chunk. -/
theorem Proper.within_boundary (h : Proper cfg req) (hfits : req.offset + req.data.length < 2 ^ 63) :
    isWithinChunkBoundary cfg.chunkSize req.offset req.data.length = true := by
  have hpos := cfg.positive
  have hinside := h.inside
  obtain ⟨o, ho⟩ := Int.eq_ofNat_of_zero_le h.nonneg
  obtain ⟨size, hsize⟩ := Int.eq_ofNat_of_zero_le hpos.le
  rw [ho] at hfits hinside ⊢
  rw [hsize] at hpos hinside ⊢
  unfold isWithinChunkBoundary
  split
  · rfl
  · next hlength =>
    have hend : wrap64 ((o : Int) + req.data.length) = (o + req.data.length : Nat) := by
      rw [← Int.natCast_add, wrap64_of_lt (by omega)]
    have hlast : wrap64 ((o + req.data.length : Nat) - 1) = (o + req.data.length - 1 : Nat) := by
      have hcast : ((o + req.data.length : Nat) : Int) - 1 = (o + req.data.length - 1 : Nat) := by omega
      rw [hcast, wrap64_of_lt (by omega)]
    have hsame : (o + req.data.length - 1) / size = o / size := by
      have hsplit := Nat.div_add_mod' o size
      refine Nat.div_eq_of_lt_le (by omega) ?_
      rw [Nat.succ_mul]
      simp only [Int.toNat_natCast] at hinside
      omega
    rw [hend, hlast, ← Int.ofNat_tdiv, ← Int.ofNat_tdiv, hsame]
    exact decide_eq_true rfl

section Spells

variable (h : Spells cfg s inodeID inode chunkList pieces file)

include h

theorem Spells.serves {i : Nat} {c : ChunkDescriptor} (hc : chunkList[i]? = some c) :
    executeRead s.sendReadRPC c.chunkID c.locations = .ok (pieces.getD i []) := by
  obtain ⟨hsome, -, hsettled⟩ := h.chunk i c hc
  have hserved : ∀ target ∈ c.locations, s.sendReadRPC target c.chunkID = some (pieces.getD i []) := by
    intro target hmem
    have hfinal : ((s.chunks target.logicalNodeAlias).slot c.chunkID).final = some (pieces.getD i []) :=
      (hsettled target hmem).1
    rw [Site.sendReadRPC, (ChunkService.readChunk_slot true 0 _).mpr hfinal]
    rfl
  obtain ⟨target, hmem⟩ := List.exists_mem_of_ne_nil _ hsome
  exact executeRead_ok ⟨target, hmem, by simp [hserved target hmem]⟩
    fun t ht data hdata => Option.some_inj.mp (hdata.symm.trans (hserved t ht))

variable {ctx : WriteContext}

theorem Spells.payload (hsize : cfg.chunkSize < 2 ^ 63)
    (hproper : Proper cfg req) {i : Nat} {c : ChunkDescriptor} (hc : chunkList[i]? = some c)
    (hold : ctx.isNewChunk = false) (hid : ctx.chunkID = c.chunkID) (htargets : ctx.targetNodes = c.locations)
    {existing finalData : Bytes} (hexisting : s.readExisting cfg req ctx = .ok existing)
    (hfinal : prepareWritePayload cfg.chunkSize req.offset req.data ctx.isNewChunk existing = .ok finalData) :
    finalData = writeAt 0 (pieces.getD i []) (req.offset.toNat % cfg.chunkSize.toNat) req.data := by
  have hlt : i < pieces.length := h.count ▸ (List.getElem?_eq_some_iff.mp hc).1
  have hpiece : prepareWritePayload cfg.chunkSize req.offset req.data false (pieces.getD i []) = .ok finalData := by
    rw [hold] at hfinal
    unfold Site.readExisting at hexisting
    rw [hold, hid, htargets] at hexisting
    split at hexisting
    · cases (h.serves hc).symm.trans hexisting
      exact hfinal
    · next hunread =>
      rw [prepareWritePayload_unread (Bool.eq_false_iff.mpr hunread) _ existing]
      exact hfinal
  have hok := hproper.payload hsize false _ fun _ => (h.within i hlt).1
  cases hpiece.symm.trans hok
  rfl

/-- Wherever a chunk is read, it is its piece. -/
theorem Spells.picked {pick : ChunkDescriptor → NodeId}
    (hpick : ∀ c ∈ chunkList, ∃ target ∈ c.locations, pick c = target.logicalNodeAlias) :
    chunkList.map (fun c => ((s.chunks (pick c)).files.get c.chunkID).getD []) = pieces := by
  refine List.ext_getElem (by simp [h.count]) fun i hi hi' => ?_
  have hlt : i < chunkList.length := by simpa using hi
  rw [List.getElem_map]
  have hat : chunkList[i]? = some chunkList[i] := List.getElem?_eq_getElem hlt
  obtain ⟨target, hmem, hnode⟩ := hpick _ (List.mem_of_getElem? hat)
  rw [hnode, ((h.chunk i _ hat).2.2 target hmem).1, Option.getD_some, List.getD_eq_getElem _ _ hi']

/-- **A proper write to a file is carried out**, as long as there are nodes for a new chunk. -/
theorem Spells.accepts (htype : inode.type = .file)
    (hsize : cfg.chunkSize < 2 ^ 63) (d : Draw) (hreq : req.inodeID = inodeID)
    (hproper : Proper cfg req) (hfits : req.offset + req.data.length < 2 ^ 63) {targets : List ChunkLocation}
    (htargets : selectTargets view cfg.replicaCount cfg.replicaCount = .ok targets) :
    ∃ s' n, s.handleWrite cfg view calculateChecksum req d = .ok (s', n) := by
  subst hreq
  have hplan : ∃ ctx, prepareFileWrite cfg view (s.store.getInode req.inodeID) req.offset req.data.length d.newChunkID
      d.txnID = .ok ctx := by
    rw [h.getInode]
    unfold prepareFileWrite
    rw [if_neg (by omega), if_neg (not_not.mpr (hproper.within_boundary hfits))]
    dsimp only
    rw [if_neg (not_not.mpr htype)]
    split
    · rw [htargets]
      exact ⟨_, rfl⟩
    · next hold =>
      have hidx : 0 ≤ req.offset.tdiv cfg.chunkSize := Int.tdiv_nonneg hproper.nonneg cfg.positive.le
      have hlt : (req.offset.tdiv cfg.chunkSize).toNat < chunkList.length := by omega
      rw [chunkAt, if_neg (by omega), List.getElem?_eq_getElem hlt]
      exact ⟨_, rfl⟩
  obtain ⟨ctx, hctx⟩ := hplan
  obtain ⟨inode', chunkList', hinode', hplans⟩ := prepareFileWrite_ok hctx
  cases h.getInode.symm.trans hinode'
  have hread : ∃ existing, s.readExisting cfg req ctx = .ok existing ∧
      (ctx.isNewChunk = false → existing.length ≤ cfg.chunkSize.toNat) := by
    unfold Site.readExisting
    split
    · next hreads =>
      rcases hplans.chunk with ⟨hnew, -⟩ | ⟨hold, c, hchunk, hid, hlocations⟩
      · simp [readsFirst, hnew] at hreads
      · obtain ⟨-, hat⟩ := chunkAt_ok hchunk
        have hlt : (req.offset.tdiv cfg.chunkSize).toNat < pieces.length :=
          h.count ▸ (List.getElem?_eq_some_iff.mp hat).1
        rw [hid, hlocations]
        exact ⟨_, h.serves hat, fun _ => (h.within _ hlt).1⟩
    · exact ⟨[], rfl, fun _ => Nat.zero_le _⟩
  obtain ⟨existing, hexisting, hshort⟩ := hread
  obtain ⟨inodeKey, hkey, hstored, -⟩ := getInode_ok h.getInode
  have hstore : ∃ store, s.store.applyTransaction d.now (some (commitEnvelope ctx (metaUpdate inode chunkList ctx
      (wrap64 (req.offset + req.data.length)) d.now) d.now)) = .ok store := by
    have hnamed : encodeInodeKey "inode id" inode.inodeID = .ok inodeKey := h.named ▸ hkey
    simp only [Store.applyTransaction, commitEnvelope, Store.applyChunkIntentAtomic, Store.applyMetaUpdate, metaUpdate,
      hnamed, Store.loadStoredInode, hstored, bind, Except.bind, ne_eq, not_true_eq_false, if_false]
    exact ⟨_, rfl⟩
  obtain ⟨store, hstore⟩ := hstore
  rw [h.getInode] at hctx
  simp only [Site.handleWrite, h.getInode, hctx, hexisting, hproper.payload hsize _ _ hshort, commitFileWrite, hstore,
    bind, Except.bind]
  exact ⟨_, _, rfl⟩

/-- What the proposal of a write leaves in the store. -/
theorem Spells.proposed {newEOF now : Int} (proposed : List ChunkDescriptor) (hproposed : proposed =
      if ctx.isNewChunk then chunkList ++ [⟨ctx.chunkID, ctx.targetNodes⟩] else chunkList)
    (hfew : proposed.length ≤ 2 ^ 63) {store : Store}
    (hstore : s.store.applyTransaction now (some (commitEnvelope ctx (metaUpdate inode chunkList ctx
      newEOF now) now)) = .ok store) :
    ∃ inode', store.getInode inodeID = .ok (inode', proposed) ∧ inode'.inodeID = inodeID ∧
      inode'.type = inode.type ∧ inode'.fileSize = max newEOF file.length := by
  have hbefore : s.store.getInode inode.inodeID = .ok (inode, chunkList) := h.named ▸ h.getInode
  have hafter : store.getInode inode.inodeID =
      .ok (inode.write (metaUpdate inode chunkList ctx newEOF now) now, proposed) :=
    getInode_applied rfl (congrArg some hproposed.symm) (by omega) hbefore hstore
  rw [h.named] at hafter
  refine ⟨_, hafter, h.named, rfl, ?_⟩
  show (if newEOF > inode.fileSize then newEOF else inode.fileSize) = _
  rw [h.size]
  split <;> omega

theorem Spells.ready {d : Draw}
    (htxn : ctx.txnID = d.txnID) (hdrawn : Drawn s inodeID d) (finalData : Bytes) (j : NodeId) :
    Ready ctx finalData (s.chunks j) := by
  refine ⟨h.indexed j, fun existing hget => ?_⟩
  rw [htxn, hdrawn.txnID j] at hget
  cases hget

theorem Spells.next {idx off : Nat} {data : Bytes} {pieces' : List Bytes} (hw : WroteAt 0 pieces idx off data pieces')
    (hfits : off + data.length ≤ cfg.chunkSize.toNat) {inode' : Inode} {chunkList' : List ChunkDescriptor}
    (hinode : s'.store.getInode inodeID = .ok (inode', chunkList')) (hnamed : inode'.inodeID = inodeID)
    (hsize : inode'.fileSize = max (idx * cfg.chunkSize.toNat + (off + data.length) : Nat) file.length)
    (hfew : chunkList'.length ≤ 2 ^ 63) (hcount : pieces'.length = chunkList'.length)
    (hdistinct : (chunkList'.map (·.chunkID)).Nodup)
    (hchunk : ∀ i c, chunkList'[i]? = some c → c.locations ≠ [] ∧ 95 ∉ c.chunkID ∧ ∀ target ∈ c.locations,
        (s'.chunks target.logicalNodeAlias).Settled c.chunkID (pieces'.getD i []))
    (hindexed : ∀ j, (s'.chunks j).Indexed) : Spells cfg s' inodeID inode' chunkList' pieces'
      (writeAt 0 file (idx * cfg.chunkSize.toNat + off) data) := by
  have hlength : (writeAt 0 file (idx * cfg.chunkSize.toNat + off) data).length =
      max file.length (idx * cfg.chunkSize.toNat + (off + data.length)) := by
    rw [length_writeAt, Nat.add_assoc]
  refine ⟨hinode, hnamed, ?_, hfew, hcount, ?_, ?_, hdistinct, hchunk, hindexed⟩
  · rw [hsize, hlength]
    omega
  · rw [hlength]
    exact hw.within h.within hfits
  · have hpos := cfg.positive
    rw [hlength, assemble_write hw h.within hfits (by omega), h.assembled]

/-- **A write into a chunk of the file, or into the one that comes next, is a write into the file.** It writes
one piece, and the only chunk it can add is a new one. -/
theorem Spells.write (hsize : cfg.chunkSize < 2 ^ 63)
    {d : Draw} {n : Int} (hreq : req.inodeID = inodeID) (hproper : Proper cfg req) (hdrawn : Drawn s inodeID d)
    (hdense : Dense cfg s req) (hs : s.handleWrite cfg view calculateChecksum req d = .ok (s', n)) :
    ∃ inode' chunkList' pieces', Spells cfg s' inodeID inode' chunkList' pieces'
        (writeAt 0 file req.offset.toNat req.data) ∧ inode'.type = inode.type ∧
      WroteAt 0 pieces (req.offset.toNat / cfg.chunkSize.toNat) (req.offset.toNat % cfg.chunkSize.toNat) req.data
        pieces' ∧ ∀ c ∈ chunkList', c ∈ chunkList ∨ c.chunkID = d.newChunkID := by
  subst hreq
  obtain ⟨inode', chunkList', ctx, existingData, finalData, store, hinode, hplans, hexisting, hfinal, hstore,
    rfl⟩ := handleWrite_ok hs
  cases h.getInode.symm.trans hinode
  have hpos := cfg.positive
  have hnonneg := hproper.nonneg
  have hfits := hdense.fits
  have hnext := hdense.next _ _ hinode
  have hsplit := Nat.div_add_mod' req.offset.toNat cfg.chunkSize.toNat
  have hnewEOF : wrap64 (req.offset + req.data.length) = (req.offset.toNat + req.data.length : Nat) := by
    rw [← Int.toNat_of_nonneg hnonneg, Int.toNat_natCast, ← Int.natCast_add, wrap64_of_lt (by omega)]
  have hidx : req.offset.tdiv cfg.chunkSize = (req.offset.toNat / cfg.chunkSize.toNat : Nat) := by
    rw [Int.tdiv_eq_ediv_of_nonneg hnonneg, Int.natCast_div, Int.toNat_of_nonneg hnonneg, Int.toNat_of_nonneg hpos.le]
  have hbound : req.offset.toNat / cfg.chunkSize.toNat ≤ req.offset.toNat := Nat.div_le_self _ _
  set idx := req.offset.toNat / cfg.chunkSize.toNat with hidxNat
  have hplace : writeAt 0 file req.offset.toNat req.data =
      writeAt 0 file (idx * cfg.chunkSize.toNat + req.offset.toNat % cfg.chunkSize.toNat) req.data := by
    rw [hsplit]
  rw [hplace]
  rw [hnewEOF] at hstore
  -- the chunk services after the write
  have hready := h.ready hplans.txnID hdrawn finalData
  obtain ⟨hindexed, htargets, hothers⟩ := settled_writeChunks calculateChecksum d.now hready
  rcases hplans.chunk with ⟨hnew, hbeyond, hid, hsome⟩ | ⟨hold, c, hchunk, hid, hlocations⟩
  · -- the chunk comes next
    have hlast : chunkList.length = idx := by omega
    have hpayload := hproper.payload hsize true existingData (fun hfalse => (nomatch hfalse))
    rw [hnew, hpayload] at hfinal
    cases hfinal
    obtain ⟨inode', hinode', hnamed, htype, hfile⟩ := h.proposed (chunkList ++ [⟨ctx.chunkID, ctx.targetNodes⟩])
      (by rw [hnew, if_pos rfl]) (by simp; omega) hstore
    have hwrote : WroteAt 0 pieces idx (req.offset.toNat % cfg.chunkSize.toNat) req.data _ :=
      wroteAt_append (h.count.trans hlast)
    refine ⟨inode', _, _, h.next hwrote hproper.inside hinode' hnamed ?_ ?_ ?_ ?_ ?_ hindexed, htype, hwrote, ?_⟩
    · rw [hfile]
      omega
    · simp
      omega
    · simp [h.count]
    · rw [List.map_append, List.nodup_append]
      refine ⟨h.distinct, List.nodup_singleton _, ?_⟩
      rintro _ hold _ hlastID rfl
      obtain ⟨c, hc, hcID⟩ := List.mem_map.mp hold
      exact hdrawn.unused _ _ hinode c hc (hcID.trans ((List.mem_singleton.mp hlastID).trans hid))
    · intro i c hc
      rcases Nat.lt_or_ge i chunkList.length with hlt | hge
      · -- a chunk that was there before
        rw [List.getElem?_append_left hlt] at hc
        obtain ⟨hplaced, hname, hsettled⟩ := h.chunk i c hc
        rw [List.getD_append _ _ _ _ (h.count ▸ hlt)]
        refine ⟨hplaced, hname, fun target hmem => hothers _ _ _ ?_ hname (hsettled target hmem)⟩
        exact fun heq => hdrawn.unused _ _ hinode c (List.mem_of_getElem? hc) (heq.trans hid)
      · rw [List.getElem?_append_right hge] at hc
        obtain ⟨hzero, rfl⟩ : i - chunkList.length = 0 ∧ ⟨ctx.chunkID, ctx.targetNodes⟩ = c := by
          cases hsub : i - chunkList.length with
          | zero => simpa [hsub] using hc
          | succ k => simp [hsub] at hc
        rw [List.getD_append_right _ _ _ _ (h.count ▸ hge), h.count, hzero]
        exact ⟨hsome, hid ▸ hdrawn.chunkID, htargets⟩
    · intro c hc
      rcases List.mem_append.mp hc with hc | hc
      · exact .inl hc
      · cases List.mem_singleton.mp hc
        exact .inr hid
  · -- the chunk is there
    obtain ⟨_, hat⟩ := chunkAt_ok hchunk
    rw [hidx, Int.toNat_natCast] at hat
    have hlt : idx < pieces.length := h.count ▸ (List.getElem?_eq_some_iff.mp hat).1
    obtain rfl := h.payload hsize hproper hat hold hid hlocations hexisting hfinal
    obtain ⟨inode', hinode', hnamed, htype, hfile⟩ := h.proposed chunkList
      (by rw [hold, if_neg Bool.false_ne_true]) h.few hstore
    have hwrote : WroteAt 0 pieces idx (req.offset.toNat % cfg.chunkSize.toNat) req.data _ := wroteAt_set hlt
    refine ⟨inode', _, _, h.next hwrote hproper.inside hinode' hnamed ?_ h.few ?_ h.distinct ?_ hindexed, htype, hwrote,
      fun c hc => .inl hc⟩
    · rw [hfile]
      omega
    · rw [List.length_set, h.count]
    · intro i c' hc'
      obtain ⟨hplaced, hname, hsettled⟩ := h.chunk i c' hc'
      refine ⟨hplaced, hname, fun target hmem => ?_⟩
      by_cases hi : i = idx
      · subst hi
        cases hat.symm.trans hc'
        have := htargets target (hlocations ▸ hmem)
        simpa [hid, hlt, List.getD_eq_getElem?_getD] using this
      · have hne : c'.chunkID ≠ ctx.chunkID := by
          intro heq
          refine hi ((List.getElem?_inj ?_ h.distinct).mp ?_)
          · simpa using (List.getElem?_eq_some_iff.mp hc').1
          · simp [hc', hat, heq, hid]
        have := hothers _ _ _ hne hname (hsettled target hmem)
        simpa [Ne.symm hi, List.getD_eq_getElem?_getD] using this

theorem Spells.temp {d : Draw} {n : Int}
    (hreq : req.inodeID = inodeID) (hdrawn : Drawn s inodeID d) (hd : 95 ∉ d.txnID)
    (hs : s.handleWrite cfg view calculateChecksum req d = .ok (s', n)) {chunkID txnID : Bytes} (hother : 95 ∉ txnID)
    (hne : txnID ≠ d.txnID) (hnone : ∀ j, (s.chunks j).files.get (tempFileName chunkID txnID) = none) (j : NodeId) :
    (s'.chunks j).files.get (tempFileName chunkID txnID) = none := by
  subst hreq
  obtain ⟨inode', chunkList', ctx, existingData, finalData, store, hinode, hplans, -, -, -, rfl⟩ := handleWrite_ok hs
  cases h.getInode.symm.trans hinode
  have hready := h.ready hplans.txnID hdrawn finalData
  have hchunk : 95 ∉ ctx.chunkID := by
    rcases hplans.chunk with ⟨-, -, hid, -⟩ | ⟨-, c, hchunk, hid, -⟩
    · exact hid ▸ hdrawn.chunkID
    · exact hid ▸ (h.chunk _ c (chunkAt_ok hchunk).2).2.1
  exact temp_writeChunks d.now hready hchunk (hplans.txnID ▸ hd) hother (hplans.txnID ▸ hne) hnone j

end Spells

end Step

/-! ## Runs -/

/-- The byte array that writes make of an empty one. -/
def byteArray (reqs : List WriteRequest) : Bytes :=
  reqs.foldl (fun file req => writeAt 0 file req.offset.toNat req.data) []

/-- Where the last of the writes ends. -/
def lastEnd (reqs : List WriteRequest) : Nat :=
  (reqs.map fun req => req.offset.toNat + req.data.length).foldl max 0

/-- The writes of a run are proper ones to one file, under new IDs, and leave out no chunk. -/
def Regular (cfg : Config) (inodeID : Bytes) (s : Site) (w : WriteRequest × Draw) : Prop :=
  w.1.inodeID = inodeID ∧ Proper cfg w.1 ∧ Drawn s inodeID w.2 ∧ Dense cfg s w.1

section Run

variable {cfg : Config} {view : ClusterView} {calculateChecksum : Bytes → Bytes} {inodeID : Bytes}

theorem spells_run (hsize : cfg.chunkSize < 2 ^ 63) (ws : List (WriteRequest × Draw)) {s s' : Site}
    {inode : Inode} {chunkList : List ChunkDescriptor} {pieces : List Bytes} {file : Bytes}
    (h : Spells cfg s inodeID inode chunkList pieces file)
    (hregular : Along (Site.step cfg view calculateChecksum) (Regular cfg inodeID) s ws)
    (hrun : exec (Site.step cfg view calculateChecksum) s ws = some s') :
    ∃ inode' chunkList' pieces', Spells cfg s' inodeID inode' chunkList' pieces'
      ((ws.map (·.1)).foldl (fun file req => writeAt 0 file req.offset.toNat req.data) file) := by
  induction ws generalizing s inode chunkList pieces file with
  | nil =>
    cases hrun
    exact ⟨inode, chunkList, pieces, h⟩
  | cons w ws ih =>
    obtain ⟨s₁, hstep, hrest⟩ := exec_cons hrun
    obtain ⟨⟨hreq, hproper, hdrawn, hdense⟩, hlater⟩ := hregular
    have hwrite := hstep
    unfold Site.step at hwrite
    split at hwrite
    · next heq =>
      cases hwrite
      obtain ⟨inode₁, chunkList₁, pieces₁, h₁, -⟩ := h.write hsize hreq hproper hdrawn hdense heq
      exact ih h₁ (hlater s₁ hstep) hrest
    · cases hwrite

theorem length_byteArray (reqs : List WriteRequest) : (byteArray reqs).length = lastEnd reqs := by
  have hfold : ∀ (reqs : List WriteRequest) (file : Bytes),
      (reqs.foldl (fun file req => writeAt 0 file req.offset.toNat req.data) file).length =
        (reqs.map fun req => req.offset.toNat + req.data.length).foldl max file.length := by
    intro reqs
    induction reqs with
    | nil => exact fun _ => rfl
    | cons req reqs ih =>
      intro file
      rw [List.foldl_cons, ih, length_writeAt, List.map_cons, List.foldl_cons]
  exact hfold reqs []

/-- **Files are byte arrays.** A file starts empty and is written by requests that succeed, one at a time
and with all commits delivered, each at an offset that is not negative and inside one chunk. If no write
leaves out a chunk and every end is an `int64`, then in the end the size of the file is the largest end
of a write, and the file put together from its chunks, wherever each is read, is the byte array that the
same writes make. -/
theorem files_are_byte_arrays (cfg : Config) (hsize : cfg.chunkSize < 2 ^ 63) (view : ClusterView)
    (calculateChecksum : Bytes → Bytes) {s s' : Site} {inode : Inode}
    (hinode : s.store.getInode inodeID = .ok (inode, [])) (hnamed : inode.inodeID = inodeID)
    (hempty : inode.fileSize = 0) (hindexed : ∀ j, (s.chunks j).Indexed) (ws : List (WriteRequest × Draw))
    (hregular : Along (Site.step cfg view calculateChecksum) (Regular cfg inodeID) s ws)
    (hrun : exec (Site.step cfg view calculateChecksum) s ws = some s') :
    ∃ inode' chunkList, s'.store.getInode inodeID = .ok (inode', chunkList) ∧
      inode'.fileSize = lastEnd (ws.map (·.1)) ∧ (∀ c ∈ chunkList, c.locations ≠ []) ∧
      ∀ pick : ChunkDescriptor → NodeId,
        (∀ c ∈ chunkList, ∃ target ∈ c.locations, pick c = target.logicalNodeAlias) →
          s'.fileOf cfg inode' chunkList pick = byteArray (ws.map (·.1)) := by
  have hstart : Spells cfg s inodeID inode [] [] [] :=
    ⟨hinode, hnamed, hempty, by simp, rfl, fun _ hi => (nomatch hi), rfl, List.nodup_nil,
      fun _ _ hc => (nomatch hc), hindexed⟩
  obtain ⟨inode', chunkList, pieces, h⟩ := spells_run hsize ws hstart hregular hrun
  have hlength : inode'.fileSize = (byteArray (ws.map (·.1))).length := h.size
  refine ⟨inode', chunkList, h.getInode, by rw [hlength, length_byteArray], ?_, fun pick hpick => ?_⟩
  · intro c hc
    obtain ⟨i, hi⟩ := List.mem_iff_getElem?.mp hc
    exact (h.chunk i c hi).1
  · rw [Site.fileOf, h.picked hpick, hlength, Int.toNat_natCast]
    exact h.assembled

end Run

section Examples

/-- The root directory and the empty file `f`, and nothing on the chunk services. -/
def emptyFile : Site where
  store := (((Store.recover {} 0).2.applyTransaction 0 createF).toOption).getD {}
  chunks := fun _ => {}

def oneNode : ClusterView := ⟨some [⟨"a", "a:1"⟩], none⟩

def oneReplica : Config := { chunkSize := 4, replicaCount := 1, positive := four_positive }

theorem files_are_byte_arrays_first :
    ∃ s inode chunkList, exec (Site.step oneReplica oneNode id) emptyFile
        [(⟨[49], 1, [7, 8]⟩, ⟨[97], [102], 5⟩)] = some s ∧
      s.store.getInode [49] = .ok (inode, chunkList) ∧ inode.fileSize = 3 ∧
      s.fileOf oneReplica inode chunkList (fun _ => "a") = [0, 7, 8] := by
  have hregular : Along (Site.step oneReplica oneNode id) (Regular oneReplica [49]) emptyFile
      [(⟨[49], 1, [7, 8]⟩, ⟨[97], [102], 5⟩)] := by
    refine ⟨⟨rfl, ⟨by decide, by decide⟩, ⟨by decide, ?_, fun _ _ => rfl⟩, ⟨by decide, ?_⟩⟩,
      fun _ _ => trivial⟩
    · rintro inode chunkList hinode c hc
      cases hinode
      cases hc
    · rintro inode chunkList hinode
      cases hinode
      decide
  obtain ⟨s, hrun, hlocations⟩ : ∃ s, exec (Site.step oneReplica oneNode id) emptyFile
      [(⟨[49], 1, [7, 8]⟩, ⟨[97], [102], 5⟩)] = some s ∧
      ∀ inode chunkList, s.store.getInode [49] = .ok (inode, chunkList) →
        ∀ c ∈ chunkList, ∃ target ∈ c.locations, "a" = target.logicalNodeAlias := by
    refine ⟨_, rfl, ?_⟩
    rintro inode chunkList hinode c hc
    cases hinode
    cases hc with
    | head => exact ⟨⟨"a", "a:1"⟩, List.mem_singleton.mpr rfl, rfl⟩
    | tail _ hc => cases hc
  obtain ⟨inode, chunkList, hinode, hsize, _, hfile⟩ := files_are_byte_arrays oneReplica (by decide) oneNode id
    (show emptyFile.store.getInode [49] = .ok (_, []) from rfl) rfl rfl (fun _ _ _ h => (nomatch h)) _
    hregular hrun
  exact ⟨s, inode, chunkList, hrun, hinode, hsize, hfile _ (hlocations _ _ hinode)⟩

/-- One byte at the start of the third chunk of the empty file is its first byte. -/
theorem write_beyond_misplaced :
    ∃ s inode c, exec (Site.step oneReplica oneNode id) emptyFile [(⟨[49], 8, [7]⟩, ⟨[97], [102], 5⟩)] =
        some s ∧
      s.store.getInode [49] = .ok (inode, [c]) ∧ c.locations = [⟨"a", "a:1"⟩] ∧
      s.fileOf oneReplica inode [c] (fun _ => "a") = [7, 0, 0, 0, 0, 0, 0, 0, 0] ∧
      byteArray [⟨[49], 8, [7]⟩] = [0, 0, 0, 0, 0, 0, 0, 0, 7] :=
  ⟨_, _, _, rfl, rfl, rfl, rfl, rfl⟩

end Examples

end Sandstore.Server
