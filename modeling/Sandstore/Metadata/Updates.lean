import Sandstore.Metadata.Namespace

/-!
# Two appliers of one update

An `OpUpdateInode` reaches the store in two ways. As a metadata operation it is applied by
`ApplyUpdateInode`. `CommitFileWrite` sends it inside a chunk intent, and `applyChunkIntentAtomic` has a copy
of the update of its own. The two read different fields: the one sets the modification time from `SetMTime`
and the change time from `Timestamp`, the other both from `Timestamp`. The operations that `CommitFileWrite`
builds (`CommitShaped`) carry the same time in both fields, so this shows in none of them.

What does show is the version number, which the copy leaves alone (`Inode.update_eq_write`). So **the two
leave the same only where there is nothing to update** (`appliers_agree_iff`).
-/

namespace Sandstore.Metadata

open Lib
open Raft (Byte Bytes Err)

/-- The shape of the operations that `CommitFileWrite` builds. -/
structure CommitShaped (op : MetadataOperation) : Prop where
  type : op.type = .updateInode
  sized : op.newSize.isSome = true
  mtime : op.setMTime = some op.timestamp
  positive : 0 < op.timestamp

/-- The entry that carries the operation by itself. -/
def plainEntry (op : MetadataOperation) : Command := some { type := .posixMeta, posixMeta := some op }

/-- The entry that carries the operation inside a chunk intent. -/
def intentEntry (intent : ChunkIntentOperation) (op : MetadataOperation) : Command :=
  some { type := .chunkIntent, posixMeta := some op, chunkIntent := some intent }

/-- Two outcomes that leave the same record and the same chunks of an inode, or that are both errors. -/
def SameInode (inodeID : Bytes) : Except Err Store → Except Err Store → Prop
  | .ok st, .ok st' => ∀ key, encodeInodeKey "inode id" inodeID = .ok key →
      st.inodes.get key = st'.inodes.get key ∧ loadChunkList st.chunkMap key = loadChunkList st'.chunkMap key
  | .error _, .error _ => True
  | _, _ => False

section Agreement

variable {st : Store} {op : MetadataOperation} (intent : ChunkIntentOperation) (now now' : Int)

theorem Inode.update_eq_write (inode : Inode) (hop : CommitShaped op) :
    inode.update op = { inode.write op now with versionNumber := inode.versionNumber + 1 } := by
  simp [Inode.update, Inode.write, Inode.touch, hop.mtime, hop.positive]

theorem applyTransaction_plain (hop : CommitShaped op) :
    st.applyTransaction now (plainEntry op) = st.applyUpdateInode op := by
  simp only [Store.applyTransaction, plainEntry, Store.applyStandardMetadata, hop.type]

theorem applied_of_inode (hop : CommitShaped op) {key : Bytes} {inode : Inode}
    (hkey : encodeInodeKey "inode id" op.inodeID = .ok key) (hget : st.inodes.get key = some inode) :
    ∃ a b, st.applyTransaction now (intentEntry intent op) = .ok a ∧
      st.applyTransaction now' (plainEntry op) = .ok b ∧ a.inodes = st.inodes.insert key (inode.write op now) ∧
      b.inodes = st.inodes.insert key (inode.update op) ∧ a.chunkMap = b.chunkMap := by
  rw [applyTransaction_plain now' hop]
  simp only [Store.applyTransaction, intentEntry, Store.applyChunkIntentAtomic, Store.applyMetaUpdate,
    Store.applyUpdateInode, hop.type, hkey, Store.loadStoredInode, hget, bind, Except.bind]
  exact ⟨_, _, rfl, rfl, rfl, rfl, rfl⟩

theorem rejected_of_no_inode (hop : CommitShaped op)
    (hnone : ∀ key, encodeInodeKey "inode id" op.inodeID = .ok key → st.inodes.get key = none) :
    ∃ err, st.applyTransaction now (intentEntry intent op) = .error err ∧
      st.applyTransaction now' (plainEntry op) = .error err := by
  rw [applyTransaction_plain now' hop]
  simp only [Store.applyTransaction, intentEntry, Store.applyChunkIntentAtomic, Store.applyMetaUpdate,
    Store.applyUpdateInode, hop.type]
  cases hkey : encodeInodeKey "inode id" op.inodeID with
  | error err => exact ⟨err, rfl, rfl⟩
  | ok key =>
    have hget := hnone key hkey
    simp only [bind, Except.bind, Store.loadStoredInode, hget]
    exact ⟨_, rfl, rfl⟩

/-- **The two appliers agree only where both reject.** For every store and every operation of the shape that
`CommitFileWrite` builds: the entry with a chunk intent and the plain entry leave the same record and the same
chunks of the inode, or both fail, if and only if the ID is of no inode in the store. Where it is of one, the
chunks and all of the record but the version number are the same. -/
theorem appliers_agree_iff (st : Store) (op : MetadataOperation) (hop : CommitShaped op)
    (intent : ChunkIntentOperation) (now now' : Int) :
    (SameInode op.inodeID (st.applyTransaction now (intentEntry intent op))
        (st.applyTransaction now' (plainEntry op)) ↔
      ∀ key, encodeInodeKey "inode id" op.inodeID = .ok key → st.inodes.get key = none) ∧
    ∀ key inode, encodeInodeKey "inode id" op.inodeID = .ok key → st.inodes.get key = some inode →
      ∃ a b record, st.applyTransaction now (intentEntry intent op) = .ok a ∧
        st.applyTransaction now' (plainEntry op) = .ok b ∧ a.inodes.get key = some record ∧
        b.inodes.get key = some { record with versionNumber := record.versionNumber + 1 } ∧
        loadChunkList a.chunkMap key = loadChunkList b.chunkMap key := by
  refine ⟨⟨?_, ?_⟩, ?_⟩
  · intro hsame key hkey
    cases hget : st.inodes.get key with
    | none => rfl
    | some inode =>
      obtain ⟨a, b, hintent, hplain, ha, hb, _⟩ := applied_of_inode intent now now' hop hkey hget
      rw [hintent, hplain] at hsame
      have hrecord := (hsame key hkey).1
      rw [ha, hb, OrdMap.get_insert_self, OrdMap.get_insert_self, inode.update_eq_write now hop,
        Option.some_inj] at hrecord
      have hversion : inode.versionNumber = inode.versionNumber + 1 := congrArg Inode.versionNumber hrecord
      omega
  · intro hnone
    obtain ⟨err, hintent, hplain⟩ := rejected_of_no_inode intent now now' hop hnone
    rw [hintent, hplain]
    trivial
  · intro key inode hkey hget
    obtain ⟨a, b, hintent, hplain, ha, hb, hchunks⟩ := applied_of_inode intent now now' hop hkey hget
    refine ⟨a, b, inode.write op now, hintent, hplain, ?_, ?_, by rw [hchunks]⟩
    · rw [ha, OrdMap.get_insert_self]
    · rw [hb, OrdMap.get_insert_self, inode.update_eq_write now hop]
      rfl

end Agreement

/-- The operation of a first write of three bytes to inode 1. -/
def firstCommit : MetadataOperation where
  type := .updateInode
  inodeID := [49]
  newSize := some 3
  newChunkList := some [⟨[99], [⟨"a", "a:1"⟩]⟩]
  setMTime := some 5
  timestamp := 5

def firstTxn : ChunkIntentOperation := ⟨[116], [99], ["a"], .committed, 5⟩

/-- A node without inode 1 rejects both entries. -/
theorem appliers_agree_missing :
    SameInode [49] ((Store.boot 0).applyTransaction 6 (intentEntry firstTxn firstCommit))
      ((Store.boot 0).applyTransaction 7 (plainEntry firstCommit)) := by
  refine (appliers_agree_iff (Store.boot 0) firstCommit ⟨rfl, rfl, rfl, by decide⟩ firstTxn 6 7).1.mpr ?_
  intro key hkey
  cases hkey
  decide +kernel

/-- A node with a new file under number 1. -/
def newFile : Store := (Store.boot 0).after 0 (replicateOp (createOp [49] [48] [102] .file 0o644 0 0) 1)

/-- The entry with the intent leaves version 0, and the plain one version 1. -/
theorem appliers_disagree :
    CommitShaped firstCommit ∧
      ¬ SameInode [49] (newFile.applyTransaction 6 (intentEntry firstTxn firstCommit))
        (newFile.applyTransaction 6 (plainEntry firstCommit)) ∧
      ((newFile.after 6 (intentEntry firstTxn firstCommit)).inodes.get (uint64BE 1)).map (·.versionNumber) = some 0 ∧
      ((newFile.after 6 (plainEntry firstCommit)).inodes.get (uint64BE 1)).map (·.versionNumber) = some 1 := by
  refine ⟨⟨rfl, rfl, rfl, by decide⟩, fun hsame => ?_, by decide +kernel, by decide +kernel⟩
  rw [ok_of_isOk (by decide +kernel), ok_of_isOk (by decide +kernel)] at hsame
  have hrecord := congrArg (Option.map (·.versionNumber)) (hsame (uint64BE 1) rfl).1
  revert hrecord
  decide +kernel

end Sandstore.Metadata
