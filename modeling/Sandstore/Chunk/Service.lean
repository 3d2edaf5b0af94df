import Sandstore.Lib.OrdMap
import Sandstore.Metadata.Types
import Mathlib.Data.List.Lex
import Mathlib.Order.Fin.Basic

/-!
# The chunk service of one node

`LocalDiscChunkService`: a directory of files, and in memory an index from a chunk to the transaction
that has prepared it last. A prepared write waits in the file `<chunk>_<transaction>.tmp`; committing it
renames that file to the chunk's own name, aborting it removes the file.

Paths are names in the one directory. An operation on a file may fail, and a function takes what
becomes of its own as an argument. The record of what was done to the files is the observer's, and the
code does not read it. Reading back a file that is there does not fail here.
-/

namespace Sandstore.Chunk

open Lib
open Metadata (IntentState)
open Raft (Byte Bytes)

/-! ## State -/

structure PreparedIndexEntry where
  txnID : Bytes
  chunkID : Bytes
  tempFilePath : Bytes
  createdAt : Int
  deriving DecidableEq, Repr

inductive FileEvent where
  | wrote (path data : Bytes)
  | renamed (path target : Bytes)
  | removed (path : Bytes)
  deriving DecidableEq, Repr

/-- `LocalDiscChunkService`, with the files under its directory. -/
structure ChunkService where
  files : OrdMap Bytes Bytes := ∅
  preparedIndex : OrdMap Bytes PreparedIndexEntry := ∅
  events : List FileEvent := []
  deriving DecidableEq

inductive Err where
  | openFailed -- "failed to open temp file: %w"
  | writeFailed -- "failed to write chunk data: %w"
  | syncFailed -- "failed to fsync temp file: %w"
  | notFinalized -- "transaction not found and chunk not finalized"
  | txnMismatch -- "txnID mismatch"
  | renameFailed -- "failed to commit chunk via rename: %w"
  | removeFailed -- "failed to delete aborted chunk: %w"
  | notFound -- ErrChunkNotFound
  | noMetadataService -- "metadata service is not configured"
  | intentState (err : Raft.Err) -- "failed to get intent state: %w"
  | finalizeFailed -- "failed to finalize chunk: %w"
  | abortedOrExpired -- "chunk write was aborted or expired"
  | locked -- "chunk is currently locked in an active transaction"
  deriving DecidableEq, Repr

/-- `"%s_%s.tmp"`. -/
def tempFileName (chunkID txnID : Bytes) : Bytes := chunkID ++ 95 :: (txnID ++ [46, 116, 109, 112])

/-- `preparedEntryTTL`, in nanoseconds. -/
def preparedEntryTTL : Int := 10 * 60 * 1000000000

/-- What becomes of a temp file that `PrepareChunk` writes; `notWritten` keeps what got into it. -/
inductive WriteFate where
  | done
  | notOpened
  | notWritten (kept : Bytes)
  | notSynced
  deriving DecidableEq, Repr

namespace ChunkService

def addToPreparedIndex (cs : ChunkService) (txnID chunkID tempFilePath : Bytes) (now : Int) :
    ChunkService :=
  { cs with
    preparedIndex := cs.preparedIndex.insert chunkID ⟨txnID, chunkID, tempFilePath, now⟩ }

def removeFromPreparedIndex (cs : ChunkService) (chunkID : Bytes) : ChunkService :=
  { cs with preparedIndex := cs.preparedIndex.erase chunkID }

/-- Put something into a file. -/
def put (cs : ChunkService) (path data : Bytes) : ChunkService :=
  { cs with files := cs.files.insert path data, events := cs.events ++ [.wrote path data] }

/-- `os.Rename` of a file that is there. -/
def rename (cs : ChunkService) (path target data : Bytes) : ChunkService :=
  { cs with
    files := (cs.files.erase path).insert target data
    events := cs.events ++ [.renamed path target] }

/-- `os.Remove` of a file that is there. -/
def remove (cs : ChunkService) (path : Bytes) : ChunkService :=
  { cs with files := cs.files.erase path, events := cs.events ++ [.removed path] }

/-! ## The operations -/

/-- The part of `PrepareChunk` that writes the temp file. -/
def writeTemp (cs : ChunkService) (fate : WriteFate) (now : Int) (txnID chunkID data : Bytes) :
    ChunkService × Option Err :=
  let tempFilePath := tempFileName chunkID txnID
  match fate with
  | .notOpened => (cs, some .openFailed)
  | .notWritten kept => (cs.put tempFilePath kept, some .writeFailed)
  | .notSynced => (cs.put tempFilePath data, some .syncFailed)
  | .done => ((cs.put tempFilePath data).addToPreparedIndex txnID chunkID tempFilePath now, none)

/-- `PrepareChunk`: a temp file that already holds the data is not written again. -/
def prepareChunk (calculateChecksum : Bytes → Bytes) (cs : ChunkService) (fate : WriteFate)
    (now : Int) (txnID chunkID data expectedChecksum : Bytes) : ChunkService × Option Err :=
  let tempFilePath := tempFileName chunkID txnID
  match cs.files.get tempFilePath with
  | some existingData =>
    if existingData.length = data.length ∧ calculateChecksum existingData = expectedChecksum then
      (cs.addToPreparedIndex txnID chunkID tempFilePath now, none)
    else cs.writeTemp fate now txnID chunkID data
  | none => cs.writeTemp fate now txnID chunkID data

/-- `CommitChunk`; `renames` is whether `os.Rename` works. -/
def commitChunk (cs : ChunkService) (renames : Bool) (txnID chunkID : Bytes) :
    ChunkService × Option Err :=
  match cs.preparedIndex.get chunkID with
  | none => if (cs.files.get chunkID).isSome then (cs, none) else (cs, some .notFinalized)
  | some entry =>
    if entry.txnID ≠ txnID then (cs, some .txnMismatch)
    else
      match cs.files.get entry.tempFilePath with
      | some data =>
        if renames then
          ((cs.rename entry.tempFilePath chunkID data).removeFromPreparedIndex chunkID, none)
        else (cs, some .renameFailed)
      | none => (cs, some .renameFailed)

/-- `AbortChunk`; `removes` is whether `os.Remove` works. A file that is gone is no error. -/
def abortChunk (cs : ChunkService) (removes : Bool) (txnID chunkID : Bytes) :
    ChunkService × Option Err :=
  match cs.preparedIndex.get chunkID with
  | none => (cs, none)
  | some entry =>
    if entry.txnID ≠ txnID then (cs, some .txnMismatch)
    else if (cs.files.get entry.tempFilePath).isSome then
      if removes then ((cs.remove entry.tempFilePath).removeFromPreparedIndex chunkID, none)
      else (cs, some .removeFailed)
    else (cs.removeFromPreparedIndex chunkID, none)

/-- The end of `ReadChunk` for a chunk whose transaction has been committed. -/
def finalize (cs : ChunkService) (renames : Bool) (chunkID : Bytes) (entry : PreparedIndexEntry) :
    ChunkService × Except Err Bytes :=
  match cs.files.get entry.tempFilePath with
  | some data =>
    if renames then
      ((cs.rename entry.tempFilePath chunkID data).removeFromPreparedIndex chunkID, .ok data)
    else (cs, .error .finalizeFailed)
  | none => (cs, .error .finalizeFailed)

/-- The end of `ReadChunk` for a chunk whose transaction is given up. -/
def discard (cs : ChunkService) (removes : Bool) (chunkID : Bytes) (entry : PreparedIndexEntry) :
    ChunkService × Except Err Bytes :=
  let cs := if removes ∧ (cs.files.get entry.tempFilePath).isSome then cs.remove entry.tempFilePath else cs
  (cs.removeFromPreparedIndex chunkID, .error .abortedOrExpired)

/-- `ReadChunk`. The metadata service may be missing; `works` is whether the file operation works. -/
def readChunk (getIntentState : Option (Bytes → Except Raft.Err IntentState)) (cs : ChunkService)
    (works : Bool) (now : Int) (chunkID : Bytes) : ChunkService × Except Err Bytes :=
  match cs.files.get chunkID with
  | some data => (cs, .ok data)
  | none =>
    match cs.preparedIndex.get chunkID with
    | none => (cs, .error .notFound)
    | some entry =>
      match getIntentState with
      | none => (cs, .error .noMetadataService)
      | some getIntentState =>
        match getIntentState entry.txnID with
        | .error err => (cs, .error (.intentState err))
        | .ok state =>
          if state = .committed then cs.finalize works chunkID entry
          else if state = .aborted ∨ (state = .unknown ∧ now - entry.createdAt > preparedEntryTTL) then
            cs.discard works chunkID entry
          else (cs, .error .locked)

end ChunkService

/-! ## Names and entries -/

/-- A transaction whose ID has no underscore can be read off its temp file. -/
theorem tempFileName_inj {chunkID chunkID' txnID txnID' : Bytes} (h : 95 ∉ txnID) (h' : 95 ∉ txnID')
    (heq : tempFileName chunkID txnID = tempFileName chunkID' txnID') : chunkID = chunkID' ∧ txnID = txnID' := by
  have hcut : chunkID ++ 95 :: txnID = chunkID' ++ 95 :: txnID' := by
    have : (chunkID ++ 95 :: txnID) ++ [46, 116, 109, 112] = (chunkID' ++ 95 :: txnID') ++ [46, 116, 109, 112] := by
      simpa [tempFileName] using heq
    exact List.append_cancel_right this
  -- the underscore in the middle is the last one
  rcases List.append_eq_append_iff.mp hcut with ⟨more, hchunk, htxn⟩ | ⟨more, hchunk, htxn⟩
  all_goals
    cases more with
    | nil => simp_all
    | cons b more =>
      obtain ⟨rfl, rfl⟩ := List.cons_eq_cons.mp htxn
      simp at h h'

namespace ChunkService

/-- Every entry of the index is at its chunk, and names the temp file of its transaction. -/
def Indexed (cs : ChunkService) : Prop :=
  ∀ chunkID entry, cs.preparedIndex.get chunkID = some entry →
    entry.tempFilePath = tempFileName chunkID entry.txnID

theorem readChunk_unconfigured (cs : ChunkService) (works : Bool) (now : Int) (chunkID : Bytes) :
    (cs.readChunk none works now chunkID).1 = cs := by
  unfold readChunk
  cases cs.files.get chunkID with
  | some data => rfl
  | none => cases cs.preparedIndex.get chunkID <;> rfl

end ChunkService

end Sandstore.Chunk
