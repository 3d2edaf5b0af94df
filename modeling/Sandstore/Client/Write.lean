import Sandstore.Server.Sequential

/-!
# Writing through the client's buffer

`Write` collects bytes in a buffer of its descriptor and sends them in two ways: it empties a buffer that
would overflow, and it sends the front of one slice that is larger than the buffer. `Fsync` and `Close` send
what is left. Whatever is sent goes out in requests that end where a chunk of the server ends.

What the client needs of the server is that a request at the end of the file appends to it, if it stays in a
chunk (`Appends`). **What has been sent, followed by the buffer, is what has been written** (`Kept`), from any
such server. The server of one leader with all its nodes is one (`appends_serveWrite`), and there the law is that
**sequential writes arrive intact** (`sequential_writes_arrive`).
-/

namespace Sandstore.Client

open Lib Metadata Orchestrators Server
open Chunk (tempFileName)
open Raft (Bytes NodeId)

/-! ## The client -/

def writeBufferLimit : Nat := 2 * 1024 * 1024

def writeRPCChunkSize : Int := 8 * 1024 * 1024

/-- `SandstoreFD`, with its write buffer. -/
structure BufferedFD extends SandstoreFD where
  buffer : Bytes
  deriving DecidableEq

inductive WriteError where
  | badFileDescriptor -- "bad file descriptor"
  | notOpenForWriting -- "file not open for writing"
  | failed (op filePath : String) (err : Orchestrators.Err) -- "%s %q failed: %w"
  deriving DecidableEq, Repr

/-- `Mode&os.O_WRONLY == 0 && Mode&os.O_RDWR == 0`. -/
def BufferedFD.readOnly (f : BufferedFD) : Bool := ¬ f.mode.testBit 0 ∧ ¬ f.mode.testBit 1

/-- How much of a chunk is left from an offset on. -/
def chunkLimit (currOffset : Int) : Int :=
  let mod := currOffset.tmod writeRPCChunkSize
  let remainingInChunk := writeRPCChunkSize - mod
  if mod ≠ 0 ∧ remainingInChunk < writeRPCChunkSize then remainingInChunk else writeRPCChunkSize

section Calls

variable {σ : Type} (send : σ → WriteRequest → σ × Except Orchestrators.Err Int)

/-- The loop of `sendWriteInChunks`, for so many rounds at most. -/
def sendRounds (inodeID : Bytes) (startOffset : Int) (payload : Bytes) :
    Nat → Nat → σ → σ × Option Orchestrators.Err
  | 0, _, s => (s, none)
  | rounds + 1, written, s =>
    if written < payload.length then
      let currOffset := wrap64 (startOffset + written)
      let limit := written + (chunkLimit currOffset).toNat
      let stop := if limit > payload.length then payload.length else limit
      match send s ⟨inodeID, currOffset, (payload.drop written).take (stop - written)⟩ with
      | (s', .ok _) => sendRounds inodeID startOffset payload rounds stop s'
      | (s', .error err) => (s', some err)
    else (s, none)

/-- `sendWriteInChunks`. A round sends at least one byte. -/
def sendWriteInChunks (f : BufferedFD) (startOffset : Int) (payload : Bytes) (s : σ) :
    σ × Option Orchestrators.Err :=
  sendRounds send f.inodeID startOffset payload payload.length 0 s

def flushBufferedWrites (op : String) (f : BufferedFD) (s : σ) : σ × BufferedFD × Option WriteError :=
  if f.buffer = [] then (s, f, none)
  else
    match sendWriteInChunks send f (wrap64 (f.offset - f.buffer.length)) f.buffer s with
    | (s', none) => (s', { f with buffer := [] }, none)
    | (s', some err) => (s', f, some (.failed op f.filePath err))

/-- `Write` after its first flush. The size of a buffer is an argument. -/
def bufferData (bufferLimit : Nat) (f : BufferedFD) (data : Bytes) (s : σ) : σ × BufferedFD × Option WriteError :=
  let f := { f with buffer := f.buffer ++ data, offset := wrap64 (f.offset + data.length) }
  if f.buffer.length ≤ bufferLimit then (s, f, none)
  else
    let flushBytes := f.buffer.length - bufferLimit
    let flushOffset := wrap64 (f.offset - f.buffer.length)
    match sendWriteInChunks send f flushOffset (f.buffer.take flushBytes) s with
    | (s', some err) => (s', f, some (.failed "write" f.filePath err))
    | (s', none) => (s', { f with buffer := f.buffer.drop flushBytes }, none)

/-- `Write`, of a descriptor that is open. -/
def writeFile (bufferLimit : Nat) (f : BufferedFD) (data : Bytes) (s : σ) : σ × BufferedFD × Option WriteError :=
  if f.readOnly then (s, f, some .notOpenForWriting)
  else if data = [] then (s, f, none)
  else if f.buffer ≠ [] ∧ f.buffer.length + data.length > bufferLimit then
    match flushBufferedWrites send "write" f s with
    | (s', f', some err) => (s', f', some err)
    | (s', f', none) => bufferData send bufferLimit f' data s'
  else bufferData send bufferLimit f data s

/-- The descriptors of a client, as far as writing goes. -/
abbrev OpenFiles := Nat → Option BufferedFD

inductive Call where
  | write (data : Bytes)
  | fsync
  | close
  deriving DecidableEq

/-- A call on a descriptor: what becomes of the server and of the descriptors, and its error. `Close` takes the
descriptor away before it flushes. -/
def perform (fd : Int) (s : σ) (openFiles : OpenFiles) (call : Call) : σ × OpenFiles × Option WriteError :=
  if fd < 0 then (s, openFiles, some .badFileDescriptor)
  else
    match openFiles fd.toNat with
    | none => (s, openFiles, some .badFileDescriptor)
    | some f =>
      match call with
      | .write data =>
        let (s', f', err) := writeFile send writeBufferLimit f data s
        (s', Function.update openFiles fd.toNat (some f'), err)
      | .fsync =>
        let (s', f', err) := flushBufferedWrites send "fsync" f s
        (s', Function.update openFiles fd.toNat (some f'), err)
      | .close =>
        let (s', _, err) := flushBufferedWrites send "close" f s
        (s', Function.update openFiles fd.toNat none, err)

/-- Calls one after another, up to the first error. -/
def performAll (fd : Int) : List Call → σ → OpenFiles → σ × OpenFiles × Option WriteError
  | [], s, openFiles => (s, openFiles, none)
  | call :: calls, s, openFiles =>
    match perform send fd s openFiles call with
    | (s', openFiles', none) => performAll fd calls s' openFiles'
    | (s', openFiles', some err) => (s', openFiles', some err)

end Calls

/-- The slices of the writes among some calls, one after another. -/
def slices (calls : List Call) : Bytes :=
  calls.flatMap fun
    | .write data => data
    | _ => []

/-! ## What is sent -/

/-- Requests that send a payload from an offset on, piece by piece, and no piece beyond its chunk. -/
inductive Tiles (inodeID : Bytes) : Int → Bytes → List WriteRequest → Prop
  | nil (offset : Int) : Tiles inodeID offset [] []
  | cons {offset : Int} {data rest : Bytes} {reqs : List WriteRequest} (hdata : data ≠ [])
      (hlimit : data.length ≤ chunkLimit offset) (hrest : Tiles inodeID (wrap64 (offset + data.length)) rest reqs) :
      Tiles inodeID offset (data ++ rest) (⟨inodeID, offset, data⟩ :: reqs)

/-- Requests one after another, up to the first that fails. -/
def sendEach {σ : Type} (send : σ → WriteRequest → σ × Except Orchestrators.Err Int) :
    List WriteRequest → σ → σ × Option Orchestrators.Err
  | [], s => (s, none)
  | req :: reqs, s =>
    match send s req with
    | (s', .ok _) => sendEach send reqs s'
    | (s', .error err) => (s', some err)

theorem chunkLimit_pos (o : Int) : 0 < chunkLimit o := by
  have hlt := Int.tmod_lt_of_pos o (show 0 < writeRPCChunkSize by decide)
  have hsize : 0 < writeRPCChunkSize := by decide
  unfold chunkLimit
  dsimp only
  split <;> omega

theorem chunkLimit_eq (o : Nat) : chunkLimit o = (writeRPCChunkSize.toNat - o % writeRPCChunkSize.toNat : Nat) := by
  have hmod : (o : Int).tmod writeRPCChunkSize = (o % writeRPCChunkSize.toNat : Nat) := by
    rw [Int.tmod_eq_emod_of_nonneg (by omega)]
    rfl
  have hlt : o % writeRPCChunkSize.toNat < writeRPCChunkSize.toNat := Nat.mod_lt _ (by decide)
  have hsize : writeRPCChunkSize = (writeRPCChunkSize.toNat : Int) := by decide
  unfold chunkLimit
  rw [hmod]
  dsimp only
  split <;> omega

section Rounds

variable {inodeID payload : Bytes} {startOffset : Int}

theorem sendRounds_done {σ : Type} (send : σ → WriteRequest → σ × Except Orchestrators.Err Int) (rounds : Nat)
    {written : Nat} (s : σ) (hle : payload.length ≤ written) :
    sendRounds send inodeID startOffset payload rounds written s = (s, none) := by
  cases rounds with
  | zero => rfl
  | succ rounds => rw [sendRounds, if_neg (Nat.not_lt.mpr hle)]

/-- **The loop sends the payload in such requests**, whoever serves them. -/
theorem sendRounds_tiles (rounds : Nat) : ∀ written : Nat, payload.length - written ≤ rounds → ∃ reqs,
    Tiles inodeID (wrap64 (startOffset + written)) (payload.drop written) reqs ∧
      ∀ (σ : Type) (send : σ → WriteRequest → σ × Except Orchestrators.Err Int) (s : σ),
        sendRounds send inodeID startOffset payload rounds written s = sendEach send reqs s := by
  have hnil : ∀ {written : Nat}, payload.length ≤ written →
      Tiles inodeID (wrap64 (startOffset + written)) (payload.drop written) [] := by
    intro written hle
    rw [List.drop_eq_nil_of_le hle]
    exact .nil _
  induction rounds with
  | zero =>
    intro written hrounds
    have hle : payload.length ≤ written := by omega
    exact ⟨[], hnil hle, fun _ send s => sendRounds_done send 0 s hle⟩
  | succ rounds ih =>
    intro written hrounds
    by_cases hmore : written < payload.length
    · have hpos := chunkLimit_pos (wrap64 (startOffset + written))
      set limit := written + (chunkLimit (wrap64 (startOffset + written))).toNat with hlimit
      obtain ⟨stop, hstop⟩ : ∃ stop, stop = if limit > payload.length then payload.length else limit := ⟨_, rfl⟩
      have hbounds : written < stop ∧ stop ≤ payload.length ∧ stop ≤ limit := by
        rw [hstop]
        split <;> omega
      set data := (payload.drop written).take (stop - written) with hdata
      have hlength : data.length = stop - written := by
        rw [hdata, List.length_take, List.length_drop]
        omega
      have hsplit : payload.drop written = data ++ payload.drop stop := by
        rw [← List.take_append_drop (stop - written) (payload.drop written), List.drop_drop,
          Nat.add_sub_cancel' hbounds.1.le]
      have hnext : wrap64 (wrap64 (startOffset + written) + data.length) = wrap64 (startOffset + stop) := by
        rw [wrap64, wrap64, Int.bmod_add_bmod, wrap64, hlength]
        congr 1
        omega
      obtain ⟨reqs, htiles, heq⟩ := ih stop (by omega)
      refine ⟨⟨inodeID, wrap64 (startOffset + written), data⟩ :: reqs, ?_, fun σ send s => ?_⟩
      · rw [hsplit]
        exact .cons (List.ne_nil_of_length_pos (by omega)) (by omega) (hnext ▸ htiles)
      · rw [sendRounds, if_pos hmore, sendEach]
        dsimp only
        rw [← hlimit, ← hstop, ← hdata]
        split
        · exact heq σ send _
        · rfl
    · have hle := Nat.not_lt.mp hmore
      exact ⟨[], hnil hle, fun _ send s => sendRounds_done send _ s hle⟩

end Rounds

theorem sendWriteInChunks_tiles (f : BufferedFD) (startOffset : Int) (payload : Bytes) : ∃ reqs,
    Tiles f.inodeID (wrap64 startOffset) payload reqs ∧
      ∀ (σ : Type) (send : σ → WriteRequest → σ × Except Orchestrators.Err Int) (s : σ),
        sendWriteInChunks send f startOffset payload s = sendEach send reqs s := by
  obtain ⟨reqs, htiles, heq⟩ := sendRounds_tiles payload.length 0 (Nat.sub_le _ _)
  exact ⟨reqs, by simpa using htiles, heq⟩

section Partition

variable {inodeID payload : Bytes} {offset : Int} {reqs : List WriteRequest}

theorem Tiles.data (h : Tiles inodeID offset payload reqs) : reqs.flatMap (·.data) = payload := by
  induction h with
  | nil => rfl
  | cons _ _ _ ih => rw [List.flatMap_cons, ih]

theorem Tiles.get (h : Tiles inodeID offset payload reqs) (hstart : 0 ≤ offset)
    (hfits : offset + payload.length < 2 ^ 63) {i : Nat} {req : WriteRequest} (hget : reqs[i]? = some req) :
    req.inodeID = inodeID ∧ req.data ≠ [] ∧ req.offset = offset + ((reqs.take i).flatMap (·.data)).length ∧
      isWithinChunkBoundary writeRPCChunkSize req.offset req.data.length = true := by
  induction h generalizing i with
  | nil => cases hget
  | @cons offset data rest reqs hdata hlimit _ ih =>
    rw [List.length_append] at hfits
    obtain ⟨o, rfl⟩ := Int.eq_ofNat_of_zero_le hstart
    cases i with
    | zero =>
      cases hget
      have hmod : o % writeRPCChunkSize.toNat < writeRPCChunkSize.toNat := Nat.mod_lt _ (by decide)
      rw [chunkLimit_eq] at hlimit
      have hinside : o % writeRPCChunkSize.toNat + data.length ≤ writeRPCChunkSize.toNat := by omega
      have hproper : Server.Proper {} ⟨inodeID, o, data⟩ := ⟨hstart, hinside⟩
      exact ⟨rfl, hdata, by simp, hproper.within_boundary (by dsimp only; omega)⟩
    | succ i =>
      have hnext : wrap64 ((o : Int) + data.length) = (o + data.length : Nat) := by
        rw [← Int.natCast_add, wrap64_of_lt (by omega)]
      rw [hnext] at ih
      obtain ⟨hid, hne, hat, hwithin⟩ := ih (Int.natCast_nonneg _) (by omega) hget
      refine ⟨hid, hne, ?_, hwithin⟩
      rw [hat, List.take_succ_cons, List.flatMap_cons, List.length_append]
      dsimp only
      omega

end Partition

/-- **Client write splitting is an exact partition.** The requests follow each other from the offset on, none is
empty and none leaves its chunk, together they are the payload, and whatever the server answers, they are sent
one after another up to the first that fails. -/
theorem write_partition (f : BufferedFD) {startOffset : Int} (hstart : 0 ≤ startOffset) (payload : Bytes)
    (hfits : startOffset + payload.length < 2 ^ 63) :
    ∃ reqs : List WriteRequest, reqs.flatMap (·.data) = payload ∧
      (∀ i req, reqs[i]? = some req → req.inodeID = f.inodeID ∧ req.data ≠ [] ∧
        req.offset = startOffset + ((reqs.take i).flatMap (·.data)).length ∧
        isWithinChunkBoundary writeRPCChunkSize req.offset req.data.length = true) ∧
      ∀ (σ : Type) (send : σ → WriteRequest → σ × Except Orchestrators.Err Int) (s : σ),
        sendWriteInChunks send f startOffset payload s = sendEach send reqs s := by
  obtain ⟨reqs, htiles, heq⟩ := sendWriteInChunks_tiles f startOffset payload
  obtain ⟨o, rfl⟩ := Int.eq_ofNat_of_zero_le hstart
  rw [wrap64_of_lt (by omega)] at htiles
  exact ⟨reqs, htiles.data, fun i req hget => htiles.get hstart hfits hget, heq⟩

theorem write_partition_unaligned : ∃ reqs : List WriteRequest, reqs.flatMap (·.data) = [1, 2, 3] ∧
    ∀ (i : Nat) (req : WriteRequest), reqs[i]? = some req → req.data ≠ [] := by
  obtain ⟨reqs, hdata, hget, -⟩ := write_partition ⟨⟨[49], "/f", 1, 0⟩, []⟩ (show (0 : Int) ≤ 8388607 by decide)
    [1, 2, 3] (by decide)
  exact ⟨reqs, hdata, fun i req h => (hget i req h).2.1⟩

/-! ## Any server that appends -/

/-- The server appends to its file what is sent to its end, if it stays in a chunk. -/
def Appends {σ : Type} (send : σ → WriteRequest → σ × Except Orchestrators.Err Int) (inodeID : Bytes)
    (holds : σ → Bytes → Prop) : Prop :=
  ∀ s file data, holds s file → data ≠ [] →
    file.length % writeRPCChunkSize.toNat + data.length ≤ writeRPCChunkSize.toNat →
    file.length + data.length < 2 ^ 63 →
    ∃ s' n, send s ⟨inodeID, file.length, data⟩ = (s', .ok n) ∧ holds s' (file ++ data)

section Server

variable {σ : Type} {send : σ → WriteRequest → σ × Except Orchestrators.Err Int} {inodeID : Bytes}
  {holds : σ → Bytes → Prop}

/-- **What is sent piece by piece arrives at the end of the file.** -/
theorem Appends.sendEach (h : Appends send inodeID holds) {payload : Bytes} {offset : Int} {reqs : List WriteRequest}
    (htiles : Tiles inodeID offset payload reqs) : ∀ {file : Bytes} {s : σ}, offset = file.length →
    file.length + payload.length < 2 ^ 63 → holds s file →
    ∃ s', Client.sendEach send reqs s = (s', none) ∧ holds s' (file ++ payload) := by
  induction htiles with
  | nil => exact fun _ _ hs => ⟨_, rfl, by rwa [List.append_nil]⟩
  | @cons offset data rest reqs hdata hlimit _ ih =>
    rintro file s rfl hfits hs
    rw [List.length_append] at hfits
    have hmod : file.length % writeRPCChunkSize.toNat < writeRPCChunkSize.toNat := Nat.mod_lt _ (by decide)
    rw [chunkLimit_eq] at hlimit
    obtain ⟨s', n, hsent, hs'⟩ := h s file data hs hdata (by omega) (by omega)
    have hnext : wrap64 ((file.length : Int) + data.length) = (file ++ data).length := by
      rw [← Int.natCast_add, List.length_append, wrap64_of_lt (by omega)]
    rw [Client.sendEach, hsent, ← List.append_assoc]
    exact ih hnext (by rw [List.length_append]; omega) hs'

variable {f : BufferedFD}

theorem Appends.sendWriteInChunks (h : Appends send inodeID holds) (hid : f.inodeID = inodeID)
    {file payload : Bytes} (hfits : file.length + payload.length < 2 ^ 63) {s : σ} (hs : holds s file) :
    ∃ s', Client.sendWriteInChunks send f file.length payload s = (s', none) ∧ holds s' (file ++ payload) := by
  subst hid
  obtain ⟨reqs, htiles, heq⟩ := sendWriteInChunks_tiles f file.length payload
  rw [heq]
  exact h.sendEach htiles (wrap64_of_lt (by omega)) hfits hs

/-- What has been sent, followed by the buffer, is what has been written. -/
structure Kept (inodeID : Bytes) (holds : σ → Bytes → Prop) (s : σ) (f : BufferedFD) (written : Bytes) : Prop where
  inodeID : f.inodeID = inodeID
  writable : f.readOnly = false
  offset : f.offset = written.length
  sent : ∃ file, holds s file ∧ file ++ f.buffer = written

theorem bufferStart_eq {file : Bytes} (h : f.offset = (file ++ f.buffer).length)
    (hfits : (file ++ f.buffer).length < 2 ^ 63) : wrap64 (f.offset - f.buffer.length) = file.length := by
  rw [List.length_append] at h hfits
  rw [h, Int.natCast_add, Int.add_sub_cancel, wrap64_of_lt (by omega)]

theorem Kept.flush {s : σ} {written : Bytes} (h : Kept inodeID holds s f written)
    (hsend : Appends send inodeID holds) (hfits : written.length < 2 ^ 63) (op : String) :
    ∃ s', flushBufferedWrites send op f s = (s', { f with buffer := [] }, none) ∧ holds s' written := by
  obtain ⟨file, hs, rfl⟩ := h.sent
  unfold flushBufferedWrites
  split
  · next hempty =>
    rw [hempty, List.append_nil]
    refine ⟨s, ?_, hs⟩
    rw [← hempty]
  · rw [bufferStart_eq h.offset hfits]
    obtain ⟨s', hsent, hs'⟩ := hsend.sendWriteInChunks h.inodeID (by simpa using hfits) hs
    rw [hsent]
    exact ⟨s', rfl, hs'⟩

theorem Kept.buffer {s : σ} {written data : Bytes} (h : Kept inodeID holds s f written)
    (hsend : Appends send inodeID holds) (hfits : (written ++ data).length < 2 ^ 63) (bufferLimit : Nat) :
    ∃ s' f', bufferData send bufferLimit f data s = (s', f', none) ∧ Kept inodeID holds s' f' (written ++ data) := by
  obtain ⟨file, hs, rfl⟩ := h.sent
  have hoffset : wrap64 (f.offset + data.length) = (file ++ f.buffer ++ data).length := by
    rw [h.offset, ← Int.natCast_add, ← List.length_append, wrap64_of_lt hfits]
  rw [List.append_assoc] at hfits hoffset ⊢
  unfold bufferData
  rw [hoffset]
  dsimp only
  split
  · exact ⟨s, _, rfl, h.inodeID, h.writable, rfl, file, hs, rfl⟩
  · -- the front of the buffer is sent
    have hstart : wrap64 (((file ++ (f.buffer ++ data)).length : Int) - (f.buffer ++ data).length) = file.length := by
      rw [List.length_append, Int.natCast_add, Int.add_sub_cancel, wrap64_of_lt]
      rw [List.length_append] at hfits
      omega
    set flushBytes := (f.buffer ++ data).length - bufferLimit
    have hfront : file.length + ((f.buffer ++ data).take flushBytes).length < 2 ^ 63 := by
      rw [List.length_append] at hfits
      have hle := List.length_take_le flushBytes (f.buffer ++ data)
      omega
    obtain ⟨s', hsent, hs'⟩ := hsend.sendWriteInChunks (f := { f with
      buffer := f.buffer ++ data, offset := (file ++ (f.buffer ++ data)).length }) h.inodeID hfront hs
    rw [hstart, hsent]
    refine ⟨s', _, rfl, h.inodeID, h.writable, rfl, _, hs', ?_⟩
    rw [List.append_assoc, List.take_append_drop]

theorem Kept.write {s : σ} {written data : Bytes} (h : Kept inodeID holds s f written)
    (hsend : Appends send inodeID holds) (hfits : (written ++ data).length < 2 ^ 63) (bufferLimit : Nat) :
    ∃ s' f', writeFile send bufferLimit f data s = (s', f', none) ∧ Kept inodeID holds s' f' (written ++ data) := by
  unfold writeFile
  rw [h.writable, if_neg Bool.false_ne_true]
  split
  · next hempty =>
    rw [hempty, List.append_nil]
    exact ⟨s, f, rfl, h⟩
  · split
    · -- the buffer is emptied first
      obtain ⟨s', hflush, hs'⟩ := h.flush hsend (by rw [List.length_append] at hfits; omega) "write"
      have h' : Kept inodeID holds s' { f with buffer := [] } written :=
        ⟨h.inodeID, h.writable, h.offset, written, hs', List.append_nil _⟩
      rw [hflush]
      exact h'.buffer hsend hfits bufferLimit
    · exact h.buffer hsend hfits bufferLimit

/-- **A descriptor that writes and flushes has sent all that was written after its last flush.** -/
theorem Kept.performAll (hsend : Appends send inodeID holds) {fd : Int} (hfd : 0 ≤ fd) (calls : List Call) (last : Call)
    (hcalls : .close ∉ calls) (hlast : last = .fsync ∨ last = .close) : ∀ {s : σ} {openFiles : OpenFiles}
    {f : BufferedFD} {written : Bytes}, openFiles fd.toNat = some f → Kept inodeID holds s f written →
    (written ++ slices calls).length < 2 ^ 63 →
    ∃ s' openFiles', Client.performAll send fd (calls ++ [last]) s openFiles = (s', openFiles', none) ∧
      holds s' (written ++ slices calls) := by
  induction calls with
  | nil =>
    intro s openFiles f written hopen h hfits
    have hwritten : written ++ slices [] = written := List.append_nil _
    rw [hwritten] at hfits ⊢
    rcases hlast with rfl | rfl
    · obtain ⟨s', hflush, hs'⟩ := h.flush hsend hfits "fsync"
      simp only [List.nil_append, Client.performAll, perform, if_neg (not_lt.mpr hfd), hopen, hflush]
      exact ⟨s', _, rfl, hs'⟩
    · obtain ⟨s', hflush, hs'⟩ := h.flush hsend hfits "close"
      simp only [List.nil_append, Client.performAll, perform, if_neg (not_lt.mpr hfd), hopen, hflush]
      exact ⟨s', _, rfl, hs'⟩
  | cons call calls ih =>
    intro s openFiles f written hopen h hfits
    have hrest : .close ∉ calls := fun hmem => hcalls (List.mem_cons_of_mem _ hmem)
    -- the descriptor after the call
    have hone : ∃ s' f' data, perform send fd s openFiles call = (s', Function.update openFiles fd.toNat (some f'), none) ∧
        slices (call :: calls) = data ++ slices calls ∧ Kept inodeID holds s' f' (written ++ data) := by
      cases call with
      | write data =>
        have hdata : (written ++ data).length < 2 ^ 63 := by
          have hsplit : slices (.write data :: calls) = data ++ slices calls := rfl
          rw [hsplit, ← List.append_assoc, List.length_append] at hfits
          omega
        obtain ⟨s', f', hwrite, h'⟩ := h.write hsend hdata writeBufferLimit
        refine ⟨s', f', data, ?_, rfl, h'⟩
        simp only [perform, if_neg (not_lt.mpr hfd), hopen, hwrite]
      | fsync =>
        have hflushed : written.length < 2 ^ 63 := by
          rw [List.length_append] at hfits
          omega
        obtain ⟨s', hflush, hs'⟩ := h.flush hsend hflushed "fsync"
        refine ⟨s', { f with buffer := [] }, [], ?_, rfl, ?_⟩
        · simp only [perform, if_neg (not_lt.mpr hfd), hopen, hflush]
        · rw [List.append_nil]
          exact ⟨h.inodeID, h.writable, h.offset, written, hs', List.append_nil _⟩
      | close => exact absurd List.mem_cons_self hcalls
    obtain ⟨s', f', data, hperform, hslices, h'⟩ := hone
    rw [List.cons_append, Client.performAll, hperform]
    rw [hslices, ← List.append_assoc] at hfits ⊢
    exact ih hrest (Function.update_self _ _ _) h' hfits

end Server

/-! ## The server -/

/-- What the server meets from one write to the next: the cluster view, and what `uuid.NewString` and the clock
say. -/
structure Surroundings where
  view : Nat → ClusterView
  draw : Nat → Draw

/-- The server after so many writes. -/
structure Served where
  site : Site
  count : Nat

/-- `handleWrite` for the next request, with all of its notifications delivered. What a failed write leaves
behind is not asked for. -/
def serveWrite (cfg : Config) (calculateChecksum : Bytes → Bytes) (env : Surroundings) (s : Served) (req : WriteRequest) :
    Served × Except Orchestrators.Err Int :=
  match s.site.handleWrite cfg (env.view s.count) calculateChecksum req (env.draw s.count) with
  | .ok (site, n) => (⟨site, s.count + 1⟩, .ok n)
  | .error err => (⟨s.site, s.count + 1⟩, .error err)

/-- There are nodes for new chunks, and every ID is new. -/
structure Supplied (cfg : Config) (env : Surroundings) (site : Site) : Prop where
  targets : ∀ k, ∃ targets, selectTargets (env.view k) cfg.replicaCount cfg.replicaCount = .ok targets
  chunkIDs : ∀ k, 95 ∉ (env.draw k).newChunkID
  txnIDs : ∀ k, 95 ∉ (env.draw k).txnID
  newChunks : Function.Injective fun k => (env.draw k).newChunkID
  newTxns : Function.Injective fun k => (env.draw k).txnID
  unused : ∀ k j chunkID, (site.chunks j).files.get (tempFileName chunkID (env.draw k).txnID) = none

/-- The server has the file, in full chunks under IDs that were drawn for them, and the IDs to come are new. -/
def Stored (cfg : Config) (env : Surroundings) (inodeID : Bytes) (s : Served) (file : Bytes) : Prop :=
  ∃ inode chunkList pieces, Spells cfg s.site inodeID inode chunkList pieces file ∧ inode.type = .file ∧
    Tiled cfg.chunkSize.toNat file pieces ∧
    (∀ c ∈ chunkList, ∃ k < s.count, c.chunkID = (env.draw k).newChunkID) ∧
    ∀ k j chunkID, s.count ≤ k → (s.site.chunks j).files.get (tempFileName chunkID (env.draw k).txnID) = none

section Serving

variable {cfg : Config} {calculateChecksum : Bytes → Bytes} {env : Surroundings} {inodeID : Bytes} {site : Site}

theorem Stored.drawn (hsup : Supplied cfg env site) {s : Served} {chunkList : List ChunkDescriptor} {inode : Inode}
    (hinode : s.site.store.getInode inodeID = .ok (inode, chunkList))
    (hids : ∀ c ∈ chunkList, ∃ k < s.count, c.chunkID = (env.draw k).newChunkID)
    (htemps : ∀ k j chunkID, s.count ≤ k →
      (s.site.chunks j).files.get (tempFileName chunkID (env.draw k).txnID) = none) :
    Drawn s.site inodeID (env.draw s.count) := by
  refine ⟨hsup.chunkIDs s.count, ?_, fun j chunkID => htemps s.count j chunkID (Nat.le_refl _)⟩
  intro inode' chunkList' hinode' c hc heq
  cases hinode.symm.trans hinode'
  obtain ⟨k, hk, hid⟩ := hids c hc
  have hsame : k = s.count := hsup.newChunks (hid.symm.trans heq)
  omega

/-- **The server appends.** -/
theorem appends_serveWrite (hsize : cfg.chunkSize = writeRPCChunkSize) (hsup : Supplied cfg env site) :
    Appends (serveWrite cfg calculateChecksum env) inodeID (Stored cfg env inodeID) := by
  rintro s file data ⟨inode, chunkList, pieces, hspells, htype, htiled, hids, htemps⟩ hdata hinside hfits
  rw [← hsize] at hinside
  have hsmall : cfg.chunkSize < 2 ^ 63 := by
    rw [hsize]
    decide
  have hproper : Server.Proper cfg ⟨inodeID, file.length, data⟩ := ⟨Int.natCast_nonneg _, hinside⟩
  have hdrawn := Stored.drawn hsup hspells.getInode hids htemps
  have hdense : Dense cfg s.site ⟨inodeID, file.length, data⟩ := by
    refine ⟨by dsimp only; omega, ?_⟩
    intro inode' chunkList' hinode'
    cases hspells.getInode.symm.trans hinode'
    have hpos := cfg.positive
    rw [← hspells.count, htiled.count]
    exact Nat.div_le_div_right (by dsimp only; omega)
  obtain ⟨targets, htargets⟩ := hsup.targets s.count
  have haccepts : ∃ site' n, s.site.handleWrite cfg (env.view s.count) calculateChecksum
      ⟨inodeID, file.length, data⟩ (env.draw s.count) = .ok (site', n) :=
    hspells.accepts htype hsmall (env.draw s.count) rfl hproper hdense.fits htargets
  obtain ⟨site', n, hwrite⟩ := haccepts
  refine ⟨⟨site', s.count + 1⟩, n, by rw [serveWrite, hwrite], ?_⟩
  obtain ⟨inode', chunkList', pieces', hspells', htype', hwrote, hnew⟩ :=
    hspells.write hsmall rfl hproper hdrawn hdense hwrite
  have happend : writeAt 0 file (file.length : Int).toNat data = file ++ data := by
    rw [Int.toNat_natCast, writeAt_eq (Nat.le_refl _)]
    simp
  refine ⟨inode', chunkList', pieces', happend ▸ hspells', htype'.trans htype, ?_, ?_, ?_⟩
  · exact htiled.append hdata hinside hwrote
  · intro c hc
    rcases hnew c hc with hold | hid
    · obtain ⟨k, hk, hid⟩ := hids c hold
      exact ⟨k, Nat.lt_succ_of_lt hk, hid⟩
    · exact ⟨s.count, Nat.lt_succ_self _, hid⟩
  · intro k j chunkID hk
    have hlater : s.count < k := hk
    refine hspells.temp rfl hdrawn (hsup.txnIDs s.count) hwrite (hsup.txnIDs k) ?_
      (fun j => htemps k j chunkID hlater.le) j
    intro heq
    have hsame : k = s.count := hsup.newTxns heq
    omega

/-- **Sequential writes arrive intact.** Slices are written to a fresh descriptor of an empty file, with `Fsync`
anywhere in between and `Fsync` or `Close` in the end. No call fails, so no request is rejected. The size of the
file is the number of bytes written, it has as many chunks as these bytes need, and its chunks, wherever each is
read, are the slices one after another. -/
theorem sequential_writes_arrive (calculateChecksum : Bytes → Bytes) (hsize : cfg.chunkSize = writeRPCChunkSize)
    (hsup : Supplied cfg env site) {inode : Inode} (hinode : site.store.getInode inodeID = .ok (inode, []))
    (hnamed : inode.inodeID = inodeID) (hfile : inode.type = .file) (hempty : inode.fileSize = 0)
    (hindexed : ∀ j, (site.chunks j).Indexed) {fd : Int} (hfd : 0 ≤ fd) {openFiles : OpenFiles} {f : BufferedFD}
    (hopen : openFiles fd.toNat = some f) (hid : f.inodeID = inodeID) (hwritable : f.readOnly = false)
    (hoffset : f.offset = 0) (hbuffer : f.buffer = []) (calls : List Call) (hcalls : .close ∉ calls) {last : Call}
    (hlast : last = .fsync ∨ last = .close) (hfits : (slices calls).length < 2 ^ 63) :
    ∃ s openFiles', performAll (serveWrite cfg calculateChecksum env) fd (calls ++ [last]) ⟨site, 0⟩ openFiles =
        (s, openFiles', none) ∧
      ∃ inode' chunkList, s.site.store.getInode inodeID = .ok (inode', chunkList) ∧
        inode'.fileSize = (slices calls).length ∧
        chunkList.length = ((slices calls).length + writeRPCChunkSize.toNat - 1) / writeRPCChunkSize.toNat ∧
        (∀ c ∈ chunkList, c.locations ≠ []) ∧
        ∀ pick : ChunkDescriptor → NodeId,
          (∀ c ∈ chunkList, ∃ target ∈ c.locations, pick c = target.logicalNodeAlias) →
          chunkList.flatMap (fun c => ((s.site.chunks (pick c)).files.get c.chunkID).getD []) = slices calls := by
  have hpos := cfg.positive
  have hstart : Stored cfg env inodeID ⟨site, 0⟩ [] := by
    refine ⟨inode, [], [], ?_, hfile, tiled_nil (by omega), fun c hc => (nomatch hc), fun k j chunkID _ =>
      hsup.unused k j chunkID⟩
    exact ⟨hinode, hnamed, hempty, by simp, rfl, fun _ hi => (nomatch hi), rfl, List.nodup_nil,
      fun _ _ hc => (nomatch hc), hindexed⟩
  have hkept : Kept inodeID (Stored cfg env inodeID) ⟨site, 0⟩ f [] :=
    ⟨hid, hwritable, hoffset, [], hstart, by rw [hbuffer]; rfl⟩
  obtain ⟨s, openFiles', hrun, inode', chunkList, pieces, hspells, -, htiled, -⟩ :=
    Kept.performAll (appends_serveWrite hsize hsup) hfd calls last hcalls hlast hopen hkept (by simpa using hfits)
  rw [List.nil_append] at hspells htiled
  refine ⟨s, openFiles', hrun, inode', chunkList, hspells.getInode, hspells.size, ?_, ?_, ?_⟩
  · rw [← hsize, ← hspells.count, htiled.count]
  · intro c hc
    obtain ⟨i, hi⟩ := List.mem_iff_getElem?.mp hc
    exact (hspells.chunk i c hi).1
  · intro pick hpick
    rw [List.flatMap_def, hspells.picked hpick]
    exact htiled.flatten (by omega)

end Serving

section Demo

/-- A cluster of one node, and IDs of one letter each more than the last. -/
def oneLetter : Surroundings where
  view _ := oneNode
  draw k := ⟨List.replicate k 97, List.replicate k 102, 5⟩

theorem oneLetter_supplied : Supplied { replicaCount := 1 } oneLetter emptyFile where
  targets _ := ⟨_, rfl⟩
  chunkIDs k := by simp [oneLetter]
  txnIDs k := by simp [oneLetter]
  newChunks k k' h := by simpa [oneLetter] using congrArg List.length h
  newTxns k k' h := by simpa [oneLetter] using congrArg List.length h
  unused _ _ _ := rfl

/-- The descriptor of the file, open for writing. -/
def freshFD : BufferedFD := ⟨⟨[49], "/f", 1, 0⟩, []⟩

def freshFiles : OpenFiles := Function.update (fun _ => none) 3 (some freshFD)

theorem sequential_writes_arrive_short : ∃ s openFiles', performAll (serveWrite { replicaCount := 1 } id oneLetter) 3
      [.write [1, 2], .fsync, .write [3], .close] ⟨emptyFile, 0⟩ freshFiles = (s, openFiles', none) ∧
    ∃ inode chunkList, s.site.store.getInode [49] = .ok (inode, chunkList) ∧ inode.fileSize = 3 ∧
      chunkList.length = 1 := by
  obtain ⟨s, openFiles', hrun, inode, chunkList, hinode, hsize, hcount, -⟩ :=
    sequential_writes_arrive id rfl oneLetter_supplied
      (show emptyFile.store.getInode [49] = .ok (_, []) from rfl) rfl rfl rfl (fun _ _ _ h => (nomatch h))
      (show (0 : Int) ≤ 3 by decide) (show freshFiles 3 = some freshFD from rfl) rfl rfl rfl rfl
      [.write [1, 2], .fsync, .write [3]] (by decide) (.inr rfl) (by decide)
  exact ⟨s, openFiles', hrun, inode, chunkList, hinode, hsize, hcount⟩

end Demo

end Sandstore.Client
