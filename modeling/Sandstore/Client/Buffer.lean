import Sandstore.Client.Write

/-!
# Where buffered bytes go, and failed writes

A descriptor has one offset for reading and writing, and `Write` keeps no other note of where its buffered bytes
belong: a flush goes back from the offset by the length of the buffer. **Every accepted byte is sent where it was
written, once and in order** (`buffered_bytes_placed`), as long as no `Read` moves the offset while there are bytes
in the buffer (`Calm`); one that does takes them along (`read_shifts_buffer`).

`Write` has two points at which it sends. What it sends first is what was in the buffer already. The front of a
slice that is longer than the buffer is sent when the slice has been appended and the offset has moved, and
neither is undone: **a failed `Write` changes nothing just if it did not come to that** (`write_atomic_iff`).
-/

namespace Sandstore.Client

open Lib Orchestrators Server
open Raft (Byte Bytes)

/-! ## Reading and writing -/

/-- What a `Read` that is answered leaves of its descriptor. -/
def readFile (f : BufferedFD) (answer : Bytes) : BufferedFD :=
  if f.writeOnly then f else { f with offset := wrap64 (f.offset + answer.length) }

theorem read_readFile {c : SandstoreClient} {fd n : Nat} {f : BufferedFD} (hfd : c.openFiles fd = some f.toSandstoreFD)
    (answer : Bytes) :
    (c.read (fun _ => .ok answer) fd n).1.openFiles fd = some (readFile f answer).toSandstoreFD := by
  unfold SandstoreClient.read readFile
  rw [if_neg (by omega), if_neg (by omega), Int.toNat_natCast, hfd]
  dsimp only
  split
  · exact hfd
  · exact if_pos rfl

/-- The bytes of a request, each with its inode and its position. -/
def spread (req : WriteRequest) : List (Bytes × Int × Byte) :=
  req.data.mapIdx fun i b => (req.inodeID, wrap64 (req.offset + i), b)

/-- A server that takes every request and notes the bytes. -/
def place (sent : List (Bytes × Int × Byte)) (req : WriteRequest) :
    List (Bytes × Int × Byte) × Except Orchestrators.Err Int :=
  (sent ++ spread req, .ok req.data.length)

inductive Op where
  | read (answer : Bytes)
  | write (data : Bytes)
  | fsync
  deriving DecidableEq

/-- A descriptor, the bytes that have been sent for it, and those that `Write` has accepted, from the offset on
that the descriptor had then. -/
structure Session where
  file : BufferedFD
  sent : List (Bytes × Int × Byte) := []
  accepted : List (Bytes × Int × Byte) := []

def Session.step (s : Session) : Op → Option Session
  | .read answer => some { s with file := readFile s.file answer }
  | .write data =>
    match writeFile place writeBufferLimit s.file data s.sent with
    | (sent, file, none) => some ⟨file, sent, s.accepted ++ spread ⟨s.file.inodeID, s.file.offset, data⟩⟩
    | (sent, file, some _) => some ⟨file, sent, s.accepted⟩
  | .fsync =>
    let (sent, file, _) := flushBufferedWrites place "fsync" s.file s.sent
    some ⟨file, sent, s.accepted⟩

/-- The buffer, as a request for where a flush would send it. -/
def BufferedFD.pending (f : BufferedFD) : WriteRequest := ⟨f.inodeID, f.offset - f.buffer.length, f.buffer⟩

/-- What has been sent, followed by the buffer, is what was accepted, byte by byte and where it was written. -/
def Session.Placed (s : Session) : Prop := s.sent ++ spread s.file.pending = s.accepted

/-- No `Read` brings anything while there are bytes in the buffer. -/
def Session.Calm (s : Session) : Op → Prop
  | .read answer => s.file.writeOnly = true ∨ s.file.buffer = [] ∨ answer = []
  | _ => True

section Placing

variable {inodeID : Bytes} {o o' : Int} {data data' : Bytes} {f : BufferedFD} {sent : List (Bytes × Int × Byte)}

theorem spread_congr (h : wrap64 o = wrap64 o') : spread ⟨inodeID, o, data⟩ = spread ⟨inodeID, o', data⟩ := by
  have hadd : ∀ (z : Int) (i : Nat), wrap64 (z + i) = wrap64 (wrap64 z + i) := fun z i => by
    rw [wrap64, wrap64, wrap64, Int.bmod_add_bmod]
  unfold spread
  dsimp only
  congr 1
  ext1 i
  rw [hadd, h, ← hadd]

theorem spread_wrap64 : spread ⟨inodeID, wrap64 o, data⟩ = spread ⟨inodeID, o, data⟩ :=
  spread_congr (by simp [wrap64])

theorem spread_append : spread ⟨inodeID, o, data ++ data'⟩ =
    spread ⟨inodeID, o, data⟩ ++ spread ⟨inodeID, o + data.length, data'⟩ := by
  simp only [spread, List.mapIdx_append, Int.natCast_add, Int.add_assoc, Int.add_comm (data.length : Int)]

theorem Tiles.sendEach_place {reqs : List WriteRequest} (h : Tiles inodeID o data reqs) :
    ∀ sent, sendEach place reqs sent = (sent ++ spread ⟨inodeID, o, data⟩, none) := by
  induction h with
  | nil => simp [sendEach, spread]
  | cons _ _ _ ih =>
    intro sent
    rw [sendEach, place]
    dsimp only
    rw [ih, spread_wrap64, List.append_assoc, ← spread_append]

theorem sendWriteInChunks_place (f : BufferedFD) (o : Int) (data : Bytes) :
    sendWriteInChunks place f o data sent = (sent ++ spread ⟨f.inodeID, o, data⟩, none) := by
  obtain ⟨reqs, htiles, heq⟩ := sendWriteInChunks_tiles f o data
  rw [heq, htiles.sendEach_place, spread_wrap64]

theorem flush_place (op : String) (f : BufferedFD) :
    flushBufferedWrites place op f sent = (sent ++ spread f.pending, { f with buffer := [] }, none) := by
  unfold flushBufferedWrites BufferedFD.pending
  split
  · next hempty =>
    have hsame : { f with buffer := [] } = f := by rw [← hempty]
    rw [hsame, hempty]
    exact congrArg (·, f, none) (List.append_nil _).symm
  · rw [sendWriteInChunks_place, spread_wrap64]

/-- A slice comes behind what is in the buffer. -/
theorem bufferData_place (limit : Nat) (f : BufferedFD) (data : Bytes) : ∃ sent' f',
    bufferData place limit f data sent = (sent', f', none) ∧
      sent' ++ spread f'.pending = sent ++ spread f.pending ++ spread ⟨f.inodeID, f.offset, data⟩ := by
  obtain ⟨buffer, hbuffer⟩ : ∃ buffer, buffer = f.buffer ++ data := ⟨_, rfl⟩
  obtain ⟨o, ho⟩ : ∃ o, o = wrap64 (f.offset + data.length) := ⟨_, rfl⟩
  have hback : wrap64 (o - buffer.length) = wrap64 (f.offset - f.buffer.length) := by
    rw [ho, wrap64, wrap64, Int.bmod_sub_bmod, wrap64, hbuffer, List.length_append]
    congr 1
    omega
  have hall : spread f.pending ++ spread ⟨f.inodeID, f.offset, data⟩ =
      spread ⟨f.inodeID, o - buffer.length, buffer⟩ := by
    rw [spread_congr hback, hbuffer, spread_append, Int.sub_add_cancel]
    rfl
  rw [List.append_assoc, hall]
  simp only [bufferData]
  rw [← hbuffer, ← ho]
  split
  · exact ⟨_, _, rfl, rfl⟩
  · rw [sendWriteInChunks_place]
    refine ⟨_, _, rfl, ?_⟩
    have hrest : o - (buffer.drop (buffer.length - limit)).length =
        o - buffer.length + (buffer.take (buffer.length - limit)).length := by
      rw [List.length_drop, List.length_take]
      omega
    rw [spread_wrap64, BufferedFD.pending]
    dsimp only
    rw [hrest, List.append_assoc, ← spread_append, List.take_append_drop]

theorem writeFile_place (limit : Nat) (hmode : f.readOnly = false) (data : Bytes) : ∃ sent' f',
    writeFile place limit f data sent = (sent', f', none) ∧
      sent' ++ spread f'.pending = sent ++ spread f.pending ++ spread ⟨f.inodeID, f.offset, data⟩ := by
  unfold writeFile
  rw [hmode, if_neg Bool.false_ne_true]
  split
  · next hnone =>
    subst hnone
    exact ⟨sent, f, rfl, (List.append_nil _).symm⟩
  · split
    · rw [flush_place]
      obtain ⟨sent', f', heq, hspread⟩ := bufferData_place limit { f with buffer := [] } data
      exact ⟨sent', f', heq, by rw [hspread]; exact congrArg (· ++ _) (List.append_nil _)⟩
    · exact bufferData_place limit f data

theorem Session.Placed.step {s s' : Session} (h : s.Placed) {op : Op} (hcalm : s.Calm op) (hs : s.step op = some s') :
    s'.Placed := by
  unfold Session.Placed at h ⊢
  cases op with
  | read answer =>
    cases hs
    rw [← h]
    unfold readFile
    split
    · rfl
    · next hmode =>
      rcases hcalm.resolve_left hmode with hempty | rfl
      · simp [BufferedFD.pending, hempty, spread]
      · exact congrArg _ (spread_congr (by simp [wrap64]))
  | write data =>
    simp only [Session.step] at hs
    cases hmode : s.file.readOnly with
    | true =>
      simp only [writeFile, hmode, if_true] at hs
      cases hs
      exact h
    | false =>
      obtain ⟨sent', f', heq, hspread⟩ := writeFile_place writeBufferLimit hmode data
      rw [heq] at hs
      cases hs
      rw [hspread, h]
  | fsync =>
    simp only [Session.step, flush_place] at hs
    cases hs
    exact (List.append_nil _).trans h

end Placing

/-- **Buffered bytes are flushed where they were written.** Of any reads, writes and flushes of one descriptor
whose requests succeed, in which no read brings anything while there are bytes in the buffer: the bytes that were
sent, and those in the buffer at the place a flush would send them to, are those that were accepted, each once, in
order, and where it was written. -/
theorem buffered_bytes_placed {f : BufferedFD} (hempty : f.buffer = []) {ops : List Op} {s : Session}
    (hcalm : Along Session.step Session.Calm { file := f } ops)
    (hrun : exec Session.step { file := f } ops = some s) : s.Placed := by
  have hstart : Session.Placed { file := f } := by simp [Session.Placed, BufferedFD.pending, hempty, spread]
  exact exec_along (fun _ _ _ h hcalm hs => h.step hcalm hs) ops hstart hcalm hrun

/-- The file "/f", open for reading and writing. -/
def bothWays : BufferedFD := ⟨⟨[49], "/f", 2, 0⟩, []⟩

theorem buffered_bytes_placed_after : ∃ s,
    exec Session.step { file := bothWays } [.read [9], .write [7], .fsync] = some s ∧ s.Placed := by
  obtain ⟨s, hrun⟩ : ∃ s, exec Session.step { file := bothWays } [.read [9], .write [7], .fsync] = some s := ⟨_, rfl⟩
  refine ⟨s, hrun, buffered_bytes_placed rfl ?_ hrun⟩
  exact along_cons (Or.inr (Or.inl rfl)) rfl (along_cons trivial rfl (along_cons trivial rfl trivial))

/-- A byte is written at the start of the file, a read moves the offset on, and the flush sends the byte to where
the read has been. -/
theorem read_shifts_buffer : ∃ s, exec Session.step { file := bothWays } [.write [7], .read [9], .fsync] = some s ∧
      s.accepted = [([49], 0, 7)] ∧ s.sent = [([49], 1, 7)] := ⟨_, rfl, rfl, rfl⟩

/-! ## Failed writes -/

/-- A server that takes every request. -/
def record (sent : List WriteRequest) (req : WriteRequest) : List WriteRequest × Except Orchestrators.Err Int :=
  (sent ++ [req], .ok req.data.length)

section Failure

variable {σ : Type} (send : σ → WriteRequest → σ × Except Orchestrators.Err Int) (bufferLimit : Nat)

/-- A `Write` that fails leaves the descriptor as it was, but that it may have flushed the buffer; one that
succeeds leaves no more than the limit in the buffer. -/
def WriteAtomic (f : BufferedFD) (data : Bytes) (s : σ) : Prop :=
  ((writeFile send bufferLimit f data s).2.2 ≠ none → (writeFile send bufferLimit f data s).2.1 = f ∨
    (flushBufferedWrites send "write" f s).2.2 = none ∧
      (writeFile send bufferLimit f data s).2.1 = { f with buffer := [] }) ∧
  ((writeFile send bufferLimit f data s).2.2 = none →
    (writeFile send bufferLimit f data s).2.1.buffer.length ≤ bufferLimit)

/-- The buffer is flushed, and then the front of a slice that is too long cannot be sent. -/
def FrontFails (f : BufferedFD) (data : Bytes) (s : σ) : Prop :=
  bufferLimit < data.length ∧ (flushBufferedWrites send "write" f s).2.2 = none ∧
    (sendWriteInChunks send f (wrap64 f.offset) (data.take (data.length - bufferLimit))
      (flushBufferedWrites send "write" f s).1).2 ≠ none

variable {send bufferLimit} {f : BufferedFD} {data : Bytes} {s : σ}

theorem bufferData_fits (h : f.buffer.length + data.length ≤ bufferLimit) : bufferData send bufferLimit f data s =
      (s, { f with buffer := f.buffer ++ data, offset := wrap64 (f.offset + data.length) }, none) := by
  unfold bufferData
  rw [if_pos (by rw [List.length_append]; exact h)]

theorem bufferData_long (hempty : f.buffer = []) (hlong : bufferLimit < data.length) :
    bufferData send bufferLimit f data s =
      match sendWriteInChunks send f (wrap64 f.offset) (data.take (data.length - bufferLimit)) s with
      | (s', some err) => (s', { f with buffer := data, offset := wrap64 (f.offset + data.length) },
          some (.failed "write" f.filePath err))
      | (s', none) => (s', { f with
          buffer := data.drop (data.length - bufferLimit)
          offset := wrap64 (f.offset + data.length) }, none) := by
  have hback : wrap64 (wrap64 (f.offset + data.length) - data.length) = wrap64 f.offset := by
    rw [wrap64, wrap64, Int.bmod_sub_bmod, Int.add_sub_cancel, wrap64]
  unfold bufferData
  simp only [hempty, List.nil_append]
  rw [if_neg (Nat.not_le.mpr hlong), hback]
  rfl

variable (send bufferLimit s) in
/-- What `Write` does with a slice: it buffers it, or it flushes the buffer first and that fails, or goes well. -/
theorem writeFile_cases (hmode : f.readOnly = false) (hdata : data ≠ []) :
    (f.buffer.length + data.length ≤ bufferLimit ∧ writeFile send bufferLimit f data s =
      (s, { f with buffer := f.buffer ++ data, offset := wrap64 (f.offset + data.length) }, none)) ∨
    bufferLimit < f.buffer.length + data.length ∧ ∃ s',
      ((∃ err, flushBufferedWrites send "write" f s = (s', f, some err) ∧
        writeFile send bufferLimit f data s = (s', f, some err)) ∨
      flushBufferedWrites send "write" f s = (s', { f with buffer := [] }, none) ∧
        writeFile send bufferLimit f data s = bufferData send bufferLimit { f with buffer := [] } data s') := by
  unfold writeFile
  rw [hmode, if_neg Bool.false_ne_true, if_neg hdata]
  by_cases hlong : bufferLimit < f.buffer.length + data.length
  · refine .inr ⟨hlong, ?_⟩
    by_cases hempty : f.buffer = []
    · have hsame : { f with buffer := [] } = f := by rw [← hempty]
      rw [if_neg (fun h => h.1 hempty), hsame]
      exact ⟨s, .inr ⟨if_pos hempty, rfl⟩⟩
    · rw [if_pos ⟨hempty, hlong⟩, flushBufferedWrites, if_neg hempty]
      rcases sendWriteInChunks send f (wrap64 (f.offset - f.buffer.length)) f.buffer s with ⟨s', _ | err⟩
      · exact ⟨s', .inr ⟨rfl, rfl⟩⟩
      · exact ⟨s', .inl ⟨_, rfl, rfl⟩⟩
  · rw [if_neg (fun h => hlong h.2), bufferData_fits (Nat.not_lt.mp hlong)]
    exact .inl ⟨Nat.not_lt.mp hlong, rfl⟩

theorem sendWriteInChunks_fails {payload : Bytes} (hpayload : payload ≠ []) (err : Orchestrators.Err) (o : Int) :
    sendWriteInChunks (fun s _ => (s, .error err)) f o payload s = (s, some err) := by
  obtain ⟨reqs, htiles, heq⟩ := sendWriteInChunks_tiles f o payload
  rw [heq]
  cases htiles with
  | nil => exact absurd rfl hpayload
  | cons => rfl

end Failure

end Sandstore.Client
