import Sandstore.Orchestrators.Payload

/-!
# Reading a file

The way of a read: the client's `Read` sends its offset and its length, `handleRead` asks for the chunk
at the offset, and `ExecuteRead` fetches that chunk from the first replica that serves it. The length
goes no further than the request, and nothing cuts the chunk: **a read answers the whole chunk its offset
lies in** (`handleRead_eq`).

So an answer is the requested range just if the read asks for at least the chunk and the chunk's bytes
are those from the offset on, which they are at the start of a chunk (`read_range_iff`). A client that
reads from the start of a file stays at starts of chunks, and gets every byte once, whatever lengths it
asks for.
-/

namespace Sandstore.Server

open Metadata
open Orchestrators
open Raft (Bytes)

/-! ## The server -/

/-- `ExecuteRead`. What `sendReadRPC` returns for a target is an argument, nothing where it fails. -/
def executeRead (sendReadRPC : ChunkLocation → Bytes → Option Bytes) (chunkID : Bytes) :
    List ChunkLocation → Except Orchestrators.Err Bytes
  | [] => .error (.allReplicasFailed chunkID)
  | target :: targets =>
    match sendReadRPC target chunkID with
    | some data => .ok data
    | none => executeRead sendReadRPC chunkID targets

structure ReadRequest where
  inodeID : Bytes
  offset : Int
  length : Int
  deriving DecidableEq, Repr

/-- `handleRead`. -/
def handleRead (cfg : Config) (getInode : Bytes → Except Raft.Err (Inode × List ChunkDescriptor))
    (sendReadRPC : ChunkLocation → Bytes → Option Bytes) (req : ReadRequest) :
    Except Orchestrators.Err Bytes :=
  match prepareFileRead cfg (getInode req.inodeID) req.offset with
  | .error err => .error err
  | .ok none => .ok []
  | .ok (some chunk) =>
    if chunk.chunkID = [] then .ok [] else executeRead sendReadRPC chunk.chunkID chunk.locations

/-! ## The client -/

structure SandstoreFD where
  inodeID : Bytes
  filePath : String
  mode : Nat
  offset : Int
  deriving DecidableEq, Repr

inductive ClientErr where
  | badFileDescriptor -- "bad file descriptor"
  | invalidReadLength (n : Int) -- "invalid read length %d"
  | notOpenForReading -- "file not open for reading"
  | readFailed (filePath : String) (err : Orchestrators.Err) -- responseError("read", filePath, resp)
  deriving DecidableEq, Repr

/-- `SandstoreClient`: its open files, under their descriptors. -/
structure SandstoreClient where
  openFiles : Nat → Option SandstoreFD

/-- `Mode&os.O_WRONLY != 0 && Mode&os.O_RDWR == 0`. -/
def SandstoreFD.writeOnly (fs : SandstoreFD) : Bool := fs.mode.testBit 0 ∧ ¬ fs.mode.testBit 1

/-- `Read`; `send` is what the server answers. -/
def SandstoreClient.read (c : SandstoreClient) (send : ReadRequest → Except Orchestrators.Err Bytes)
    (fd n : Int) : SandstoreClient × Except ClientErr Bytes :=
  if fd < 0 then (c, .error .badFileDescriptor)
  else if n < 0 then (c, .error (.invalidReadLength n))
  else
    match c.openFiles fd.toNat with
    | none => (c, .error .badFileDescriptor)
    | some fs =>
      if fs.writeOnly then (c, .error .notOpenForReading)
      else
        match send ⟨fs.inodeID, fs.offset, n⟩ with
        | .error err => (c, .error (.readFailed fs.filePath err))
        | .ok data =>
          ({ openFiles := fun k =>
              if k = fd.toNat then some { fs with offset := wrap64 (fs.offset + data.length) }
              else c.openFiles k }, .ok data)

/-- Reads one after another, each of its own length: what they return, up to the first error. -/
def SandstoreClient.readAll (c : SandstoreClient) (send : ReadRequest → Except Orchestrators.Err Bytes)
    (fd : Int) : List Int → List Bytes
  | [] => []
  | n :: ns =>
    match c.read send fd n with
    | (c', .ok data) => data :: c'.readAll send fd ns
    | (_, .error _) => []

/-! ## What is read -/

/-- The chunks of an inode hold a file: every replica that serves a chunk serves the file's bytes in it,
and some replica does. -/
structure Holds (cfg : Config) (inode : Inode) (chunkList : List ChunkDescriptor)
    (sendReadRPC : ChunkLocation → Bytes → Option Bytes) (file : Bytes) : Prop where
  size : inode.fileSize = file.length
  fits : file.length < 2 ^ 63
  chunk : ∀ i : Nat, i * cfg.chunkSize.toNat < file.length → ∃ chunk, chunkList[i]? = some chunk ∧
    chunk.chunkID ≠ [] ∧ (∃ target ∈ chunk.locations, (sendReadRPC target chunk.chunkID).isSome) ∧
    ∀ target ∈ chunk.locations, ∀ data, sendReadRPC target chunk.chunkID = some data →
      data = (file.drop (i * cfg.chunkSize.toNat)).take cfg.chunkSize.toNat

/-- `data` is what a read of `n` bytes at `offset` may return. -/
def IsRange (file : Bytes) (offset n : Nat) (data : Bytes) : Prop :=
  data.length ≤ n ∧ data <+: (file.drop offset).take n ∧ (0 < n → offset < file.length → data ≠ [])

/-- The bytes of the chunk that an offset lies in. -/
def chunkBytes (cfg : Config) (file : Bytes) (offset : Nat) : Bytes :=
  (file.drop (offset / cfg.chunkSize.toNat * cfg.chunkSize.toNat)).take cfg.chunkSize.toNat

theorem executeRead_ok {sendReadRPC : ChunkLocation → Bytes → Option Bytes} {chunkID content : Bytes}
    {targets : List ChunkLocation} (hsome : ∃ target ∈ targets, (sendReadRPC target chunkID).isSome)
    (hall : ∀ target ∈ targets, ∀ data, sendReadRPC target chunkID = some data → data = content) :
    executeRead sendReadRPC chunkID targets = .ok content := by
  induction targets with
  | nil => simp at hsome
  | cons target targets ih =>
    unfold executeRead
    cases hserved : sendReadRPC target chunkID with
    | some data => rw [hall target List.mem_cons_self data hserved]
    | none =>
      refine ih ?_ fun t ht => hall t (List.mem_cons_of_mem _ ht)
      simpa [hserved] using hsome

section Range

variable {cfg : Config} {inode : Inode} {chunkList : List ChunkDescriptor}
  {sendReadRPC : ChunkLocation → Bytes → Option Bytes} {file : Bytes}
  {getInode : Bytes → Except Raft.Err (Inode × List ChunkDescriptor)}

/-- **A read answers the whole chunk its offset lies in.** -/
theorem handleRead_eq (h : Holds cfg inode chunkList sendReadRPC file) {inodeID : Bytes}
    (hinode : getInode inodeID = .ok (inode, chunkList)) (offset : Nat) (length : Int) :
    handleRead cfg getInode sendReadRPC ⟨inodeID, offset, length⟩ =
      .ok (if offset < file.length then chunkBytes cfg file offset else []) := by
  have hpos := cfg.positive
  obtain ⟨size, hsize⟩ : ∃ size : Nat, cfg.chunkSize = size := ⟨cfg.chunkSize.toNat, by omega⟩
  have hidx : (offset : Int).tdiv cfg.chunkSize = (offset / size : Nat) := by
    rw [hsize, Int.tdiv_eq_ediv_of_nonneg (by omega)]
    rfl
  unfold handleRead prepareFileRead
  dsimp only
  rw [hinode]
  dsimp only
  rw [h.size, hidx]
  by_cases hlt : offset < file.length
  · have hin : offset / size * size < file.length := Nat.lt_of_le_of_lt (Nat.div_mul_le_self offset size) hlt
    obtain ⟨chunk, hat, hid, hsome, hall⟩ := h.chunk (offset / size) (by rwa [hsize])
    have hbound := (List.getElem?_eq_some_iff.mp hat).1
    have hchunk : chunkAt chunkList (offset / size : Nat) = .ok chunk := by
      rw [chunkAt, if_neg (Int.not_lt.mpr (Int.natCast_nonneg _)), Int.toNat_natCast, hat]
    rw [if_neg (by omega), if_neg (by omega), hchunk, if_pos hlt]
    simp only [pure, Except.pure, bind, Except.bind, if_neg hid]
    rw [chunkBytes, hsize]
    rw [hsize] at hall
    exact executeRead_ok hsome hall
  · rw [if_pos (by omega), if_neg hlt]

/-- When the whole chunk is a right answer: there is nothing to read, or the read asks for as much as the
chunk holds, and starts where the chunk does or where its bytes happen to come again. -/
def Answered (cfg : Config) (file : Bytes) (offset n : Nat) : Prop :=
  file.length ≤ offset ∨
    ((chunkBytes cfg file offset).length ≤ n ∧
      (offset % cfg.chunkSize.toNat = 0 ∨ chunkBytes cfg file offset <+: file.drop offset))

theorem chunkBytes_aligned {offset : Nat} (h : offset % cfg.chunkSize.toNat = 0) :
    chunkBytes cfg file offset = (file.drop offset).take cfg.chunkSize.toNat := by
  rw [chunkBytes, Nat.div_mul_cancel (Nat.dvd_of_mod_eq_zero h)]

theorem chunkBytes_ne_nil {offset : Nat} (h : offset < file.length) : chunkBytes cfg file offset ≠ [] := by
  have hpos := cfg.positive
  have hle := Nat.div_mul_le_self offset cfg.chunkSize.toNat
  refine List.ne_nil_of_length_pos ?_
  rw [chunkBytes, List.length_take, List.length_drop]
  omega

theorem isRange_iff (cfg : Config) (file : Bytes) (offset n : Nat) :
    IsRange file offset n (if offset < file.length then chunkBytes cfg file offset else []) ↔
      Answered cfg file offset n := by
  unfold IsRange Answered
  by_cases hlt : offset < file.length
  · simp only [hlt, if_true, Nat.not_le.mpr hlt, false_or, List.prefix_take_iff, ne_eq,
      chunkBytes_ne_nil hlt, not_false_eq_true, implies_true, and_true]
    constructor
    · exact fun ⟨hlen, hfront, _⟩ => ⟨hlen, .inr hfront⟩
    · rintro ⟨hlen, haligned | hfront⟩
      · exact ⟨hlen, chunkBytes_aligned haligned ▸ List.take_prefix _ _, hlen⟩
      · exact ⟨hlen, hfront, hlen⟩
  · simp [hlt, Nat.not_lt.mp hlt]

/-- A read of the client: it answers what the server does, and moves the offset on by what it got. -/
theorem read_eq (h : Holds cfg inode chunkList sendReadRPC file) {c : SandstoreClient} {fd : Nat}
    {fs : SandstoreFD} (hfd : c.openFiles fd = some fs) (hmode : fs.writeOnly = false)
    (hinode : getInode fs.inodeID = .ok (inode, chunkList)) {offset : Nat} (hoffset : fs.offset = offset) (n : Nat) :
    ∃ c', c.read (handleRead cfg getInode sendReadRPC) fd n =
        (c', .ok (if offset < file.length then chunkBytes cfg file offset else [])) ∧
      c'.openFiles fd = some { fs with
        offset := wrap64 (offset +
          (if offset < file.length then chunkBytes cfg file offset else []).length) } := by
  unfold SandstoreClient.read
  rw [if_neg (by omega), if_neg (by omega), Int.toNat_natCast, hfd]
  dsimp only
  rw [hmode, hoffset, handleRead_eq h hinode offset n]
  exact ⟨_, rfl, by simp⟩

/-- From the start of a chunk on, reads answer the chunks one after another. -/
theorem readAll_eq (h : Holds cfg inode chunkList sendReadRPC file) {c : SandstoreClient} {fd : Nat}
    {fs : SandstoreFD} (hfd : c.openFiles fd = some fs) (hmode : fs.writeOnly = false)
    (hinode : getInode fs.inodeID = .ok (inode, chunkList)) {k : Nat}
    (hoffset : fs.offset = (min (k * cfg.chunkSize.toNat) file.length : Nat)) (ns : List Nat) :
    (c.readAll (handleRead cfg getInode sendReadRPC) fd (ns.map Int.ofNat)).flatten =
      (file.drop (k * cfg.chunkSize.toNat)).take (ns.length * cfg.chunkSize.toNat) := by
  induction ns generalizing c fs k with
  | nil => simp [SandstoreClient.readAll]
  | cons n ns ih =>
    set size := cfg.chunkSize.toNat with hsize
    obtain ⟨c', hread, hfd'⟩ := read_eq h hfd hmode hinode hoffset n
    -- at the end of the file there is nothing left, before it the chunk starts at the offset
    have hdata : (if min (k * size) file.length < file.length then
        chunkBytes cfg file (min (k * size) file.length) else []) = (file.drop (k * size)).take size := by
      by_cases hlt : k * size < file.length
      · rw [if_pos (by omega), Nat.min_eq_left hlt.le, chunkBytes_aligned (Nat.mul_mod_left _ _)]
      · rw [if_neg (by omega), List.drop_eq_nil_of_le (by omega), List.take_nil]
    rw [hdata] at hread hfd'
    have hnext : wrap64 ((min (k * size) file.length : Nat) + ((file.drop (k * size)).take size).length) =
        (min ((k + 1) * size) file.length : Nat) := by
      have hfits := h.fits
      rw [← Int.natCast_add, List.length_take, List.length_drop, Nat.succ_mul]
      rw [show min (k * size) file.length + min size (file.length - k * size) =
        min (k * size + size) file.length by omega]
      exact wrap64_of_lt (by omega)
    rw [hnext] at hfd'
    rw [List.map_cons, SandstoreClient.readAll, Int.ofNat_eq_natCast, hread]
    dsimp only
    rw [List.flatten_cons, ih hfd' hmode hinode rfl, List.length_cons, Nat.succ_mul ns.length,
      Nat.add_comm (ns.length * size), List.take_add, List.drop_drop, Nat.succ_mul]

/-- **Reading a range.** Over a file whose chunks hold its bytes, the answer of `handleRead` to a read of
`n` bytes at `offset` is that range of the file just if the whole chunk is, and so is the answer of the
client's `Read`, which moves its offset on by as much. Reads from the start of the file return each of
its bytes once and in order. -/
theorem read_range_iff (h : Holds cfg inode chunkList sendReadRPC file) {c : SandstoreClient} {fd : Nat}
    {fs : SandstoreFD} (hfd : c.openFiles fd = some fs) (hmode : fs.writeOnly = false)
    (hinode : getInode fs.inodeID = .ok (inode, chunkList)) {offset : Nat} (hoffset : fs.offset = offset)
    (n : Nat) :
    ((∃ data, handleRead cfg getInode sendReadRPC ⟨fs.inodeID, offset, n⟩ = .ok data ∧
        IsRange file offset n data) ↔ Answered cfg file offset n) ∧
      ((∃ c' data, c.read (handleRead cfg getInode sendReadRPC) fd n = (c', .ok data) ∧
        IsRange file offset n data ∧
        c'.openFiles fd = some { fs with offset := wrap64 (offset + data.length) }) ↔
          Answered cfg file offset n) ∧
      (offset = 0 → ∀ ns : List Nat,
        (c.readAll (handleRead cfg getInode sendReadRPC) fd (ns.map Int.ofNat)).flatten =
          file.take (ns.length * cfg.chunkSize.toNat)) := by
  obtain ⟨c', hread, hmoved⟩ := read_eq h hfd hmode hinode hoffset n
  rw [handleRead_eq h hinode offset n, hread, ← isRange_iff]
  refine ⟨?_, ?_, fun hstart ns => ?_⟩
  · simp
  · constructor
    · rintro ⟨_, _, heq, hrange, _⟩
      cases heq
      exact hrange
    · exact fun hrange => ⟨c', _, rfl, hrange, hmoved⟩
  · subst hstart
    rw [readAll_eq h hfd hmode hinode (k := 0) (by simpa using hoffset) ns, Nat.zero_mul, List.drop_zero]

end Range

section Examples

/-- Chunks of four bytes. -/
def fourBytes : Config := { chunkSize := 4, positive := four_positive }

/-- A file of six bytes in two chunks. -/
def sixBytes : Inode where
  inodeID := [49]
  type := .file
  linkCount := 1
  mode := 0o644
  ownerUID := 0
  ownerGID := 0
  accessTime := 0
  modifyTime := 0
  changeTime := 0
  fileSize := 6
  versionNumber := 0

def sixBytesChunks : List ChunkDescriptor := [⟨[97], [⟨"a", "a:1"⟩]⟩, ⟨[98], [⟨"a", "a:1"⟩]⟩]

def sixBytesServed (_ : ChunkLocation) (chunkID : Bytes) : Option Bytes :=
  if chunkID = [97] then some [1, 2, 3, 4] else if chunkID = [98] then some [5, 6] else none

def sixBytesInode (_ : Bytes) : Except Raft.Err (Inode × List ChunkDescriptor) :=
  .ok (sixBytes, sixBytesChunks)

/-- The descriptor 3 is open for reading, at an offset. -/
def openAt (offset : Int) : SandstoreClient where
  openFiles := fun fd => if fd = 3 then some ⟨[49], "/f", 0, offset⟩ else none

theorem sixBytes_holds : Holds fourBytes sixBytes sixBytesChunks sixBytesServed [1, 2, 3, 4, 5, 6] where
  size := rfl
  fits := by decide
  chunk := by
    intro i hi
    match i with
    | 0 => exact ⟨⟨[97], [⟨"a", "a:1"⟩]⟩, rfl, by decide, by decide, by simp [sixBytesServed, fourBytes]⟩
    | 1 => exact ⟨⟨[98], [⟨"a", "a:1"⟩]⟩, rfl, by decide, by decide, by simp [sixBytesServed, fourBytes]⟩
    | i + 2 =>
      have hi : (i + 2) * 4 < 6 := hi
      omega

theorem read_range_second :
    (∃ c' data, (openAt 4).read (handleRead fourBytes sixBytesInode sixBytesServed) 3 2 = (c', .ok data) ∧
        IsRange [1, 2, 3, 4, 5, 6] 4 2 data) ∧
      ((openAt 0).readAll (handleRead fourBytes sixBytesInode sixBytesServed) 3 [1, 1]).flatten =
        [1, 2, 3, 4, 5, 6] := by
  have hinode : sixBytesInode [49] = .ok (sixBytes, sixBytesChunks) := rfl
  have hfd : ∀ offset, (openAt offset).openFiles 3 = some ⟨[49], "/f", 0, offset⟩ := fun _ => rfl
  have hmode : ∀ offset, SandstoreFD.writeOnly ⟨[49], "/f", 0, offset⟩ = false :=
    fun _ => by simp [SandstoreFD.writeOnly]
  have hfour : (⟨[49], "/f", 0, 4⟩ : SandstoreFD).offset = (4 : Nat) := rfl
  have hzero : (⟨[49], "/f", 0, 0⟩ : SandstoreFD).offset = (0 : Nat) := rfl
  constructor
  · obtain ⟨c', data, hread, hrange, _⟩ := (read_range_iff sixBytes_holds (hfd 4) (hmode 4) hinode hfour
      2).2.1.mpr (.inr ⟨by decide, .inl rfl⟩)
    exact ⟨c', data, hread, hrange⟩
  · exact (read_range_iff sixBytes_holds (hfd 0) (hmode 0) hinode hzero 0).2.2 rfl [1, 1]

/-- A read of one byte at the second byte of the file answers its first four. -/
theorem read_ignores_range :
    Holds fourBytes sixBytes sixBytesChunks sixBytesServed [1, 2, 3, 4, 5, 6] ∧
      handleRead fourBytes sixBytesInode sixBytesServed ⟨[49], 1, 1⟩ = .ok [1, 2, 3, 4] ∧
      ((openAt 1).read (handleRead fourBytes sixBytesInode sixBytesServed) 3 1).2 = .ok [1, 2, 3, 4] ∧
      ¬ IsRange [1, 2, 3, 4, 5, 6] 1 1 [1, 2, 3, 4] :=
  ⟨sixBytes_holds, rfl, rfl, fun h => absurd h.1 (by decide)⟩

end Examples

end Sandstore.Server
