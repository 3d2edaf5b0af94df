import Sandstore.Lib.Exec
import Sandstore.Lib.FileSystem
import Sandstore.Lib.Proc
import Sandstore.Raft.Stores

/-!
# The files of the stores

The three stores write their files with one function, `writeFileAtomically`: a temp file beside the path,
written, synced, closed and renamed over the path, and then the directory synced. The raft process is modelled
over the value that a file decodes to, with writes that leave the old value or the new one. Here is the
layer below: the calls of the system one by one, each of which may fail or be the last, the bytes of the
file, and what a crash makes of them.

What is right in it is `writeFileAtomically_spec`: wherever a call ends, each file that the path may lead to after
a crash is on the disk in full, and no call writes to one of them. **The law** (`store_file_atomic_iff`)
has one condition. `writeFileAtomically` begins with `MkdirAll`, and if that makes the directory, the entry
of the directory in its parent is never synced. A crash can take it away with everything in it, however many
calls have returned nil.
-/

namespace Sandstore.Raft

open Lib

/-! ## What is in a file -/

/-- Why a file cannot be used: `ErrStableCorrupt` or `ErrWALCorrupt` with what it wraps, or the error of
`json.Unmarshal`. -/
inductive Corrupt where
  | envelope -- "envelope unmarshal failed"
  | crc -- "crc mismatch in"
  | inner -- "inner stable unmarshal failed", "inner wal unmarshal failed", "unmarshal snapshot"
  deriving DecidableEq, Repr

/-- Values as bytes, and back. -/
structure Format (α : Type) where
  marshal : α → Bytes
  unmarshal : Bytes → Except Corrupt α
  round : ∀ a, unmarshal (marshal a) = .ok a

/-- `stableEnvelope` and `walEnvelope`. -/
structure Envelope where
  crc : Nat
  payload : Bytes
  deriving DecidableEq, Repr

/-- What `SetState` and `persistLocked` write and `GetState` and `load` read: the value in an envelope
with its checksum. `SaveSnapshot` and `LoadSnapshot` use the inner format alone. -/
def Format.sealed {α : Type} (checksum : Bytes → Nat) (outer : Format Envelope) (inner : Format α) : Format α where
  marshal := fun a => outer.marshal ⟨checksum (inner.marshal a), inner.marshal a⟩
  unmarshal := fun raw =>
    match outer.unmarshal raw with
    | .error _ => .error .envelope
    | .ok envelope =>
      if checksum envelope.payload ≠ envelope.crc then .error .crc else inner.unmarshal envelope.payload
  round := by
    intro a
    simp only [outer.round, ne_eq, not_true_eq_false, if_false]
    exact inner.round a

/-! ## Writing one -/

/-- The step of `writeFileAtomically` whose error it returns. -/
inductive WriteStep where
  | mkdirAll
  | openFile
  | write -- or the sync of the file
  | close
  | rename
  | openDir -- "open dir for fsync after rename"
  | syncDir -- "fsync dir after rename"
  deriving DecidableEq, Repr

variable {N : Type} [DecidableEq N]

/-- `writeFileAtomically`, in the one directory that the path is in. Each call of the system may fail, with
or without its effect, and may be the last thing that happens. -/
def writeFileAtomically (path tmpPath : N) (data : Bytes) : Proc (FileSystem N Byte) (Option WriteStep) := do
  if !(← Proc.write FileSystem.mkdirAll) then
    return some .mkdirAll
  if !(← Proc.write (FileSystem.openTrunc tmpPath)) then
    return some .openFile
  let f := ((← Proc.read).view tmpPath).getD 0
  let mut written ← Proc.write fun fs => fs.put f data
  if written then
    written ← Proc.write (FileSystem.syncFile f)
  let closed ← Proc.write id
  if !written then
    let _ ← Proc.write (FileSystem.remove tmpPath)
    return some .write
  if !closed then
    let _ ← Proc.write (FileSystem.remove tmpPath)
    return some .close
  if !(← Proc.write (FileSystem.rename tmpPath path)) then
    let _ ← Proc.write (FileSystem.remove tmpPath)
    return some .rename
  if !(← Proc.write id) then
    return some .openDir
  if !(← Proc.write FileSystem.syncDir) then
    return some .syncDir
  return none

/-! ## What is kept at every step -/

section Safe

variable {path tmpPath : N} {ok : Bytes → Prop} {known : Prop} {fs : FileSystem N Byte} {data : Bytes}

theorem meets_call {σ α : Type} {okFate : Fate → Prop} {commit : σ → σ} {g : Bool → Proc σ α} {s : σ}
    {Q : α → σ → Prop} {D : σ → Prop} (hold : D s) (hnew : D (commit s))
    (hfailed : ∀ s', D s' → Proc.Meets okFate (g false) s' Q D)
    (hdone : Proc.Meets okFate (g true) (commit s) Q D) : Proc.Meets okFate (Proc.write commit >>= g) s Q D :=
  Proc.meets_bind (Proc.meets_write hdone (fun _ => hfailed s hold) (fun _ => hfailed _ hnew)
    (fun _ => hold) fun _ => hnew)

/-- What a call leaves where it returns: what was good or what it writes, and what it writes alone if it returns
nil. -/
def Leaves (path tmpPath : N) (ok : Bytes → Prop) (known : Prop) (data : Bytes) (err : Option WriteStep)
    (fs : FileSystem N Byte) : Prop :=
  fs.Safe path tmpPath ok known ∧ (err = none → fs.Safe path tmpPath (· = data) True)

theorem leaves_failed (step : WriteStep) (h : fs.Safe path tmpPath ok known) :
    Leaves path tmpPath ok known data (some step) fs := ⟨h, fun hnone => absurd hnone (Option.some_ne_none step)⟩

/-- An error branch, which removes the temp file. -/
theorem meets_cleanup (step : WriteStep) (hne : path ≠ tmpPath) (h : fs.Safe path tmpPath ok known) :
    Proc.Meets (fun _ => True) (do let _ ← Proc.write (FileSystem.remove tmpPath); return some step) fs
      (Leaves path tmpPath ok known data) (·.Safe path tmpPath ok known) :=
  meets_call h (h.remove hne) (fun _ h' => Proc.meets_pure (leaves_failed step h'))
    (Proc.meets_pure (leaves_failed step (h.remove hne)))

/-- **What a call of `writeFileAtomically` leaves**, wherever it ends: what was good, or what it writes; and
what it writes alone where it returns nil. -/
theorem writeFileAtomically_spec (hne : path ≠ tmpPath) (h : fs.Safe path tmpPath ok known) (hdata : ok data) :
    (writeFileAtomically path tmpPath data).Meets (fun _ => True) fs (Leaves path tmpPath ok known data)
      (·.Safe path tmpPath ok known) := by
  unfold writeFileAtomically
  have hreturn : ∀ step fs', fs'.Safe path tmpPath ok known →
      Proc.Meets (fun _ => True) (pure (some step)) fs' (Leaves path tmpPath ok known data)
        (·.Safe path tmpPath ok known) :=
    fun step _ h' => Proc.meets_pure (leaves_failed step h')
  have hdir : fs.mkdirAll.Safe path tmpPath ok known := (FileSystem.mkdirAll_of_there h.there).symm ▸ h
  refine meets_call h hdir (hreturn _) ?_
  -- the temp file
  have hopen := hdir.openTrunc hne
  refine meets_call hdir hopen (hreturn _) ?_
  obtain ⟨file, hfile⟩ : ∃ file, (fs.mkdirAll.openTrunc tmpPath).view tmpPath = some file := FileSystem.view_openTrunc
  refine Proc.meets_read_bind ?_
  rw [hfile, Option.getD_some]
  -- its contents; an error on the way goes on to the close and the removal
  have hput := hopen.put hfile data
  have hfail : ∀ fs', fs'.Safe path tmpPath ok known → Proc.Meets (fun _ => True) (do
        let _ ← Proc.write id
        let _ ← Proc.write (FileSystem.remove tmpPath)
        return some WriteStep.write) fs' (Leaves path tmpPath ok known data) (·.Safe path tmpPath ok known) :=
    fun _ h' => meets_call h' h' (fun _ => meets_cleanup _ hne) (meets_cleanup _ hne h')
  refine meets_call hopen hput hfail ?_
  have hsync := hput.syncFile hfile
  refine meets_call hput hsync hfail ?_
  refine meets_call hsync hsync (fun _ => meets_cleanup _ hne) ?_
  -- the rename
  obtain ⟨fs₁, hfs₁⟩ : ∃ fs₁, fs₁ = ((fs.mkdirAll.openTrunc tmpPath).put file data).syncFile file := ⟨_, rfl⟩
  have hcontent : fs₁.content file = data := by rw [hfs₁]; exact Function.update_self _ _ _
  have hsynced : fs₁.synced file = true := by rw [hfs₁]; exact Function.update_self _ _ _
  have hview : fs₁.view tmpPath = some file := by rw [hfs₁]; exact hfile
  rw [← hfs₁] at hsync ⊢
  have hrename := hsync.rename hne hview hsynced (hcontent.symm ▸ hdata)
  refine meets_call hsync hrename (fun _ => meets_cleanup _ hne) ?_
  refine meets_call hrename hrename (hreturn _) ?_
  -- the directory again: now the path leads to the new file and nowhere else
  have hpath : (fs₁.rename tmpPath path).view path = some file := FileSystem.view_rename hview
  have hnew : ∀ other, (fs₁.rename tmpPath path).view path = some other →
      (fs₁.rename tmpPath path).content other = data := by
    intro other hother
    cases hpath.symm.trans hother
    rw [FileSystem.rename, hview]
    exact hcontent
  have hboth : (fs₁.rename tmpPath path).syncDir.Safe path tmpPath (· = data) True :=
    hrename.syncDir (fun _ => hpath ▸ Option.some_ne_none file) hnew
  have hkept : (fs₁.rename tmpPath path).syncDir.Safe path tmpPath ok known :=
    hboth.imp (fun _ heq => heq ▸ hdata) fun _ => trivial
  exact meets_call hrename hkept (hreturn _) (Proc.meets_pure ⟨hkept, fun _ => hboth⟩)

end Safe

/-! ## Every run -/

section Runs

variable {α : Type}

/-- The file system, whether the process is up, and what has been written: the value of the last call
that returned nil, and the values of the calls begun since. -/
structure Shelf (N α : Type) where
  fs : FileSystem N Byte
  up : Bool := true
  acked : Option α := none
  begun : List α := []

/-- A call of the store, with what becomes of each of its steps; or a crash, with what it keeps. -/
inductive StoreMove (N α : Type) where
  | call (a : α) (fates : List Fate)
  | crash (kept : List (DirChange N)) (keep : Bool) (torn : Nat → Bytes)

variable (path tmpPath : N) (fmt : Format α)

/-- A process that died in a call is down until the crash is over. -/
def Shelf.step (w : Shelf N α) : StoreMove N α → Option (Shelf N α)
  | .call a fates =>
    if w.up then
      match (writeFileAtomically path tmpPath (fmt.marshal a)).run w.fs fates with
      | .back none fs => some { fs, acked := some a }
      | .back (some _) fs => some { w with fs, begun := w.begun ++ [a] }
      | .died fs => some { w with fs, up := false, begun := w.begun ++ [a] }
    else none
  | .crash kept keep torn =>
    if w.fs.MayCrash kept keep then some { w with fs := w.fs.crash kept keep torn, up := true } else none

/-- What the store reads: nothing, or what its file decodes to. -/
def loadFile (fs : FileSystem N Byte) : Option (Except Corrupt α) := (fs.read path).map fmt.unmarshal

/-- The file is there if a call has returned nil, and holds the value of the last such call or of one
begun since. -/
def Shelf.Reads (w : Shelf N α) : Prop :=
  match loadFile path fmt w.fs with
  | none => w.acked = none
  | some result => ∃ a, result = .ok a ∧ (w.acked = some a ∨ a ∈ w.begun)

/-- A file system on which nothing has been written to the path. Anything may be under the name of the
temp file. -/
structure Unwritten (fs : FileSystem N Byte) : Prop where
  absent : fs.Everywhere fun d => d path = none
  low : fs.Everywhere fun d => ∀ file, d tmpPath = some file → file < fs.fresh
  there : fs.linked = true → fs.there = true

/-- The contents that the file may have. -/
def Shelf.Allows (w : Shelf N α) (data : Bytes) : Prop :=
  ∃ a, data = fmt.marshal a ∧ (w.acked = some a ∨ a ∈ w.begun)

/-- What every step keeps, in a directory that is durable. -/
def Shelf.Holds (w : Shelf N α) : Prop := w.fs.Safe path tmpPath (w.Allows fmt) (w.acked ≠ none)

variable {path tmpPath fmt} {w w' : Shelf N α} {m : StoreMove N α}

theorem Shelf.Holds.reads (h : w.Holds path tmpPath fmt) : w.Reads path fmt := by
  unfold Shelf.Reads loadFile
  cases hread : w.fs.read path with
  | none =>
    show w.acked = none
    rw [FileSystem.read, if_pos (FileSystem.Safe.there h), Option.map_eq_none_iff] at hread
    by_contra hacked
    exact (FileSystem.Safe.has h hacked).view hread
  | some data =>
    obtain ⟨a, rfl, ha⟩ := FileSystem.Safe.read h hread
    exact ⟨a, fmt.round a, ha⟩

theorem Shelf.Holds.step (hne : path ≠ tmpPath) (h : w.Holds path tmpPath fmt)
    (hs : w.step path tmpPath fmt m = some w') : w'.Holds path tmpPath fmt := by
  cases m with
  | call a fates =>
    simp only [Shelf.step] at hs
    split at hs
    · -- what was allowed is, and the value that is being written
      have hstart : Shelf.Holds path tmpPath fmt { w with begun := w.begun ++ [a] } := by
        refine FileSystem.Safe.imp h ?_ id
        rintro data ⟨b, rfl, hacked | hbegun⟩
        · exact ⟨b, rfl, .inl hacked⟩
        · exact ⟨b, rfl, .inr (List.mem_append_left _ hbegun)⟩
      have hspec := writeFileAtomically_spec hne hstart
        ⟨a, rfl, .inr (List.mem_append_right _ List.mem_cons_self)⟩
      split at hs
      · next fs hrun =>
        cases hs
        refine ((hspec.back (fun _ _ => trivial) hrun).2 rfl).imp ?_ fun _ => trivial
        rintro data rfl
        exact ⟨a, rfl, .inl rfl⟩
      · next step fs hrun =>
        cases hs
        exact (hspec.back (fun _ _ => trivial) hrun).1
      · next fs hrun =>
        cases hs
        exact hspec.died (fun _ _ => trivial) hrun
    · cases hs
  | crash kept keep torn =>
    simp only [Shelf.step] at hs
    split at hs
    · next hmay =>
      cases hs
      obtain rfl : keep = true := hmay.2.1 (FileSystem.Safe.linked h)
      exact FileSystem.Safe.crash h hmay.1 torn
    · cases hs

theorem Unwritten.holds {fs : FileSystem N Byte} (h : Unwritten path tmpPath fs) (hlinked : fs.linked = true) :
    Shelf.Holds path tmpPath fmt { fs := fs } where
  linked := hlinked
  there := h.there hlinked
  low := h.low
  apart := h.absent.imp fun d hd file hfile => nomatch hd.symm.trans hfile
  good := h.absent.imp fun d hd file hfile => nomatch hd.symm.trans hfile
  has hacked := absurd rfl hacked

/-- A call of which nothing fails returns nil, and leaves the directory's entry in its parent alone. -/
theorem writeFileAtomically_done (fs : FileSystem N Byte) (data : Bytes) :
    ∃ fs', (writeFileAtomically path tmpPath data).run fs [] = .back none fs' ∧ fs'.linked = fs.linked := by
  refine ⟨_, rfl, ?_⟩
  simp [FileSystem.syncDir, FileSystem.syncFile, FileSystem.put, FileSystem.mkdirAll, FileSystem.linked_openTrunc,
    FileSystem.linked_rename]

/-- **The file of a store is what was last written, after every run of calls and crashes, if and only if
the directory it is in is durable from the start.** -/
theorem store_file_atomic_iff [Inhabited α] (hne : path ≠ tmpPath) {fs : FileSystem N Byte}
    (h : Unwritten path tmpPath fs) :
    (∀ moves last, exec (Shelf.step path tmpPath fmt) { fs := fs } moves = some last → last.Reads path fmt) ↔
      fs.linked = true := by
  constructor
  · intro hall
    by_contra hlinked
    -- one call that returns nil, and a crash that takes the directory away
    obtain ⟨fs', hrun, hlinked'⟩ : ∃ fs', (writeFileAtomically path tmpPath (fmt.marshal default)).run fs [] =
        .back none fs' ∧ fs'.linked = fs.linked := writeFileAtomically_done fs _
    have hmay : fs'.MayCrash [] false :=
      ⟨List.nil_sublist _, fun hl => absurd (hlinked'.symm.trans hl) hlinked, nofun⟩
    have hexec : exec (Shelf.step path tmpPath fmt) { fs := fs }
        [.call default [], .crash [] false fun _ => []] =
        some { fs := fs'.crash [] false fun _ => [], acked := some default } := by
      simp only [exec, Shelf.step, hrun, if_pos hmay, if_true]
    cases hall _ _ hexec
  · intro hlinked moves last hrun
    have hholds : last.Holds path tmpPath fmt :=
      exec_invariant (fun _ _ _ hw hs => Shelf.Holds.step hne hw hs) moves (h.holds hlinked) hrun
    exact hholds.reads

end Runs

section Demo

/-- Bytes as they are, in an envelope with their number for a checksum. -/
def demoFormat : Format Bytes :=
  .sealed List.length
    { marshal := fun envelope => List.replicate envelope.crc 1 ++ 0 :: envelope.payload
      unmarshal := fun raw => .ok ⟨(raw.takeWhile (· = 1)).length, (raw.dropWhile (· = 1)).tail⟩
      round := fun envelope => by simp }
    ⟨id, .ok, fun _ => rfl⟩

/-- An empty directory, whose entry in its parent is on the disk; the path is `true` and the temp file
`false`. -/
def durableDir : FileSystem Bool Byte where
  base := fun _ => none
  content := fun _ => []
  synced := fun _ => false
  fresh := 0
  there := true
  linked := true

theorem unwritten_of_empty {fs : FileSystem Bool Byte} (hbase : fs.base = fun _ => none) (hpending : fs.pending = [])
    (hthere : fs.linked = true → fs.there = true) : Unwritten true false fs :=
  ⟨FileSystem.everywhere_of_pending_nil hpending (by rw [hbase]),
    FileSystem.everywhere_of_pending_nil hpending (by rw [hbase]; nofun), hthere⟩

theorem store_file_atomic_durable :
    durableDir.linked = true ∧
      ∀ moves last, exec (Shelf.step true false demoFormat) { fs := durableDir } moves = some last →
        last.Reads true demoFormat :=
  ⟨rfl, (store_file_atomic_iff (by decide) (unwritten_of_empty rfl rfl fun _ => rfl)).mpr rfl⟩

/-- No directory yet. -/
def noDir : FileSystem Bool Byte := { durableDir with there := false, linked := false }

/-- The first call makes the directory and returns nil, and a crash takes the directory away. -/
theorem acked_file_lost :
    Unwritten true false noDir ∧
      ∃ last, exec (Shelf.step true false demoFormat) { fs := noDir }
        [.call [1] [], .crash [] false fun _ => []] = some last ∧
      last.acked = some [1] ∧ loadFile true demoFormat last.fs = none ∧ ¬ last.Reads true demoFormat :=
  ⟨unwritten_of_empty rfl rfl nofun, _, rfl, rfl, rfl, nofun⟩

end Demo

end Sandstore.Raft
