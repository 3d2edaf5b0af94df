import Mathlib.Data.List.Basic

/-!
# A directory that survives crashes

One directory of a file system, with what a program sees of it and what is on the disk. A file's contents
are on the disk once the file has been synced since it was last written. A change of the directory is one
of three, the last of them atomic: a name is given to a file, a name goes away, a file's name becomes
another. The changes since the directory was last synced are pending, and **a crash keeps some of them and
drops the others**, and leaves anything at all in a file that was not synced. The directory is itself an entry
of its parent. Where that has not been made durable, a crash may take the directory away.

What holds of every directory that a crash may leave is `Everywhere`, which each change extends by one case
(`everywhere_push`). `Safe` is the discipline of replacing a file by renaming another over it in a directory that
is durable: wherever the path may lead after a crash, the file there is synced, is good, and is not the one being
written.
-/

namespace Sandstore.Lib

/-- A change of a directory. -/
inductive DirChange (N : Type) where
  | link (name : N) (file : Nat)
  | unlink (name : N)
  | move (src dst : N) (file : Nat)
  deriving DecidableEq, Repr

/-- Names, and the files they lead to. -/
abbrev Dir (N : Type) := N → Option Nat

variable {N β : Type} [DecidableEq N]

def DirChange.apply (d : Dir N) : DirChange N → Dir N
  | .link name file => Function.update d name (some file)
  | .unlink name => Function.update d name none
  | .move src dst file => Function.update (Function.update d src none) dst (some file)

/-- The directory after some changes. -/
def Dir.after (d : Dir N) (changes : List (DirChange N)) : Dir N := changes.foldl DirChange.apply d

theorem Dir.after_concat (d : Dir N) (changes : List (DirChange N)) (change : DirChange N) :
    d.after (changes ++ [change]) = change.apply (d.after changes) := by
  rw [Dir.after, List.foldl_append]
  rfl

structure FileSystem (N β : Type) where
  base : Dir N
  pending : List (DirChange N) := []
  content : Nat → List β
  synced : Nat → Bool
  fresh : Nat
  /-- The directory is there. -/
  there : Bool
  /-- Its entry in its parent is on the disk. -/
  linked : Bool

namespace FileSystem

/-- The directory as programs see it. -/
def view (fs : FileSystem N β) : Dir N := fs.base.after fs.pending

def push (fs : FileSystem N β) (change : DirChange N) : FileSystem N β :=
  { fs with pending := fs.pending ++ [change] }

def read (fs : FileSystem N β) (name : N) : Option (List β) :=
  if fs.there then (fs.view name).map fs.content else none

def mkdirAll (fs : FileSystem N β) : FileSystem N β := { fs with there := true }

/-- New contents, which are not on the disk yet. -/
def put (fs : FileSystem N β) (file : Nat) (data : List β) : FileSystem N β :=
  { fs with
    content := Function.update fs.content file data
    synced := Function.update fs.synced file false }

/-- Open a file for writing, created if it is not there and truncated if it is. -/
def openTrunc (name : N) (fs : FileSystem N β) : FileSystem N β :=
  match fs.view name with
  | some file => fs.put file []
  | none => { (fs.put fs.fresh []).push (.link name fs.fresh) with fresh := fs.fresh + 1 }

def syncFile (file : Nat) (fs : FileSystem N β) : FileSystem N β :=
  { fs with synced := Function.update fs.synced file true }

def rename (src dst : N) (fs : FileSystem N β) : FileSystem N β :=
  match fs.view src with
  | some file => fs.push (.move src dst file)
  | none => fs

def remove (name : N) (fs : FileSystem N β) : FileSystem N β :=
  match fs.view name with
  | some _ => fs.push (.unlink name)
  | none => fs

def syncDir (fs : FileSystem N β) : FileSystem N β := { fs with base := fs.view, pending := [] }

omit [DecidableEq N] in
theorem mkdirAll_of_there {fs : FileSystem N β} (h : fs.there = true) : fs.mkdirAll = fs := by rw [mkdirAll, ← h]

theorem linked_openTrunc (fs : FileSystem N β) (name : N) : (fs.openTrunc name).linked = fs.linked := by
  unfold openTrunc
  split <;> rfl

theorem linked_rename (fs : FileSystem N β) (src dst : N) : (fs.rename src dst).linked = fs.linked := by
  unfold rename
  split <;> rfl

/-- What a crash leaves that keeps these changes, and the directory or not; `torn` is what becomes of
files that were not synced. -/
def crash (fs : FileSystem N β) (kept : List (DirChange N)) (keep : Bool) (torn : Nat → List β) :
    FileSystem N β where
  base := if keep then fs.base.after kept else fun _ => none
  pending := []
  content := fun file => if fs.synced file then fs.content file else torn file
  synced := fun _ => true
  fresh := fs.fresh
  there := keep
  linked := keep

/-- A crash can do that: it keeps what is on the disk, and makes nothing up. -/
def MayCrash (fs : FileSystem N β) (kept : List (DirChange N)) (keep : Bool) : Prop :=
  kept.Sublist fs.pending ∧ (fs.linked = true → keep = true) ∧ (keep = true → fs.there = true)

instance (fs : FileSystem N β) (kept : List (DirChange N)) (keep : Bool) : Decidable (fs.MayCrash kept keep) :=
  inferInstanceAs (Decidable (_ ∧ _))

/-! ## What a crash may leave -/

/-- It holds of every directory that a crash may leave. -/
def Everywhere (fs : FileSystem N β) (R : Dir N → Prop) : Prop :=
  ∀ kept, kept.Sublist fs.pending → R (fs.base.after kept)

variable {fs : FileSystem N β} {R : Dir N → Prop}

theorem Everywhere.view (h : fs.Everywhere R) : R fs.view := h fs.pending (List.Sublist.refl _)

theorem Everywhere.imp {R' : Dir N → Prop} (h : fs.Everywhere R) (himp : ∀ d, R d → R' d) :
    fs.Everywhere R' := fun kept hkept => himp _ (h kept hkept)

theorem everywhere_push {change : DirChange N} (h : fs.Everywhere R)
    (hkept : fs.Everywhere fun d => R (change.apply d)) : (fs.push change).Everywhere R := by
  intro kept hsub
  obtain ⟨front, last, rfl, hfront, hlast⟩ := List.sublist_append_iff.mp hsub
  rcases List.sublist_singleton.mp hlast with rfl | rfl
  · rw [List.append_nil]
    exact h front hfront
  · rw [Dir.after_concat]
    exact hkept front hfront

theorem view_push (change : DirChange N) : (fs.push change).view = change.apply fs.view := Dir.after_concat _ _ _

theorem everywhere_of_pending_nil (hpending : fs.pending = []) (h : R fs.base) : fs.Everywhere R := by
  intro kept hsub
  rw [hpending] at hsub
  rw [List.sublist_nil.mp hsub]
  exact h

theorem Everywhere.crash (h : fs.Everywhere R) {kept : List (DirChange N)} (hkept : kept.Sublist fs.pending)
    (torn : Nat → List β) : (fs.crash kept true torn).Everywhere R := everywhere_of_pending_nil rfl (h kept hkept)

/-! ## Replacing a file by a rename -/

/-- A file that is on the disk, good, and not the one being written under `tmp`. -/
structure Good (fs : FileSystem N β) (tmp : N) (ok : List β → Prop) (file : Nat) : Prop where
  low : file < fs.fresh
  synced : fs.synced file = true
  ok : ok (fs.content file)
  apart : fs.view tmp ≠ some file

/-- The directory is durable, wherever `path` may lead after a crash is good, and `tmp` leads elsewhere; and
`path` leads somewhere if it is known to be there. -/
structure Safe (fs : FileSystem N β) (path tmp : N) (ok : List β → Prop) (known : Prop) : Prop where
  linked : fs.linked = true
  there : fs.there = true
  low : fs.Everywhere fun d => ∀ file, d tmp = some file → file < fs.fresh
  apart : fs.Everywhere fun d => ∀ file, d path = some file → d tmp ≠ some file
  good : fs.Everywhere fun d => ∀ file, d path = some file → fs.Good tmp ok file
  has : known → fs.Everywhere fun d => d path ≠ none

variable {path tmp : N} {ok : List β → Prop} {known : Prop} {file : Nat}

theorem view_rename (hfile : fs.view tmp = some file) : (fs.rename tmp path).view path = some file := by
  rw [FileSystem.rename, hfile]
  show (fs.push (.move tmp path file)).view path = some file
  rw [view_push]
  exact Function.update_self _ _ _

theorem view_openTrunc : ∃ file, (fs.openTrunc tmp).view tmp = some file := by
  unfold FileSystem.openTrunc
  split
  · next file hfile => exact ⟨file, hfile⟩
  · refine ⟨fs.fresh, ?_⟩
    show ((fs.put fs.fresh []).push (.link tmp fs.fresh)).view tmp = some fs.fresh
    rw [view_push]
    exact Function.update_self _ _ _

section Safe

variable (h : fs.Safe path tmp ok known)

include h

theorem Safe.imp {ok' : List β → Prop} {known' : Prop} (himp : ∀ data, ok data → ok' data)
    (hknown : known' → known) : fs.Safe path tmp ok' known' :=
  { h with
    good := h.good.imp fun _ hd file hfile => { hd file hfile with ok := himp _ (hd file hfile).ok }
    has := fun hk => h.has (hknown hk) }

theorem Safe.read {data : List β} (hread : fs.read path = some data) : ok data := by
  unfold FileSystem.read at hread
  split at hread
  · obtain ⟨file, hfile, rfl⟩ := Option.map_eq_some_iff.mp hread
    exact (h.good.view file hfile).ok
  · cases hread

theorem Safe.rewrite {content : Nat → List β} {synced : Nat → Bool}
    (hfiles : ∀ file, file < fs.fresh → fs.view tmp ≠ some file →
      synced file = fs.synced file ∧ content file = fs.content file) :
    Safe { fs with content := content, synced := synced } path tmp ok known :=
  { h with
    good := fun kept hkept file hfile => by
      have hgood := h.good kept hkept file hfile
      obtain ⟨hsynced, hcontent⟩ := hfiles file hgood.low hgood.apart
      exact ⟨hgood.low, hsynced.trans hgood.synced, (congrArg ok hcontent).mpr hgood.ok, hgood.apart⟩ }

theorem Safe.put (hfile : fs.view tmp = some file) (data : List β) : (fs.put file data).Safe path tmp ok known := by
  refine h.rewrite fun other _ hother => ?_
  have hne : other ≠ file := fun heq => hother (heq ▸ hfile)
  exact ⟨Function.update_of_ne hne _ _, Function.update_of_ne hne _ _⟩

theorem Safe.syncFile (hfile : fs.view tmp = some file) : (fs.syncFile file).Safe path tmp ok known := by
  refine h.rewrite fun other _ hother => ?_
  have hne : other ≠ file := fun heq => hother (heq ▸ hfile)
  exact ⟨Function.update_of_ne hne _ _, rfl⟩

/-- A change that leaves `path` as it is or leads it to a good file, and leads `tmp` to none there was. -/
theorem Safe.push {change : DirChange N} {fresh : Nat} (hfresh : fs.fresh ≤ fresh)
    (hpath : ∀ d : Dir N, change.apply d path = d path ∨ ∃ file, change.apply d path = some file ∧
      file < fs.fresh ∧ fs.synced file = true ∧ ok (fs.content file))
    (htmp : ∀ d file, change.apply d tmp = some file → fs.fresh ≤ file ∧ file < fresh) :
    Safe { fs.push change with fresh := fresh } path tmp ok known := by
  have hcases : fs.Everywhere fun d => ∀ file, change.apply d path = some file →
      file < fs.fresh ∧ fs.synced file = true ∧ ok (fs.content file) := by
    refine h.good.imp fun d hd file hfile => ?_
    rcases hpath d with heq | ⟨other, heq, hnew⟩
    · have hgood := hd file (heq.symm.trans hfile)
      exact ⟨hgood.low, hgood.synced, hgood.ok⟩
    · cases heq.symm.trans hfile
      exact hnew
  have hgood : ∀ file, file < fs.fresh → fs.synced file = true → ok (fs.content file) →
      Good { fs.push change with fresh := fresh } tmp ok file := by
    intro file hlow hsynced hok
    refine ⟨Nat.lt_of_lt_of_le hlow hfresh, hsynced, hok, fun heq => ?_⟩
    have hview : (fs.push change).view tmp = some file := heq
    rw [view_push] at hview
    exact absurd (htmp _ _ hview).1 (Nat.not_le_of_lt hlow)
  have hpush : ∀ {R : Dir N → Prop}, fs.Everywhere R → fs.Everywhere (fun d => R (change.apply d)) →
      Everywhere { fs.push change with fresh := fresh } R := by
    intro R hR hkept
    have hboth : (fs.push change).Everywhere R := everywhere_push hR hkept
    exact hboth
  refine ⟨h.linked, h.there, hpush ?_ ?_, hpush h.apart ?_, hpush ?_ ?_, fun hk => hpush (h.has hk) ?_⟩
  · exact h.low.imp fun d hd file hfile => Nat.lt_of_lt_of_le (hd file hfile) hfresh
  · exact fun kept _ file hfile => (htmp _ _ hfile).2
  · refine hcases.imp fun d hd file hfile heq => ?_
    exact absurd (htmp d file heq).1 (Nat.not_le_of_lt (hd file hfile).1)
  · exact h.good.imp fun d hd file hfile => hgood file (hd file hfile).low (hd file hfile).synced (hd file hfile).ok
  · exact hcases.imp fun d hd file hfile => hgood file (hd file hfile).1 (hd file hfile).2.1 (hd file hfile).2.2
  · refine (h.has hk).imp fun d hd => ?_
    rcases hpath d with heq | ⟨file, heq, -⟩
    · rwa [heq]
    · rw [heq]
      exact Option.some_ne_none file

theorem Safe.openTrunc (hne : path ≠ tmp) : (fs.openTrunc tmp).Safe path tmp ok known := by
  unfold FileSystem.openTrunc
  split
  · next file hfile => exact h.put hfile []
  · have hput : (fs.put fs.fresh []).Safe path tmp ok known := h.rewrite fun file hlow _ =>
      ⟨Function.update_of_ne (Nat.ne_of_lt hlow) _ _, Function.update_of_ne (Nat.ne_of_lt hlow) _ _⟩
    refine hput.push (Nat.le_succ _) (fun d => .inl (Function.update_of_ne hne _ _)) fun d file hfile => ?_
    rw [DirChange.apply, Function.update_self] at hfile
    cases hfile
    exact ⟨Nat.le_refl _, Nat.lt_succ_self _⟩

theorem Safe.remove (hne : path ≠ tmp) : (fs.remove tmp).Safe path tmp ok known := by
  unfold FileSystem.remove
  split
  · refine h.push (Nat.le_refl _) (fun d => .inl (Function.update_of_ne hne _ _)) fun d file hfile => ?_
    rw [DirChange.apply, Function.update_self] at hfile
    cases hfile
  · exact h

/-- **A synced file can be renamed over the path.** -/
theorem Safe.rename (hne : path ≠ tmp) (hfile : fs.view tmp = some file) (hsynced : fs.synced file = true)
    (hok : ok (fs.content file)) : (fs.rename tmp path).Safe path tmp ok known := by
  rw [FileSystem.rename, hfile]
  refine h.push (Nat.le_refl _) (fun d => .inr ?_) fun d other hother => ?_
  · exact ⟨file, Function.update_self _ _ _, h.low.view file hfile, hsynced, hok⟩
  · rw [DirChange.apply, Function.update_of_ne hne.symm, Function.update_self] at hother
    cases hother

/-- Once the directory is synced, only what `path` leads to now has to be good. -/
theorem Safe.syncDir {ok' : List β → Prop} {known' : Prop} (hknown : known' → fs.view path ≠ none)
    (hok : ∀ file, fs.view path = some file → ok' (fs.content file)) : fs.syncDir.Safe path tmp ok' known' where
  linked := h.linked
  there := h.there
  low := everywhere_of_pending_nil rfl h.low.view
  apart := everywhere_of_pending_nil rfl h.apart.view
  good := everywhere_of_pending_nil rfl fun file hfile => { h.good.view file hfile with ok := hok file hfile }
  has hk := everywhere_of_pending_nil rfl (hknown hk)

/-- **What is safe is so after a crash.** -/
theorem Safe.crash {kept : List (DirChange N)} (hkept : kept.Sublist fs.pending) (torn : Nat → List β) :
    (fs.crash kept true torn).Safe path tmp ok known where
  linked := rfl
  there := rfl
  low := h.low.crash hkept torn
  apart := h.apart.crash hkept torn
  good := everywhere_of_pending_nil rfl fun file hfile => by
    have hgood := h.good kept hkept file hfile
    refine ⟨hgood.low, rfl, ?_, h.apart kept hkept file hfile⟩
    show ok (if fs.synced file = true then fs.content file else torn file)
    rw [if_pos hgood.synced]
    exact hgood.ok
  has hk := (h.has hk).crash hkept torn

end Safe

end FileSystem

end Sandstore.Lib
