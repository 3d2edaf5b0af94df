import Sandstore.Metadata.Lookup

/-!
# Paths in the client

What the client does to a path before it is sent: `normalizePath`, Go's `path.Clean`, `path.Dir` and
`path.Base`, and `splitParentAndName`. A path is its bytes, valid UTF-8 throughout, since requests travel
as JSON.

A normalized path is a slash and its elements with slashes between them, none of them empty, a dot or two
dots. So **it splits into a parent and a name that join to it again, down to the root** (`split_reaches_root`).
**The law** (`lookupPath_split`) is that the server agrees with the client on what the parent of a path
is: once the parent has been resolved, the path is resolved by one more round of `LookupPath`'s loop, for
the name.
-/

namespace Sandstore.Client

open Metadata
open Raft (Byte Bytes Err)

/-! ## The path functions -/

/-- One element in the loop of `path.Clean`. -/
def cleanElement (rooted : Bool) (kept : List Bytes) (element : Bytes) : List Bytes :=
  if element = [] ∨ element = [46] then kept
  else if element = [46, 46] then
    match kept.getLast? with
    | some last => if last = [46, 46] then kept ++ [element] else kept.dropLast
    | none => if rooted then kept else kept ++ [element]
  else kept ++ [element]

/-- The elements `path.Clean` keeps. -/
def elements (path : Bytes) : List Bytes :=
  (path.splitOn 47).foldl (cleanElement (path.head? = some 47)) []

/-- `path.Clean`. -/
def clean (path : Bytes) : Bytes :=
  if path.head? = some 47 then 47 :: [47].intercalate (elements path)
  else if elements path = [] then [46]
  else [47].intercalate (elements path)

/-- `path.Dir`: the path up to its last slash, cleaned. -/
def dir (path : Bytes) : Bytes := clean (path.reverse.dropWhile (· ≠ 47)).reverse

/-- `path.Base`. -/
def base (path : Bytes) : Bytes :=
  if path = [] then [46]
  else
    let name := ((path.reverse.dropWhile (· = 47)).takeWhile (· ≠ 47)).reverse
    if name = [] then [47] else name

/-- `path.Join`: empty elements in front are left out. -/
def join (elems : List Bytes) : Bytes :=
  let elems := elems.dropWhile (· = [])
  if elems = [] then [] else clean ([47].intercalate elems)

inductive PathError where
  | emptyPath
  | notAbsolute (path : Bytes)
  | rootPath
  | invalidPath (path : Bytes)
  deriving DecidableEq, Repr

/-- `normalizePath`. What `strings.TrimSpace` takes for a space is a parameter. -/
def normalizePath (trimSpace : Bytes → Bytes) (path : Bytes) : Except PathError Bytes :=
  let trimmed := trimSpace path
  if trimmed = [] then .error .emptyPath
  else
    let cleanPath := clean trimmed
    if cleanPath.head? ≠ some 47 then .error (.notAbsolute path) else .ok cleanPath

def splitParentAndName (path : Bytes) : Except PathError (Bytes × Bytes) :=
  if path = [47] then .error .rootPath
  else
    let parent := if dir path = [46] ∨ dir path = [] then [47] else dir path
    let name := base path
    if name = [] ∨ name = [46] ∨ name = [47] then .error (.invalidPath path) else .ok (parent, name)

/-! ## Normalized paths -/

/-- An element of a cleaned path. Two dots are kept only where there is no slash in front. -/
structure Proper (rooted : Bool) (element : Bytes) : Prop where
  nonempty : element ≠ []
  noSlash : 47 ∉ element
  notDot : element ≠ [46]
  notDots : rooted = true → element ≠ [46, 46]

/-- The absolute path of some elements. -/
def absolute (elements : List Bytes) : Bytes := 47 :: [47].intercalate elements

theorem not_mem_of_mem_splitOn {path element : Bytes} (h : element ∈ path.splitOn 47) : 47 ∉ element := by
  induction path generalizing element with
  | nil =>
    rw [List.splitOn_nil, List.mem_singleton] at h
    simp [h]
  | cons b path ih =>
    rw [List.splitOn_cons_eq_if_modifyHead] at h
    split at h
    · rcases List.mem_cons.mp h with rfl | h
      · simp
      · exact ih h
    · next hb =>
      obtain ⟨first, rest, hsplit⟩ := List.exists_cons_of_ne_nil (List.splitOn_ne_nil 47 path)
      rw [hsplit] at h ih
      rcases List.mem_cons.mp h with rfl | h
      · have hfirst := ih List.mem_cons_self
        simpa [eq_comm (a := (47 : Byte)), hfirst] using hb
      · exact ih (List.mem_cons_of_mem _ h)

/-- An element is kept, is dropped, or takes the one before it away. -/
theorem cleanElement_proper {rooted : Bool} {kept : List Bytes} {element : Bytes}
    (hkept : ∀ p ∈ kept, Proper rooted p) (hslash : 47 ∉ element) :
    ∀ p ∈ cleanElement rooted kept element, Proper rooted p := by
  have hdrop : ∀ p ∈ kept.dropLast, Proper rooted p := fun p hp => hkept p (List.dropLast_subset kept hp)
  have hpush : element ≠ [] → element ≠ [46] → (rooted = true → element ≠ [46, 46]) →
      ∀ p ∈ kept ++ [element], Proper rooted p := by
    intro hnonempty hdot hdots p hp
    rcases List.mem_append.mp hp with hp | hp
    · exact hkept p hp
    · rw [List.mem_singleton] at hp
      subst hp
      exact ⟨hnonempty, hslash, hdot, hdots⟩
  unfold cleanElement
  split
  · exact hkept
  · next hskip =>
    rw [not_or] at hskip
    split
    · split
      · next last hlast =>
        split
        · next hdots =>
          have hproper := hkept last (List.mem_of_getLast? hlast)
          exact hpush hskip.1 hskip.2 fun hrooted => absurd hdots (hproper.notDots hrooted)
        · exact hdrop
      · split
        · exact hkept
        · next hrelative => exact hpush hskip.1 hskip.2 fun hrooted => absurd hrooted hrelative
    · next hdots => exact hpush hskip.1 hskip.2 fun _ => hdots

theorem elements_proper (path : Bytes) : ∀ p ∈ elements path, Proper (path.head? = some 47) p := by
  have hfold : ∀ (rooted : Bool) (pieces kept : List Bytes), (∀ p ∈ kept, Proper rooted p) →
      (∀ p ∈ pieces, 47 ∉ p) → ∀ p ∈ pieces.foldl (cleanElement rooted) kept, Proper rooted p := by
    intro rooted pieces
    induction pieces with
    | nil => exact fun _ hkept _ => hkept
    | cons piece pieces ih =>
      intro kept hkept hslash
      exact ih _ (cleanElement_proper hkept (hslash piece List.mem_cons_self))
        fun p hp => hslash p (List.mem_cons_of_mem _ hp)
  exact hfold _ _ [] (by simp) fun p hp => not_mem_of_mem_splitOn hp

/-- Proper elements are all kept. -/
theorem foldl_cleanElement_eq (ps : List Bytes) : ∀ kept : List Bytes, (∀ p ∈ ps, Proper true p) →
    ps.foldl (cleanElement true) kept = kept ++ ps := by
  induction ps with
  | nil => simp
  | cons p ps ih =>
    intro kept hps
    have hp := hps p List.mem_cons_self
    have hkeep : cleanElement true kept p = kept ++ [p] := by
      simp [cleanElement, hp.nonempty, hp.notDot, hp.notDots rfl]
    rw [List.foldl_cons, hkeep, ih _ fun q hq => hps q (List.mem_cons_of_mem _ hq), List.append_assoc]
    rfl

/-- A normalized path is the absolute path of proper elements. -/
theorem normalizePath_ok {trimSpace : Bytes → Bytes} {path cleanPath : Bytes}
    (h : normalizePath trimSpace path = .ok cleanPath) :
    ∃ ps, (∀ p ∈ ps, Proper true p) ∧ cleanPath = absolute ps := by
  unfold normalizePath at h
  dsimp only at h
  split at h
  · cases h
  · split at h
    · cases h
    · next habsolute =>
      cases h
      have hproper := elements_proper (trimSpace path)
      by_cases hroot : (trimSpace path).head? = some 47
      · rw [decide_eq_true hroot] at hproper
        exact ⟨elements (trimSpace path), hproper, if_pos hroot⟩
      · -- a relative path stays relative
        refine absurd ?_ habsolute
        rw [clean, if_neg hroot]
        cases hps : elements (trimSpace path) with
        | nil => simp
        | cons p ps =>
          have hp := hproper p (by rw [hps]; exact List.mem_cons_self)
          obtain ⟨b, rest, rfl⟩ := List.exists_cons_of_ne_nil hp.nonempty
          have hb : b ≠ 47 := fun hb => hp.noSlash (by simp [hb])
          cases ps <;> simp [List.intercalate_cons_cons, hb]

/-! ## Parents -/

section Parents

variable {ps : List Bytes} {p : Bytes}

theorem absolute_eq (h : ps ≠ []) : absolute ps = ps.flatMap (47 :: ·) := by
  induction ps with
  | nil => exact absurd rfl h
  | cons p ps ih =>
    cases ps with
    | nil => simp [absolute]
    | cons q ps =>
      have hrest := ih (List.cons_ne_nil q ps)
      rw [List.flatMap_cons, ← hrest]
      simp [absolute, List.intercalate_cons_cons]

theorem absolute_append (ps : List Bytes) (p : Bytes) : absolute (ps ++ [p]) = ps.flatMap (47 :: ·) ++ 47 :: p := by
  rw [absolute_eq (by simp)]
  simp

theorem splitOn_flatMap (h : ∀ p ∈ ps, 47 ∉ p) : (ps.flatMap (47 :: ·)).splitOn 47 = [] :: ps := by
  induction ps using List.reverseRecOn with
  | nil => rfl
  | append_singleton ps p ih =>
    have hp : 47 ∉ p := h p (by simp)
    rw [List.flatMap_append, List.flatMap_singleton, List.splitOn_append_cons_self,
      ih fun q hq => h q (List.mem_append_left _ hq), List.splitOn_eq_singleton hp]
    rfl

/-- The last slash of a path is the one before its last element. -/
theorem dropWhile_append (h : 47 ∉ p) (front : Bytes) :
    ((front ++ 47 :: p).reverse.dropWhile (· ≠ 47)).reverse = front ++ [47] := by
  have hp : ∀ b ∈ p.reverse, (decide (b ≠ 47)) = true := by
    intro b hb
    refine decide_eq_true ?_
    rintro rfl
    exact h (List.mem_reverse.mp hb)
  rw [List.reverse_append, List.reverse_cons, List.append_assoc, List.dropWhile_append_of_pos hp]
  simp

theorem clean_rooted {path : Bytes} (h : path.head? = some 47) : clean path = absolute (elements path) := by
  rw [clean, if_pos h, absolute]

/-- `path.Dir` takes the last element off. -/
theorem dir_absolute (hps : ∀ q ∈ ps, Proper true q) (hp : Proper true p) :
    dir (absolute (ps ++ [p])) = absolute ps := by
  have hhead : (ps.flatMap (47 :: ·) ++ [47]).head? = some 47 := by
    cases ps <;> simp
  have hsplit : (ps.flatMap (47 :: ·) ++ [47]).splitOn 47 = [] :: ps ++ [[]] := by
    rw [List.splitOn_append_cons_self, splitOn_flatMap fun q hq => (hps q hq).noSlash]
    rfl
  have helements : elements (ps.flatMap (47 :: ·) ++ [47]) = ps := by
    have hkept : ([] :: ps).foldl (cleanElement true) [] = ps := foldl_cleanElement_eq ps [] hps
    rw [elements, hsplit, hhead, decide_eq_true rfl, List.foldl_append, hkept]
    rfl
  rw [dir, absolute_append, dropWhile_append hp.noSlash, clean_rooted hhead, helements]

/-- `path.Base` answers the last element. -/
theorem base_absolute (ps : List Bytes) (hp : Proper true p) : base (absolute (ps ++ [p])) = p := by
  have htake : ∀ b ∈ p.reverse, (decide (b ≠ 47)) = true := by
    intro b hb
    refine decide_eq_true ?_
    rintro rfl
    exact hp.noSlash (List.mem_reverse.mp hb)
  have hname : (((ps.flatMap (47 :: ·) ++ 47 :: p).reverse.dropWhile (· = 47)).takeWhile (· ≠ 47)).reverse = p := by
    rw [List.reverse_append, List.reverse_cons, List.append_assoc]
    obtain ⟨b, rest, hrev⟩ := List.exists_cons_of_ne_nil (mt List.reverse_eq_nil_iff.mp hp.nonempty)
    have hb : (decide (b = 47)) = false := by
      simpa using htake b (by rw [hrev]; exact List.mem_cons_self)
    -- there is no slash at the end
    rw [hrev, List.cons_append, List.dropWhile_cons, hb, if_neg (by simp), ← List.cons_append, ← hrev,
      List.takeWhile_append_of_pos htake]
    simp
  rw [base, absolute_append, if_neg (by simp)]
  dsimp only
  rw [hname, if_neg hp.nonempty]

theorem elements_absolute (hps : ∀ q ∈ ps, Proper true q) : elements (absolute ps) = ps := by
  cases ps with
  | nil => rfl
  | cons q ps =>
    rw [elements, absolute_eq (List.cons_ne_nil q ps), splitOn_flatMap fun q hq => (hps q hq).noSlash]
    exact foldl_cleanElement_eq _ [] hps

theorem clean_absolute (hps : ∀ q ∈ ps, Proper true q) : clean (absolute ps) = absolute ps := by
  rw [clean_rooted rfl, elements_absolute hps]

/-- `path.Join` puts the last element back. -/
theorem join_absolute (hps : ∀ q ∈ ps, Proper true q) (hp : Proper true p) :
    join [absolute ps, p] = absolute (ps ++ [p]) := by
  have hjoined : [47].intercalate [absolute ps, p] = absolute ps ++ 47 :: p := by simp
  have helements : elements (absolute ps ++ 47 :: p) = ps ++ [p] := by
    have hfront : ((absolute ps).splitOn 47).foldl (cleanElement true) [] = ps := elements_absolute hps
    rw [elements, List.splitOn_append_cons_self, List.splitOn_eq_singleton hp.noSlash, List.foldl_append]
    show ([p] : List Bytes).foldl _ (((absolute ps).splitOn 47).foldl (cleanElement true) []) = _
    rw [hfront]
    exact foldl_cleanElement_eq [p] ps (by simpa using hp)
  show clean ([47].intercalate [absolute ps, p]) = _
  rw [hjoined, clean_rooted rfl, helements]

theorem splitParentAndName_absolute (hps : ∀ q ∈ ps, Proper true q) (hp : Proper true p) :
    splitParentAndName (absolute (ps ++ [p])) = .ok (absolute ps, p) := by
  have hroot : absolute (ps ++ [p]) ≠ [47] := by
    rw [absolute_append]
    cases ps <;> simp [hp.nonempty]
  have hparent : ¬ (absolute ps = [46] ∨ absolute ps = []) := by simp [absolute]
  have hname : ¬ (p = [] ∨ p = [46] ∨ p = [47]) := by
    rintro (h | h | rfl)
    · exact hp.nonempty h
    · exact hp.notDot h
    · exact hp.noSlash List.mem_cons_self
  simp only [splitParentAndName, dir_absolute hps hp, base_absolute ps hp, if_neg hroot, if_neg hparent, if_neg hname]

theorem splitParentAndName_ok {parent name : Bytes} (hps : ∀ p ∈ ps, Proper true p)
    (h : splitParentAndName (absolute ps) = .ok (parent, name)) :
    ∃ qs, ps = qs ++ [name] ∧ parent = absolute qs ∧ Proper true name := by
  rcases List.eq_nil_or_concat ps with rfl | ⟨qs, p, rfl⟩
  · cases h
  · rw [List.concat_eq_append] at *
    have hp : Proper true p := hps p (by simp)
    rw [splitParentAndName_absolute (fun q hq => hps q (by simp [hq])) hp] at h
    cases h
    exact ⟨qs, rfl, rfl, hp⟩

/-- The path splits into a clean parent and a plain name, which join to it again. -/
def SplitsSafely (path : Bytes) : Prop :=
  ∃ parent name, splitParentAndName path = .ok (parent, name) ∧ parent.head? = some 47 ∧ clean parent = parent ∧
    name ≠ [] ∧ 47 ∉ name ∧ name ≠ [46] ∧ name ≠ [46, 46] ∧ join [parent, name] = path

/-- The parent of a path, or the path itself if it has none. -/
def parentPath (path : Bytes) : Bytes :=
  match splitParentAndName path with
  | .ok (parent, _) => parent
  | .error _ => path

theorem parentPath_absolute (hps : ∀ q ∈ ps, Proper true q) : parentPath (absolute ps) = absolute ps.dropLast := by
  rcases List.eq_nil_or_concat ps with rfl | ⟨qs, p, rfl⟩
  · rfl
  · rw [List.concat_eq_append] at *
    rw [parentPath, splitParentAndName_absolute (fun q hq => hps q (by simp [hq])) (hps p (by simp)),
      List.dropLast_concat]

/-- **Client paths split into safe components.** A normalized path, and each that its parents lead to, is the
root or splits safely, and the parents lead to the root. -/
theorem split_reaches_root {trimSpace : Bytes → Bytes} {path cleanPath : Bytes}
    (h : normalizePath trimSpace path = .ok cleanPath) :
    (∀ n, parentPath^[n] cleanPath = [47] ∨ SplitsSafely (parentPath^[n] cleanPath)) ∧
      ∃ n, parentPath^[n] cleanPath = [47] := by
  obtain ⟨ps, hps, rfl⟩ := normalizePath_ok h
  have hiterate : ∀ n, ∃ qs, (∀ q ∈ qs, Proper true q) ∧ parentPath^[n] (absolute ps) = absolute qs ∧
      qs.length = ps.length - n := by
    intro n
    induction n with
    | zero => exact ⟨ps, hps, rfl, rfl⟩
    | succ n ih =>
      obtain ⟨qs, hqs, heq, hlength⟩ := ih
      refine ⟨qs.dropLast, fun q hq => hqs q (List.dropLast_subset qs hq), ?_, ?_⟩
      · rw [Function.iterate_succ_apply', heq, parentPath_absolute hqs]
      · rw [List.length_dropLast, hlength, Nat.sub_sub]
  constructor
  · intro n
    obtain ⟨qs, hqs, heq, -⟩ := hiterate n
    rw [heq]
    rcases List.eq_nil_or_concat qs with rfl | ⟨front, p, rfl⟩
    · exact .inl rfl
    · rw [List.concat_eq_append] at *
      have hfront : ∀ q ∈ front, Proper true q := fun q hq => hqs q (List.mem_append_left _ hq)
      have hp : Proper true p := hqs p (List.mem_append_right _ List.mem_cons_self)
      exact .inr ⟨absolute front, p, splitParentAndName_absolute hfront hp, rfl, clean_absolute hfront, hp.nonempty,
        hp.noSlash, hp.notDot, hp.notDots rfl, join_absolute hfront hp⟩
  · obtain ⟨qs, -, heq, hlength⟩ := hiterate ps.length
    rw [Nat.sub_self, List.length_eq_zero_iff] at hlength
    exact ⟨ps.length, by rw [heq, hlength]; rfl⟩

theorem split_reaches_root_dots : normalizePath id [47, 97, 47, 46, 46, 47, 98] = .ok [47, 98] ∧
    ∃ n, parentPath^[n] [47, 98] = [47] :=
  ⟨by decide, (split_reaches_root (show normalizePath id [47, 97, 47, 46, 46, 47, 98] = .ok [47, 98] by decide)).2⟩

end Parents

/-! ## What the server makes of it -/

/-- The slashes at the ends of a path are of no account to `LookupPath`. -/
theorem lookupPath_eq (st : Store) (path : Bytes) : st.lookupPath path =
    (st.loadSuperblock >>= fun superblock => (path.splitOn 47).foldlM (st.walk path) superblock.rootInodeID) := by
  have hfront : ∀ (l : Bytes) (id : Bytes), ((l.dropWhile (· = 47)).splitOn 47).foldlM (st.walk path) id =
      (l.splitOn 47).foldlM (st.walk path) id := by
    intro l id
    induction l with
    | nil => rfl
    | cons b l ih =>
      by_cases hb : b = 47
      · subst hb
        rw [List.dropWhile_cons_of_pos (by simp), ih, List.splitOn_cons_eq_if_modifyHead, if_pos (by simp)]
        rfl
      · rw [List.dropWhile_cons_of_neg (by simpa using hb)]
  have hback : ∀ (l : Bytes) (id : Bytes), ((l.dropWhile (· = 47)).reverse.splitOn 47).foldlM (st.walk path) id =
      (l.reverse.splitOn 47).foldlM (st.walk path) id := by
    intro l id
    induction l with
    | nil => rfl
    | cons b l ih =>
      by_cases hb : b = 47
      · subst hb
        have hlast : ∀ id, [[]].foldlM (st.walk path) id = .ok id := fun _ => rfl
        rw [List.dropWhile_cons_of_pos (by simp), ih, List.reverse_cons, List.splitOn_append_cons_self,
          List.foldlM_append]
        cases (l.reverse.splitOn 47).foldlM (st.walk path) id <;> rfl
      · rw [List.dropWhile_cons_of_neg (by simpa using hb)]
  unfold Store.lookupPath
  congr 1
  funext superblock
  split
  · next hroot => 
    subst hroot
    rfl
  · rw [Store.trimSlashes, hback, List.reverse_reverse, hfront]

theorem lookupPath_absolute {ps : List Bytes} (st : Store) (hps : ∀ p ∈ ps, 47 ∉ p) : st.lookupPath (absolute ps) =
      (st.loadSuperblock >>= fun superblock => ps.foldlM (st.walk (absolute ps)) superblock.rootInodeID) := by
  rw [lookupPath_eq]
  cases ps with
  | nil => rfl
  | cons p ps =>
    have hsplit : (absolute (p :: ps)).splitOn 47 = [] :: p :: ps := by
      rw [absolute_eq (List.cons_ne_nil p ps)]
      exact splitOn_flatMap hps
    rw [hsplit]
    rfl

/-- Every entry that is in the one is in the other. -/
structure Extends (st st' : Store) : Prop where
  superblock : st'.superblock = st.superblock
  leads : ∀ parentID name childID, st.Leads parentID name childID → st'.Leads parentID name childID

theorem Extends.refl (st : Store) : Extends st st := ⟨rfl, fun _ _ _ h => h⟩

/-- What has been resolved stays resolved, and a round that succeeds does not depend on the path in its errors. -/
theorem Extends.foldlM_walk {st st' : Store} (h : Extends st st') {ps : List Bytes} (hps : ∀ p ∈ ps, Proper true p)
    (path path' : Bytes) {id id' : Bytes} (hwalk : ps.foldlM (st.walk path) id = .ok id') :
    ps.foldlM (st'.walk path') id = .ok id' := by
  induction ps generalizing id with
  | nil => exact hwalk
  | cons p ps ih =>
    have hp := hps p List.mem_cons_self
    rw [List.foldlM_cons] at hwalk ⊢
    obtain ⟨child, hfirst, hrest⟩ := bind_ok hwalk
    have hleads := h.leads _ _ _ ((walk_ok_iff hp.nonempty hp.notDot).mp hfirst)
    rw [(walk_ok_iff hp.nonempty hp.notDot).mpr hleads]
    exact ih (fun q hq => hps q (List.mem_cons_of_mem _ hq)) hrest

/-- **The parent and the name of a path lead where the path leads**, also after more entries have come. -/
theorem lookupPath_split {st st' : Store} {trimSpace : Bytes → Bytes} {path cleanPath parent name parentID : Bytes}
    (hpath : normalizePath trimSpace path = .ok cleanPath)
    (hsplit : splitParentAndName cleanPath = .ok (parent, name)) (hparent : st.lookupPath parent = .ok parentID)
    (h : Extends st st') : Proper true name ∧ st'.lookupPath parent = .ok parentID ∧
      st'.lookupPath cleanPath = st'.walk cleanPath parentID name := by
  obtain ⟨ps, hps, rfl⟩ := normalizePath_ok hpath
  obtain ⟨qs, rfl, rfl, hname⟩ := splitParentAndName_ok hps hsplit
  have hqs : ∀ q ∈ qs, Proper true q := fun q hq => hps q (List.mem_append_left _ hq)
  rw [lookupPath_absolute st fun q hq => (hqs q hq).noSlash] at hparent
  obtain ⟨superblock, hsuperblock, hwalk⟩ := bind_ok hparent
  have hsuperblock' : st'.loadSuperblock = .ok superblock := by
    rw [Store.loadSuperblock, h.superblock]
    exact hsuperblock
  refine ⟨hname, ?_, ?_⟩
  · rw [lookupPath_absolute st' fun q hq => (hqs q hq).noSlash, hsuperblock']
    exact h.foldlM_walk hqs _ _ hwalk
  · have hfront := h.foldlM_walk hqs _ (absolute (qs ++ [name])) hwalk
    rw [lookupPath_absolute st' fun q hq => (hps q hq).noSlash, hsuperblock']
    simp only [bind, Except.bind, List.foldlM_append, hfront, List.foldlM_cons, List.foldlM_nil]
    cases st'.walk (absolute (qs ++ [name])) parentID name <;> rfl

end Sandstore.Client
