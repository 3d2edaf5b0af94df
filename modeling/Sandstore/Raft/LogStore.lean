import Sandstore.Lib.Exec
import Sandstore.Lib.Trimmed
import Sandstore.Raft.Node

/-!
# The log store is a trimmed log

`FileLogStore` keeps a map, the last index, the compacted position and its term, and recomputes the
second from the first. What it means by them is a `Trimmed` log: the compacted position, the term kept
of the entry there, and the entries behind it without a gap. `Implements s l` says that the store `s`
holds the log `l`.

A caller stores entries that are consecutive and start at the end of the log or inside what is
retained, drops a suffix behind the compacted prefix, or compacts a prefix. Each of the three calls
does to the store what the operation of the same meaning does to the log (`Implements.store`,
`Implements.deleteFrom`, `Implements.compact`), returns no error, and leaves a file that loads to the
store it left. `log_store_implements` is the law for every sequence of them.

Compacting removes no entry from the map. The entries at and below the compacted position stay there
and are written to the file, and `GetLog` refuses them; `Implements` says nothing about them.
-/

namespace Sandstore.Raft

open Lib Lib.Proc
open FileLogStore

variable {δ σ : Type}

section LogStore

variable [Conv]

/-! ## The calls -/

/-- The calls of the log store that change it. -/
inductive LogCall (δ : Type) where
  | storeLogs (entries : List (LogEntry δ))
  | deleteFrom (min : Nat) -- DeleteRange(min, math.MaxUint64)
  | compact (max : Nat) -- DeleteRange(0, max)
  deriving DecidableEq

def LogCall.proc : LogCall δ → Proc (Node δ σ) (Option Err)
  | .storeLogs entries => Raft.storeLogs entries
  | .deleteFrom min => Raft.deleteRange min none
  | .compact max => Raft.deleteRange 0 (some max)

/-- One call whose write succeeds; nothing where it returns an error. -/
def callLog (n : Node δ σ) (c : LogCall δ) : Option (Node δ σ) :=
  match (c.proc : Proc (Node δ σ) (Option Err)).run n [] with
  | .back none n' => some n'
  | _ => none

theorem callLog_storeLogs {n : Node δ σ} {entries : List (LogEntry δ)}
    (h : (n.mem.logStore.storeLoop entries).2 = none) :
    callLog n (.storeLogs entries) = some (n.withLog (n.mem.logStore.storeLoop entries).1).putWal := by
  simp only [callLog, LogCall.proc, storeLogs, Proc.run, outcome, draw, h, if_true]

theorem callLog_deleteFrom (n : Node δ σ) (min : Nat) : callLog n (.deleteFrom min) =
      some (match n.mem.logStore.deleteRange min none with
        | none => n
        | some s => (n.withLog s).putWal) := by
  simp only [callLog, LogCall.proc, Raft.deleteRange, Proc.run, outcome, draw]
  cases n.mem.logStore.deleteRange min none <;> rfl

theorem callLog_compact (n : Node δ σ) (max : Nat) : callLog n (.compact max) =
      some (match n.mem.logStore.deleteRange 0 (some max) with
        | none => n
        | some s => (n.withLog s).putWal) := by
  simp only [callLog, LogCall.proc, Raft.deleteRange, Proc.run, outcome, draw]
  cases n.mem.logStore.deleteRange 0 (some max) <;> rfl

/-! ## What the store means -/

/-- A log as a `FileLogStore` means it; the mark of an entry is its term. -/
abbrev TrimmedLog (δ : Type) := Trimmed Nat (LogEntry δ)

/-- The term kept of an entry. -/
def termOf (e : LogEntry δ) : Nat := uint64 e.term

omit [Conv] in
/-- What `GetLog` should answer. -/
def TrimmedLog.getLog (l : TrimmedLog δ) (i : Nat) : Except Err (LogEntry δ) :=
  if i ≤ l.base then .error .logCompacted
  else
    match l.get i with
    | some e => .ok e
    | none => .error .logNotFound

/-- What `LastIndexAndTerm` should answer. -/
def TrimmedLog.lastIndexAndTerm (l : TrimmedLog δ) : Nat × Nat := (l.last, l.lastMark termOf)

/-- The store holds this log. Nothing has been compacted at position 0. -/
structure Implements (s : FileLogStore δ) (l : TrimmedLog δ) : Prop where
  kept : Kept s
  base : s.compactedUntil = l.base
  mark : s.compactedTerm = l.mark
  last : s.last = l.last
  get : ∀ i, l.base < i → s.logs.get i = l.get i
  start : l.base = 0 → l.mark = 0

theorem implements_empty : Implements (FileLogStore.empty : FileLogStore δ) ⟨0, 0, []⟩ where
  kept := kept_empty
  base := rfl
  mark := rfl
  last := rfl
  get := fun _ hi => (Trimmed.get_eq_none hi).symm
  start := fun _ => rfl

section Reads

variable {s : FileLogStore δ} {l : TrimmedLog δ}

theorem Implements.getLog (h : Implements s l) (i : Nat) : s.getLog i = l.getLog i := by
  unfold FileLogStore.getLog TrimmedLog.getLog
  rw [h.base]
  by_cases hi : i ≤ l.base
  · rw [if_pos hi, if_pos hi]
  · rw [if_neg hi, if_neg hi]
    cases hget : l.get i <;> simp only [h.get i (Nat.lt_of_not_le hi), hget]

theorem Implements.lastIndexAndTerm (h : Implements s l) : s.lastIndexAndTerm = .ok l.lastIndexAndTerm := by
  have hbase := h.kept.base
  rw [h.base, h.last] at hbase
  rw [FileLogStore.lastIndexAndTerm, TrimmedLog.lastIndexAndTerm, Trimmed.lastMark_eq, h.base, h.last, h.mark]
  by_cases hzero : l.last = 0
  · have hstart : l.base = 0 := by omega
    rw [if_pos hzero, hzero, Trimmed.get_of_le (Nat.zero_le _), Option.map_none, Option.getD_none, h.start hstart]
  · rw [if_neg hzero]
    by_cases hall : l.last = l.base
    · rw [if_pos hall, hall, Trimmed.get_of_le (Nat.le_refl _), Option.map_none, Option.getD_none]
    · have hlt : l.base < l.last := by omega
      obtain ⟨e, he⟩ := Trimmed.get_isSome hlt (Nat.le_refl _)
      rw [if_neg hall, h.get l.last hlt, he, Option.map_some, Option.getD_some]
      rfl

end Reads

/-! ## Each call -/

/-- Entries with consecutive indices from `i` on. -/
def Runs (i : Nat) (entries : List (LogEntry δ)) : Prop :=
  ∀ k e, entries[k]? = some e → uint64 e.index = i + k

/-- The calls of a raft node: storing inside what is retained or right behind it, and dropping a
suffix of what is retained. -/
def LogCall.Legal (l : TrimmedLog δ) : LogCall δ → Prop
  | .storeLogs entries => ∃ i, l.base < i ∧ i ≤ l.last + 1 ∧ Runs i entries
  | .deleteFrom min => l.base < min
  | .compact _ => True

/-- What a call means for the log. -/
def LogCall.effect (l : TrimmedLog δ) : LogCall δ → TrimmedLog δ
  | .storeLogs [] => l
  | .storeLogs (e :: entries) => l.write (uint64 e.index) (e :: entries)
  | .deleteFrom min => l.cutFrom min
  | .compact max => l.trim termOf max

section Storing

variable {i : Nat} {entries : List (LogEntry δ)}

theorem runs_nil (i : Nat) : Runs i ([] : List (LogEntry δ)) := fun _ _ hk => nomatch hk

theorem runs_cons {e : LogEntry δ} : Runs i (e :: entries) ↔ uint64 e.index = i ∧ Runs (i + 1) entries := by
  constructor
  · refine fun h => ⟨h 0 e rfl, fun k e' hk => ?_⟩
    rw [h (k + 1) e' hk]
    omega
  · rintro ⟨hhead, htail⟩ k e' hk
    cases k with
    | zero =>
      cases hk
      exact hhead
    | succ k =>
      rw [htail k e' hk]
      omega

theorem Runs.index (h : Runs i entries) {e : LogEntry δ} (he : e ∈ entries) :
    i ≤ uint64 e.index ∧ uint64 e.index < i + entries.length := by
  obtain ⟨k, hk⟩ := List.mem_iff_getElem?.mp he
  have hlt := (List.getElem?_eq_some_iff.mp hk).1
  rw [h k e hk]
  omega

theorem Runs.distinct (h : Runs i entries) : entries.Pairwise fun a b => uint64 a.index ≠ uint64 b.index := by
  induction entries generalizing i with
  | nil => exact .nil
  | cons e entries ih =>
    obtain ⟨hhead, htail⟩ := runs_cons.mp h
    refine List.pairwise_cons.mpr ⟨fun e' he' => ?_, ih htail⟩
    have := (htail.index he').1
    omega

variable {s : FileLogStore δ}


theorem foldl_place_last (h : Runs i entries) (hi : 0 < i) (hs : i ≤ s.last + 1) :
    (entries.foldl place s).last = max s.last (i + entries.length - 1) := by
  induction entries generalizing s i with
  | nil =>
    rw [List.foldl_nil, List.length_nil]
    omega
  | cons e entries ih =>
    obtain ⟨hhead, htail⟩ := runs_cons.mp h
    have hplace := place_last s e
    rw [hhead] at hplace
    rw [List.foldl_cons, ih htail (by omega) (by omega), hplace, List.length_cons]
    omega

theorem get_foldl_place (h : Runs i entries) (k : Nat) : (entries.foldl place s).logs.get k =
      if i ≤ k ∧ k < i + entries.length then entries[k - i]? else s.logs.get k := by
  by_cases hk : i ≤ k ∧ k < i + entries.length
  · have hlt : k - i < entries.length := by omega
    have hget : entries[k - i]? = some entries[k - i] := List.getElem?_eq_getElem hlt
    have hindex : uint64 entries[k - i].index = k := by
      rw [h _ _ hget]
      omega
    have hput : (entries.foldl place s).logs.get (uint64 entries[k - i].index) = some entries[k - i] :=
      get_foldl_place_of_mem h.distinct (List.getElem_mem hlt)
    rw [hindex] at hput
    rw [if_pos hk, hget, hput]
  · rw [if_neg hk]
    refine get_foldl_place_of_notMem fun e he heq => hk ?_
    rw [← heq]
    exact h.index he

theorem Implements.store {l : TrimmedLog δ} (h : Implements s l) (hlegal : (LogCall.storeLogs entries).Legal l) :
    (s.storeLoop entries).2 = none ∧ Implements (s.storeLoop entries).1 ((LogCall.storeLogs entries).effect l) := by
  obtain ⟨i, hbase, hlast, hruns⟩ := hlegal
  have hok : (s.storeLoop entries).2 = none := by
    refine storeLoop_ok fun e he => ?_
    have := (hruns.index he).1
    rw [h.base]
    omega
  refine ⟨hok, ?_⟩
  rw [(storeLoop_eq_foldl hok).1]
  cases entries with
  | nil => exact h
  | cons e entries =>
    have heffect : (LogCall.storeLogs (e :: entries)).effect l = l.write i (e :: entries) := by
      rw [LogCall.effect, (runs_cons.mp hruns).1]
    rw [heffect]
    refine ⟨foldl_place_kept h.kept, ?_, ?_, ?_, ?_, h.start⟩
    · exact foldl_place_compacted.1.trans h.base
    · exact foldl_place_compacted.2.trans h.mark
    · rw [Trimmed.last_write hbase hlast, ← h.last]
      exact foldl_place_last hruns (by omega) (by rw [h.last]; exact hlast)
    · intro k hk
      rw [get_foldl_place hruns, Trimmed.get_write hbase hlast, h.get k hk]

end Storing

section Deleting

variable {s s' : FileLogStore δ} {l : TrimmedLog δ}

/-- A well-kept store that holds the entries of a log ends where the log does. -/
theorem Implements.of_get (hkept : Kept s) (hbase : s.compactedUntil = l.base) (hmark : s.compactedTerm = l.mark)
    (hget : ∀ i, l.base < i → s.logs.get i = l.get i) (hstart : l.base = 0 → l.mark = 0) : Implements s l := by
  refine ⟨hkept, hbase, hmark, Nat.le_antisymm ?_ ?_, hget, hstart⟩
  · rcases hkept.held with hall | ⟨e, he⟩
    · rw [hall, hbase]
      exact Nat.le_add_right _ _
    · refine Nat.le_of_not_lt fun hbehind => ?_
      have hlow : l.base < s.last := (Nat.le_add_right _ _).trans_lt hbehind
      rw [hget _ hlow, Trimmed.get_eq_none hbehind] at he
      cases he
  · rcases Nat.lt_or_ge l.base l.last with hlt | hge
    · obtain ⟨e, he⟩ := Trimmed.get_isSome hlt (Nat.le_refl _)
      exact hkept.top _ e ((hget _ hlt).trans he)
    · exact hge.trans (hbase ▸ hkept.base)

theorem Implements.deleteFrom (h : Implements s l) {min : Nat} (hmin : l.base < min) :
    match s.deleteRange min none with
    | none => Implements s (l.cutFrom min)
    | some s' => Implements s' (l.cutFrom min) := by
  cases hs : s.deleteRange min none with
  | none =>
    have hlast : l.last = 0 := h.last ▸ deleteRange_suffix_none hs
    refine .of_get h.kept h.base h.mark (fun i hi => ?_) h.start
    have hi' : l.base < i := hi
    have hnone : l.get i = none := Trimmed.get_eq_none (by omega)
    rw [h.get i hi', Trimmed.get_cutFrom hmin, hnone, ite_self]
  | some s' =>
    obtain ⟨huntil, hterm, hget⟩ := deleteRange_suffix (h.base ▸ hmin) hs
    refine .of_get (h.kept.deleteRange hs) (huntil.trans h.base) (hterm.trans h.mark) ?_ h.start
    intro i hi
    have hi' : l.base < i := hi
    rw [hget, Trimmed.get_cutFrom hmin, h.get i hi', h.last]
    by_cases hmi : min ≤ i
    · rw [if_pos hmi]
      split
      · rfl
      · exact Trimmed.get_eq_none (by omega)
    · rw [if_neg hmi, if_neg (by omega)]

/-- The term that compacting keeps: that of the entry at the new position, if the position is new. -/
theorem deleteRange_prefix_term {max : Nat} (hs : s.deleteRange 0 (some max) = some s') : s'.compactedTerm =
      if s.compactedUntil < s.clip (some max) then ((s.logs.get (s.clip (some max))).map termOf).getD s.compactedTerm
      else s.compactedTerm := by
  rcases deleteRange_some hs with ⟨hmove, rfl⟩ | ⟨hmove, rfl⟩
  · rw [if_pos hmove.2]
    simp only [cut, compactTo]
    cases s.logs.get (s.clip (some max)) <;> rfl
  · rw [if_neg (by omega)]
    rfl

omit [Conv] in
theorem clip_some (s : FileLogStore δ) (k : Nat) : s.clip (some k) = min k s.last := by
  unfold clip
  dsimp only
  split <;> omega

theorem Implements.compact (h : Implements s l) (k : Nat) : match s.deleteRange 0 (some k) with
    | none => Implements s (l.trim termOf k)
    | some s' => Implements s' (l.trim termOf k) := by
  have hclip : s.clip (some k) = min k l.last := by rw [clip_some, h.last]
  cases hs : s.deleteRange 0 (some k) with
  | none =>
    -- the call returned early, so there is nothing up to `k`
    have hzero : min k l.last = 0 := by
      rw [← hclip]
      exact (deleteRange_none hs).resolve_right (by simp)
    rw [Trimmed.trim_of_le termOf (hzero ▸ Nat.zero_le _)]
    exact h
  | some s' =>
    obtain ⟨hlogs, -, huntil⟩ := deleteRange_prefix h.kept hs
    have hterm := deleteRange_prefix_term hs
    rw [hclip, h.base] at huntil hterm
    rcases Nat.lt_or_ge l.base (min k l.last) with hmove | hstay
    · rw [if_pos hmove, h.mark, h.get _ hmove] at hterm
      have hbase : (l.trim termOf k).base = max l.base (min k l.last) := rfl
      refine .of_get (h.kept.deleteRange hs) huntil hterm (fun i hi => ?_) fun hzero => ?_
      · rw [hbase] at hi
        rw [hlogs, h.get i (by omega), Trimmed.get_trim, if_neg (by omega)]
      · rw [hbase] at hzero
        omega
    · rw [if_neg (Nat.not_lt.mpr hstay)] at hterm
      rw [Nat.max_eq_left hstay] at huntil
      rw [Trimmed.trim_of_le termOf hstay]
      refine .of_get (h.kept.deleteRange hs) huntil (hterm.trans h.mark) (fun i hi => ?_) h.start
      rw [hlogs, h.get i hi]

end Deleting

/-! ## Every sequence of calls -/

/-- The file loads to the store. -/
def Saved (n : Node δ σ) : Prop := load n.disk.wal = n.mem.logStore

/-- A legal call returns no error, does to the log what it means, and saves what it did. -/
theorem callLog_implements {n : Node δ σ} {l : TrimmedLog δ} (h : Implements n.mem.logStore l)
    (hsaved : Saved n) {c : LogCall δ} (hlegal : c.Legal l) :
    ∃ n', callLog n c = some n' ∧ Implements n'.mem.logStore (c.effect l) ∧ Saved n' := by
  have hput : ∀ {s : FileLogStore δ}, Implements s (c.effect l) →
      Implements (n.withLog s).putWal.mem.logStore (c.effect l) ∧ Saved (n.withLog s).putWal :=
    fun hs => ⟨hs, load_file hs.kept⟩
  cases c with
  | storeLogs entries =>
    obtain ⟨hok, hs⟩ := h.store hlegal
    exact ⟨_, callLog_storeLogs hok, hput hs⟩
  | deleteFrom min =>
    have hs := h.deleteFrom hlegal
    refine ⟨_, callLog_deleteFrom n min, ?_⟩
    cases hd : n.mem.logStore.deleteRange min none with
    | none =>
      rw [hd] at hs
      exact ⟨hs, hsaved⟩
    | some s =>
      rw [hd] at hs
      exact hput hs
  | compact max =>
    have hs := h.compact max
    refine ⟨_, callLog_compact n max, ?_⟩
    cases hd : n.mem.logStore.deleteRange 0 (some max) with
    | none =>
      rw [hd] at hs
      exact ⟨hs, hsaved⟩
    | some s =>
      rw [hd] at hs
      exact hput hs

/-- The step of the log itself, for saying that every call of a sequence is legal where it is made. -/
def logStep (l : TrimmedLog δ) (c : LogCall δ) : Option (TrimmedLog δ) := some (c.effect l)

theorem calls_implement {n : Node δ σ} {l : TrimmedLog δ} (h : Implements n.mem.logStore l)
    (hsaved : Saved n) {calls : List (LogCall δ)} (hlegal : Along logStep (fun l c => c.Legal l) l calls) :
    ∃ n', exec callLog n calls = some n' ∧ Implements n'.mem.logStore (calls.foldl LogCall.effect l) ∧ Saved n' := by
  induction calls generalizing n l with
  | nil => exact ⟨n, rfl, h, hsaved⟩
  | cons c calls ih =>
    obtain ⟨n', hcall, h', hsaved'⟩ := callLog_implements h hsaved hlegal.1
    obtain ⟨n'', hrest, h''⟩ := ih h' hsaved' (hlegal.2 _ rfl)
    refine ⟨n'', ?_, h''⟩
    rw [exec, hcall]
    exact hrest

theorem TrimmedLog.getLog_trim (l : TrimmedLog δ) {k i : Nat} (h : k < i) :
    TrimmedLog.getLog (l.trim termOf k) i = l.getLog i := by
  have hbase : (l.trim termOf k).base = max l.base (min k l.last) := rfl
  have hiff : i ≤ (l.trim termOf k).base ↔ i ≤ l.base := by
    rw [hbase]
    omega
  unfold TrimmedLog.getLog
  rw [Trimmed.get_trim_of_lt termOf l h]
  simp only [hiff]

/-- **The log store implements a trimmed log, in memory and after a reload.** No call of the sequence
returns an error; the answers are the log's; compacting changes neither the end of the log nor what is
behind the position; and the file loads to the very store that wrote it. -/
theorem log_store_implements (n : Node δ σ) (hstore : n.mem.logStore = .empty) (hwal : n.disk.wal = none)
    (calls : List (LogCall δ)) (hlegal : Along logStep (fun l c => c.Legal l) ⟨0, 0, []⟩ calls) :
    ∃ n', exec callLog n calls = some n' ∧
      (∀ i, n'.mem.logStore.getLog i =
        TrimmedLog.getLog (calls.foldl LogCall.effect ⟨0, 0, []⟩) i) ∧
      n'.mem.logStore.lastIndexAndTerm =
        .ok (TrimmedLog.lastIndexAndTerm (calls.foldl LogCall.effect ⟨0, 0, []⟩)) ∧
      (∀ k, ∃ n'', callLog n' (.compact k) = some n'' ∧
        n''.mem.logStore.lastIndexAndTerm = n'.mem.logStore.lastIndexAndTerm ∧
        ∀ i, k < i → n''.mem.logStore.getLog i = n'.mem.logStore.getLog i) ∧
      load n'.disk.wal = n'.mem.logStore := by
  have hempty : Implements n.mem.logStore ⟨0, 0, []⟩ := hstore ▸ implements_empty
  have hsaved : Saved n := by
    rw [Saved, hwal, hstore]
    rfl
  obtain ⟨n', hrun, h, hsaved'⟩ := calls_implement hempty hsaved hlegal
  refine ⟨n', hrun, h.getLog, h.lastIndexAndTerm, fun k => ?_, hsaved'⟩
  have hcompact : (LogCall.compact k).Legal (calls.foldl LogCall.effect (⟨0, 0, []⟩ : TrimmedLog δ)) :=
    trivial
  obtain ⟨n'', hcall, h'', -⟩ := callLog_implements h hsaved' hcompact
  refine ⟨n'', hcall, ?_, fun i hi => ?_⟩
  · rw [h''.lastIndexAndTerm, h.lastIndexAndTerm, LogCall.effect, TrimmedLog.lastIndexAndTerm,
      Trimmed.last_trim, Trimmed.lastMark_trim]
    rfl
  · rw [h''.getLog, h.getLog, LogCall.effect, TrimmedLog.getLog_trim _ hi]

end LogStore

section Demo

attribute [local instance] Conv.go

/-- Three entries, the first two compacted, the third replaced by two of a later term, and a
compaction past the end. -/
def demoCalls : List (LogCall Byte) :=
  [.storeLogs [⟨1, 1, 7⟩, ⟨2, 1, 8⟩, ⟨3, 2, 9⟩], .compact 2, .deleteFrom 3,
    .storeLogs [⟨3, 3, 4⟩, ⟨4, 3, 5⟩], .compact 9]

theorem log_store_implements_demo :
    ∃ n : Node Byte Bytes, exec callLog ⟨⟨none, none, none, []⟩, {}, []⟩ demoCalls = some n ∧
      n.mem.logStore.lastIndexAndTerm = .ok (4, 3) ∧
      n.mem.logStore.getLog 4 = .error .logCompacted ∧
      load n.disk.wal = n.mem.logStore := by
  have hlegal : Along logStep (fun l c => LogCall.Legal l c) ⟨0, 0, []⟩ demoCalls := by
    refine along_cons ⟨1, by decide, by decide, ?_⟩ rfl (along_cons trivial rfl (along_cons ?_ rfl
      (along_cons ⟨3, by decide, by decide, ?_⟩ rfl (along_cons trivial rfl trivial))))
    · simp only [runs_cons, runs_nil]
      decide
    · exact Nat.lt_succ_self 2
    · simp only [runs_cons, runs_nil]
      decide
  obtain ⟨n, hrun, hget, hlast, -, hload⟩ := log_store_implements
    (⟨⟨none, none, none, []⟩, {}, []⟩ : Node Byte Bytes) rfl rfl demoCalls hlegal
  exact ⟨n, hrun, hlast, hget 4, hload⟩

end Demo

end Sandstore.Raft
