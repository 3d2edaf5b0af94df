import Sandstore.Raft.Append
import Sandstore.Raft.LogStore

/-!
# How `HandleAppendEntries` merges

A follower whose entries above the snapshot have no gap gets a request whose entries have none either.
The scan finds the first of them that the log lacks or contradicts, and from there on the log is the
request's: `Written s i newLogs s'` says that `s'` is `s` below `i` and `newLogs` from `i` on, with nothing
behind. That one description covers a log that was cut first and one that had ended before `i`.

Where the first new entry is refused as compacted, nothing has been stored yet, and where it is not, no
later one is. So a reply of failure leaves the log alone, provided the writes come back without an error.
-/

namespace Sandstore.Raft

open Lib Lib.Proc
open FileLogStore

variable {δ σ : Type}

/-- The entries above `base` are those from there to the last index, each at its own index. -/
structure Contiguous (base : Nat) (s : FileLogStore δ) : Prop where
  held : ∀ k, base < k → k ≤ s.last → ∃ e, s.logs.get k = some e
  own : ∀ k e, base < k → s.logs.get k = some e → e.index = k ∧ k ≤ s.last

section Merging

variable [Conv]

theorem Runs.append {i : Nat} {pre entries : List (LogEntry δ)} (h : Runs i (pre ++ entries)) :
    Runs (i + pre.length) entries := by
  intro k e hk
  have := h (pre.length + k) e (by rw [List.getElem?_append_right (by omega), Nat.add_sub_cancel_left, hk])
  omega

/-! ## What is written -/

/-- The log is the old one below `i` and these entries from `i` on. -/
structure Written (s : FileLogStore δ) (i : Nat) (newLogs : List (LogEntry δ)) (s' : FileLogStore δ) :
    Prop where
  runs : Runs i newLogs
  nonempty : newLogs ≠ []
  get : ∀ k, s'.logs.get k = if k < i then s.logs.get k else newLogs[k - i]?
  last : s'.last + 1 = i + newLogs.length
  base : s'.compactedUntil = s.compactedUntil
  above : s.compactedUntil < i

section Written

variable {s s' : FileLogStore δ} {i base : Nat} {newLogs : List (LogEntry δ)}

theorem Written.length_pos (h : Written s i newLogs s') : 0 < newLogs.length := List.length_pos_iff.mpr h.nonempty

theorem Written.lastIndexAndTerm (h : Written s i newLogs s') : ∃ last, s'.lastIndexAndTerm = .ok last := by
  have hlength := h.length_pos
  have hlast := h.last
  have habove := h.above
  have hbase := h.base
  have hget : s'.logs.get s'.last = newLogs[s'.last - i]? := by
    rw [h.get, if_neg (by omega)]
  have hin : s'.last - i < newLogs.length := by omega
  rw [List.getElem?_eq_getElem hin] at hget
  rw [FileLogStore.lastIndexAndTerm, if_neg (by omega), if_neg (by omega), hget]
  exact ⟨_, rfl⟩

theorem foldl_place_last_cons {e : LogEntry δ} {rest : List (LogEntry δ)} (h : Runs i (e :: rest)) :
    ((e :: rest).foldl place s).last = max s.last (i + rest.length) := by
  obtain ⟨hindex, hrest⟩ := runs_cons.mp h
  have hplace := place_last s e
  rw [hindex] at hplace
  rw [List.foldl_cons, foldl_place_last hrest (by omega) (by omega), hplace]
  omega

theorem written_behind (hruns : Runs i newLogs) (hnonempty : newLogs ≠ []) (habove : s.compactedUntil < i)
    (hlast : s.last < i) (hnone : ∀ k e, s.logs.get k = some e → k < i) :
    Written s i newLogs (newLogs.foldl place s) := by
  obtain ⟨e, rest, rfl⟩ := List.exists_cons_of_ne_nil hnonempty
  refine ⟨hruns, hnonempty, fun k => ?_, ?_, foldl_place_compacted.1, habove⟩
  · rw [get_foldl_place hruns]
    by_cases hk : k < i
    · rw [if_pos hk, if_neg (by omega)]
    · rw [if_neg hk]
      split
      · rfl
      · next hout =>
        rw [List.getElem?_eq_none (by omega)]
        cases hget : s.logs.get k with
        | none => rfl
        | some x => exact absurd (hnone k x hget) hk
  · rw [foldl_place_last_cons hruns, List.length_cons]
    omega

theorem written_cut {c : Nat} {cut : FileLogStore δ} (hcont : Contiguous base s) (hc : base < c)
    (habove : s.compactedUntil < c) (hd : s.deleteRange c none = some cut) (hruns : Runs c newLogs)
    (hnonempty : newLogs ≠ []) : Written s c newLogs (newLogs.foldl place cut) := by
  obtain ⟨huntil, -, hget⟩ := deleteRange_suffix habove hd
  have hbelow : ∀ k e, cut.logs.get k = some e → k < c := by
    intro k e hk
    refine Nat.lt_of_not_le fun hle => ?_
    rw [hget] at hk
    split at hk
    · cases hk
    · have := (hcont.own k e (by omega) hk).2
      omega
  have hend : cut.last < c := by
    have hlast : cut.last = cut.compactedUntil ∨ ∃ e, cut.logs.get cut.last = some e := by
      rw [deleteRange_from (by omega) hd]
      exact (lastOf_spec _ _).2.2
    rcases hlast with hlast | ⟨e, he⟩
    · omega
    · exact hbelow _ e he
  have hwritten := written_behind hruns hnonempty (huntil ▸ habove) hend hbelow
  refine ⟨hruns, hnonempty, fun k => ?_, hwritten.last, hwritten.base.trans huntil, habove⟩
  rw [hwritten.get]
  by_cases hk : k < c
  · rw [if_pos hk, if_pos hk, hget, if_neg (by omega)]
  · rw [if_neg hk, if_neg hk]

end Written

/-! ## What a merge is -/

/-- The log `s'` is what merging the entries behind `prev` into `s` should leave. -/
structure Merges (base : Nat) (s : FileLogStore δ) (prev : Nat) (entries : List (LogEntry δ))
    (s' : FileLogStore δ) : Prop where
  holds : ∀ e ∈ entries, base < uint64 e.index →
    ∃ e', s'.getLog (uint64 e.index) = .ok e' ∧ e'.index = e.index ∧ e'.term = e.term
  below : ∀ k ≤ prev, s'.logs.get k = s.logs.get k
  replaced : ∀ k e, s.logs.get k = some e → s'.logs.get k ≠ some e →
    ∃ x ∈ entries, uint64 x.index ≤ k ∧ ∃ old, s.getLog (uint64 x.index) = .ok old ∧ old.term ≠ x.term
  contiguous : Contiguous base s'

/-- The indices of these entries are what they convert to. -/
def Exact (entries : List (LogEntry δ)) : Prop := ∀ e ∈ entries, e.index = (uint64 e.index : Int)

section Merges

variable {r : Replicator δ} {s' : FileLogStore δ} {prev i : Nat} {pre newLogs : List (LogEntry δ)}

theorem Passed.existing {entries : List (LogEntry δ)} (h : Passed r entries)
    (hcont : Contiguous r.lastIncludedIndex r.logStore) (hexact : Exact entries) {e : LogEntry δ}
    (he : e ∈ entries) (hlt : r.lastIncludedIndex < uint64 e.index) :
    ∃ e', r.logStore.getLog (uint64 e.index) = .ok e' ∧ e'.index = e.index ∧ e'.term = e.term := by
  obtain ⟨existing, hget, hterm⟩ := h e he hlt
  refine ⟨existing, hget, ?_, hterm⟩
  rw [hexact e he]
  exact (hcont.own _ existing hlt (getLog_eq_ok.mp hget).2).1

theorem merged_upToDate {entries : List (LogEntry δ)} (h : Passed r entries)
    (hcont : Contiguous r.lastIncludedIndex r.logStore) (hexact : Exact entries) :
    Merges r.lastIncludedIndex r.logStore prev entries r.logStore where
  holds := fun _ he hlt => h.existing hcont hexact he hlt
  below := fun _ _ => rfl
  replaced := fun _ _ hk hne => absurd hk hne
  contiguous := hcont

/-- A log written at `i` merges the request if the log reached up to `i` and either ended there or is
contradicted there. -/
theorem Written.merged (h : Written r.logStore i newLogs s') (hpassed : Passed r pre)
    (hcont : Contiguous r.lastIncludedIndex r.logStore) (hexact : Exact (pre ++ newLogs))
    (hpre : ∀ e ∈ pre, uint64 e.index < i) (hprev : prev < i) (hbase : r.lastIncludedIndex < i)
    (hreach : i ≤ r.lastIncludedIndex + 1 ∨ i ≤ r.logStore.last + 1)
    (hconflict : r.logStore.last < i ∨ ∃ x ∈ newLogs, uint64 x.index = i ∧
      ∃ old, r.logStore.getLog i = .ok old ∧ old.term ≠ x.term) :
    Merges r.lastIncludedIndex r.logStore prev (pre ++ newLogs) s' := by
  have hlength := h.length_pos
  have hlast := h.last
  refine ⟨fun e he hlt => ?_, fun k hk => ?_, fun k e hk hne => ?_, ⟨fun k hk hle => ?_, fun k e hk hget => ?_⟩⟩
  · rcases List.mem_append.mp he with hold | hnew
    · obtain ⟨e', hget, hindex⟩ := hpassed.existing hcont (fun x hx => hexact x (List.mem_append_left _ hx))
        hold hlt
      refine ⟨e', ?_, hindex⟩
      obtain ⟨hcomp, hlogs⟩ := getLog_eq_ok.mp hget
      rw [getLog_eq_ok, h.base, h.get, if_pos (hpre e hold)]
      exact ⟨hcomp, hlogs⟩
    · obtain ⟨k, hk⟩ := List.mem_iff_getElem?.mp hnew
      have hindex := h.runs k e hk
      have habove := h.above
      refine ⟨e, getLog_eq_ok.mpr ⟨?_, ?_⟩, rfl, rfl⟩
      · rw [h.base]
        omega
      · rw [h.get, if_neg (by omega), hindex, Nat.add_sub_cancel_left, hk]
  · rw [h.get, if_pos (by omega)]
  · rw [h.get] at hne
    split at hne
    · exact absurd hk hne
    · next hle =>
      have htop := (hcont.own k e (by omega) hk).2
      rcases hconflict with hend | ⟨x, hx, hindex, hold⟩
      · omega
      · exact ⟨x, List.mem_append_right _ hx, by omega, hindex ▸ hold⟩
  · rw [h.get]
    split
    · exact hcont.held k hk (by omega)
    · exact ⟨_, List.getElem?_eq_getElem (by omega)⟩
  · rw [h.get] at hget
    split at hget
    · exact ⟨(hcont.own k e hk hget).1, by omega⟩
    · have hindex := h.runs _ e hget
      have hlt := (List.getElem?_eq_some_iff.mp hget).1
      refine ⟨?_, by omega⟩
      rw [hexact e (List.mem_append_right _ (List.mem_of_getElem? hget)), hindex]
      omega

end Merges

/-! ## The calls of the handler -/

section Calls

variable {n : Node δ σ} {entries : List (LogEntry δ)} {prev : Nat}

theorem storeLogs_done (h : ∀ e ∈ entries, n.mem.logStore.compactedUntil < uint64 e.index) :
    Meets Fate.fine (storeLogs entries) n
      (fun err n' => err = none ∧ n' = (n.withLog (entries.foldl place n.mem.logStore)).putWal) fun _ => True := by
  have hok := storeLoop_ok h
  have hfold := (storeLoop_eq_foldl hok).1
  refine meets_commit (by rw [hok]) (meets_pure ⟨?_, ?_⟩) ?_ ?_ (fun _ => trivial) fun _ => trivial
  · rw [hok]
    rfl
  · rw [hfold]
  · exact fun hf => absurd rfl hf.1
  · exact fun hf => absurd rfl hf.2

/-- `StoreLogs` whose first entry is compacted. -/
theorem storeLogs_refused {ok : Fate → Prop} {e : LogEntry δ} (h : uint64 e.index ≤ n.mem.logStore.compactedUntil) :
    Meets ok (storeLogs (e :: entries)) n (fun err n' => err ≠ none ∧ n' = n) fun _ => True := by
  have hloop : n.mem.logStore.storeLoop (e :: entries) =
      (n.mem.logStore, some (.appendCompacted (uint64 e.index) n.mem.logStore.compactedUntil)) := by
    rw [FileLogStore.storeLoop, if_pos h]
  refine meets_quiet (by rw [hloop]; rfl) (meets_pure ⟨?_, rfl⟩)
  rw [hloop]
  exact Option.some_ne_none _

theorem deleteRange_done {min : Nat} {max : Option Nat} {s : FileLogStore δ}
    (hd : n.mem.logStore.deleteRange min max = some s) :
    Meets Fate.fine (deleteRange min max) n (fun err n' => err = none ∧ n' = (n.withLog s).putWal) fun _ => True := by
  refine meets_commit (by rw [hd]) (meets_pure ⟨rfl, rfl⟩) ?_ ?_ (fun _ => trivial) fun _ => trivial
  · exact fun hf => absurd rfl hf.1
  · exact fun hf => absurd rfl hf.2

/-- The first entry that is left to be stored is where the snapshot or the log ends, or before. -/
theorem Passed.reach {r : Replicator δ} {pre newLogs : List (LogEntry δ)} (hpassed : Passed r pre)
    (hcont : Contiguous r.lastIncludedIndex r.logStore) (hruns : Runs (prev + 1) (pre ++ newLogs))
    (hprev : prev ≤ r.lastIncludedIndex ∨ ∃ e, r.logStore.getLog prev = .ok e) :
    prev + 1 + pre.length ≤ r.lastIncludedIndex + 1 ∨ prev + 1 + pre.length ≤ r.logStore.last + 1 := by
  have hend : ∀ k e, r.logStore.getLog k = .ok e → k ≤ r.lastIncludedIndex ∨ k ≤ r.logStore.last := by
    intro k e hget
    rcases Nat.lt_or_ge r.lastIncludedIndex k with hlt | hge
    · exact .inr (hcont.own k e hlt (getLog_eq_ok.mp hget).2).2
    · exact .inl hge
  rcases List.eq_nil_or_concat pre with rfl | ⟨front, e, rfl⟩
  · rcases hprev with hlow | ⟨e, he⟩
    · exact .inl (Nat.succ_le_succ hlow)
    · exact (hend prev e he).imp Nat.succ_le_succ Nat.succ_le_succ
  · rw [List.concat_eq_append] at hruns hpassed ⊢
    have hindex : uint64 e.index = prev + 1 + front.length := by
      refine hruns front.length e ?_
      rw [List.append_assoc, List.getElem?_append_right (Nat.le_refl _), Nat.sub_self]
      rfl
    rw [List.length_append, List.length_singleton]
    rcases Nat.lt_or_ge r.lastIncludedIndex (uint64 e.index) with hlt | hge
    · obtain ⟨existing, hget, -⟩ := hpassed e (List.mem_append_right _ (List.mem_singleton.mpr rfl)) hlt
      have := hend _ existing hget
      omega
    · omega

/-- What the store calls of the handler leave where their writes come back without an error: a log
that the request is merged into, or a refusal before anything was stored. -/
theorem appendNew_merges (hcont : Contiguous n.mem.lastIncludedIndex n.mem.logStore)
    (hruns : Runs (prev + 1) entries) (hexact : Exact entries)
    (hprev : prev ≤ n.mem.lastIncludedIndex ∨ ∃ e, n.mem.logStore.getLog prev = .ok e) :
    Meets Fate.fine (appendNew (n.mem.scan entries)) n
      (fun err n' => err ≠ none ∧ n' = n ∨ err = none ∧ n'.mem.lastIncludedIndex = n.mem.lastIncludedIndex ∧
          Merges n.mem.lastIncludedIndex n.mem.logStore prev entries n'.mem.logStore ∧
          (n' = n ∨ ∃ last, n'.mem.logStore.lastIndexAndTerm = .ok last)) fun _ => True := by
  have hscan := scan_spec n.mem entries
  -- a written log, given that it was written where the request asks for it
  have hwritten : ∀ {pre newLogs : List (LogEntry δ)} {s' : FileLogStore δ}, entries = pre ++ newLogs →
      Passed n.mem pre → Written n.mem.logStore (prev + 1 + pre.length) newLogs s' →
      n.mem.lastIncludedIndex < prev + 1 + pre.length →
      (n.mem.logStore.last < prev + 1 + pre.length ∨ ∃ x ∈ newLogs, uint64 x.index = prev + 1 + pre.length ∧
        ∃ old, n.mem.logStore.getLog (prev + 1 + pre.length) = .ok old ∧ old.term ≠ x.term) →
      Merges n.mem.lastIncludedIndex n.mem.logStore prev entries s' := by
    rintro pre newLogs s' rfl hpassed hw hbase hconflict
    refine hw.merged hpassed hcont hexact (fun e he => ?_) (by omega) hbase
      (hpassed.reach hcont hruns hprev) hconflict
    obtain ⟨k, hk⟩ := List.mem_iff_getElem?.mp he
    have hlt := (List.getElem?_eq_some_iff.mp hk).1
    rw [hruns k e ((List.getElem?_append_left hlt).trans hk)]
    omega
  cases hm : n.mem.scan entries with
  | upToDate =>
    rw [hm] at hscan
    exact meets_pure (.inr ⟨rfl, rfl, merged_upToDate hscan hcont hexact, .inl rfl⟩)
  | append newLogs =>
    rw [hm] at hscan
    obtain ⟨pre, hsplit, hpassed, e, rest, rfl, hbase, hmissing⟩ := hscan
    have hnew : Runs (prev + 1 + pre.length) (e :: rest) := Runs.append (hsplit ▸ hruns)
    have hindex := (runs_cons.mp hnew).1
    rcases Nat.lt_or_ge n.mem.logStore.compactedUntil (uint64 e.index) with habove | hcomp
    · have hnone : n.mem.logStore.logs.get (uint64 e.index) = none := by
        cases hget : n.mem.logStore.logs.get (uint64 e.index) with
        | none => rfl
        | some x => exact absurd (getLog_eq_ok.mpr ⟨habove, hget⟩) (hmissing x)
      have hlast : n.mem.logStore.last < prev + 1 + pre.length := by
        refine Nat.lt_of_not_le fun hle => ?_
        obtain ⟨x, hx⟩ := hcont.held _ hbase (hindex ▸ hle)
        cases hnone.symm.trans hx
      have hw := written_behind hnew (List.cons_ne_nil e rest) (hindex ▸ habove) hlast fun k x hk => by
        refine Nat.lt_of_not_le fun hle => ?_
        have := (hcont.own k x (by omega) hk).2
        omega
      refine (storeLogs_done fun x hx => ?_).weaken ?_
      · have := (hnew.index hx).1
        omega
      · rintro err n' ⟨rfl, rfl⟩
        exact .inr ⟨rfl, rfl, hwritten hsplit hpassed hw (hindex ▸ hbase) (.inl hlast), .inr hw.lastIndexAndTerm⟩
    · exact (storeLogs_refused hcomp).weaken fun err n' h => .inl h
  | conflict c newLogs =>
    rw [hm] at hscan
    obtain ⟨pre, hsplit, hpassed, e, rest, rfl, rfl, hbase, old, hget, hterm⟩ := hscan
    have hnew : Runs (prev + 1 + pre.length) (e :: rest) := Runs.append (hsplit ▸ hruns)
    have hindex := (runs_cons.mp hnew).1
    obtain ⟨habove, hheld⟩ := getLog_eq_ok.mp hget
    have hlast := (hcont.own _ old hbase hheld).2
    cases hd : n.mem.logStore.deleteRange (uint64 e.index) none with
    | none =>
      have := deleteRange_suffix_none hd
      omega
    | some cut =>
      have hw : Written n.mem.logStore (prev + 1 + pre.length) (e :: rest) ((e :: rest).foldl place cut) :=
        written_cut hcont (hindex ▸ hbase) (hindex ▸ habove) (hindex ▸ hd) hnew (List.cons_ne_nil e rest)
      refine (deleteRange_done hd).bind ?_
      rintro err m ⟨rfl, rfl⟩
      refine (storeLogs_done fun x hx => ?_).weaken ?_
      · have hx' := (hnew.index hx).1
        have huntil := (deleteRange_suffix habove hd).1
        show cut.compactedUntil < uint64 x.index
        omega
      · rintro err n' ⟨rfl, rfl⟩
        refine .inr ⟨rfl, rfl, hwritten hsplit hpassed hw (hindex ▸ hbase) (.inr ?_), .inr hw.lastIndexAndTerm⟩
        exact ⟨e, List.mem_cons_self, hindex, old, hindex ▸ hget, hterm⟩

/-- The rest of the handler leaves the log alone, and replies failure only where the log cannot name its
last entry. -/
theorem followCommit_spec {ok : Fate → Prop} (M : Machine δ σ) (req : AppendEntriesRequest δ) :
    Meets ok (followCommit M req) n (fun reply n' => (n'.mem.logStore = n.mem.logStore ∧ n'.disk.wal = n.disk.wal ∧
          n'.mem.lastIncludedIndex = n.mem.lastIncludedIndex) ∧
        (reply.success = true ∨ ∃ err, n.mem.logStore.lastIndexAndTerm = .error err)) fun _ => True := by
  refine meets_read_bind ?_
  cases n.mem.logStore.lastIndexAndTerm with
  | error err => exact meets_pure ⟨⟨rfl, rfl, rfl⟩, .inr ⟨err, rfl⟩⟩
  | ok last =>
    refine meets_ite (fun _ => meets_update_bind (meets_bind ?_)) fun _ => meets_pure ⟨⟨rfl, rfl, rfl⟩, .inl rfl⟩
    refine (applyLogs_applyEffects M).imp (fun _ m h => meets_pure ⟨?_, .inl rfl⟩) fun _ _ => trivial
    exact ⟨h.log_eq.1, h.log_eq.2, congrArg (·.lastIncludedIndex) h.rest.1⟩

end Calls

end Merging

/-! ## The handler -/

section Handler

attribute [local instance] Conv.go

/-- A request of the kind a leader makes, in the integers of the wire: its entries follow the one it
names. -/
structure Chained (req : AppendEntriesRequest δ) : Prop where
  prev_nonneg : 0 ≤ req.prevLogIndex
  prev_lt : req.prevLogIndex < 2 ^ 63
  consecutive : ∀ entries, req.entries = some entries →
    (∀ (k : Nat) e, entries[k]? = some e → e.index = req.prevLogIndex + 1 + k) ∧
      req.prevLogIndex + entries.length < 2 ^ 63

theorem uint64_of_nonneg {z : Int} (h : 0 ≤ z) (hlt : z < 2 ^ 64) : uint64 z = z.toNat := by
  show (z % 2 ^ 64).toNat = z.toNat
  rw [Int.emod_eq_of_lt h hlt]

theorem Chained.runs {req : AppendEntriesRequest δ} (h : Chained req) {entries : List (LogEntry δ)}
    (hentries : req.entries = some entries) : Runs (req.prevLogIndex.toNat + 1) entries ∧ Exact entries := by
  obtain ⟨hindex, hbound⟩ := h.consecutive entries hentries
  have hprev := h.prev_nonneg
  have hconv : ∀ k e, entries[k]? = some e →
      uint64 e.index = req.prevLogIndex.toNat + 1 + k ∧ e.index = (uint64 e.index : Int) := by
    intro k e hk
    have hlt := (List.getElem?_eq_some_iff.mp hk).1
    rw [hindex k e hk, uint64_of_nonneg (by omega) (by omega)]
    omega
  refine ⟨fun k e hk => (hconv k e hk).1, fun e he => ?_⟩
  obtain ⟨k, hk⟩ := List.mem_iff_getElem?.mp he
  exact (hconv k e hk).2

/-- What the entry before the request's own has to be: the end of the snapshot, or an entry of the log,
with the term the request names. -/
def Replicator.PrevMatches (r : Replicator δ) (req : AppendEntriesRequest δ) : Prop :=
  req.prevLogIndex = r.lastIncludedIndex ∧ req.prevLogTerm = int64 r.lastIncludedTerm ∨
    r.lastIncludedIndex < req.prevLogIndex ∧
      ∃ e, r.logStore.getLog req.prevLogIndex.toNat = .ok e ∧ e.term = req.prevLogTerm

theorem prevMatches_of_mismatch {r : Replicator δ} {req : AppendEntriesRequest δ}
    (hprev : 0 ≤ req.prevLogIndex) (hlt : req.prevLogIndex < 2 ^ 63) (h : r.mismatch req = none) :
    r.PrevMatches req := by
  have hconv := uint64_of_nonneg hprev (by omega)
  obtain ⟨hlow, hprevious⟩ := mismatch_eq_none.mp h
  rw [hconv] at hlow hprevious
  -- what is at or below the request's index converts to itself
  have hsmall : r.lastIncludedIndex % 2 ^ 64 = r.lastIncludedIndex := Nat.mod_eq_of_lt (by omega)
  have hback : int64 r.lastIncludedIndex = (r.lastIncludedIndex : Int) := by
    show (if r.lastIncludedIndex % 2 ^ 64 < 2 ^ 63 then _ else _) = _
    rw [hsmall, if_pos (by omega)]
  rw [hback] at hprevious
  rcases hprevious with hends | ⟨hne, hpos | ⟨e, he, hterm⟩⟩
  · exact .inl hends
  · omega
  · exact .inr ⟨by omega, e, he, hterm⟩

variable {n : Node δ σ} {req : AppendEntriesRequest δ}

/-- What a reply says about the log: success, that the request is merged into it; failure, that nothing
has been done to it. -/
def RepliesTruly (req : AppendEntriesRequest δ) (n : Node δ σ) (reply : AppendEntriesReply) (n' : Node δ σ) :
    Prop :=
  (reply.success = true → ∃ entries, req.entries = some entries ∧ n.mem.PrevMatches req ∧
    n'.mem.lastIncludedIndex = n.mem.lastIncludedIndex ∧
    Merges n.mem.lastIncludedIndex n.mem.logStore req.prevLogIndex.toNat entries n'.mem.logStore) ∧
  (reply.success = false → n'.mem.logStore = n.mem.logStore ∧ n'.disk.wal = n.disk.wal)

theorem acceptEntries_merges (M : Machine δ σ) (hcont : Contiguous n.mem.lastIncludedIndex n.mem.logStore)
    (hreq : Chained req) : Meets Fate.fine (acceptEntries M req) n (RepliesTruly req n) fun _ => True := by
  refine meets_update_bind (meets_read_bind ?_)
  have hfail : ∀ {reply : AppendEntriesReply} {P : Prop}, reply.success = false → reply.success = true → P :=
    fun h h' => absurd (h.symm.trans h') Bool.false_ne_true
  cases hmis : (n.withMem fun r => { r with state := .follower, leaderID := req.leaderID }).mem.mismatch req with
  | some conflict => exact meets_pure ⟨hfail rfl, fun _ => ⟨rfl, rfl⟩⟩
  | none =>
    have hmatch : n.mem.PrevMatches req := prevMatches_of_mismatch hreq.prev_nonneg hreq.prev_lt hmis
    cases hentries : req.entries with
    | none => exact meets_pure ⟨hfail rfl, fun _ => ⟨rfl, rfl⟩⟩
    | some entries =>
      obtain ⟨hruns, hexact⟩ := hreq.runs hentries
      have hprev : req.prevLogIndex.toNat ≤ n.mem.lastIncludedIndex ∨
          ∃ e, n.mem.logStore.getLog req.prevLogIndex.toNat = .ok e := by
        rcases hmatch with ⟨hend, -⟩ | ⟨-, e, he, -⟩
        · exact .inl (by omega)
        · exact .inr ⟨e, he⟩
      refine (appendNew_merges
        (n := n.withMem fun r => { r with state := .follower, leaderID := req.leaderID })
        hcont hruns hexact hprev).bind ?_
      rintro err m (⟨herr, rfl⟩ | ⟨rfl, hbase, hmerged, hlast⟩)
      · cases err with
        | none => exact absurd rfl herr
        | some err => exact meets_pure ⟨hfail rfl, fun _ => ⟨rfl, rfl⟩⟩
      · refine (followCommit_spec M req).weaken ?_
        rintro reply n' ⟨⟨hlog, hwal, hbase'⟩, hsuccess⟩
        refine ⟨fun _ => ⟨entries, hentries, hmatch, hbase'.trans hbase, hlog ▸ hmerged⟩, fun hfalse => ?_⟩
        obtain ⟨err, herr⟩ := hsuccess.resolve_left fun h => hfail hfalse h
        rcases hlast with rfl | ⟨last, hok⟩
        · exact ⟨hlog, hwal⟩
        · cases herr.symm.trans hok

/-- **`HandleAppendEntries` merges exactly.** For a follower whose entries above the snapshot have no gap, a
request whose entries follow the one it names, and writes that return no error. A reply of success means
that the entry before the request's own had the term the request names, and that the log afterwards holds
every entry of the request above the snapshot, is as it was up to the entry the request names, has lost
or replaced an entry only where the request contradicts one at or before it, and has no gap. A reply of
failure leaves the log as it was, in memory and on disk. -/
theorem append_merges_exactly (M : Machine δ σ) (n n' : Node δ σ)
    (hcont : Contiguous n.mem.lastIncludedIndex n.mem.logStore) (req : AppendEntriesRequest δ)
    (hreq : Chained req) (fates : List Fate) (hfates : ∀ f ∈ fates, f.fine) {reply : AppendEntriesReply}
    {err : Option Err} (hrun : (handleAppendEntries M req).run n fates = .back (reply, err) n') :
    (reply.success = true → ∃ entries, req.entries = some entries ∧ n.mem.PrevMatches req ∧
      n'.mem.lastIncludedIndex = n.mem.lastIncludedIndex ∧
      Merges n.mem.lastIncludedIndex n.mem.logStore req.prevLogIndex.toNat entries n'.mem.logStore) ∧
    (reply.success = false → n'.mem.logStore = n.mem.logStore ∧ n'.disk.wal = n.disk.wal) := by
  have hmeets : Meets Fate.fine (handleAppendEntries M req) n
      (fun a n' => (a.1.success = false ∧ n'.logSide = n.logSide) ∨
        ∃ m : Node δ σ, m.logSide = n.logSide ∧ RepliesTruly req m a.1 n')
      fun _ => True := by
    refine meets_read_bind ((handled_cases (fun m a n' => RepliesTruly req m a.1 n') fun m hside => ?_).weaken ?_)
    · have hcont' : Contiguous m.mem.lastIncludedIndex m.mem.logStore := by
        have hbase : m.mem.lastIncludedIndex = n.mem.lastIncludedIndex :=
          congrArg LogSide.lastIncludedIndex hside
        have hlog : m.mem.logStore = n.mem.logStore := congrArg LogSide.logStore hside
        rw [hbase, hlog]
        exact hcont
      exact (acceptEntries_merges M hcont' hreq).bind fun _ _ h => meets_pure h
    · rintro a n' (⟨rfl | ⟨err, rfl⟩, hside⟩ | h)
      · exact .inl ⟨rfl, hside⟩
      · exact .inl ⟨rfl, hside⟩
      · exact .inr h
  rcases hmeets.back hfates hrun with ⟨hfalse, hside⟩ | ⟨m, hside, htrue, hfalse⟩
  · refine ⟨fun h => absurd (hfalse.symm.trans h) Bool.false_ne_true, fun _ => ?_⟩
    exact ⟨congrArg LogSide.logStore hside, congrArg LogSide.wal hside⟩
  · have hlog : m.mem.logStore = n.mem.logStore := congrArg LogSide.logStore hside
    have hwal : m.disk.wal = n.disk.wal := congrArg LogSide.wal hside
    have hbase : m.mem.lastIncludedIndex = n.mem.lastIncludedIndex := congrArg LogSide.lastIncludedIndex hside
    have hterm : m.mem.lastIncludedTerm = n.mem.lastIncludedTerm := congrArg LogSide.lastIncludedTerm hside
    unfold Replicator.PrevMatches at htrue ⊢
    rw [hlog, hbase, hterm] at htrue
    rw [hlog, hwal] at hfalse
    exact ⟨htrue, hfalse⟩

/-- A follower with three entries, the last two of which a new leader never had. -/
def forkedFollower : Node Byte Bytes :=
  (Node.fresh []).withMem fun r =>
    { r with currentTerm := 2, logStore := load (some ⟨0, 0, [⟨1, 1, 7⟩, ⟨2, 1, 8⟩, ⟨3, 1, 9⟩]⟩) }

/-- The new leader's second entry. -/
def forkAppend : AppendEntriesRequest Byte := ⟨2, "b", 1, 1, some [⟨2, 2, 5⟩], 0⟩

theorem append_merges_fork :
    ∃ n' : Node Byte Bytes,
      (handleAppendEntries tape forkAppend).run forkedFollower [] = .back (⟨2, true, 0, 0⟩, none) n' ∧
      Merges 0 forkedFollower.mem.logStore 1 [⟨2, 2, 5⟩] n'.mem.logStore ∧
      n'.mem.logStore.getLog 2 = .ok ⟨2, 2, 5⟩ ∧ n'.mem.logStore.getLog 3 = .error .logNotFound := by
  have hcont : Contiguous forkedFollower.mem.lastIncludedIndex forkedFollower.mem.logStore := by
    have hlogs : ∀ k e, forkedFollower.mem.logStore.logs.get k = some e →
        (k, e) ∈ ([(1, ⟨1, 1, 7⟩), (2, ⟨2, 1, 8⟩), (3, ⟨3, 1, 9⟩)] : List (Nat × LogEntry Byte)) :=
      fun k e h => OrdMap.get_eq_some_iff.mp h
    refine ⟨fun k hk hle => ?_, fun k e hk hget => ?_⟩
    · have hlast : forkedFollower.mem.logStore.last = 3 := rfl
      have hbase : forkedFollower.mem.lastIncludedIndex = 0 := rfl
      obtain rfl | rfl | rfl : k = 1 ∨ k = 2 ∨ k = 3 := by omega
      · exact ⟨_, rfl⟩
      · exact ⟨_, rfl⟩
      · exact ⟨_, rfl⟩
    · have hmem := hlogs k e hget
      simp only [List.mem_cons, Prod.mk.injEq, List.not_mem_nil, or_false] at hmem
      rcases hmem with ⟨rfl, rfl⟩ | ⟨rfl, rfl⟩ | ⟨rfl, rfl⟩
      all_goals exact ⟨rfl, by decide⟩
  have hreq : Chained forkAppend := by
    refine ⟨by decide, by decide, ?_⟩
    rintro entries ⟨⟩
    refine ⟨fun k e hk => ?_, by decide⟩
    cases k with
    | zero =>
      cases hk
      rfl
    | succ k => cases hk
  refine ⟨_, rfl, ?_, rfl, rfl⟩
  obtain ⟨entries, hentries, -, -, hmerges⟩ := (append_merges_exactly tape forkedFollower _ hcont forkAppend hreq
    [] (fun _ hf => nomatch hf) rfl).1 rfl
  cases hentries
  exact hmerges

end Handler

end Sandstore.Raft
