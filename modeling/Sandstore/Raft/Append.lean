import Sandstore.Raft.Effects

/-!
# What `HandleAppendEntries` puts into the log

The scan of a request's entries (`scan_spec`), and the two store calls that follow it: where both
return without an error, the log holds the part of the request the scan passed over, as it did
before, and every entry from there on (`appendNew_spec`), and the file is the log's own.

The entries of a request are taken as a leader sends them, in ascending order. Nothing in the
handler checks that.
-/

namespace Sandstore.Raft

open Lib Lib.Proc
open FileLogStore

variable {δ σ : Type} [Conv]

/-- The part of a request that the scan passes over. -/
def Passed (r : Replicator δ) (pre : List (LogEntry δ)) : Prop :=
  ∀ e ∈ pre, r.lastIncludedIndex < uint64 e.index →
    ∃ existing, r.logStore.getLog (uint64 e.index) = .ok existing ∧ existing.term = e.term

/-- What a decision of the scan says about the request and the log. -/
def Scanned (r : Replicator δ) (entries : List (LogEntry δ)) : Merge δ → Prop
  | .upToDate => Passed r entries
  | .append newLogs => ∃ pre, entries = pre ++ newLogs ∧ Passed r pre ∧
      ∃ e rest, newLogs = e :: rest ∧ r.lastIncludedIndex < uint64 e.index ∧
        ∀ existing, r.logStore.getLog (uint64 e.index) ≠ .ok existing
  | .conflict c newLogs => ∃ pre, entries = pre ++ newLogs ∧ Passed r pre ∧
      ∃ e rest, newLogs = e :: rest ∧ uint64 e.index = c ∧ r.lastIncludedIndex < c ∧
        ∃ existing, r.logStore.getLog c = .ok existing ∧ existing.term ≠ e.term

variable {r : Replicator δ} {pre : List (LogEntry δ)}

theorem Passed.cons {e : LogEntry δ} (he : r.lastIncludedIndex < uint64 e.index →
      ∃ existing, r.logStore.getLog (uint64 e.index) = .ok existing ∧ existing.term = e.term)
    (hpre : Passed r pre) : Passed r (e :: pre) := by
  intro e' he'
  rcases List.mem_cons.mp he' with rfl | he'
  · exact he
  · exact hpre e' he'

theorem Scanned.cons {e : LogEntry δ} {entries : List (LogEntry δ)} (he : r.lastIncludedIndex < uint64 e.index →
      ∃ existing, r.logStore.getLog (uint64 e.index) = .ok existing ∧ existing.term = e.term) {m : Merge δ}
    (h : Scanned r entries m) : Scanned r (e :: entries) m := by
  cases m with
  | upToDate => exact Passed.cons he h
  | append newLogs =>
    obtain ⟨pre, rfl, hpre, hnew⟩ := h
    exact ⟨e :: pre, rfl, hpre.cons he, hnew⟩
  | conflict c newLogs =>
    obtain ⟨pre, rfl, hpre, hnew⟩ := h
    exact ⟨e :: pre, rfl, hpre.cons he, hnew⟩

/-- The scan stops at the first entry that the log lacks or contradicts. -/
theorem scan_spec (r : Replicator δ) (entries : List (LogEntry δ)) : Scanned r entries (r.scan entries) := by
  induction entries with
  | nil => exact fun _ he => nomatch he
  | cons entry entries ih =>
    rw [Replicator.scan]
    by_cases hold : uint64 entry.index ≤ r.lastIncludedIndex
    · rw [if_pos hold]
      exact ih.cons fun h => absurd h (Nat.not_lt.mpr hold)
    · rw [if_neg hold]
      have hnew : r.lastIncludedIndex < uint64 entry.index := Nat.lt_of_not_le hold
      have hnone : Passed r [] := fun _ he => nomatch he
      cases hget : r.logStore.getLog (uint64 entry.index) with
      | error err =>
        refine ⟨[], rfl, hnone, entry, entries, rfl, hnew, ?_⟩
        intro existing hok
        rw [hget] at hok
        cases hok
      | ok existing =>
        dsimp only
        by_cases hterm : existing.term = entry.term
        · rw [if_neg (not_not.mpr hterm)]
          exact ih.cons fun _ => ⟨existing, hget, hterm⟩
        · rw [if_pos hterm]
          exact ⟨[], rfl, hnone, entry, entries, rfl, rfl, hnew, existing, hget, hterm⟩

/-- The scan reads the log store and the compacted prefix, nothing else. -/
theorem scan_congr {r' : Replicator δ} (hlog : r'.logStore = r.logStore)
    (hbase : r'.lastIncludedIndex = r.lastIncludedIndex) (entries : List (LogEntry δ)) :
    r'.scan entries = r.scan entries := by
  induction entries with
  | nil => rfl
  | cons e entries ih => simp only [Replicator.scan, hlog, hbase, ih]

/-- When the consistency check passes. -/
theorem mismatch_eq_none {req : AppendEntriesRequest δ} :
    r.mismatch req = none ↔ r.lastIncludedIndex ≤ uint64 req.prevLogIndex ∧
      (req.prevLogIndex = int64 r.lastIncludedIndex ∧ req.prevLogTerm = int64 r.lastIncludedTerm ∨
        req.prevLogIndex ≠ int64 r.lastIncludedIndex ∧ (req.prevLogIndex ≤ 0 ∨
          ∃ e, r.logStore.getLog (uint64 req.prevLogIndex) = .ok e ∧ e.term = req.prevLogTerm)) := by
  unfold Replicator.mismatch
  split
  · next hlow => simp [Nat.not_le.mpr hlow]
  · next hlow =>
    split
    · next heq =>
      rw [heq] at hlow
      simp [heq, Nat.not_lt.mp hlow]
    · next hne =>
      split
      · next hpos =>
        cases hget : r.logStore.getLog (uint64 req.prevLogIndex) with
        | error _ =>
          dsimp only
          split <;> simp [hne, Int.not_le.mpr hpos]
        | ok e => simp [hne, Nat.not_lt.mp hlow, Int.not_le.mpr hpos]
      · next hpos => simp [hne, Nat.not_lt.mp hlow, Int.not_lt.mp hpos]

/-! ## The store calls -/

section Calls

variable {ok : Fate → Prop} {n : Node δ σ}

/-- A `StoreLogs` that returns no error has placed its entries, and the file is the log's own. -/
theorem storeLogs_spec (entries : List (LogEntry δ)) : Meets ok (storeLogs entries) n
      (fun err n' => err = none → (∀ e ∈ entries, n.mem.logStore.compactedUntil < uint64 e.index) ∧
        n' = (n.withLog (entries.foldl place n.mem.logStore)).putWal) fun _ => True := by
  cases hloop : (n.mem.logStore.storeLoop entries).2 with
  | some err =>
    refine meets_quiet (by rw [hloop]) (meets_pure fun h => ?_)
    rw [hloop] at h
    cases h
  | none =>
    obtain ⟨hfold, habove⟩ := storeLoop_eq_foldl hloop
    refine meets_commit (by rw [hloop]) ?_ ?_ ?_ (fun _ => trivial) fun _ => trivial
    · refine meets_pure fun _ => ⟨habove, ?_⟩
      rw [← hfold]
    all_goals
      intro _
      refine meets_pure fun h => ?_
      rw [hloop] at h
      cases h

/-- A `DeleteRange` that returns no error. -/
theorem deleteRange_spec (min : Nat) (max : Option Nat) : Meets ok (deleteRange min max) n
      (fun err n' => err = none → n.mem.logStore.deleteRange min max = none ∧ n' = n ∨
        ∃ s, n.mem.logStore.deleteRange min max = some s ∧ n' = (n.withLog s).putWal) fun _ => True := by
  cases hd : n.mem.logStore.deleteRange min max with
  | none => exact meets_quiet (by rw [hd]) (meets_pure fun _ => .inl ⟨rfl, rfl⟩)
  | some s =>
    refine meets_commit (by rw [hd]) ?_ ?_ ?_ (fun _ => trivial) fun _ => trivial
    · exact meets_pure fun _ => .inr ⟨s, rfl, rfl⟩
    all_goals exact fun _ => meets_pure fun h => nomatch h

/-- The log after the store calls have returned without an error: nothing, the new entries placed,
or the log cut first and the new entries placed. -/
def Merge.result (s : FileLogStore δ) : Merge δ → FileLogStore δ
  | .upToDate => s
  | .append newLogs => newLogs.foldl place s
  | .conflict c newLogs => newLogs.foldl place ((s.deleteRange c none).getD s)

theorem appendNew_spec (m : Merge δ) : Meets ok (appendNew m) n (fun err n' => err = none → m = .upToDate ∧ n' = n ∨
        m ≠ .upToDate ∧ n' = (n.withLog (m.result n.mem.logStore)).putWal ∧
          ∀ c newLogs, (m = .append newLogs ∨ m = .conflict c newLogs) → ∀ e ∈ newLogs,
            (m.result n.mem.logStore).compactedUntil < uint64 e.index) fun _ => True := by
  cases m with
  | upToDate => exact meets_pure fun _ => .inl ⟨rfl, rfl⟩
  | append newLogs =>
    refine (storeLogs_spec newLogs).weaken fun err n' h herr => ?_
    obtain ⟨habove, rfl⟩ := h herr
    refine .inr ⟨fun h => (nomatch h), rfl, ?_⟩
    rintro c logs (h | h) e he
    · cases h
      rw [Merge.result, foldl_place_compacted.1]
      exact habove e he
    · cases h
  | conflict c newLogs =>
    refine (deleteRange_spec c none).bind ?_
    intro err m hm
    cases err with
    | some err => exact meets_pure fun h => nomatch h
    | none =>
      have hcut : (m.withLog (newLogs.foldl place m.mem.logStore)).putWal =
          (n.withLog (newLogs.foldl place ((n.mem.logStore.deleteRange c none).getD
            n.mem.logStore))).putWal ∧ m.mem.logStore =
          (n.mem.logStore.deleteRange c none).getD n.mem.logStore := by
        rcases hm rfl with ⟨hnone, rfl⟩ | ⟨s, hsome, rfl⟩
        · rw [hnone]
          exact ⟨rfl, rfl⟩
        · rw [hsome]
          exact ⟨rfl, rfl⟩
      refine (storeLogs_spec newLogs).weaken fun err n' h herr => ?_
      obtain ⟨habove, rfl⟩ := h herr
      refine .inr ⟨fun h => (nomatch h), hcut.1, ?_⟩
      rintro c' logs (h | h) e he
      · cases h
      · cases h
        rw [Merge.result, foldl_place_compacted.1, ← hcut.2]
        exact habove e he

/-- After the entries are in the log, only the commit index and what is applied change. -/
theorem followCommit_log (M : Machine δ σ) (req : AppendEntriesRequest δ) :
    Within ok (fun n n' => n'.mem.logStore = n.mem.logStore ∧ n'.disk.wal = n.disk.wal) (followCommit M req) n := by
  refine meets_read_bind ?_
  cases n.mem.logStore.lastIndexAndTerm with
  | error err => exact meets_pure ⟨rfl, rfl⟩
  | ok last =>
    refine meets_ite (fun _ => meets_update_bind (meets_bind ?_)) fun _ => meets_pure ⟨rfl, rfl⟩
    exact (applyLogs_applyEffects M).imp (fun _ _ h => meets_pure h.log_eq) fun _ h => h.log_eq

/-- A successful `HandleAppendEntries`: the store calls of the scan returned without an error, and
nothing touched the log afterwards. -/
theorem acceptEntries_spec (M : Machine δ σ) (req : AppendEntriesRequest δ) : Meets ok (acceptEntries M req) n
      (fun reply n' => reply.success = true → ∃ entries, req.entries = some entries ∧ n.mem.mismatch req = none ∧
        (n.mem.scan entries = .upToDate ∧ n'.mem.logStore = n.mem.logStore ∧ n'.disk.wal = n.disk.wal ∨
          n.mem.scan entries ≠ .upToDate ∧ n'.mem.logStore = (n.mem.scan entries).result n.mem.logStore ∧
            n'.disk.wal = some n'.mem.logStore.file ∧
            ∀ c newLogs, (n.mem.scan entries = .append newLogs ∨ n.mem.scan entries = .conflict c newLogs) →
              ∀ e ∈ newLogs, n'.mem.logStore.compactedUntil < uint64 e.index)) fun _ => True := by
  refine meets_update_bind (meets_read_bind ?_)
  -- becoming a follower changes neither check
  have hmis : (n.withMem fun r => { r with state := .follower, leaderID := req.leaderID }).mem.mismatch
      req = n.mem.mismatch req := rfl
  have hscan : ∀ entries, (n.withMem fun r =>
      { r with state := .follower, leaderID := req.leaderID }).mem.scan entries =
      n.mem.scan entries := scan_congr rfl rfl
  rw [hmis]
  cases n.mem.mismatch req with
  | some conflict => exact meets_pure fun h => nomatch h
  | none =>
    cases req.entries with
    | none => exact meets_pure fun h => nomatch h
    | some entries =>
      dsimp only
      rw [hscan]
      refine (appendNew_spec _).bind ?_
      intro err m hm
      cases err with
      | some err => exact meets_pure fun h => nomatch h
      | none =>
        refine Meets.imp (followCommit_log M req) ?_ fun _ _ => trivial
        rintro reply m' ⟨hlog, hwal⟩ -
        refine ⟨entries, rfl, rfl, ?_⟩
        rcases hm rfl with ⟨hup, rfl⟩ | ⟨hnew, rfl, habove⟩
        · exact .inl ⟨hup, hlog, hwal⟩
        · refine .inr ⟨hnew, hlog, ?_, ?_⟩
          · rw [hwal, hlog]
            rfl
          · rw [hlog]
            exact habove

end Calls

/-! ## The log afterwards -/

/-- What a leader promises of its entries: they ascend, and one that the log holds at the same index
and term is the same entry. -/
structure Promised (s : FileLogStore δ) (entries : List (LogEntry δ)) : Prop where
  ascending : entries.Pairwise fun a b => uint64 a.index < uint64 b.index
  agree : ∀ e ∈ entries, ∀ existing, s.getLog (uint64 e.index) = .ok existing →
    existing.term = e.term → existing = e

/-- A log holds every one of these entries above the compacted prefix. -/
def Holds (s : FileLogStore δ) (lastIncludedIndex : Nat) (entries : List (LogEntry δ)) : Prop :=
  ∀ e ∈ entries, lastIncludedIndex < uint64 e.index → s.getLog (uint64 e.index) = .ok e

theorem Passed.holds (h : Passed r pre)
    (hagree : ∀ e ∈ pre, ∀ existing, r.logStore.getLog (uint64 e.index) = .ok existing →
      existing.term = e.term → existing = e) : Holds r.logStore r.lastIncludedIndex pre := by
  intro e he hlt
  obtain ⟨existing, hget, hterm⟩ := h e he hlt
  rw [hget, hagree e he existing hget hterm]

/-- Placing ascending entries keeps what is held below the first of them. -/
theorem holds_foldl_place {s : FileLogStore δ} {lastIncludedIndex : Nat}
    {newLogs : List (LogEntry δ)} (hpre : Holds s lastIncludedIndex pre)
    (hasc : (pre ++ newLogs).Pairwise fun a b => uint64 a.index < uint64 b.index)
    (habove : ∀ e ∈ newLogs, s.compactedUntil < uint64 e.index) :
    Holds (newLogs.foldl place s) lastIncludedIndex (pre ++ newLogs) := by
  obtain ⟨-, hnew, hcross⟩ := List.pairwise_append.mp hasc
  intro e he hlt
  rw [getLog_eq_ok, foldl_place_compacted.1]
  rcases List.mem_append.mp he with he | he
  · obtain ⟨hcomp, hget⟩ := getLog_eq_ok.mp (hpre e he hlt)
    refine ⟨hcomp, ?_⟩
    rw [get_foldl_place_of_notMem, hget]
    intro e' he'
    have := hcross e he e' he'
    omega
  · refine ⟨habove e he, get_foldl_place_of_mem ?_ he⟩
    exact hnew.imp fun hab => by omega

/-- A cut above the compacted prefix keeps what is held below it. -/
theorem holds_cut {s : FileLogStore δ} {lastIncludedIndex c : Nat} (hpre : Holds s lastIncludedIndex pre)
    (hc : s.compactedUntil < c) (hbelow : ∀ e ∈ pre, uint64 e.index < c) :
    Holds ((s.deleteRange c none).getD s) lastIncludedIndex pre ∧
      ((s.deleteRange c none).getD s).compactedUntil = s.compactedUntil := by
  cases hd : s.deleteRange c none with
  | none => exact ⟨hpre, rfl⟩
  | some s' =>
    obtain ⟨huntil, -, hget⟩ := deleteRange_suffix hc hd
    refine ⟨?_, huntil⟩
    intro e he hlt
    obtain ⟨hcomp, hold⟩ := getLog_eq_ok.mp (hpre e he hlt)
    have hlow := hbelow e he
    rw [Option.getD_some, getLog_eq_ok, huntil, hget, if_neg (by omega)]
    exact ⟨hcomp, hold⟩

/-- The log after the store calls holds the whole request. -/
theorem result_holds {entries : List (LogEntry δ)} (hp : Promised r.logStore entries)
    (habove : ∀ c newLogs, (r.scan entries = .append newLogs ∨ r.scan entries = .conflict c newLogs) →
      ∀ e ∈ newLogs, ((r.scan entries).result r.logStore).compactedUntil < uint64 e.index) :
    Holds ((r.scan entries).result r.logStore) r.lastIncludedIndex entries := by
  have hscan := scan_spec r entries
  cases hm : r.scan entries with
  | upToDate =>
    rw [hm] at hscan
    exact Passed.holds hscan hp.agree
  | append newLogs =>
    rw [hm] at hscan habove
    obtain ⟨pre, rfl, hpre, -⟩ := hscan
    apply holds_foldl_place
    · exact hpre.holds fun e he => hp.agree e (List.mem_append_left _ he)
    · exact hp.ascending
    · intro e he
      have := habove 0 newLogs (.inl rfl) e he
      rwa [Merge.result, foldl_place_compacted.1] at this
  | conflict c newLogs =>
    rw [hm] at hscan habove
    obtain ⟨pre, rfl, hpre, e, rest, rfl, rfl, -, existing, hget, -⟩ := hscan
    obtain ⟨-, -, hcross⟩ := List.pairwise_append.mp hp.ascending
    have hcut := holds_cut (hpre.holds fun e he => hp.agree e (List.mem_append_left _ he))
      (getLog_eq_ok.mp hget).1 fun e' he' => hcross e' he' e List.mem_cons_self
    apply holds_foldl_place hcut.1 hp.ascending
    intro e' he'
    have := habove (uint64 e.index) (e :: rest) (.inr rfl) e' he'
    rwa [Merge.result, foldl_place_compacted.1] at this

end Sandstore.Raft
