import Sandstore.Raft.Replication

/-!
# Replication simulates: the follower

`HandleAppendEntries`. A follower compares the entry before the request's own, scans the request for
the first entry it does not hold, cuts its log where that entry contradicts it, stores the rest and
acknowledges the whole. The check makes its log agree with the leader's up to the request
(`Live.consistent`), the scan carries that on to where they part (`Live.scan`), and no committed
entry is ever cut (`SafeTo.below`). The commit index moves to what the leader says, which the
request's own entries reach.
-/

namespace Sandstore.Raft

open Lib Lib.Proc Lib.Consensus

section Following

attribute [local instance] Conv.exact

variable {δ σ : Type} {C : Cluster} {i : NodeId} {H H' : History δ} {n : Node δ σ}
  {src : NodeId} {w : AppendWork δ} {p m : Nat}

/-! ## Where the logs agree -/

/-- A node that gets a work of its own term does not lead in it. -/
theorem Live.not_leader (h : Live C H i n) (hsent : Sent C H src w) (hnode : w.node = i)
    (hterm : w.term = H.term i) : n.mem.state ≠ .leader := by
  intro hleader
  obtain ⟨l, hcrown⟩ := (h.leading hleader).crowned
  obtain ⟨l', hcrown'⟩ := hsent.crowned
  rw [hterm, hcrown] at hcrown'
  have hpeer := hsent.peer
  simp only [peersOf, List.mem_filter, hnode] at hpeer
  cases hcrown'
  simp at hpeer

theorem Live.follow (h : Live C H i n) (hrole : n.mem.state ≠ .leader) (leaderID : NodeId) :
    Live C H i (n.withMem fun r => { r with state := .follower, leaderID := leaderID }) where
  durable := { h.durable with }
  term := h.term
  vote := h.vote
  log := h.log
  included := h.included
  includedTerm := h.includedTerm
  commit := h.commit
  batch := .inl (h.batch.resolve_right fun hleader => hrole hleader.1)
  leading := fun hleader => (nomatch hleader)
  standing := fun hcandidate => (nomatch hcandidate)
  tally := h.tally

theorem termOf_eq_iff {l l' : List (LogEntry δ)} (hl : Numbered l) (hl' : Numbered l') {k k' : Nat}
    {e e' : LogEntry δ} (he : l[k]? = some e) (he' : l'[k']? = some e') :
    (rules C).termOf e = (rules C).termOf e' ↔ e.term = e'.term := by
  have hpos := (hl k e he).2
  have hpos' := (hl' k' e' he').2
  show e.term.toNat = e'.term.toNat ↔ _
  omega

/-- **The consistency check.** Where it passes, the log agrees with the leader's up to there. -/
theorem Live.consistent (hl : Legit C H) (h : Live C H i n) (hslice : Slice (H.reign w.term) w p m)
    (hpass : n.mem.mismatch (w.request src) = none) :
    (H.log i).take p = (H.reign w.term).take p ∧ p ≤ (H.log i).length := by
  have hprev : (w.request src).prevLogIndex = ((p : Nat) : Int) := hslice.prev
  simp only [Replicator.mismatch, h.included, hprev] at hpass
  rw [if_neg (by omega)] at hpass
  cases p with
  | zero => simp
  | succ p =>
    have hne : ¬ ((p + 1 : Nat) : Int) = int64 0 := by
      simp only [int64]
      omega
    rw [if_neg hne, if_pos (by omega)] at hpass
    have hidx : uint64 ((p + 1 : Nat) : Int) = p + 1 := rfl
    rw [hidx] at hpass
    cases hat : (H.log i)[p]? with
    | none =>
      rw [h.spells.getLog_error hat] at hpass
      simp only at hpass
      split at hpass <;> cases hpass
    | some e =>
      rw [h.spells.getLog_ok.mpr hat] at hpass
      simp only at hpass
      split at hpass
      · cases hpass
      next hterm =>
      have hlt : p < (H.reign w.term).length := Nat.lt_of_lt_of_le hslice.le hslice.within
      have hat' : (H.reign w.term)[p]? = some (H.reign w.term)[p] := List.getElem?_eq_getElem hlt
      have hsame : e.term = (H.reign w.term)[p].term := by
        have hprevTerm : (w.request src).prevLogTerm = termBefore (H.reign w.term) (p + 1) := hslice.prevTerm
        rw [not_not.mp hterm, hprevTerm, termBefore, hat']
        rfl
      have hof := (termOf_eq_iff (C := C) h.durable.log.numbered (hl.numbered _) hat hat').mpr hsame
      obtain ⟨hlt', _⟩ := List.getElem?_eq_some_iff.mp hat
      exact ⟨(hl.inv.coherent i).agree (hl.inv.coherentReign _) hat hat' hof, hlt'⟩

/-- What the scan over a request finds, in terms of the log `l` and the leader's log `r`. -/
inductive Merged (l r : List (LogEntry δ)) (m : Nat) : Merge δ → Prop where
  | upToDate (hheld : r.take m <+: l) : Merged l r m .upToDate
  | append (hbehind : l <+: r.take m) : Merged l r m (.append ((r.take m).drop l.length))
  | conflict (q : Nat) (e e' : LogEntry δ) (hq : q < m) (hmine : l[q]? = some e)
      (htheirs : r[q]? = some e') (hne : e.term ≠ e'.term) (hsame : l.take q = r.take q) :
      Merged l r m (.conflict (q + 1) ((r.take m).drop q))

/-- **The scan.** It stops at the first entry the log does not have. -/
theorem Live.scan (hl : Legit C H) (h : Live C H i n) {t : Nat} (hm : m ≤ (H.reign t).length)
    (hp : p ≤ m) (hsame : (H.log i).take p = (H.reign t).take p) (hlen : p ≤ (H.log i).length) :
    Merged (H.log i) (H.reign t) m (n.mem.scan (((H.reign t).take m).drop p)) := by
  -- on what is left of the request
  induction hk : m - p generalizing p with
  | zero =>
    have hpm : p = m := by omega
    subst hpm
    rw [List.drop_of_length_le (by simp)]
    apply Merged.upToDate
    rw [← hsame]
    exact List.take_prefix _ _
  | succ k ih =>
    have hlt : p < (H.reign t).length := by omega
    have hat : (H.reign t)[p]? = some (H.reign t)[p] := List.getElem?_eq_getElem hlt
    have hdrop : ((H.reign t).take m).drop p = (H.reign t)[p] :: ((H.reign t).take m).drop (p + 1) := by
      rw [List.drop_eq_getElem_cons (by simp; omega), List.getElem_take]
    have hidx := (hl.numbered t).index hat
    cases hmine : (H.log i)[p]? with
    | none =>
      have hend : (H.log i).length = p := Nat.le_antisymm (List.getElem?_eq_none_iff.mp hmine) hlen
      have hscan : n.mem.scan (((H.reign t).take m).drop p) =
          .append (((H.reign t).take m).drop (H.log i).length) := by
        rw [hend, hdrop, Replicator.scan, h.included, hidx, if_neg (by omega), h.spells.getLog_error hmine]
      rw [hscan]
      apply Merged.append
      rw [← List.take_of_length_le (Nat.le_of_eq hend), hsame]
      exact List.take_prefix_take_left hp
    | some e =>
      by_cases hterm : e.term = (H.reign t)[p].term
      · have hof := (termOf_eq_iff (C := C) h.durable.log.numbered (hl.numbered _) hmine hat).mpr hterm
        have hnext := (hl.inv.coherent i).agree (hl.inv.coherentReign _) hmine hat hof
        obtain ⟨hlt', _⟩ := List.getElem?_eq_some_iff.mp hmine
        have hscan : n.mem.scan (((H.reign t).take m).drop p) = n.mem.scan (((H.reign t).take m).drop (p + 1)) := by
          rw [hdrop, Replicator.scan, h.included, hidx, if_neg (by omega), h.spells.getLog_ok.mpr hmine]
          simp [hterm]
        rw [hscan]
        exact ih (by omega) hnext hlt' (by omega)
      · have hscan : n.mem.scan (((H.reign t).take m).drop p) = .conflict (p + 1) (((H.reign t).take m).drop p) := by
          rw [hdrop, Replicator.scan, h.included, hidx, if_neg (by omega), h.spells.getLog_ok.mpr hmine]
          simp [hterm]
        rw [hscan]
        exact .conflict p e _ (by omega) hmine hat hterm hsame

/-- The log of `i` has what a work of its term brings, and `i` has said so. -/
structure Held (H : History δ) (i : NodeId) (m : Nat) : Prop where
  held : (H.reign (H.term i)).take m <+: H.log i
  acked : m ≤ H.ack i (H.term i)

/-- A follower's memory, once its log has changed. -/
theorem Live.relog_follower {n' : Node δ σ} (h : Live C H i n) (hrole : n.mem.state = .follower)
    (hm : Moved C i H H') (hl : Legit C H) (hterm : H'.term i = H.term i)
    (hballot : ∀ t, H'.ballot i t = H.ballot i t) (hdurable : Durable C H' i n')
    (hlog : n'.mem.logStore = FileLogStore.load n'.disk.wal)
    (hmem : n'.mem = { n.mem with logStore := n'.mem.logStore })
    (hcommit : SafeTo C H' i n.mem.commitIndex) : Live C H' i n' := by
  apply h.relog hm hl hterm hballot hdurable hlog hmem hcommit
  · apply h.batch.resolve_right
    rw [hrole]
    exact fun hleader => (nomatch hleader.1)
  · rw [hrole]
    exact fun hleader => (nomatch hleader)
  · rw [hrole]
    exact RaftState.noConfusion

/-- A follower acknowledges what it has. -/
theorem Live.acknowledge (hl : Legit C H) (h : Live C H i n) (hrole : n.mem.state = .follower)
    (hm : m ≤ (H.reign (H.term i)).length) (hheld : (H.reign (H.term i)).take m <+: H.log i) :
    ∃ H', Moved C i H H' ∧ H'.term i = H.term i ∧ Held H' i m ∧ Live C H' i n := by
  have hack := Moved.acknowledge hl hm hheld
  have hg := hack.grows hl
  have hdurable := h.durable.grows hg rfl rfl fun _ => rfl
  have hcommit := h.commit.grows hg (List.prefix_refl _)
  refine ⟨_, hack, rfl, ⟨hheld, by simp⟩, ?_⟩
  exact h.relog_follower hrole hack hl rfl (fun _ => rfl) hdurable h.log rfl hcommit

/-- Storing the rest of what the leader sent. -/
theorem sim_storeRest (hl : Legit C H) (h : Live C H i n) (hrole : n.mem.state = .follower)
    (hm : m ≤ (H.reign (H.term i)).length) (hbehind : H.log i <+: (H.reign (H.term i)).take m) :
    Sim C i H (storeLogs (((H.reign (H.term i)).take m).drop (H.log i).length)) n fun err H' n' =>
      err = none ∧ H'.term i = H.term i ∧ Held H' i m ∧ n'.mem.state = .follower := by
  have hwhole : H.log i ++ ((H.reign (H.term i)).take m).drop (H.log i).length = (H.reign (H.term i)).take m := by
    obtain ⟨rest, hrest⟩ := hbehind
    rw [← hrest, List.drop_left]
  have hnumbered : Numbered (H.log i ++ ((H.reign (H.term i)).take m).drop (H.log i).length) := by
    rw [hwhole]
    exact (hl.numbered _).take m
  have hstore := Moved.store hl hbehind
  have hg := hstore.grows hl
  obtain ⟨hdurable, hload⟩ := h.durable_stored hstore hl rfl (fun _ => rfl)
    ((Function.update_self ..).trans hwhole.symm) hnumbered
  have hcommit : SafeTo C _ i n.mem.commitIndex := h.commit.grows hg (by simpa using hbehind)
  have hstored := h.relog_follower hrole hstore hl rfl (fun _ => rfl) hdurable hload rfl hcommit
  obtain ⟨H', hack, hterm, hheld, hlive⟩ := hstored.acknowledge hstore.legit hrole hm (by simp)
  exact sim_storeLogs hl h hnumbered (hstore.trans hack) hlive ⟨rfl, hterm, hheld, hrole⟩

/-- A commit index never passes the point where the leader of the term contradicts the log. -/
theorem SafeTo.agrees {c : Nat} (hl : Legit C H) (h : SafeTo C H i c) (hcrown : H.crown (H.term i) ≠ none) :
    (H.log i).take c = (H.reign (H.term i)).take c := by
  rcases h.settled with rfl | ⟨t, k, hcommitted, hck, ht, hsame⟩
  · simp
  · have hpre := hcommitted.prefix_reign hl.inv ht hcrown
    have hlen := hcommitted.le_length
    have htake := take_stable hpre (k := c) (by simp; omega)
    rw [hsame, htake, List.take_take, Nat.min_eq_left hck]

theorem SafeTo.below {c q : Nat} {e e' : LogEntry δ} (hl : Legit C H) (h : SafeTo C H i c)
    (hcrown : H.crown (H.term i) ≠ none) (hmine : (H.log i)[q]? = some e)
    (htheirs : (H.reign (H.term i))[q]? = some e') (hne : e.term ≠ e'.term) : c ≤ q := by
  by_contra hgt
  have hq : q < c := Nat.not_le.mp hgt
  have hat : ((H.log i).take c)[q]? = some e := by
    rw [List.getElem?_take, if_pos hq]
    exact hmine
  rw [h.agrees hl hcrown, List.getElem?_take, if_pos hq, htheirs] at hat
  cases hat
  exact hne rfl

/-- **Cutting the log where the leader contradicts it.** -/
theorem sim_cutLog (hl : Legit C H) (h : Live C H i n) (hrole : n.mem.state = .follower)
    (hcrown : H.crown (H.term i) ≠ none) {q : Nat} {e e' : LogEntry δ} (hmine : (H.log i)[q]? = some e)
    (htheirs : (H.reign (H.term i))[q]? = some e') (hne : e.term ≠ e'.term) :
    Sim C i H (deleteRange (q + 1) none) n fun err H' n' =>
      err = none ∧ H'.term i = H.term i ∧ H'.log i = (H.log i).take q ∧ H'.reign = H.reign ∧
        n'.mem.state = .follower := by
  obtain ⟨hq, _⟩ := List.getElem?_eq_some_iff.mp hmine
  have hkept : FileLogStore.Kept n.mem.logStore := h.log ▸ FileLogStore.kept_load _
  obtain ⟨s, hdelete, hspells⟩ := h.spells.cut hkept hq
  have hne' : (rules C).termOf e ≠ (rules C).termOf e' := fun heq =>
    hne ((termOf_eq_iff (C := C) h.durable.log.numbered (hl.numbered _) hmine htheirs).mp heq)
  have htrim := Moved.trim hl hmine htheirs hne'
  have hg := htrim.grows hl
  have hload := FileLogStore.load_file (hkept.deleteRange hdelete)
  have hdurable : Durable C { H with log := Function.update H.log i ((H.log i).take q) } i
      (n.withLog s).putWal := by
    refine ⟨h.durable.stable, ?_, h.durable.snapshot, ?_⟩
    · show Spells (FileLogStore.load (some s.file)) (Function.update H.log i ((H.log i).take q) i)
      rw [hload, Function.update_self]
      exact hspells
    · intro k data hmem
      obtain ⟨e, hpos, hchosen, hdata⟩ := h.durable.events k data hmem
      exact ⟨e, hpos, hchosen.grows hg, hdata⟩
  have hbelow := h.commit.below hl hcrown hmine htheirs hne
  have hcommit : SafeTo C { H with log := Function.update H.log i ((H.log i).take q) } i
      n.mem.commitIndex := by
    refine ⟨by simpa using ⟨hbelow, h.commit.within⟩, ?_⟩
    rcases h.commit.settled with hzero | ⟨t, k, hcommitted, hck, ht, hsame⟩
    · exact .inl hzero
    · refine .inr ⟨t, k, hcommitted.grows hg, hck, ht, ?_⟩
      simpa [List.take_take, Nat.min_eq_left hbelow] using hsame
  have hlive := h.relog_follower hrole htrim hl rfl (fun _ => rfl) hdurable hload.symm rfl hcommit
  have hold : Durable C H i (n.withLog s) := { h.durable with }
  apply sim_commit hl _ hold htrim hlive.durable
  · exact sim_pure htrim.legit hlive ⟨rfl, rfl, Function.update_self .., rfl, hrole⟩
  · rw [hdelete]

/-- **The store calls of `HandleAppendEntries`** leave the log with all that was sent. -/
theorem sim_appendNew (hl : Legit C H) (h : Live C H i n) (hrole : n.mem.state = .follower)
    (hcrown : H.crown (H.term i) ≠ none) (hm : m ≤ (H.reign (H.term i)).length) {merge : Merge δ}
    (hmerged : Merged (H.log i) (H.reign (H.term i)) m merge) : Sim C i H (appendNew merge) n fun err H' n' =>
      err = none ∧ H'.term i = H.term i ∧ Held H' i m ∧ n'.mem.state = .follower := by
  cases hmerged with
  | upToDate hheld =>
    obtain ⟨H', hack, hterm, hheld', hlive⟩ := h.acknowledge hl hrole hm hheld
    exact Sim.after hack (sim_pure hack.legit hlive ⟨rfl, hterm, hheld', hrole⟩)
  | append hbehind => exact sim_storeRest hl h hrole hm hbehind
  | conflict q e e' hq hmine htheirs hne hsame =>
    apply sim_bind (sim_cutLog hl h hrole hcrown hmine htheirs hne)
    intro err H' n' hl' h' _ ⟨hnone, hterm, hlog, hreign, hrole'⟩
    subst hnone
    obtain ⟨hlt, _⟩ := List.getElem?_eq_some_iff.mp hmine
    have hlen : (H'.log i).length = q := by
      rw [hlog, List.length_take]
      omega
    have hbehind : H'.log i <+: (H'.reign (H'.term i)).take m := by
      rw [hlog, hsame, hreign, hterm]
      exact List.take_prefix_take_left (Nat.le_of_lt hq)
    have hstore := sim_storeRest hl' h' hrole' (by rwa [hreign, hterm]) hbehind
    rw [hlen, hreign, hterm] at hstore
    exact hstore

/-! ## The follower's commit index -/

/-- The leader's commit index is safe on a log that has what came with it. -/
theorem Sent.safeTo (hl : Legit C H) (hsent : Sent C H src w) (hterm : w.term = H.term i)
    (hslice : Slice (H.reign w.term) w p m) (hheld : Held H i m) : SafeTo C H i w.commitIndex := by
  rw [hterm] at hslice
  have hm := hheld.held.length_le
  rw [List.length_take, Nat.min_eq_left hslice.within] at hm
  refine ⟨hslice.commit.trans hm, ?_⟩
  rcases hsent.commit with hzero | ⟨t, k, hcommitted, hck, ht⟩
  · exact .inl hzero
  · refine .inr ⟨t, k, hcommitted, hck, hterm ▸ ht, ?_⟩
    obtain ⟨l, hcrown⟩ := hsent.crowned
    have hcrowned : H.crown (H.term i) ≠ none := by
      rw [← hterm, hcrown]
      exact Option.some_ne_none _
    have hpre := hcommitted.prefix_reign hl.inv (hterm ▸ ht) hcrowned
    have hlen := hcommitted.le_length
    -- both are the first entries of the leader's log
    calc (H.log i).take w.commitIndex
        = ((H.reign (H.term i)).take m).take w.commitIndex := take_stable hheld.held (by
            rw [List.length_take, Nat.min_eq_left hslice.within]
            exact hslice.commit)
      _ = (H.reign (H.term i)).take w.commitIndex := by
          rw [List.take_take, Nat.min_eq_left hslice.commit]
      _ = ((H.reign t).take k).take w.commitIndex := take_stable hpre (by
            rw [List.length_take, Nat.min_eq_left hlen]
            exact hck)
      _ = (H.reign t).take w.commitIndex := by
          rw [List.take_take, Nat.min_eq_left hck]

theorem sim_followCommit (M : Machine δ σ) (hl : Legit C H) (h : Live C H i n) (hsent : Sent C H src w)
    (hterm : w.term = H.term i) (hslice : Slice (H.reign w.term) w p m) (hheld : Held H i m) :
    Sim C i H (followCommit M (w.request src)) n fun reply H' _ => reply.success = true ∧ m ≤ H'.ack i w.term := by
  have hacked : m ≤ H.ack i w.term := hterm ▸ hheld.acked
  have hsafe := hsent.safeTo hl hterm hslice hheld
  apply sim_read_bind
  rw [h.spells.lastIndexAndTerm]
  apply sim_ite
  · intro _
    have htarget : n.mem.commitTarget (uint64 (w.request src).leaderCommit) (H.log i).length = w.commitIndex := by
      have hcommit : uint64 (w.request src).leaderCommit = w.commitIndex := rfl
      have hwithin := hsafe.within
      simp only [Replicator.commitTarget, hcommit, h.included, if_neg (Nat.not_lt.mpr hwithin),
        if_neg (Nat.not_lt_zero _)]
    have hlive : Live C H i (n.withMem fun r =>
        { r with commitIndex :=
          r.commitTarget (uint64 (w.request src).leaderCommit) (H.log i).length }) := by
      refine { h with durable := { h.durable with }, commit := ?_ }
      show SafeTo C H i (n.mem.commitTarget _ _)
      rw [htarget]
      exact hsafe
    apply sim_update_bind
    apply sim_bind (sim_applyLogs M hl hlive)
    intro _ H' n' hl' h' hm _
    exact sim_pure hl' h' ⟨rfl, hacked.trans ((hm.grows hl).ack _ _)⟩
  · exact fun _ => sim_pure hl h ⟨rfl, hacked⟩

/-- The part of `HandleAppendEntries` after the terms have been compared. It fails on a mismatch and
on nothing else. -/
theorem sim_acceptEntries (M : Machine δ σ) (hl : Legit C H) (h : Live C H i n) (hsent : Sent C H src w)
    (hnode : w.node = i) (hterm : w.term = H.term i) (hslice : Slice (H.reign w.term) w p m) :
    Sim C i H (acceptEntries M (w.request src)) n fun reply H' _ => (reply.success = true → m ≤ H'.ack i w.term) ∧
        (reply.success = false → ∃ t, n.mem.mismatch (w.request src) = some (reply.conflictIndex, t)) := by
  have hfollow := h.follow (h.not_leader hsent hnode hterm) src
  obtain ⟨l, hcrown⟩ := hsent.crowned
  have hcrowned : H.crown (H.term i) ≠ none := by
    rw [← hterm, hcrown]
    exact Option.some_ne_none _
  apply sim_update_bind
  apply sim_read_bind
  split
  · next c t hfound => exact sim_pure hl hfollow ⟨fun hsuccess => (nomatch hsuccess), fun _ => ⟨t, hfound⟩⟩
  next hpass =>
  obtain ⟨hsame, hlen⟩ := hfollow.consistent hl hslice hpass
  have hentries : (w.request src).entries = some (((H.reign w.term).take m).drop p) := congrArg some hslice.entries
  rw [hentries]
  have hmerged := hfollow.scan hl hslice.within hslice.le hsame hlen
  have hm := hslice.within
  rw [hterm] at hmerged hm
  have happend := sim_appendNew hl hfollow rfl hcrowned hm hmerged
  rw [← hterm] at happend
  apply sim_bind happend
  intro err H' n' hl' h' hmoved ⟨hnone, hterm', hheld, _⟩
  subst hnone
  have hg := hmoved.grows hl
  have hsame' : w.term = H'.term i := hterm'.symm
  apply Sim.imp (sim_followCommit M hl' h' (hsent.grows hg) hsame' (hslice.grows (hg.reign _)) hheld)
  intro reply _ _ ⟨hsuccess, hack⟩
  refine ⟨fun _ => hack, fun hfailed => ?_⟩
  rw [hsuccess] at hfailed
  cases hfailed

theorem Slice.newMatchIndex {r : List (LogEntry δ)} (h : Slice r w p m) (hr : Numbered r) : w.newMatchIndex = m := by
  have hle := h.le
  have hwithin := h.within
  rw [AppendWork.newMatchIndex, h.entries, List.getLast?_drop, List.length_take, Nat.min_eq_left hwithin]
  by_cases hpm : m ≤ p
  · rw [if_pos hpm, h.prev]
    show p = m
    omega
  · rw [if_neg hpm]
    cases m with
    | zero => omega
    | succ m =>
      have hat : (r.take (m + 1)).getLast? = some r[m] := by
        rw [List.getLast?_eq_getElem?, List.length_take, Nat.min_eq_left hwithin, List.getElem?_take,
          if_pos (by omega)]
        exact List.getElem?_eq_getElem _
      rw [hat]
      exact hr.index (List.getElem?_eq_getElem _)

/-- **`HandleAppendEntries`.** A successful reply tells of an acknowledgement. -/
theorem sim_handleAppendEntries (M : Machine δ σ) (hl : Legit C H) (h : Live C H i n)
    (hsent : Sent C H src w) (hnode : w.node = i) :
    Sim C i H (handleAppendEntries M (w.request src)) n fun out H' _ =>
      out.1.success = true → w.newMatchIndex ≤ H'.ack i w.term := by
  obtain ⟨p, m, hslice⟩ := hsent.slice
  have hindex := hslice.newMatchIndex (hl.numbered _)
  rw [hindex]
  have hreqTerm : (w.request src).term = ((w.term : Nat) : Int) := rfl
  apply sim_read_bind
  apply sim_ite
  · intro _
    exact sim_pure hl h fun hsuccess => (nomatch hsuccess)
  intro hstale
  apply sim_ite
  · intro hlater
    have hlt : H.term i < w.term := by
      rw [hreqTerm, h.term] at hlater
      exact Int.ofNat_lt.mp hlater
    apply sim_bind (sim_stepDown hl h hlt src)
    intro err H' n' hl' h' hmoved ⟨hnone, hterm, _⟩
    subst hnone
    have hg := hmoved.grows hl
    apply sim_bind (sim_acceptEntries M hl' h' (hsent.grows hg) hnode hterm.symm
      (hslice.grows (hg.reign _)))
    intro reply H'' n'' hl'' h'' _ hpost
    exact sim_pure hl'' h'' hpost.1
  · intro hlater
    have hterm : w.term = H.term i := by
      rw [hreqTerm, h.term] at hlater hstale
      have hle : ¬ H.term i < w.term := fun hlt => hlater (Int.ofNat_lt.mpr hlt)
      have hge : ¬ w.term < H.term i := fun hlt => hstale (Int.ofNat_lt.mpr hlt)
      omega
    apply sim_bind (sim_acceptEntries M hl h hsent hnode hterm hslice)
    intro reply H'' n'' hl'' h'' _ hpost
    exact sim_pure hl'' h'' hpost.1

end Following

end Sandstore.Raft
