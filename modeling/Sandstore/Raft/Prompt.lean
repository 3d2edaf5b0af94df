import Sandstore.Raft.Maximal
import Sandstore.Raft.Safety

/-!
# A node does at once what it can

Two habits of a node, which hold whenever its lock is free. What it knows to be committed it has applied:
wherever the commit index moves, the apply loop runs before the lock is given back, and it ends only at the
commit index or at an index the log does not hold (`Node.Drained`). And a leader has committed all that its
own count allows (`Node.Counted`), which is what `Governed` says of its leaders.

`Prompt` is both. The conditions under which a leader commits all it may hold by themselves in a cluster
without snapshots, and every run of such a cluster leaves its nodes prompt (`run_prompt`).
-/

namespace Sandstore.Raft

open Lib Lib.Proc Lib.Consensus
open FileLogStore

section Prompt

attribute [local instance] Conv.exact

variable {δ σ : Type} {C : Cluster} {i : NodeId} {n n' : Node δ σ} {ok : Fate → Prop}

/-- The apply loop has nothing to do, or nothing to do it with. -/
def Node.Drained (n : Node δ σ) : Prop :=
  n.mem.commitIndex ≤ n.mem.lastApplied ∨ ∃ err, n.mem.logStore.getLog (n.mem.lastApplied + 1) = .error err

/-- A leader has committed all it may. -/
def Node.Counted (C : Cluster) (i : NodeId) (n : Node δ σ) : Prop :=
  n.mem.state = .leader → ∀ c, n.mem.committable i C.nodes c = true → c ≤ n.mem.commitIndex

/-- A node that has done what it can. -/
structure Prompt (C : Cluster) (i : NodeId) (n : Node δ σ) : Prop where
  caught : n.mem.commitIndex ≤ n.mem.lastApplied
  counted : n.Counted C i

/-- Without gaps in the log the apply loop gets to the commit index. -/
theorem Node.Drained.caught {H : History δ} (h : n.Drained) (hlive : Live C H i n) :
    n.mem.commitIndex ≤ n.mem.lastApplied := by
  rcases h with hle | ⟨err, herr⟩
  · exact hle
  · by_contra hlt
    have hwithin := hlive.commit.within
    have hat : (H.log i)[n.mem.lastApplied]? = some (H.log i)[n.mem.lastApplied] :=
      List.getElem?_eq_getElem (by omega)
    rw [hlive.spells.getLog_ok.mpr hat] at herr
    cases herr

theorem caught_of_logSide (hside : n'.logSide = n.logSide) (h : n.mem.commitIndex ≤ n.mem.lastApplied) :
    n'.mem.commitIndex ≤ n'.mem.lastApplied := by
  have hcommit : n'.mem.commitIndex = n.mem.commitIndex := congrArg (·.commitIndex) hside
  have happlied : n'.mem.lastApplied = n.mem.lastApplied := congrArg (·.lastApplied) hside
  omega

/-! ## Applying -/

theorem applyEntry_moves (M : Machine δ σ) (k : Nat) (entry : LogEntry δ) :
    Meets ok (applyEntry M k entry) n (fun _ m => m.mem.lastApplied = k ∧ m.mem.commitIndex = n.mem.commitIndex)
      fun _ => True := by
  have hnotify : ∀ (m : Node δ σ) (index : Int) (err : Option Err), m.mem.lastApplied = k →
      m.mem.commitIndex = n.mem.commitIndex →
      Meets ok (update fun m' : Node δ σ => m'.notify index err) m
        (fun _ m' => m'.mem.lastApplied = k ∧ m'.mem.commitIndex = n.mem.commitIndex) fun _ => True := by
    intro m index err happlied hcommit
    apply meets_update
    have hside := notify_logSide m index err
    exact ⟨(congrArg (·.lastApplied) hside).trans happlied, (congrArg (·.commitIndex) hside).trans hcommit⟩
  apply meets_commit rfl
  · exact hnotify _ _ _ rfl rfl
  · exact fun _ => hnotify _ _ _ rfl rfl
  · exact fun _ => hnotify _ _ _ rfl rfl
  · exact fun _ => trivial
  · exact fun _ => trivial

theorem applyLoop_drained (M : Machine δ σ) (fuel : Nat) :
    ∀ n : Node δ σ, n.mem.commitIndex ≤ n.mem.lastApplied + fuel →
      Meets ok (applyLoop M fuel) n (fun _ m => m.Drained) fun _ => True := by
  induction fuel with
  | zero => exact fun n hfuel => meets_pure (.inl hfuel)
  | succ fuel ih =>
    intro n hfuel
    apply meets_read_bind
    apply meets_ite
    · intro _
      apply meets_ite
      · intro _
        apply meets_update_bind
        apply ih
        show n.mem.commitIndex ≤ n.mem.lastApplied + 1 + fuel
        omega
      · intro _
        cases hget : n.mem.logStore.getLog (n.mem.lastApplied + 1) with
        | error err => exact meets_pure (.inr ⟨err, hget⟩)
        | ok entry =>
          apply meets_bind
          apply (applyEntry_moves M (n.mem.lastApplied + 1) entry).weaken
          intro _ m ⟨happlied, hcommit⟩
          apply ih
          omega
    · intro hdone
      exact meets_pure (.inl (Nat.not_lt.mp hdone))

/-- **The apply loop stops at the commit index**, or at an index the log does not hold. -/
theorem applyLogs_drained (M : Machine δ σ) : Meets ok (applyLogs M) n (fun _ m => m.Drained) fun _ => True := by
  apply meets_read_bind
  apply applyLoop_drained
  omega

/-! ## The sections that move the commit index -/

section Commits

variable (M : Machine δ σ) (hcaught : n.mem.commitIndex ≤ n.mem.lastApplied)

include hcaught

theorem advanceCommitIndex_drained (env : Env) :
    Meets ok (advanceCommitIndex env M) n (fun _ m => m.Drained) fun _ => True := by
  apply meets_read_bind
  split
  · apply meets_ite
    · exact fun _ => meets_pure (.inl hcaught)
    intro _
    split
    · exact meets_update_bind (applyLogs_drained M)
    · exact meets_pure (.inl hcaught)
  · exact meets_pure (.inl hcaught)

theorem handleAppendReply_drained (env : Env) (w : AppendWork δ) (reply : AppendEntriesReply) :
    Meets ok (handleAppendReply env M w reply) n (fun _ m => m.Drained) fun _ => True := by
  have hn : n.Drained := .inl hcaught
  apply meets_read_bind
  apply meets_ite
  · exact fun _ => meets_pure hn
  intro _
  apply meets_ite
  · intro _
    apply meets_bind
    apply Meets.imp (stepDown_civic _ _) _ fun _ _ => trivial
    exact fun _ m hside => meets_pure (.inl (caught_of_logSide hside hcaught))
  intro _
  apply meets_ite
  · intro _
    apply meets_ite
    · exact fun _ => meets_update_bind (advanceCommitIndex_drained M (by exact hcaught) env)
    · exact fun _ => meets_pure hn
  intro _
  apply meets_ite
  · exact fun _ => meets_update (.inl hcaught)
  intro _
  apply meets_ite
  · exact fun _ => meets_update (.inl hcaught)
  · exact fun _ => meets_pure hn

theorem storeLogs_caught (entries : List (LogEntry δ)) :
    Stays ok (fun m : Node δ σ => m.mem.commitIndex ≤ m.mem.lastApplied) (storeLogs entries) n := by
  apply stays_step hcaught
  · intro commit hc
    split at hc
    · cases hc
    · cases hc
      exact hcaught
  · exact fun _ m hm => stays_pure hm

theorem appendNew_caught (merge : Merge δ) :
    Stays ok (fun m : Node δ σ => m.mem.commitIndex ≤ m.mem.lastApplied) (appendNew merge) n := by
  cases merge with
  | upToDate => exact stays_pure hcaught
  | append newLogs => exact storeLogs_caught hcaught newLogs
  | conflict index newLogs =>
    apply stays_bind
    · cases hdelete : n.mem.logStore.deleteRange index none with
      | none => exact meets_quiet (by rw [hdelete]) hcaught
      | some s =>
        apply meets_commit (by rw [hdelete])
        · exact hcaught
        · exact fun _ => hcaught
        · exact fun _ => hcaught
        · exact fun _ => hcaught
        · exact fun _ => hcaught
    · intro err m hm
      cases err with
      | some err => exact stays_pure hm
      | none => exact storeLogs_caught hm newLogs

theorem followCommit_drained (req : AppendEntriesRequest δ) :
    Meets ok (followCommit M req) n (fun _ m => m.Drained) fun _ => True := by
  apply meets_read_bind
  split
  · exact meets_pure (.inl hcaught)
  apply meets_ite
  · exact fun _ => meets_update_bind (meets_bind_pure (applyLogs_drained M))
  · exact fun _ => meets_pure (.inl hcaught)

theorem acceptEntries_drained (req : AppendEntriesRequest δ) :
    Meets ok (acceptEntries M req) n (fun _ m => m.Drained) fun _ => True := by
  apply meets_update_bind
  apply meets_read_bind
  split
  · exact meets_pure (.inl hcaught)
  split
  · exact meets_pure (.inl hcaught)
  apply meets_bind
  apply Meets.imp (appendNew_caught (by exact hcaught) _) _ fun _ _ => trivial
  intro err m hm
  cases err with
  | some err => exact meets_pure (.inl hm)
  | none => exact followCommit_drained M hm req

theorem handleAppendEntries_drained (req : AppendEntriesRequest δ) :
    Meets ok (handleAppendEntries M req) n (fun _ m => m.Drained) fun _ => True := by
  apply meets_read_bind
  apply (handled_cases (fun _ _ m => m.Drained) fun m hside => ?_).weaken
  · rintro _ m (⟨-, hside⟩ | ⟨_, -, hm⟩)
    · exact .inl (caught_of_logSide hside hcaught)
    · exact hm
  · exact meets_bind_pure (acceptEntries_drained M (caught_of_logSide hside hcaught) req)

end Commits

/-! ## The others -/

theorem Stroke.caught {c : Charter δ σ} (hi : c.input.commits = false)
    (h : n.mem.commitIndex ≤ n.mem.lastApplied) (hs : Stroke c n n') : n'.mem.commitIndex ≤ n'.mem.lastApplied := by
  cases hs with
  | log _ hl =>
    cases hl with
    | skip hno | commit _ hno => cases hi.symm.trans hno
    | apply _ _ hno | answer _ _ _ hno => cases hi.symm.trans hno.input
    | refuse _ index err => exact caught_of_logSide (notify_logSide n index (some err)) h
    | adopt index term =>
      simp only [Node.withMem, Replicator.adopt]
      split <;> split <;> omega
    | _ => exact h
  | _ => exact h

/-- **Every critical section leaves a node that has applied what it can.** -/
theorem program_drained (env : Env) (M : Machine δ σ) (input : Input δ)
    (hcaught : n.mem.commitIndex ≤ n.mem.lastApplied) :
    Meets ok (program env M input) n (fun _ m => m.Drained) fun _ => True := by
  by_cases hi : input.commits = false
  · have hkeeps : Stays ok (fun m : Node δ σ => m.mem.commitIndex ≤ m.mem.lastApplied) (program env M input) n :=
      program_keeps env M input hcaught fun _ _ hm hs => hs.caught hi hm
    exact Meets.imp hkeeps (fun _ _ hm => .inl hm) fun _ _ => trivial
  · cases input with
    | appendEntries req => exact meets_bind_pure (handleAppendEntries_drained M hcaught req)
    | appendReply w reply => exact meets_bind_pure (handleAppendReply_drained M hcaught env w reply)
    | _ => exact absurd rfl hi

/-! ## Runs -/

variable {H : History δ} {M : Machine δ σ} {w w' : World δ σ}

/-- All that run have done what they can. -/
def AllPrompt (C : Cluster) (w : World δ σ) : Prop := ∀ i, (w.host i).up = true → Prompt C i (w.node i)

theorem AllPrompt.set (h : AllPrompt C w) (id : NodeId) (up : Bool) (hn : up = true → n.Drained) :
    ∀ i, ((w.set id ⟨n, up⟩).host i).up = true → ((w.set id ⟨n, up⟩).node i).Drained := by
  intro j hup
  by_cases hj : j = id
  · subst hj
    simpa using hn (by simpa [World.set] using hup)
  · have hold : (w.host j).up = true := by simpa [World.set, hj] using hup
    have hdrained : (w.node j).Drained := .inl (h j hold).caught
    simpa [hj] using hdrained

theorem AllPrompt.act (h : AllPrompt C w) {id : NodeId} {input : Input δ} {fates : List Fate}
    {reply : Output → List (Packet δ)} (hs : w.act C M id input fates reply = some w') :
    ∀ i, (w'.host i).up = true → (w'.node i).Drained := by
  apply World.act_cases (fun _ => True) (fun _ _ => trivial) hs
    fun _ hup => program_drained (C.env id) M input (h id hup).caught
  · exact fun out n hn => h.set id true fun _ => hn
  · exact fun n _ => h.set id false fun hup => absurd hup Bool.false_ne_true

/-- **Every move leaves nodes that have applied what they can.** -/
theorem AllPrompt.step (h : AllPrompt C w) {a : Action δ} (hs : w.step C M a = some w') :
    ∀ i, (w'.host i).up = true → (w'.node i).Drained := by
  cases a with
  | restart id =>
    dsimp only [World.step] at hs
    split at hs
    · obtain ⟨n, hr, rfl⟩ := Option.map_eq_some_iff.mp hs
      apply h.set id true
      intro _
      left
      rw [start_eq (reboot_eq hr).1]
      unfold recovered
      dsimp only
      split <;> exact Nat.le_refl _
    · cases hs
  | crash id =>
    cases hs
    exact h.set id false fun hup => absurd hup Bool.false_ne_true
  | own id input fates =>
    dsimp only [World.step] at hs
    split at hs
    · exact h.act hs
    · cases hs
  | broadcast id =>
    dsimp only [World.step] at hs
    split at hs
    · cases hs
      exact fun j hup => .inl (h j hup).caught
    · cases hs
  | deliver k fates =>
    dsimp only [World.step] at hs
    split at hs
    · next packet hk => cases packet <;> exact h.act hs
    · cases hs

/-- Where nothing is compacted, no packet finds its receiver's commit index behind. -/
theorem Accounts.measured (h : Accounts C H w) (hthreshold : C.snapshotThresholdLogs = 0) {packet : Packet δ}
    (hmem : packet ∈ w.net) : packet.Measured C w := by
  have hhonest := h.honest packet hmem
  cases packet with
  | voteReply src dst savedTerm reply =>
    intro hup _
    rw [(h.live dst hup).included]
    exact ⟨Nat.zero_le _, fun hcompacts => absurd hthreshold hcompacts⟩
  | snapshotReply => exact hhonest.elim
  | _ => trivial

/-- **In every run, every node that is up has done what it can.** -/
theorem run_prompt (C : Cluster) (hsize : 2 ≤ C.nodes.length) (hthreshold : C.snapshotThresholdLogs = 0)
    (M : Machine δ σ) (machine : σ) {acts : List (Action δ)} (hfine : ∀ a ∈ acts, a.fine)
    (hrun : exec (World.step C M) (World.init machine) acts = some w) : ∃ H, Accounts C H w ∧ AllPrompt C w := by
  have hinit : AllPrompt C (World.init machine : World δ σ) := fun _ hup => absurd hup Bool.false_ne_true
  have hall : ∃ H, Accounts C H w ∧ Governed C M w ∧ AllPrompt C w := by
    apply exec_along (I := fun w : World δ σ => ∃ H, Accounts C H w ∧ Governed C M w ∧ AllPrompt C w) _ acts
      ⟨State.init, accounts_init machine, governed_init machine, hinit⟩
      (along_of_mem acts _ fun a ha _ => hfine a ha) hrun
    intro w a w' ⟨H, h, hgoverned, hp⟩ ha hs
    obtain ⟨H', _, h'⟩ := h.step hthreshold ha hs
    have hgoverned' := hgoverned.step hsize
      (fun k fates packet _ hk => h.measured hthreshold (List.mem_of_getElem? hk)) hs
    refine ⟨H', h', hgoverned', fun j hup => ⟨(hp.step hs j hup).caught (h'.live j hup), fun hleads => ?_⟩⟩
    exact ((hgoverned'.sworn j hup).office hleads).2.counted
  obtain ⟨H, h, _, hp⟩ := hall
  exact ⟨H, h, hp⟩

end Prompt

end Sandstore.Raft
