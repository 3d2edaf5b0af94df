import Mathlib.Data.Nat.Basic

/-!
# Being sent on to the leader

A mutation that reaches another node than the leader fails there with `ErrNotLeader`, which names the leader. The
client knows a code for that: `Translate` takes the body of a `NOT_LEADER` response for the leader's address, and
`ExecuteMutation` tries again there. But the server's `respond` has no such code to give. Whatever is neither
`ErrAlreadyExists` nor `ErrNotFound` becomes `INTERNAL`, with the error's text for a body.

So **no error of the server is a redirect** (`redirects_iff`), however it is wrapped and whatever address it
carries: it is an ambiguous failure, and `ExecuteMutation` gives the mutation up after one node.
-/

namespace Sandstore.Client.Redirect

/-! ## Errors -/

/-- A Go error: those that somebody looks for, any other, and those that wrap one error or several, in which
`text` is what `Error` returns. -/
inductive GoError where
  | alreadyExists -- inmemoryms.ErrAlreadyExists
  | notFound -- inmemoryms.ErrNotFound
  | deadlineExceeded -- context.DeadlineExceeded
  | canceled -- context.Canceled
  | notLeader (leaderID leaderAddr : String) -- ErrNotLeader
  | other (text : String)
  | wrap (text : String) (err : GoError)
  | join (text : String) (err rest : GoError)
  deriving DecidableEq

namespace GoError

def error : GoError → String
  | alreadyExists => "file exists"
  | notFound => "no such file or directory"
  | deadlineExceeded => "context deadline exceeded"
  | canceled => "context canceled"
  | notLeader leaderID leaderAddr => "node is not the leader. leader is " ++ leaderID ++ " at " ++ leaderAddr
  | other text | wrap text _ | join text _ _ => text

/-- `errors.Is`, for a target that wraps nothing. -/
def is : GoError → (target : GoError) → Bool
  | wrap _ err, target => err.is target
  | join _ err rest, target => err.is target || rest.is target
  | err, target => decide (err = target)

end GoError

/-! ## The server's answer and what the client makes of it -/

inductive SandCode where
  | ok | badRequest | notFound | alreadyExists | notLeader | wrongNode | internal | unavailable
  deriving DecidableEq

def SandCode.text : SandCode → String
  | ok => "OK"
  | badRequest => "BAD_REQUEST"
  | notFound => "NOT_FOUND"
  | alreadyExists => "ALREADY_EXISTS"
  | notLeader => "NOT_LEADER"
  | wrongNode => "WRONG_NODE"
  | internal => "INTERNAL"
  | unavailable => "UNAVAILABLE"

structure Response where
  code : SandCode
  body : String
  deriving DecidableEq

/-- `respond`. Of the data, where there is any, it is given what `json.Marshal` returns. -/
def respond (data : Option (Except GoError String)) : Option GoError → Response
  | some err =>
    let code :=
      if err.is .alreadyExists then .alreadyExists
      else if err.is .notFound then .notFound
      else .internal
    ⟨code, err.error⟩
  | none =>
    match data with
    | none => ⟨.ok, ""⟩
    | some (.error marshalErr) => ⟨.internal, "failed to marshal response: " ++ marshalErr.error⟩
    | some (.ok bytes) => ⟨.ok, bytes⟩

inductive ErrorClass where
  | explicitRejection | ambiguousFailure | transportFailure | semanticError
  deriving DecidableEq

structure SystemError where
  errorClass : ErrorClass
  wrappedErr : GoError
  routingHint : String
  deriving DecidableEq

/-- `DefaultErrorTranslator.Translate`. -/
def translate : Option Response → Option GoError → Option SystemError
  | _, some rawErr =>
    if rawErr.is .deadlineExceeded || rawErr.is .canceled then some ⟨.ambiguousFailure, rawErr, ""⟩
    else some ⟨.transportFailure, rawErr, ""⟩
  | none, none => some ⟨.ambiguousFailure, .other "nil response with no error", ""⟩
  | some resp, none =>
    match resp.code with
    | .ok => none
    | .notFound | .alreadyExists => some ⟨.semanticError, .other ("semantic error: " ++ resp.body), ""⟩
    | .notLeader | .wrongNode => some ⟨.explicitRejection, .other ("explicit rejection: " ++ resp.body), resp.body⟩
    | code => some ⟨.ambiguousFailure, .other ("unknown server error (" ++ code.text ++ "): " ++ resp.body), ""⟩

/-- What a request manager works with, over the state `ρ` of all of it: the router, the network, and the wait
between two attempts, which a context that is done cuts short. -/
structure Surroundings (ρ : Type) where
  getRoute : ρ → Except GoError String
  refresh : ρ → ρ × Option GoError
  invalidate : ρ → String → ρ
  setRouteHint : ρ → String → ρ
  send : ρ → String → ρ × Option Response × Option GoError
  waitForRetryBackoff : ρ → Nat → ρ × Option GoError

section Manager

variable {ρ : Type} (env : Surroundings ρ)

/-- `getRoute` of the request manager. -/
def getRoute (s : ρ) : ρ × Except GoError String :=
  match env.getRoute s with
  | .ok targetAddr => (s, .ok targetAddr)
  | .error err =>
    match env.refresh s with
    | (s, some _) => (s, .error err)
    | (s, none) => (s, env.getRoute s)

/-- The loop of `ExecuteMutation`, with so many attempts left. -/
def attempts : (left attempt : Nat) → (lastErr : Option GoError) → ρ → ρ × Except GoError (Option Response)
  | 0, attempt, lastErr, s =>
    let last := lastErr.getD (.other "%!w(<nil>)")
    (s, .error (.wrap ("mutation failed after " ++ toString attempt ++ " attempts. last error: " ++ last.error) last))
  | left + 1, attempt, _, s =>
    match getRoute env s with
    | (s, .error err) => (s, .error err)
    | (s, .ok targetAddr) =>
      match env.send s targetAddr with
      | (s, rawResp, rawErr) =>
        match translate rawResp rawErr with
        | none => (s, .ok rawResp)
        | some sysErr =>
          match sysErr.errorClass with
          | .semanticError => (s, .ok rawResp)
          | .ambiguousFailure | .transportFailure => (env.invalidate s targetAddr, .error sysErr.wrappedErr)
          | .explicitRejection =>
            let s := if sysErr.routingHint ≠ "" then env.setRouteHint s sysErr.routingHint else (env.refresh s).1
            match env.waitForRetryBackoff s attempt with
            | (s, some err) => (s, .error err)
            | (s, none) => attempts left (attempt + 1) (some sysErr.wrappedErr) s

def executeMutation (s : ρ) : ρ × Except GoError (Option Response) := attempts env 3 0 none s

end Manager

/-! ## No redirect -/

/-- What the client makes of any error of the server. -/
theorem translate_respond (err : GoError) : translate (some (respond none (some err))) none =
    if err.is .alreadyExists || err.is .notFound then some ⟨.semanticError, .other ("semantic error: " ++ err.error), ""⟩
    else some ⟨.ambiguousFailure, .other ("unknown server error (INTERNAL): " ++ err.error), ""⟩ := by
  unfold respond
  dsimp only
  cases err.is .alreadyExists with
  | true => rfl
  | false => cases err.is .notFound <;> rfl

/-- An error that wraps `ErrNotLeader` with an address reaches the client as a redirect to it. -/
def Redirects (err : GoError) : Prop :=
  ∀ leaderID leaderAddr, err.is (.notLeader leaderID leaderAddr) = true → leaderAddr ≠ "" →
    ∃ sysErr, translate (some (respond none (some err))) none = some sysErr ∧
      sysErr.errorClass = .explicitRejection ∧ sysErr.routingHint = leaderAddr

/-- **No error is a redirect**, but those that name no leader. And whoever sends a mutation to a node that answers
with an error ends there: with the response if the error is a semantic one, or else with an error, having dropped
the route. -/
theorem redirects_iff (err : GoError) :
    (Redirects err ↔ ∀ leaderID leaderAddr, err.is (.notLeader leaderID leaderAddr) = true → leaderAddr = "") ∧
    ∀ {ρ : Type} (env : Surroundings ρ) {s s' s'' : ρ} {targetAddr : String},
      getRoute env s = (s', .ok targetAddr) → env.send s' targetAddr = (s'', some (respond none (some err)), none) →
      executeMutation env s =
        if err.is .alreadyExists || err.is .notFound then (s'', .ok (some (respond none (some err))))
        else (env.invalidate s'' targetAddr, .error (.other ("unknown server error (INTERNAL): " ++ err.error))) := by
  constructor
  · constructor
    · intro h leaderID leaderAddr hwraps
      by_contra hnamed
      obtain ⟨sysErr, hsys, hclass, _⟩ := h leaderID leaderAddr hwraps hnamed
      rw [translate_respond] at hsys
      split at hsys <;> (cases hsys; cases hclass)
    · intro h leaderID leaderAddr hwraps hnamed
      exact absurd (h leaderID leaderAddr hwraps) hnamed
  · intro ρ env s s' s'' targetAddr hroute hsend
    have hanswer := translate_respond err
    simp only [executeMutation, attempts, hroute, hsend]
    split at hanswer
    · next hsemantic => rw [hanswer, if_pos hsemantic]
    · next hunknown => rw [hanswer, if_neg hunknown]

/-- What `Commit` of a transaction returns on a node that follows the leader `n2`. -/
def commitOnFollower : GoError :=
  .wrap "consensus commit failed: node is not the leader. leader is n2 at 10.0.0.2:8080"
    (.notLeader "n2" "10.0.0.2:8080")

theorem leader_not_named :
    commitOnFollower.is (.notLeader "n2" "10.0.0.2:8080") = true ∧
    translate (some (respond none (some commitOnFollower))) none =
      some ⟨.ambiguousFailure, .other ("unknown server error (INTERNAL): " ++ commitOnFollower.error), ""⟩ :=
  ⟨by decide, by decide⟩

end Sandstore.Client.Redirect
