import TenantBilling.Model.Schema

/-!
# The invoice state machine and the domain exceptions

`app/services/invoice_state.py` and `app/exceptions.py`: the transition table, the
check that every state change is preceded by, and the exceptions the services
raise, with the messages that reach the client.
-/

namespace TenantBilling

/-- The exceptions of `app/exceptions.py` that the services raise. -/
inductive AppError where
  /-- `NotFoundError`. -/
  | notFound (resource : String) (resourceId : Option Uuid)
  /-- `ConflictError`. -/
  | conflict (message : String)
  /-- `InvalidStateTransition`. -/
  | invalidStateTransition (fromState toState : String) (reason : Option String)
  /-- `IdempotencyConflict`. -/
  | idempotencyConflict
deriving DecidableEq

/-- `str(e)`. -/
def AppError.message : AppError → String
  | notFound resource resourceId =>
    resource ++ " not found" ++ (resourceId.map fun u => ": " ++ Uuid.str u).getD ""
  | conflict message => message
  | invalidStateTransition fromState toState reason =>
    reason.getD ("cannot transition from '" ++ fromState ++ "' to '" ++ toState ++ "'")
  | idempotencyConflict => "Idempotency key reused with different request body"

/-- `TERMINAL_STATES`. -/
def terminalStates : List InvoiceState := [.paid, .void, .uncollectible]

/-- `ALLOWED_TRANSITIONS`. -/
def allowedTransitions : InvoiceState → List InvoiceState
  | .draft => [.open]
  | .open => [.paid, .void, .uncollectible]
  | .paid => []
  | .void => []
  | .uncollectible => []

/-- `assert_transition_allowed`. -/
def assertTransitionAllowed (current target : InvoiceState) : Except AppError Unit :=
  if current ∈ terminalStates then
    .error (.invalidStateTransition current.value target.value
      (some ("invoice is in terminal state '" ++ current.value ++ "'")))
  else if target ∉ allowedTransitions current then
    .error (.invalidStateTransition current.value target.value none)
  else .ok ()

/-- The check passes exactly on the transitions of the table. -/
theorem assertTransitionAllowed_eq_ok {current target : InvoiceState} :
    assertTransitionAllowed current target = .ok () ↔ target ∈ allowedTransitions current := by
  cases current <;> cases target <;> decide

/-- A refusal is always an `InvalidStateTransition` between the two states. -/
theorem assertTransitionAllowed_eq_error {current target : InvoiceState} {e : AppError}
    (h : assertTransitionAllowed current target = .error e) :
    ∃ reason, e = .invalidStateTransition current.value target.value reason := by
  unfold assertTransitionAllowed at h
  split at h
  · exact ⟨_, (Except.error.inj h).symm⟩
  · split at h
    · exact ⟨_, (Except.error.inj h).symm⟩
    · exact absurd h (by simp)

/-- Only an open invoice passes the check that precedes a payment. -/
theorem assertTransitionAllowed_paid {current : InvoiceState} :
    assertTransitionAllowed current .paid = .ok () ↔ current = .open := by
  cases current <;> decide

end TenantBilling
