import TenantBilling.Model.Webhooks

/-!
# Payments

`app/services/psp_client.py` and `app/services/payment_service.py`.
`TenantBilling.processPayment` is `process_payment`, cut at the comments of its
source into the cache check, the locked insertion of the pending attempt
(`TenantBilling.reserve`), the branch taken on an integrity error
(`TenantBilling.duplicateAttempt`), and the persisting of the outcome
(`TenantBilling.settle`).
-/

namespace TenantBilling

open Base Orm

/-! ### The client of the payment provider -/

/-- `PSPChargeResult`, with the values as the JSON body has them. -/
structure PspChargeResult where
  status : Json
  pspRef : Json
  code : Json

/-- What `charge` makes of the outcome of its request. -/
def chargeResult : HttpResult → Except Exc PspChargeResult
  | .timeout => .error (.psp .timeout)
  | .requestError _ => .error (.psp .networkError)
  | .exception _ => .error (.python "Exception")
  | .response status body =>
    if 400 ≤ status then .error (.psp .networkError)
    else match body with
      | none => .error (.python "JSONDecodeError")
      | some (.obj fields) =>
        match fields.lookup "status" with
        | none => .error (.python "KeyError")
        | some st =>
          let code := Json.get fields "code"
          .ok { status := st, pspRef := Json.get fields "psp_ref"
                code := if code.truthy then code else Json.get fields "failure_code" }
      | some _ => .error (.python "TypeError")

/-- An exception of any kind is raised. -/
def Orm.ofExc {α : Type} : Except Exc α → Orm α
  | .ok a => pure a
  | .error e => raise e

/-- `charge`. -/
def charge (cardToken : String) (amountCents : ℤ) (idempotencyKey : String) :
    Orm PspChargeResult := do
  issue (.sendCharge cardToken amountCents idempotencyKey)
  Orm.ofExc (chargeResult (← issue .awaitCharge))

/-- `type(e).__name__`. -/
def PspError.className : PspError → String
  | timeout => "PSPTimeout"
  | networkError => "PSPNetworkError"

/-- `_failure_code_from_psp_error`. -/
def failureCodeFromPspError (e : PspError) : String :=
  if occursIn "timeout" e.className.toLower then "psp_timeout" else "psp_unavailable"

/-! ### Orchestration -/

variable (crypto : Crypto)

/-- `_hash_request_body`. -/
def hashRequestBody (cardToken : String) : Varchar 64 :=
  (crypto.sha256 ("\x7b\"card_token\": " ++ jsonString cardToken ++ "\x7d")).toVarchar

/-- The lookup by `(invoice_id, idempotency_key)`. -/
def findAttempt (invoiceId : Uuid) (idempotencyKey : String) : Orm (Option PaymentAttempt) :=
  selectAttempt (select (.attemptByKey invoiceId idempotencyKey))

/-- The `except IntegrityError` branch: which of the two unique constraints fired is
read off the text of the error. -/
def duplicateAttempt (invoiceId : Uuid) (idempotencyKey : String) (requestHash : Varchar 64)
    (errorMsg : String) : Orm (PaymentAttempt × Bool) := do
  rollback
  if occursIn onePendingMarker errorMsg then
    raise (.app (.invalidStateTransition "open" "paid"
      (some "another payment attempt is already in progress for this invoice")))
  else
    match ← findAttempt invoiceId idempotencyKey with
    | some winner =>
      if winner.requestHash = requestHash then pure (winner, true)
      else raise (.app .idempotencyConflict)
    | none => raise (.app .idempotencyConflict)

/-- The end of step 4: a single commit and a single refresh. -/
def commitAndRefresh (attempt : PaymentAttempt) : Orm (PaymentAttempt × Bool) := do
  commit
  let attempt ← refreshAttempt attempt.id
  pure (attempt, false)

/-- The payload of `invoice.paid`. -/
def paidPayload (invoiceId : Uuid) (attempt : PaymentAttempt) (result : PspChargeResult) :
    Payload :=
  [("invoice_id", .uuid invoiceId), ("amount_cents", .cents attempt.amountCents.val),
    ("psp_ref", .json result.pspRef)]

/-- The payload of `invoice.payment_failed`. -/
def failedPayload (invoiceId : Uuid) (attempt : PaymentAttempt) (result : PspChargeResult) :
    Payload :=
  [("invoice_id", .uuid invoiceId), ("failure_code", .json result.code),
    ("amount_cents", .cents attempt.amountCents.val)]

/-- The change of the attempt on a success. -/
def succeededChange (result : PspChargeResult) : AttemptChange :=
  { status := some .succeeded, pspRef := some result.pspRef }

/-- The change of the attempt on a decline. -/
def failedChange (result : PspChargeResult) : AttemptChange :=
  { status := some .failed, failureCode := some result.code }

/-- The change of the attempt when the outcome is unknown. -/
def unknownChange (e : PspError) : AttemptChange :=
  { failureCode := some (.str (failureCodeFromPspError e)) }

/-- The success branch after the attempt has been modified: re-lock the invoice, check,
mark it paid and enqueue the event. -/
def payInvoiceRow (business : Business) (invoiceId : Uuid) (attempt : PaymentAttempt)
    (result : PspChargeResult) : Orm Unit := do
  let invoice ← scalarOne (← selectInvoiceForUpdate invoiceId none)
  ofApp (assertTransitionAllowed invoice.state .paid)
  setInvoiceState invoiceId .paid
  enqueueEvent business.id .invoicePaid (paidPayload invoiceId attempt result)

/-- Step 4: resolve the outcome and persist it. -/
def settle (business : Business) (invoiceId : Uuid) (attempt : PaymentAttempt)
    (outcome : Except PspError PspChargeResult) : Orm (PaymentAttempt × Bool) := do
  let attempt ← scalarOne (← selectAttempt (select (.attemptById attempt.id)))
  match outcome with
  | .error e =>
    touch (.attempt attempt.id (unknownChange e))
    commitAndRefresh attempt
  | .ok result =>
    if result.status.eqStr "succeeded" then
      touch (.attempt attempt.id (succeededChange result))
      payInvoiceRow business invoiceId attempt result
      commitAndRefresh attempt
    else
      touch (.attempt attempt.id (failedChange result))
      enqueueEvent business.id .invoicePaymentFailed (failedPayload invoiceId attempt result)
      commitAndRefresh attempt

/-- Step 3: call the provider, no lock held, and go on to step 4; only a `PSPError` is
caught. -/
def chargeAndSettle (business : Business) (invoiceId : Uuid) (cardToken idempotencyKey : String)
    (attempt : PaymentAttempt) : Orm (PaymentAttempt × Bool) := do
  match ← catching (charge cardToken attempt.amountCents.val idempotencyKey) with
  | .ok result => settle business invoiceId attempt (.ok result)
  | .error (.psp e) => settle business invoiceId attempt (.error e)
  | .error e => raise e

/-- The pending attempt that step 2 inserts. -/
def newAttempt (invoice : Invoice) (invoiceId : Uuid) (cardToken idempotencyKey : String) :
    NewAttempt :=
  { invoiceId, idempotencyKey, requestHash := hashRequestBody crypto cardToken, status := .pending,
    amountCents := invoice.totalCents, cardToken }

/-- Step 2 after the lock: insert the pending attempt and commit it. -/
def insertPending (business : Business) (invoiceId : Uuid) (cardToken idempotencyKey : String)
    (invoice : Invoice) : Orm (PaymentAttempt × Bool) := do
  match ←
      catching (flushAttempt (newAttempt crypto invoice invoiceId cardToken idempotencyKey)) with
  | .error (.db (.integrity errorMsg)) =>
    duplicateAttempt invoiceId idempotencyKey (hashRequestBody crypto cardToken) errorMsg
  | .error e => raise e
  | .ok attempt => do
    commit
    chargeAndSettle business invoiceId cardToken idempotencyKey attempt

/-- Step 2: lock the invoice, check its state, insert the pending attempt. -/
def reserve (business : Business) (invoiceId : Uuid) (cardToken idempotencyKey : String) :
    Orm (PaymentAttempt × Bool) := do
  match ← selectInvoiceForUpdate invoiceId (some business.id) with
  | none => raise (.app (.notFound ("Invoice " ++ Uuid.str invoiceId ++ " not found") none))
  | some invoice => do
    ofApp (assertTransitionAllowed invoice.state .paid)
    insertPending crypto business invoiceId cardToken idempotencyKey invoice

/-- `process_payment`: the attempt and whether it is a replayed one. -/
def processPayment (business : Business) (invoiceId : Uuid) (cardToken idempotencyKey : String) :
    Orm (PaymentAttempt × Bool) := do
  match ← findAttempt invoiceId idempotencyKey with
  | some existing =>
    if existing.requestHash ≠ hashRequestBody crypto cardToken then
      raise (.app .idempotencyConflict)
    else pure (existing, true)
  | none => reserve crypto business invoiceId cardToken idempotencyKey

end TenantBilling
