import TenantBilling.Model.Session
import TenantBilling.Model.Signing

/-!
# Webhooks

`app/services/webhook_service.py`, which registers endpoints and writes the outbox
rows of an event, and `app/workers/webhook_worker.py`, which delivers them.
-/

namespace TenantBilling

open Base Orm

/-! ### The service -/

/-- `create_endpoint`: the endpoint and its plaintext secret. -/
def createEndpoint (business : Business) (url : String) : Orm (WebhookEndpoint × String) := do
  let signingSecret ← issue .secret
  let endpoint ← ofDb (← issue (.insertEndpoint business.id url signingSecret))
  pure (endpoint, signingSecret)

/-- `list_endpoints`. -/
def listEndpoints (business : Business) : Orm (List WebhookEndpoint) :=
  select (.activeEndpoints business.id)

/-- `deactivate_endpoint`. -/
def deactivateEndpoint (business : Business) (endpointId : Uuid) :
    Orm (Option WebhookEndpoint) := do
  match ← select (.endpointOf endpointId business.id) with
  | none => pure none
  | some endpoint => do
    -- an attribute that is set to the value it has is not changed
    if endpoint.isActive then touch (.endpoint endpoint.id)
    flush
    pure (some { endpoint with isActive := false })

/-- The outbox row of an event for one endpoint. -/
def newDelivery (eventType : EventType) (payload : Payload) (now : Timestamp)
    (endpoint : WebhookEndpoint) : NewDelivery :=
  { webhookEndpointId := endpoint.id, eventType, payload, status := .pending, attempts := 0,
    nextAttemptAt := some now }

/-- `enqueue_event`: one row for each active endpoint of the business, added to the
session and written out by its next flush. -/
def enqueueEvent (businessId : Uuid) (eventType : EventType) (payload : Payload) : Orm Unit := do
  let endpoints ← select (.activeEndpoints businessId)
  if endpoints.isEmpty then pure ()
  else do
    let now : Timestamp ← issue .clock
    touch (.deliveries (endpoints.map (newDelivery eventType payload now)))

/-! ### The worker -/

variable (crypto : Crypto)

/-- `MAX_ATTEMPTS`. -/
def maxAttempts : ℕ := 5

/-- `BACKOFF_SECONDS`. -/
def backoffSeconds : List ℤ := [1, 5, 25, 125, 625]

/-- The microseconds of a second. -/
def second : ℤ := 1000000

/-- `BACKOFF_SECONDS[min(delivery.attempts, len(BACKOFF_SECONDS) - 1)]`. -/
def backoff (attempts : ℕ) : ℤ := backoffSeconds.getD (min attempts (backoffSeconds.length - 1)) 0

/-- Whether a delivery succeeded, or the error that is recorded. -/
def deliveryError : HttpResult → Option String
  | .response status _ =>
    if 200 ≤ status ∧ status < 300 then none else some ("HTTP " ++ toString status)
  | .timeout => some "delivery timeout"
  | .requestError message => some message
  | .exception message => some message

/-- The headers of a delivery. -/
def deliveryHeaders (eventType : EventType) (signature : String × ℤ) : List (String × String) :=
  [("Content-Type", "application/json"), ("X-Webhook-Timestamp", toString signature.2),
    ("X-Webhook-Signature", signature.1), ("X-Webhook-Event", eventType.name)]

/-- `_deliver`. -/
def deliver (delivery : WebhookDelivery) : Orm Unit := do
  match ← select (.endpointById delivery.webhookEndpointId) with
  | none =>
    touch (.delivery delivery.id
      { status := some .exhausted, lastError := some (some "endpoint not found") })
  | some endpoint => do
    let body := Payload.dumps delivery.payload
    let time : Timestamp ← issue .clock
    let signature := signPayload crypto endpoint.signingSecret.text body (Int.tdiv time second)
    let attempts := delivery.attempts + 1
    let result ← issue (.post delivery.id endpoint.url.text body
      (deliveryHeaders delivery.eventType signature))
    match deliveryError result with
    | none => do
      let now : Timestamp ← issue .clock
      touch (.delivery delivery.id
        { attempts := some attempts, status := some .delivered, deliveredAt := some now })
    | some error =>
      if maxAttempts ≤ attempts then
        touch (.delivery delivery.id
          { attempts := some attempts, status := some .exhausted, lastError := some (some error) })
      else do
        let now : Timestamp ← issue .clock
        touch (.delivery delivery.id
          { attempts := some attempts, lastError := some (some error)
            nextAttemptAt := some (now + backoff attempts * second) })

/-- The loop of `_poll` over the claimed deliveries. -/
def deliverAll : List WebhookDelivery → Orm Unit
  | [] => pure ()
  | delivery :: deliveries => do
    deliver crypto delivery
    deliverAll deliveries

/-- `_poll`: claim up to ten due deliveries and deliver them in one transaction. -/
def poll : Orm Unit := do
  let now : Timestamp ← issue .clock
  let deliveries ← issue (.claimDeliveries now 10)
  deliverAll crypto deliveries
  commit

end TenantBilling
