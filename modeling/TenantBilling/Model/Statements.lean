import TenantBilling.Model.InvoiceState
import Mathlib.Data.List.Sort

/-!
# Statements

What the service sends out and what comes back: the SQL statements of its
sessions, the call of the payment provider, the `POST` of the webhook worker, the
clock and the random source. `TenantBilling.Stmt.Resp` types the answer of each.

A plain `SELECT` is a `TenantBilling.Query`; where it has no `ORDER BY`, or rows
are equal under it, the order is the server's and comes from the environment.
-/

namespace TenantBilling

open Base

/-! ### Plain selects -/

/-- A `SELECT` without a locking clause. -/
inductive Query where
  | attemptByKey (invoiceId : Uuid) (idempotencyKey : String)
  | attemptById (id : Uuid)
  | customer (id businessId : Uuid)
  | countCustomers (businessId : Uuid)
  | listCustomers (businessId : Uuid) (skip limit : ℕ)
  /-- An invoice with its line items (`selectinload`), scoped by business if one is given. -/
  | invoice (id : Uuid) (businessId : Option Uuid)
  | countInvoices (businessId : Uuid) (state : Option InvoiceState)
  | listInvoices (businessId : Uuid) (state : Option InvoiceState) (skip limit : ℕ)
  | activeEndpoints (businessId : Uuid)
  | endpointById (id : Uuid)
  | endpointOf (id businessId : Uuid)

/-- The rows a query returns. -/
def Query.Result : Query → Type
  | attemptByKey .. => Option PaymentAttempt
  | attemptById .. => Option PaymentAttempt
  | customer .. => Option Customer
  | countCustomers .. => ℕ
  | listCustomers .. => List Customer
  | invoice .. => Option (Invoice × List InvoiceLineItem)
  | countInvoices .. => ℕ
  | listInvoices .. => List (Invoice × List InvoiceLineItem)
  | activeEndpoints .. => List WebhookEndpoint
  | endpointById .. => Option WebhookEndpoint
  | endpointOf .. => Option WebhookEndpoint

/-- The rows in the order the server happens to return them. -/
def inServerOrder {ρ : Type} (rank : Uuid → ℕ) (id : ρ → Uuid) (rows : List ρ) : List ρ :=
  rows.insertionSort fun a b => rank (id a) ≤ rank (id b)

/-- `ORDER BY created_at DESC`; equal rows in the order the server happens to
return them. -/
def newestFirst {ρ : Type} (rank : Uuid → ℕ) (id : ρ → Uuid) (createdAt : ρ → Timestamp)
    (rows : List ρ) : List ρ :=
  rows.insertionSort fun a b =>
    createdAt b < createdAt a ∨ createdAt a = createdAt b ∧ rank (id a) ≤ rank (id b)

/-- `OFFSET skip LIMIT limit`. -/
def page {ρ : Type} (skip limit : ℕ) (rows : List ρ) : List ρ := (rows.drop skip).take limit

/-- The invoice belongs to the business, if one is asked for. -/
def Invoice.belongsTo (v : Invoice) (businessId : Option Uuid) : Bool :=
  businessId.all fun b => v.businessId = b

namespace Database

variable (db : Database) (rank : Uuid → ℕ)

/-- The customers of a business. -/
def customersOf (businessId : Uuid) : List Customer :=
  db.customers.rows.filter fun c => c.businessId = businessId

/-- The invoices of a business, in one state if one is given. -/
def invoicesOf (businessId : Uuid) (state : Option InvoiceState) : List Invoice :=
  db.invoices.rows.filter fun v => v.businessId = businessId && state.all fun s => v.state = s

/-- The active endpoints of a business. -/
def activeEndpointsOf (businessId : Uuid) : List WebhookEndpoint :=
  db.endpoints.rows.filter fun e => e.businessId = businessId && e.isActive

/-- The attempt on an invoice under an idempotency key. -/
def attemptByKey (invoiceId : Uuid) (idempotencyKey : String) : Option PaymentAttempt :=
  db.attempts.rows.find? fun a => a.invoiceId = invoiceId && a.idempotencyKey.text = idempotencyKey

/-- An invoice together with its line items. -/
def withLineItems (v : Invoice) : Invoice × List InvoiceLineItem :=
  (v, inServerOrder rank InvoiceLineItem.id (db.lineItemsOf v.id))

/-- What a query returns from a database. -/
def eval : (q : Query) → q.Result
  | .attemptByKey invoiceId idempotencyKey => db.attemptByKey invoiceId idempotencyKey
  | .attemptById id => db.attempts.find? id
  | .customer id businessId => (db.customers.find? id).filter fun c => c.businessId = businessId
  | .countCustomers businessId => (db.customersOf businessId).length
  | .listCustomers businessId skip limit =>
    page skip limit (newestFirst rank Customer.id Customer.createdAt (db.customersOf businessId))
  | .invoice id businessId =>
    ((db.invoices.find? id).filter fun v => v.belongsTo businessId).map (db.withLineItems rank)
  | .countInvoices businessId state => (db.invoicesOf businessId state).length
  | .listInvoices businessId state skip limit =>
    (page skip limit (newestFirst rank Invoice.id Invoice.createdAt
      (db.invoicesOf businessId state))).map (db.withLineItems rank)
  | .activeEndpoints businessId =>
    inServerOrder rank WebhookEndpoint.id (db.activeEndpointsOf businessId)
  | .endpointById id => db.endpoints.find? id
  | .endpointOf id businessId =>
    (db.endpoints.find? id).filter fun e => e.businessId = businessId

end Database

/-! ### What is written -/

/-- The values of `Invoice(...)` in `create_invoice`. -/
structure NewInvoice where
  businessId : Uuid
  customerId : Uuid
  state : InvoiceState
  totalCents : ℤ
  dueDate : Option Date

/-- The values of `InvoiceLineItem(...)` in `create_invoice`. -/
structure NewLineItem where
  description : String
  quantity : ℤ
  unitAmountCents : ℤ
  amountCents : ℤ

/-- The values of `PaymentAttempt(...)` in `process_payment`. -/
structure NewAttempt where
  invoiceId : Uuid
  idempotencyKey : String
  requestHash : Varchar 64
  status : PaymentStatus
  amountCents : BigInt
  cardToken : String

/-- The values of `WebhookDelivery(...)` in `enqueue_event`. -/
structure NewDelivery where
  webhookEndpointId : Uuid
  eventType : EventType
  payload : Payload
  status : WebhookDeliveryStatus
  attempts : ℕ
  nextAttemptAt : Option Timestamp

/-- The attributes of an attempt that `process_payment` assigns after the call, as
Python values; `none` is an attribute left alone. -/
structure AttemptChange where
  status : Option PaymentStatus := none
  pspRef : Option Json := none
  failureCode : Option Json := none

/-- The same change as column values. -/
structure AttemptUpdate where
  status : Option PaymentStatus
  pspRef : Option (Option (Varchar 100))
  failureCode : Option (Option (Varchar 50))

/-- The attributes of a delivery that the worker assigns. -/
structure DeliveryChange where
  status : Option WebhookDeliveryStatus := none
  attempts : Option ℕ := none
  nextAttemptAt : Option Timestamp := none
  lastError : Option (Option String) := none
  deliveredAt : Option Timestamp := none

/-- The same change as column values. -/
structure DeliveryUpdate where
  status : Option WebhookDeliveryStatus
  attempts : Option ℕ
  nextAttemptAt : Option Timestamp
  lastError : Option (Option (Varchar 2000))
  deliveredAt : Option Timestamp

/-! ### Errors of the database and the outside -/

/-- An error the driver raises for a statement. -/
inductive DbError where
  /-- A text with `U+0000`. -/
  | characterNotInRepertoire
  /-- A text too long for its column. -/
  | stringDataRightTruncation
  /-- A number out of the range of its column. -/
  | numericValueOutOfRange
  /-- A value that is not a text for a text column. -/
  | invalidParameter
  /-- `IntegrityError`, with `str(e.orig)`. -/
  | integrity (errorMsg : String)
  /-- The deadlock detector aborted the transaction. -/
  | deadlockDetected
deriving DecidableEq

/-- What came of `await client.post(...)`. -/
inductive HttpResult where
  /-- `httpx.TimeoutException`. -/
  | timeout
  /-- Any other `httpx.RequestError`. -/
  | requestError (message : String)
  /-- Any other exception. -/
  | exception (message : String)
  /-- A response; the body is `none` if it is not JSON. -/
  | response (status : ℕ) (body : Option Json)

/-! ### Statements -/

/-- A statement of a session, or a call to the outside. -/
inductive Stmt where
  | select (q : Query)
  /-- `SELECT … FROM invoices WHERE id = … [AND business_id = …] FOR UPDATE`. -/
  | lockInvoice (id : Uuid) (businessId : Option Uuid)
  /-- The claim query of the worker, `FOR UPDATE SKIP LOCKED`. -/
  | claimDeliveries (now : Timestamp) (limit : ℕ)
  | insertCustomer (businessId : Uuid) (name email : String)
  | insertInvoice (new : NewInvoice)
  | insertLineItems (invoiceId : Uuid) (new : List NewLineItem)
  | insertAttempt (new : NewAttempt)
  | insertEndpoint (businessId : Uuid) (url signingSecret : String)
  | insertDeliveries (new : List NewDelivery)
  /-- `UPDATE invoices SET state = … WHERE id = …`. -/
  | updateInvoice (id : Uuid) (state : InvoiceState)
  | updateAttempt (id : Uuid) (change : AttemptChange)
  | deactivateEndpoint (id : Uuid)
  | updateDelivery (id : Uuid) (change : DeliveryChange)
  | commit
  | rollback
  /-- Sending the charge request to the payment provider. -/
  | sendCharge (cardToken : String) (amountCents : ℤ) (idempotencyKey : String)
  /-- Waiting for its outcome. -/
  | awaitCharge
  /-- The `POST` of a delivery. The request does not carry the delivery's id. -/
  | post (deliveryId : Uuid) (url body : String) (headers : List (String × String))
  /-- `datetime.now(timezone.utc)`. -/
  | clock
  /-- `secrets.token_urlsafe(32)`. -/
  | secret

/-- The answer to a statement. -/
def Stmt.Resp : Stmt → Type
  | select q => q.Result
  | lockInvoice .. => Except DbError (Option Invoice)
  | claimDeliveries .. => List WebhookDelivery
  | insertCustomer .. => Except DbError Customer
  | insertInvoice .. => Except DbError Invoice
  | insertLineItems .. => Except DbError Unit
  | insertAttempt .. => Except DbError PaymentAttempt
  | insertEndpoint .. => Except DbError WebhookEndpoint
  | insertDeliveries .. => Except DbError Unit
  | updateInvoice .. => Except DbError Unit
  | updateAttempt .. => Except DbError Unit
  | deactivateEndpoint .. => Except DbError Unit
  | updateDelivery .. => Except DbError Unit
  | commit => Unit
  | rollback => Unit
  | sendCharge .. => Unit
  | awaitCharge => HttpResult
  | post .. => HttpResult
  | clock => Timestamp
  | secret => String

end TenantBilling
