import TenantBilling.Model.Payments
import TenantBilling.Model.Invoices

/-!
# The routes

`app/routers`: what each authenticated request runs, and the response a client gets
for what the route returns or raises. The response models are those of
`app/schemas`.
-/

namespace TenantBilling

open Base Orm

/-! ### Requests -/

/-- An authenticated request, its body validated by its schema. An absent header or
query parameter is the empty text, which the routers treat alike. -/
inductive Request where
  | createCustomer (name email : String)
  | listCustomers (skip limit : ℕ)
  | getCustomer (customerId : Uuid)
  | createInvoice (payload : InvoiceCreate)
  | listInvoices (state : String) (skip limit : ℕ)
  | getInvoice (invoiceId : Uuid)
  | finalize (invoiceId : Uuid)
  | void (invoiceId : Uuid)
  | uncollectible (invoiceId : Uuid)
  | pay (invoiceId : Uuid) (cardToken idempotencyKey : String)
  | createEndpoint (url : String)
  | listEndpoints
  | deactivateEndpoint (endpointId : Uuid)

/-- What a route hands back. -/
inductive Result where
  | customer (c : Customer)
  | customers (items : List Customer) (total skip limit : ℕ)
  | invoice (v : Invoice × List InvoiceLineItem)
  | invoices (items : List (Invoice × List InvoiceLineItem)) (total skip limit : ℕ)
  | attempt (a : PaymentAttempt) (isCached : Bool)
  | endpoint (e : WebhookEndpoint) (signingSecret : String)
  | endpoints (items : List WebhookEndpoint)
  | done

/-- `[s.value for s in InvoiceState]`. -/
def InvoiceState.ofValue? (s : String) : Option InvoiceState :=
  [InvoiceState.draft, .open, .paid, .void, .uncollectible].find? fun st => st.value = s

/-- `_transition`. -/
def transition (business : Business) (invoiceId : Uuid) (target : InvoiceState) : Orm Result := do
  let invoice ← transitionInvoiceState business invoiceId target
  commit
  pure (.invoice invoice)

variable (crypto : Crypto)

/-- `pay_invoice`. -/
def payInvoice (business : Business) (invoiceId : Uuid) (cardToken idempotencyKey : String) :
    Orm Result :=
  if idempotencyKey = "" then raise (.http 422 "Idempotency-Key header is required")
  else do
    let (attempt, isCached) ← processPayment crypto business invoiceId cardToken idempotencyKey
    pure (.attempt attempt isCached)

/-- The body of a route. -/
def route (business : Business) : Request → Orm Result
  | .createCustomer name email => do
    let customer ← createCustomer business name email
    commit
    pure (.customer customer)
  | .listCustomers skip limit => do
    let (customers, total) ← listCustomers business skip limit
    pure (.customers customers total skip limit)
  | .getCustomer customerId => do
    let customer ← getCustomer business customerId
    pure (.customer customer)
  | .createInvoice payload => do
    let invoice ← createInvoice business payload
    commit
    pure (.invoice invoice)
  | .listInvoices state skip limit =>
    if state = "" then do
      let (invoices, total) ← listInvoices business none skip limit
      pure (.invoices invoices total skip limit)
    else match InvoiceState.ofValue? state with
      | none => raise (.http 422 ("Invalid state: " ++ state))
      | some st => do
        let (invoices, total) ← listInvoices business (some st) skip limit
        pure (.invoices invoices total skip limit)
  | .getInvoice invoiceId => do
    let invoice ← getInvoice business invoiceId
    pure (.invoice invoice)
  | .finalize invoiceId => transition business invoiceId .open
  | .void invoiceId => transition business invoiceId .void
  | .uncollectible invoiceId => transition business invoiceId .uncollectible
  | .pay invoiceId cardToken idempotencyKey =>
    payInvoice crypto business invoiceId cardToken idempotencyKey
  | .createEndpoint url => do
    let (endpoint, signingSecret) ← createEndpoint business url
    commit
    pure (.endpoint endpoint signingSecret)
  | .listEndpoints => do
    let endpoints ← listEndpoints business
    pure (.endpoints endpoints)
  | .deactivateEndpoint endpointId => do
    match ← deactivateEndpoint business endpointId with
    | none => raise (.http 404 "Webhook endpoint not found")
    | some _ => do
      commit
      pure .done

/-! ### Responses -/

/-- `CustomerRead`. -/
structure CustomerRead where
  id : Uuid
  name : String
  email : String
  createdAt : Timestamp
  updatedAt : Timestamp
deriving DecidableEq

/-- `InvoiceLineItemRead`. -/
structure InvoiceLineItemRead where
  id : Uuid
  description : String
  quantity : ℤ
  unitAmountCents : ℤ
  amountCents : ℤ
deriving DecidableEq

/-- `InvoiceRead`. -/
structure InvoiceRead where
  id : Uuid
  customerId : Uuid
  state : String
  totalCents : ℤ
  dueDate : Option Date
  lineItems : List InvoiceLineItemRead
  createdAt : Timestamp
  updatedAt : Timestamp
deriving DecidableEq

/-- `PaymentAttemptRead`. -/
structure PaymentAttemptRead where
  id : Uuid
  invoiceId : Uuid
  status : String
  amountCents : ℤ
  cardToken : String
  pspRef : Option String
  failureCode : Option String
  idempotencyKey : String
  createdAt : Timestamp
  updatedAt : Timestamp
deriving DecidableEq

/-- `WebhookEndpointRead`. -/
structure WebhookEndpointRead where
  id : Uuid
  businessId : Uuid
  url : String
  isActive : Bool
  createdAt : Timestamp
deriving DecidableEq

/-- `CustomerRead.model_validate`. -/
def Customer.read (c : Customer) : CustomerRead :=
  ⟨c.id, c.name.text, c.email.text, c.createdAt, c.updatedAt⟩

/-- `InvoiceLineItemRead.model_validate`. -/
def InvoiceLineItem.read (li : InvoiceLineItem) : InvoiceLineItemRead :=
  ⟨li.id, li.description.text, li.quantity.val, li.unitAmountCents.val, li.amountCents.val⟩

/-- `_invoice_read`. -/
def invoiceRead (x : Invoice × List InvoiceLineItem) : InvoiceRead :=
  { id := x.1.id, customerId := x.1.customerId, state := x.1.state.value
    totalCents := x.1.totalCents.val, dueDate := x.1.dueDate
    lineItems := x.2.map InvoiceLineItem.read
    createdAt := x.1.createdAt, updatedAt := x.1.updatedAt }

/-- `PaymentAttemptRead.model_validate`. -/
def PaymentAttempt.read (a : PaymentAttempt) : PaymentAttemptRead :=
  { id := a.id, invoiceId := a.invoiceId, status := a.status.value
    amountCents := a.amountCents.val, cardToken := a.cardToken.text
    pspRef := a.pspRef.map Varchar.text, failureCode := a.failureCode.map Varchar.text
    idempotencyKey := a.idempotencyKey.text, createdAt := a.createdAt, updatedAt := a.updatedAt }

/-- `WebhookEndpointRead.model_validate`. -/
def WebhookEndpoint.read (e : WebhookEndpoint) : WebhookEndpointRead :=
  ⟨e.id, e.businessId, e.url.text, e.isActive, e.createdAt⟩

/-- The body of a response. -/
inductive Body where
  | empty
  | text (s : String)
  | detail (message : String)
  | customer (c : CustomerRead)
  | customers (items : List CustomerRead) (total skip limit : ℕ)
  | invoice (v : InvoiceRead)
  | invoices (items : List InvoiceRead) (total skip limit : ℕ)
  | attempt (a : PaymentAttemptRead)
  | endpoint (e : WebhookEndpointRead) (signingSecret : String)
  | endpoints (items : List WebhookEndpointRead)
deriving DecidableEq

/-- An HTTP response. -/
structure Response where
  status : ℕ
  body : Body
deriving DecidableEq

/-- The status of a payment response. -/
def PaymentStatus.httpStatus : PaymentStatus → ℕ
  | succeeded => 200
  | failed => 402
  | pending => 202

/-- The status of any other response that is not an error. -/
def Request.successStatus : Request → ℕ
  | .createCustomer .. => 201
  | .createInvoice .. => 201
  | .createEndpoint .. => 201
  | .deactivateEndpoint .. => 204
  | _ => 200

/-- The response to what a route returns. -/
def Result.response (status : ℕ) : Result → Response
  | .customer c => ⟨status, .customer c.read⟩
  | .customers items total skip limit =>
    ⟨status, .customers (items.map Customer.read) total skip limit⟩
  | .invoice v => ⟨status, .invoice (invoiceRead v)⟩
  | .invoices items total skip limit =>
    ⟨status, .invoices (items.map invoiceRead) total skip limit⟩
  | .attempt a _ => ⟨a.status.httpStatus, .attempt a.read⟩
  | .endpoint e signingSecret => ⟨status, .endpoint e.read signingSecret⟩
  | .endpoints items => ⟨status, .endpoints (items.map WebhookEndpoint.read)⟩
  | .done => ⟨status, .empty⟩

/-- The domain exceptions a router catches, and the response it makes of them. -/
def Request.errorResponse : Request → AppError → Option Response
  | .createCustomer .., .conflict message => some ⟨409, .detail message⟩
  | .getCustomer _, .notFound .. => some ⟨404, .detail "Customer not found for this business"⟩
  | .createInvoice _, e@(.notFound ..) => some ⟨404, .detail e.message⟩
  | .getInvoice _, .notFound .. => some ⟨404, .detail "Invoice not found"⟩
  | .finalize _, .notFound .. => some ⟨404, .detail "Invoice not found"⟩
  | .void _, .notFound .. => some ⟨404, .detail "Invoice not found"⟩
  | .uncollectible _, .notFound .. => some ⟨404, .detail "Invoice not found"⟩
  | .pay .., .notFound .. => some ⟨404, .detail "Invoice not found"⟩
  | .finalize _, e@(.invalidStateTransition ..) => some ⟨422, .detail e.message⟩
  | .void _, e@(.invalidStateTransition ..) => some ⟨422, .detail e.message⟩
  | .uncollectible _, e@(.invalidStateTransition ..) => some ⟨422, .detail e.message⟩
  | .pay .., e@(.invalidStateTransition ..) => some ⟨422, .detail e.message⟩
  | .pay .., e@.idempotencyConflict => some ⟨409, .detail e.message⟩
  | _, _ => none

/-- What the server answers when an exception is not caught. -/
def internalServerError : Response := ⟨500, .text "Internal Server Error"⟩

/-- **The response a client gets** for what a route returned or raised. -/
def Request.respond (req : Request) : Except Exc Result → Response
  | .ok result => result.response req.successStatus
  | .error (.http status detail) => ⟨status, .detail detail⟩
  | .error (.app e) => (req.errorResponse e).getD internalServerError
  | .error _ => internalServerError

end TenantBilling
