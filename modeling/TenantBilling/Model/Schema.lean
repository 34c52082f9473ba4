import TenantBilling.Base.Table
import TenantBilling.Model.Columns

/-!
# The tables

The rows of the tables the service writes, with the columns of `app/models` and
the constraints of the two migrations. A `CHECK` constraint over one row is a
field of the row, so a row that violates it cannot be built; a primary key is the
key of its table. The two unique indexes on `payment_attempts` relate several rows
and are checked by the insert statement.

`businesses` and `api_keys` are only read, to authenticate a request, and appear
here as the identity of the business a request is authenticated as.
-/

namespace TenantBilling

open Base

/-- `InvoiceState`. -/
inductive InvoiceState where
  | draft | open | paid | void | uncollectible
deriving DecidableEq, Repr

/-- `PaymentStatus`. -/
inductive PaymentStatus where
  | pending | succeeded | failed
deriving DecidableEq, Repr

/-- `WebhookDeliveryStatus`. -/
inductive WebhookDeliveryStatus where
  | pending | delivered | exhausted
deriving DecidableEq, Repr

/-- `InvoiceState.value`. -/
def InvoiceState.value : InvoiceState → String
  | draft => "draft"
  | «open» => "open"
  | paid => "paid"
  | void => "void"
  | uncollectible => "uncollectible"

/-- `PaymentStatus.value`. -/
def PaymentStatus.value : PaymentStatus → String
  | pending => "pending"
  | succeeded => "succeeded"
  | failed => "failed"

/-- The business a request is authenticated as. -/
structure Business where
  id : Uuid
deriving DecidableEq

/-- `customers`. -/
structure Customer where
  id : Uuid
  businessId : Uuid
  name : Varchar 200
  email : Varchar 320
  createdAt : Timestamp
  updatedAt : Timestamp
deriving DecidableEq

/-- `invoices`. -/
structure Invoice where
  id : Uuid
  businessId : Uuid
  customerId : Uuid
  state : InvoiceState
  totalCents : BigInt
  dueDate : Option Date
  createdAt : Timestamp
  updatedAt : Timestamp
  /-- `ck_invoices_total_nonneg`. -/
  totalNonneg : 0 ≤ totalCents.val
deriving DecidableEq

/-- `invoice_line_items`. -/
structure InvoiceLineItem where
  id : Uuid
  invoiceId : Uuid
  description : Varchar 500
  quantity : Integer
  unitAmountCents : BigInt
  amountCents : BigInt
  createdAt : Timestamp
  /-- `ck_line_items_qty_positive`. -/
  qtyPositive : 0 < quantity.val
  /-- `ck_line_items_unit_amount_nonneg`. -/
  unitAmountNonneg : 0 ≤ unitAmountCents.val
  /-- `ck_line_items_amount_matches`. -/
  amountMatches : amountCents.val = quantity.val * unitAmountCents.val
deriving DecidableEq

/-- `payment_attempts`. -/
structure PaymentAttempt where
  id : Uuid
  invoiceId : Uuid
  idempotencyKey : Varchar 255
  requestHash : Varchar 64
  status : PaymentStatus
  amountCents : BigInt
  cardToken : Varchar 100
  pspRef : Option (Varchar 100)
  failureCode : Option (Varchar 50)
  createdAt : Timestamp
  updatedAt : Timestamp
  /-- `ck_payment_attempts_amount_pos`. -/
  amountPos : 0 < amountCents.val
deriving DecidableEq

/-- `webhook_endpoints`. -/
structure WebhookEndpoint where
  id : Uuid
  businessId : Uuid
  url : Varchar 2000
  signingSecret : Varchar 64
  isActive : Bool
  createdAt : Timestamp
deriving DecidableEq

/-- The `event_type` of a delivery. -/
inductive EventType where
  | invoiceCreated | invoicePaid | invoicePaymentFailed
deriving DecidableEq, Repr

/-- The name of an event, as the code and the `X-Webhook-Event` header have it. -/
def EventType.name : EventType → String
  | invoiceCreated => "invoice.created"
  | invoicePaid => "invoice.paid"
  | invoicePaymentFailed => "invoice.payment_failed"

/-- A value of an event payload: `str` of a UUID, an amount, or a JSON value taken
over from elsewhere. -/
inductive PayloadValue where
  | uuid (u : Uuid)
  | cents (z : ℤ)
  | json (j : Json)

/-- A `payload` dictionary. -/
abbrev Payload := List (String × PayloadValue)

/-- The order in which `jsonb` keeps the keys of an object: shorter ones first, and those of one
length bytewise. -/
def jsonbKeyLE (k k' : String) : Prop :=
  k.utf8ByteSize < k'.utf8ByteSize ∨ k.utf8ByteSize = k'.utf8ByteSize ∧
    ¬List.Lex (fun c c' => c.toNat < c'.toNat) k'.toList k.toList

instance : DecidableRel jsonbKeyLE := fun _ _ => inferInstanceAs (Decidable (_ ∨ _ ∧ _))

/-- A dictionary as a `JSONB` column returns it: not in the order of its insertion. -/
def Payload.jsonb (payload : Payload) : Payload :=
  payload.insertionSort fun x y => jsonbKeyLE x.1 y.1

theorem Payload.jsonb_perm (payload : Payload) : payload.jsonb.Perm payload :=
  List.perm_insertionSort _ payload

/-- A dictionary has its values under its keys. -/
theorem Payload.lookup_eq_some {payload : Payload} (h : (payload.map Prod.fst).Nodup) {k : String}
    {v : PayloadValue} : payload.lookup k = some v ↔ (k, v) ∈ payload := by
  induction payload with
  | nil => simp
  | cons x payload ih =>
    obtain ⟨k', v'⟩ := x
    obtain ⟨hnotin, h⟩ := List.nodup_cons.mp h
    rw [List.lookup_cons, List.mem_cons, Prod.mk.injEq]
    by_cases hk : k = k'
    · subst hk
      have hnot : (k, v) ∉ payload := fun hmem =>
        hnotin (List.mem_map.mpr ⟨_, hmem, rfl⟩)
      simp [hnot, eq_comm]
    · rw [beq_false_of_ne hk, ← ih h]
      simp [hk]

/-- The order of the keys does not matter to who looks one up. -/
theorem Payload.lookup_jsonb {payload : Payload} (h : (payload.map Prod.fst).Nodup) (k : String) :
    payload.jsonb.lookup k = payload.lookup k := by
  have hperm := payload.jsonb_perm
  refine Option.ext fun v => ?_
  rw [Payload.lookup_eq_some ((hperm.map Prod.fst).nodup_iff.mpr h), Payload.lookup_eq_some h,
    hperm.mem_iff]

/-- `webhook_deliveries`. -/
structure WebhookDelivery where
  id : Uuid
  webhookEndpointId : Uuid
  eventType : EventType
  payload : Payload
  status : WebhookDeliveryStatus
  attempts : ℕ
  nextAttemptAt : Option Timestamp
  lastError : Option (Varchar 2000)
  createdAt : Timestamp
  deliveredAt : Option Timestamp

/-- The invoice an event payload is about: `payload["id"]` of `invoice.created`,
`payload["invoice_id"]` of the two payment events. -/
def EventType.invoiceField : EventType → String
  | invoiceCreated => "id"
  | invoicePaid => "invoice_id"
  | invoicePaymentFailed => "invoice_id"

/-- The delivery's payload names the invoice. -/
def WebhookDelivery.Names (d : WebhookDelivery) (invoiceId : Uuid) : Prop :=
  d.payload.lookup d.eventType.invoiceField = some (.uuid invoiceId)

/-- The committed contents of the database. -/
structure Database where
  customers : Table Customer.id
  invoices : Table Invoice.id
  lineItems : Table InvoiceLineItem.id
  attempts : Table PaymentAttempt.id
  endpoints : Table WebhookEndpoint.id
  deliveries : Table WebhookDelivery.id

/-- The database after the migrations. -/
def Database.empty : Database :=
  ⟨.empty, .empty, .empty, .empty, .empty, .empty⟩

/-- The line items of an invoice. -/
def Database.lineItemsOf (db : Database) (invoiceId : Uuid) : List InvoiceLineItem :=
  db.lineItems.rows.filter fun li => li.invoiceId = invoiceId

end TenantBilling
