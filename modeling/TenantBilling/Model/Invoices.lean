import TenantBilling.Model.Webhooks

/-!
# Customers and invoices

`app/services/customer_service.py` and `app/services/invoice_service.py`, with the
request schemas their arguments have passed. A service function flushes and never
commits; the router does.
-/

namespace TenantBilling

open Base Orm

/-! ### Customers -/

/-- `create_customer`. -/
def createCustomer (business : Business) (name email : String) : Orm Customer := do
  match ← catching (do ofDb (← issue (.insertCustomer business.id name email))) with
  | .ok customer => pure customer
  | .error (.db (.integrity _)) => do
    rollback
    raise (.app (.conflict ("A customer with email '" ++ email ++ "' already exists")))
  | .error e => raise e

/-- `get_customer`. -/
def getCustomer (business : Business) (customerId : Uuid) : Orm Customer := do
  match ← select (.customer customerId business.id) with
  | some customer => pure customer
  | none => raise (.app (.notFound "Customer" (some customerId)))

/-- `list_customers`: a page and the total. -/
def listCustomers (business : Business) (skip limit : ℕ) : Orm (List Customer × ℕ) := do
  let total ← select (.countCustomers business.id)
  let customers ← select (.listCustomers business.id skip limit)
  pure (customers, total)

/-! ### Invoices -/

/-- `InvoiceLineItemCreate`, as the schema admits it. -/
structure InvoiceLineItemCreate where
  description : String
  quantity : ℤ
  unitAmountCents : ℤ
  descriptionLength : 1 ≤ description.length ∧ description.length ≤ 500
  quantityPos : 0 < quantity
  unitAmountNonneg : 0 ≤ unitAmountCents

/-- `InvoiceCreate`, as the schema admits it. -/
structure InvoiceCreate where
  customerId : Uuid
  dueDate : Option Date
  lineItems : List InvoiceLineItemCreate
  lineItemsNonempty : lineItems ≠ []

/-- `li.quantity * li.unit_amount_cents`. -/
def InvoiceLineItemCreate.amountCents (li : InvoiceLineItemCreate) : ℤ :=
  li.quantity * li.unitAmountCents

/-- The sum of the amounts of the line items. -/
def InvoiceCreate.totalCents (payload : InvoiceCreate) : ℤ :=
  (payload.lineItems.map InvoiceLineItemCreate.amountCents).sum

/-- The line item rows of a payload. -/
def InvoiceCreate.newLineItems (payload : InvoiceCreate) : List NewLineItem :=
  payload.lineItems.map fun li =>
    { description := li.description, quantity := li.quantity
      unitAmountCents := li.unitAmountCents, amountCents := li.amountCents }

/-- The payload of `invoice.created`. -/
def createdPayload (invoice : Invoice) : Payload :=
  [("id", .uuid invoice.id), ("customer_id", .uuid invoice.customerId),
    ("state", .json (.str invoice.state.value)), ("total_cents", .cents invoice.totalCents.val)]

/-- `create_invoice`. -/
def createInvoice (business : Business) (payload : InvoiceCreate) :
    Orm (Invoice × List InvoiceLineItem) := do
  match ← select (.customer payload.customerId business.id) with
  | none => raise (.app (.notFound "Customer" none))
  | some _ => do
    let row ← ofDb (← issue (.insertInvoice
      { businessId := business.id, customerId := payload.customerId, state := .draft
        totalCents := payload.totalCents, dueDate := payload.dueDate }))
    let invoice ← loadInvoice row
    ofDb (← issue (.insertLineItems invoice.id payload.newLineItems))
    enqueueEvent business.id .invoiceCreated (createdPayload invoice)
    scalarOne (← selectInvoice invoice.id none)

/-- `get_invoice`. -/
def getInvoice (business : Business) (invoiceId : Uuid) : Orm (Invoice × List InvoiceLineItem) := do
  match ← selectInvoice invoiceId (some business.id) with
  | some invoice => pure invoice
  | none => raise (.app (.notFound "Invoice" none))

/-- `list_invoices`: a page and the total. -/
def listInvoices (business : Business) (state : Option InvoiceState) (skip limit : ℕ) :
    Orm (List (Invoice × List InvoiceLineItem) × ℕ) := do
  let total ← select (.countInvoices business.id state)
  let invoices ← select (.listInvoices business.id state skip limit)
  pure (invoices, total)

/-- `transition_invoice_state`. -/
def transitionInvoiceState (business : Business) (invoiceId : Uuid) (target : InvoiceState) :
    Orm (Invoice × List InvoiceLineItem) := do
  let (invoice, _) ← getInvoice business invoiceId
  ofApp (assertTransitionAllowed invoice.state target)
  setInvoiceState invoice.id target
  flush
  scalarOne (← selectInvoice invoice.id none)

end TenantBilling
