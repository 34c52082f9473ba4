import TenantBilling.Points.Pay

/-!
# The points of the other writing requests

The points of `create_invoice` and of `deactivate_endpoint`, which read what they go by
before they write. As for payments, each program is unfolded once
(`TenantBilling.tracks_create`, `TenantBilling.tracks_deactivate`).
-/

namespace TenantBilling

open Base

/-! ### Creating an invoice -/

/-- The arguments of a request to create an invoice. -/
structure CreateCall where
  business : Business
  payload : InvoiceCreate

/-- The values of the invoice. -/
def CreateCall.newInvoice (c : CreateCall) : NewInvoice :=
  { businessId := c.business.id, customerId := c.payload.customerId, state := .draft
    totalCents := c.payload.totalCents, dueDate := c.payload.dueDate }

/-- The places a request to create an invoice can be at. -/
inductive CreatePoint where
  /-- The customer is looked up. -/
  | readCustomer
  /-- The invoice is inserted. -/
  | insert
  /-- Its line items are inserted. -/
  | insertItems (v : Invoice)
  /-- The endpoints of the event are listed. -/
  | listEndpoints (v : Invoice)
  | readClock (v : Invoice) (endpoints : List WebhookEndpoint)
  /-- The outbox rows are inserted. -/
  | outbox (v : Invoice) (endpoints : List WebhookEndpoint) (now : Timestamp)
  /-- The invoice is read again, with its line items. -/
  | reselect (v : Invoice) (endpoints : List WebhookEndpoint)
  | commit (v : Invoice) (endpoints : List WebhookEndpoint) (x : Invoice × List InvoiceLineItem)
  /-- The route has returned or raised; the session is closed. -/
  | closing (x : Except Exc Result)
  | done (x : Except Exc Result)

/-- The statement issued at a point, and the next point for each answer. -/
def CreatePoint.out (c : CreateCall) :
    CreatePoint → Node Stmt Stmt.Resp (Except Exc Result) CreatePoint
  | readCustomer => .op (.select (.customer c.payload.customerId c.business.id)) fun
    | some _ => insert
    | none => closing (.error (.app (.notFound "Customer" none)))
  | insert => .op (.insertInvoice c.newInvoice) fun
    | .error e => closing (.error (.db e))
    | .ok v => insertItems v
  | insertItems v => .op (.insertLineItems v.id c.payload.newLineItems) fun
    | .error e => closing (.error (.db e))
    | .ok () => listEndpoints v
  | listEndpoints v => .op (.select (.activeEndpoints c.business.id)) fun endpoints =>
    if List.isEmpty endpoints then reselect v endpoints else readClock v endpoints
  | readClock v endpoints => .op .clock fun now => outbox v endpoints now
  | outbox v endpoints now => .op (.insertDeliveries (endpoints.map
      (newDelivery .invoiceCreated (createdPayload v) now))) fun
    | .error e => closing (.error (.db e))
    | .ok () => reselect v endpoints
  | reselect v endpoints => .op (.select (.invoice v.id none)) fun
    | some (row, lineItems) =>
      commit v endpoints ({ row with state := row.stateOrLoaded v }, lineItems)
    | none => closing (.error (.python "NoResultFound"))
  | commit _ _ x => .op .commit fun _ => closing (.ok (.invoice x))
  | closing x => .op .rollback fun _ => done x
  | done x => .ret x

/-! ### Deactivating an endpoint -/

/-- The arguments of a request to deactivate an endpoint. -/
structure DeactivateCall where
  business : Business
  endpointId : Uuid

/-- The places a request to deactivate an endpoint can be at. -/
inductive DeactivatePoint where
  /-- The endpoint is read. -/
  | read
  /-- It is active, and is flushed as inactive. -/
  | update (e : WebhookEndpoint)
  | commit (e : WebhookEndpoint)
  /-- The route has returned or raised; the session is closed. -/
  | closing (x : Except Exc Result)
  | done (x : Except Exc Result)

/-- The statement issued at a point, and the next point for each answer. -/
def DeactivatePoint.out (c : DeactivateCall) :
    DeactivatePoint → Node Stmt Stmt.Resp (Except Exc Result) DeactivatePoint
  | read => .op (.select (.endpointOf c.endpointId c.business.id)) fun
    | some e => if e.isActive then update e else commit e
    | none => closing (.error (.http 404 "Webhook endpoint not found"))
  | update e => .op (.deactivateEndpoint e.id) fun
    | .error err => closing (.error (.db err))
    | .ok () => commit e
  | commit _ => .op .commit fun _ => closing (.ok .done)
  | closing x => .op .rollback fun _ => done x
  | done x => .ret x

/-! ### The programs and their points -/

section Tracks

open Prog Orm

variable (crypto : Crypto)

theorem tracks_create_closing (c : CreateCall) (x : Except Exc Result) :
    Tracks (CreatePoint.out c) (.closing x) (.op .rollback fun _ => .ret x) :=
  Tracks.intro rfl fun _ => rfl

/-- What is left of the route when the invoice is about to be read again. -/
def Orm.createTail (v : Invoice) : ServerProg (Except Exc Result) :=
  (andThen (do scalarOne (← selectInvoice v.id none)) (fun x => do
    commit
    pure (.invoice x)) ⟨[v], [], []⟩).bind fun x => .op .rollback fun _ => .ret x.1

/-- From the last select on, `create_invoice` is at its points. -/
theorem tracks_reselect (c : CreateCall) (v : Invoice) (endpoints : List WebhookEndpoint) :
    Tracks (CreatePoint.out c) (.reselect v endpoints) (createTail v) := by
  refine Tracks.intro rfl ?_
  rintro (_ | ⟨row, lineItems⟩)
  · exact tracks_create_closing ..
  obtain ⟨invoices, hload⟩ := loadInvoice_eq row v []
  change Tracks _ _ (Prog.bind (Prog.bind (Prog.bind (Prog.bind
    (loadInvoice row ⟨[v], [], []⟩) _) _) _) _)
  rw [hload]
  exact Tracks.intro rfl fun _ => tracks_create_closing ..

/-- **The program that creates an invoice is the machine of its points.** -/
theorem tracks_create (c : CreateCall) :
    Tracks (CreatePoint.out c) .readCustomer
      (getDb (route crypto c.business (.createInvoice c.payload))) := by
  refine Tracks.intro rfl ?_
  rintro (_ | customer)
  · exact tracks_create_closing ..
  refine Tracks.intro rfl ?_
  rintro (e | v)
  · exact tracks_create_closing ..
  refine Tracks.intro rfl ?_
  rintro (e | _)
  · exact tracks_create_closing ..
  refine Tracks.intro rfl ?_
  rintro (_ | ⟨e, es⟩)
  · exact tracks_reselect ..
  · refine Tracks.intro rfl fun now => Tracks.intro rfl ?_
    rintro (e | _)
    · exact tracks_create_closing ..
    · exact tracks_reselect ..

/-- The route of a deactivation is at the points of `deactivate_endpoint`. -/
theorem tracks_deactivate (c : DeactivateCall) :
    Tracks (DeactivatePoint.out c) .read
      (getDb (route crypto c.business (.deactivateEndpoint c.endpointId))) := by
  refine Tracks.intro rfl ?_
  rintro (_ | e)
  · exact Tracks.intro rfl fun _ => rfl
  obtain ⟨id, businessId, url, signingSecret, isActive, createdAt⟩ := e
  cases isActive with
  | false => exact Tracks.intro rfl fun _ => Tracks.intro rfl fun _ => rfl
  | true =>
    refine Tracks.intro rfl ?_
    rintro (err | _)
    · exact Tracks.intro rfl fun _ => rfl
    · exact Tracks.intro rfl fun _ => Tracks.intro rfl fun _ => rfl

end Tracks

end TenantBilling
