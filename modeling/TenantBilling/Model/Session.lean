import TenantBilling.Base.Prog
import TenantBilling.Model.Server

/-!
# The SQLAlchemy session

The service functions work through an `AsyncSession`, and three things it does by
itself decide which statements reach the server and what the code sees of their
answers. They are modelled here once, so that the service functions can be read
next to their source.

* **Autoflush.** Objects that were added or modified are written out before every
  `SELECT` and before a commit (`TenantBilling.Orm.flush`), not where the
  assignment stands.
* **The identity map.** A row whose object the session has already loaded does not
  refresh that object: the caller gets the attributes loaded earlier
  (`TenantBilling.Orm.loadInvoice`). `expire_on_commit=False` makes this hold across
  the commit, and `with_for_update` makes no exception. Only `refresh` reloads.
* **Rollback** discards what was not flushed and expires the loaded objects.

`TenantBilling.Orm` is the monad of session code: it threads the session, can raise,
and issues statements.
-/

namespace TenantBilling

open Base

/-- The exceptions of `app/services/psp_client.py`. -/
inductive PspError where
  /-- `PSPTimeout`. -/
  | timeout
  /-- `PSPNetworkError`. -/
  | networkError
deriving DecidableEq

/-- What a request can raise. -/
inductive Exc where
  | app (e : AppError)
  | db (e : DbError)
  | psp (e : PspError)
  /-- `fastapi.HTTPException` raised by a router itself. -/
  | http (status : ℕ) (detail : String)
  /-- Any other Python exception, by its class. -/
  | python (className : String)
deriving DecidableEq

/-- A modified or added object that has not been written out. -/
inductive Unflushed where
  | attempt (id : Uuid) (change : AttemptChange)
  | invoice (id : Uuid) (state : InvoiceState)
  | deliveries (new : List NewDelivery)
  | endpoint (id : Uuid)
  | delivery (id : Uuid) (change : DeliveryChange)

/-- An `AsyncSession`: the objects in its identity map whose attributes the code reads
again, and what it has not written out. -/
structure Session where
  invoices : List Invoice := []
  attempts : List PaymentAttempt := []
  unflushed : List Unflushed := []

/-- A program that talks to the server. -/
abbrev ServerProg (α : Type) : Type := Prog Stmt Stmt.Resp α

/-- Session code. -/
def Orm (α : Type) : Type := Session → ServerProg (Except Exc α × Session)

namespace Orm

variable {α β : Type}

/-- Continue after a result, or pass the exception on. -/
def andThen (m : Orm α) (f : α → Orm β) : Orm β := fun σ =>
  (m σ).bind fun x =>
    match x.1 with
    | .ok a => f a x.2
    | .error e => .ret (.error e, x.2)

instance : Monad Orm where
  pure a := fun σ => .ret (.ok a, σ)
  bind := andThen

/-- `raise`. -/
def raise (e : Exc) : Orm α := fun σ => .ret (.error e, σ)

/-- `try`: the exception becomes a value. -/
def catching (m : Orm α) : Orm (Except Exc α) := fun σ =>
  (m σ).bind fun x => .ret (.ok x.1, x.2)

/-- Issue a statement. -/
def issue (st : Stmt) : Orm st.Resp := fun σ => .op st fun r => .ret (.ok r, σ)

/-- Change the session. -/
def modify (f : Session → Session) : Orm Unit := fun σ => .ret (.ok (), f σ)

/-- An error of the driver is raised. -/
def ofDb : Except DbError α → Orm α
  | .ok a => pure a
  | .error e => raise (.db e)

/-- A domain exception is raised. -/
def ofApp : Except AppError α → Orm α
  | .ok a => pure a
  | .error e => raise (.app e)

/-- `scalar_one()`. -/
def scalarOne : Option α → Orm α
  | some a => pure a
  | none => raise (.python "NoResultFound")

/-! ### The unit of work -/

/-- Write out one object. -/
def send : Unflushed → Orm Unit
  | .attempt id change => do ofDb (← issue (.updateAttempt id change))
  | .invoice id state => do ofDb (← issue (.updateInvoice id state))
  | .deliveries new => do ofDb (← issue (.insertDeliveries new))
  | .endpoint id => do ofDb (← issue (.deactivateEndpoint id))
  | .delivery id change => do ofDb (← issue (.updateDelivery id change))

/-- Write out several objects. -/
def sendAll : List Unflushed → Orm Unit
  | [] => pure ()
  | u :: us => do
    send u
    sendAll us

/-- `session.flush()`. -/
def flush : Orm Unit := fun σ => sendAll σ.unflushed { σ with unflushed := [] }

/-- An object was added or modified. -/
def touch (u : Unflushed) : Orm Unit := modify fun σ => { σ with unflushed := σ.unflushed ++ [u] }

/-- `session.execute(select(…))`: autoflush, then the query. -/
def select (q : Query) : Orm q.Result := do
  flush
  issue (.select q)

/-- `session.commit()`. -/
def commit : Orm Unit := do
  flush
  issue .commit

/-- `session.rollback()`. -/
def rollback : Orm Unit := do
  issue .rollback
  modify fun _ => {}

/-! ### The identity map -/

/-- The object of an invoice row. An object loaded before keeps its state; only
`updated_at`, which an `UPDATE` expires, is taken from the row. -/
def loadInvoice (row : Invoice) : Orm Invoice := fun σ =>
  match σ.invoices.find? fun v => v.id = row.id with
  | some v => .ret (.ok { row with state := v.state }, σ)
  | none => .ret (.ok row, { σ with invoices := σ.invoices ++ [row] })

/-- The object of an attempt row. An object loaded before keeps its attributes. -/
def loadAttempt (row : PaymentAttempt) : Orm PaymentAttempt := fun σ =>
  match σ.attempts.find? fun a => a.id = row.id with
  | some a => .ret (.ok a, σ)
  | none => .ret (.ok row, { σ with attempts := σ.attempts ++ [row] })

/-- `invoice.state = …` on a loaded object. -/
def setInvoiceState (id : Uuid) (state : InvoiceState) : Orm Unit := do
  modify fun σ => { σ with
    invoices := σ.invoices.map fun v => if v.id = id then { v with state := state } else v }
  touch (.invoice id state)

/-- A select of at most one attempt. -/
def selectAttempt (row? : Orm (Option PaymentAttempt)) : Orm (Option PaymentAttempt) := do
  match ← row? with
  | some row => do
    let attempt ← loadAttempt row
    pure (some attempt)
  | none => pure none

/-- `select(Invoice).where(…).with_for_update()`. -/
def selectInvoiceForUpdate (id : Uuid) (businessId : Option Uuid) : Orm (Option Invoice) := do
  flush
  match ← ofDb (← issue (.lockInvoice id businessId)) with
  | some row => do
    let invoice ← loadInvoice row
    pure (some invoice)
  | none => pure none

/-- `select(Invoice).options(selectinload(Invoice.line_items)).where(…)`. -/
def selectInvoice (id : Uuid) (businessId : Option Uuid) :
    Orm (Option (Invoice × List InvoiceLineItem)) := do
  match ← select (.invoice id businessId) with
  | some (row, lineItems) => do
    let invoice ← loadInvoice row
    pure (some (invoice, lineItems))
  | none => pure none

/-- `session.add(attempt)` and `session.flush()`. -/
def flushAttempt (new : NewAttempt) : Orm PaymentAttempt := do
  flush
  let attempt ← ofDb (← issue (.insertAttempt new))
  modify fun σ => { σ with attempts := σ.attempts ++ [attempt] }
  pure attempt

/-- `session.refresh(attempt)`: the attributes are loaded anew. -/
def refreshAttempt (id : Uuid) : Orm PaymentAttempt := do
  let row ← scalarOne (← issue (.select (.attemptById id)))
  modify fun σ => { σ with attempts := σ.attempts.map fun a => if a.id = id then row else a }
  pure row

/-- `get_db` around a route: whether the route returns, and the session is closed, or
raises, and the session is rolled back, its open transaction ends. -/
def getDb (m : Orm α) : ServerProg (Except Exc α) :=
  (m {}).bind fun x => .op .rollback fun _ => .ret x.1

end Orm

end TenantBilling
