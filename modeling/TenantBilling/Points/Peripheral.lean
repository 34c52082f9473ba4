import Mathlib.Order.CompleteBooleanAlgebra
import Mathlib.Order.CompletePartialOrder
import TenantBilling.Points.Discipline

/-!
# Programs that issue statements of a kind only

Two things are said of programs of which no points are named. All requests but payments and
transitions, and the polls of the webhook worker, keep away from what those are about: they
lock no invoice, write no attempt, change the state of no invoice, and never call the
payment provider; an invoice they insert is a draft (`TenantBilling.Stmt.Peripheral`). And
of these, all but the requests that create an invoice or deactivate an endpoint write rows
of one kind, whatever they have read (`TenantBilling.Stmt.Registers`).
-/

namespace TenantBilling

open Base Orm

/-- The discipline of the statements of a kind; no knowledge is involved. -/
def only (P : Stmt → Prop) : Discipline Stmt Stmt.Resp Unit where
  may _ st := P st
  learn κ _ _ := κ
  mono _ h := h
  grows _ _ _ := le_rfl

@[simp] theorem only_may {P : Stmt → Prop} {κ : Unit} {st : Stmt} : (only P).may κ st ↔ P st :=
    Iff.rfl

/-- The kind includes the end of a transaction, the clock and the random source. -/
class Stmt.Plain (P : Stmt → Prop) : Prop where
  clock : P .clock
  secret : P .secret
  commit : P .commit
  rollback : P .rollback

/-- Session code that issues statements of a kind only. -/
def Orm.Only (P : Stmt → Prop) {α : Type} (m : Orm α) : Prop :=
  Keeps (only P) (fun _ _ => True) () m

namespace Orm.Only

variable {P : Stmt → Prop} {α β : Type}

theorem pure (a : α) : Only P (Pure.pure a) := keeps_pure trivial

theorem raise (e : Exc) : Only P (Orm.raise e : Orm α) := keeps_raise

/-- The rule of sequence. -/
theorem bind {m : Orm α} {f : α → Orm β} (hm : Only P m) (hf : ∀ a, Only P (f a)) :
    Only P (m >>= f) :=
  Keeps.bind hm fun _ a _ _ => hf a

/-- A statement of the kind may be issued. -/
theorem issue {st : Stmt} (h : P st) : Only P (Orm.issue st) := keeps_issue h fun _ => trivial

theorem catching {m : Orm α} (hm : Only P m) : Only P (Orm.catching m) :=
  keeps_catching hm (fun _ _ _ _ => trivial) fun _ _ => trivial

theorem ofDb (x : Except DbError α) : Only P (Orm.ofDb x) := keeps_ofDb fun _ _ => trivial

theorem scalarOne (x : Option α) : Only P (Orm.scalarOne x) := keeps_scalarOne fun _ _ => trivial

/-- What is written out by a later flush has to be of the kind as well. -/
theorem touch {u : Unflushed} (h : P u.stmt) : Only P (Orm.touch u) := keeps_touch h trivial

theorem flush : Only P Orm.flush := keeps_flush

theorem loadInvoice (row : Invoice) : Only P (Orm.loadInvoice row) :=
    keeps_loadInvoice fun _ => trivial

/-- A query flushes first, and what is flushed has been allowed before. -/
theorem select {q : Query} (h : P (.select q)) : Only P (Orm.select q) :=
  keeps_select (fun _ _ => h) fun _ _ _ => trivial

/-- Loading an invoice issues one query. -/
theorem selectInvoice {id : Uuid} {businessId : Option Uuid}
    (h : P (.select (.invoice id businessId))) : Only P (Orm.selectInvoice id businessId) := by
  refine bind (select h) ?_
  rintro (_ | ⟨row, lineItems⟩)
  · exact pure _
  · exact bind (loadInvoice row) fun _ => pure _

variable [Stmt.Plain P]

theorem commit : Only P Orm.commit := keeps_commit fun _ _ => Stmt.Plain.commit (P := P)

theorem rollback : Only P Orm.rollback := keeps_rollback (Stmt.Plain.rollback (P := P))

/-- The program of a route: its session is closed by a rollback at the end. -/
theorem getDb {m : Orm α} (h : Only P m) : Prog.Keeps (only P) (fun _ _ => True) () (Orm.getDb m) :=
  keeps_getDb h fun _ _ => Stmt.Plain.rollback (P := P)

end Orm.Only

/-! ### The services -/

/-- The query asks for rows of the business. -/
def Query.Of (b : Uuid) : Query → Prop
  | customer _ businessId => businessId = b
  | countCustomers businessId => businessId = b
  | listCustomers businessId _ _ => businessId = b
  | invoice _ businessId => businessId = some b
  | countInvoices businessId _ => businessId = b
  | listInvoices businessId _ _ _ => businessId = b
  | activeEndpoints businessId => businessId = b
  | endpointOf _ businessId => businessId = b
  | _ => False

section Services

variable {P : Stmt → Prop} {business : Business} (hselect : ∀ q, q.Of business.id → P (.select q))

include hselect

omit hselect in
/-- An insert of a customer that violates the unique email is rolled back. -/
theorem only_createCustomer [Stmt.Plain P] {name email : String}
    (h : P (.insertCustomer business.id name email)) :
    Only P (createCustomer business name email) := by
  refine .bind (.catching (.bind (.issue h) .ofDb)) ?_
  rintro (e | customer)
  · cases e with
    | db e =>
      cases e with
      | integrity => exact .bind .rollback fun _ => .raise _
      | _ => exact .raise _
    | _ => exact .raise _
  · exact .pure _

theorem only_listCustomers (skip limit : ℕ) : Only P (listCustomers business skip limit) :=
  .bind (.select (hselect _ rfl)) fun _ => .bind (.select (hselect _ rfl)) fun _ => .pure _

theorem only_getCustomer (customerId : Uuid) : Only P (getCustomer business customerId) := by
  refine .bind (.select (hselect _ rfl)) ?_
  rintro (_ | customer)
  · exact .raise _
  · exact .pure _

theorem only_getInvoice (invoiceId : Uuid) : Only P (getInvoice business invoiceId) := by
  refine .bind (.selectInvoice (hselect _ rfl)) ?_
  rintro (_ | invoice)
  · exact .raise _
  · exact .pure _

/-- A page of invoices takes two queries, of the business. -/
theorem only_listInvoices (state : Option InvoiceState) (skip limit : ℕ) :
    Only P (listInvoices business state skip limit) :=
  .bind (.select (hselect _ rfl)) fun _ => .bind (.select (hselect _ rfl)) fun _ => .pure _

omit hselect in
/-- An endpoint is registered by one insert, under a random secret. -/
theorem only_createEndpoint [Stmt.Plain P] {url : String}
    (h : ∀ secret, P (.insertEndpoint business.id url secret)) :
    Only P (createEndpoint business url) :=
  .bind (.issue Stmt.Plain.secret) fun secret => .bind (.issue (h secret)) fun _ =>
    .bind (.ofDb _) fun _ => .pure _

variable (crypto : Crypto)

omit hselect in
/-- A delivery is posted, and what has become of it is written out later. -/
theorem only_deliver [Stmt.Plain P] (delivery : WebhookDelivery)
    (hendpoint : ∀ id, P (.select (.endpointById id)))
    (hpost : ∀ id url body headers, P (.post id url body headers))
    (hupdate : ∀ id change, P (.updateDelivery id change)) : Only P (deliver crypto delivery) := by
  refine .bind (.select (hendpoint _)) ?_
  rintro (_ | endpoint)
  · exact .touch (hupdate ..)
  refine .bind (.issue Stmt.Plain.clock) fun time => .bind (.issue (hpost ..)) fun result => ?_
  cases deliveryError result with
  | none => exact .bind (.issue Stmt.Plain.clock) fun _ => .touch (hupdate ..)
  | some error =>
    dsimp only
    split
    · exact .touch (hupdate ..)
    · exact .bind (.issue Stmt.Plain.clock) fun _ => .touch (hupdate ..)

omit hselect in
/-- **The worker** claims deliveries, posts them, and updates them. -/
theorem only_poll [Stmt.Plain P] (hclaim : ∀ now limit, P (.claimDeliveries now limit))
    (hendpoint : ∀ id, P (.select (.endpointById id)))
    (hpost : ∀ id url body headers, P (.post id url body headers))
    (hupdate : ∀ id change, P (.updateDelivery id change)) : Only P (poll crypto) := by
  have hall : ∀ deliveries, Only P (deliverAll crypto deliveries) := by
    intro deliveries
    induction deliveries with
    | nil => exact .pure _
    | cons delivery deliveries ih =>
      exact .bind (only_deliver crypto delivery hendpoint hpost hupdate) fun _ => ih
  refine .bind (.issue Stmt.Plain.clock) fun now => .bind (.issue (hclaim ..)) fun deliveries => ?_
  exact .bind (hall deliveries) fun _ => .commit

/-- The requests that insert at most one row of a kind. -/
def Request.Registers : Request → Prop
  | createCustomer .. | listCustomers .. | getCustomer _ | listInvoices .. | getInvoice _
  | createEndpoint _ | listEndpoints => True
  | _ => False

/-- The requests that register issue queries of their business, and the insert of one row. -/
theorem only_route [Stmt.Plain P] {req : Request} (h : req.Registers)
    (hcustomer : ∀ name email, P (.insertCustomer business.id name email))
    (hendpoint : ∀ url secret, P (.insertEndpoint business.id url secret)) :
    Only P (route crypto business req) := by
  cases req with
  | createCustomer name email =>
    exact .bind (only_createCustomer (hcustomer _ _)) fun _ => .bind .commit fun _ => .pure _
  | listCustomers skip limit => exact .bind (only_listCustomers hselect _ _) fun _ => .pure _
  | getCustomer customerId => exact .bind (only_getCustomer hselect _) fun _ => .pure _
  | listInvoices state skip limit =>
    change Only P (if state = "" then _ else _)
    split
    · exact .bind (only_listInvoices hselect _ _ _) fun _ => .pure _
    · cases InvoiceState.ofValue? state with
      | none => exact .raise _
      | some st => exact .bind (only_listInvoices hselect _ _ _) fun _ => .pure _
  | getInvoice invoiceId => exact .bind (only_getInvoice hselect _) fun _ => .pure _
  | createEndpoint url =>
    exact .bind (only_createEndpoint (hendpoint url)) fun _ => .bind .commit fun _ => .pure _
  | listEndpoints => exact .bind (.select (hselect _ rfl)) fun _ => .pure _
  | _ => exact h.elim

end Services

/-! ### Peripheral statements -/

/-- A statement that neither locks nor changes an invoice, writes no attempt and calls no
provider. -/
def Stmt.Peripheral : Stmt → Prop
  | lockInvoice .. => False
  | updateInvoice .. => False
  | insertAttempt _ => False
  | updateAttempt .. => False
  | sendCharge .. => False
  | awaitCharge => False
  | insertInvoice new => new.state = .draft
  | _ => True

instance : Stmt.Plain Stmt.Peripheral := ⟨trivial, trivial, trivial, trivial⟩

/-- The discipline of peripheral statements. -/
abbrev peripheral : Discipline Stmt Stmt.Resp Unit := only Stmt.Peripheral

/-- An event is written out as outbox rows. -/
theorem peripheral_enqueueEvent (businessId : Uuid) (eventType : EventType) (payload : Payload) :
    Only Stmt.Peripheral (enqueueEvent businessId eventType payload) := by
  refine .bind (.select trivial) fun endpoints => ?_
  split
  · exact .pure _
  · exact .bind (.issue trivial) fun _ => .touch trivial

/-- A new invoice is a draft, so that nobody is charged for it. -/
theorem peripheral_createInvoice (business : Business) (payload : InvoiceCreate) :
    Only Stmt.Peripheral (createInvoice business payload) := by
  refine .bind (.select trivial) ?_
  rintro (_ | customer)
  · exact .raise _
  refine .bind (.issue rfl) fun _ => .bind (.ofDb _) fun row => ?_
  refine .bind (.loadInvoice row) fun invoice => ?_
  refine .bind (.issue trivial) fun _ => .bind (.ofDb _) fun _ => ?_
  refine .bind (peripheral_enqueueEvent _ _ _) fun _ => ?_
  exact .bind (.selectInvoice trivial) .scalarOne

/-- An endpoint is updated at most, if it has been active. -/
theorem peripheral_deactivateEndpoint (business : Business) (endpointId : Uuid) :
    Only Stmt.Peripheral (deactivateEndpoint business endpointId) := by
  refine .bind (.select trivial) ?_
  rintro (_ | endpoint)
  · exact .pure _
  have hflush : Only Stmt.Peripheral (do flush; pure (some { endpoint with isActive := false })) :=
    .bind .flush fun _ => .pure _
  dsimp only
  split
  · exact .bind (.touch trivial) fun _ => hflush
  · exact hflush

/-- The requests that are not payments or transitions. -/
def Request.Peripheral : Request → Prop
  | finalize _ => False
  | void _ => False
  | uncollectible _ => False
  | pay .. => False
  | _ => True

instance : DecidablePred Request.Peripheral
  | .finalize _ | .void _ | .uncollectible _ | .pay .. => .isFalse id
  | .createCustomer .. | .listCustomers .. | .getCustomer .. | .createInvoice .. | .listInvoices ..
  | .getInvoice .. | .createEndpoint .. | .listEndpoints | .deactivateEndpoint .. => .isTrue trivial

/-- The requests but payments and transitions issue peripheral statements only. -/
theorem peripheral_route (crypto : Crypto) (business : Business) {req : Request}
    (h : req.Peripheral) : Only Stmt.Peripheral (route crypto business req) := by
  cases req with
  | createInvoice payload =>
    exact .bind (peripheral_createInvoice _ _) fun _ => .bind .commit fun _ => .pure _
  | deactivateEndpoint endpointId =>
    refine .bind (peripheral_deactivateEndpoint _ _) ?_
    rintro (_ | endpoint)
    · exact .raise _
    · exact .bind .commit fun _ => .pure _
  | finalize invoiceId => exact h.elim
  | void invoiceId => exact h.elim
  | uncollectible invoiceId => exact h.elim
  | pay invoiceId cardToken idempotencyKey => exact h.elim
  | _ =>
    exact only_route (fun _ _ => trivial) crypto trivial (fun _ _ => trivial) fun _ _ => trivial

/-- The jobs that are not payments or transitions. -/
def Job.Peripheral : Job → Prop
  | request _ req => req.Peripheral
  | poll => True

instance : DecidablePred Job.Peripheral
  | .request _ req => inferInstanceAs (Decidable req.Peripheral)
  | .poll => .isTrue trivial

/-- **The other programs issue peripheral statements only.** -/
theorem peripheral_program (crypto : Crypto) {job : Job} (h : job.Peripheral) :
    Prog.Keeps peripheral (fun _ _ => True) () (job.program crypto) := by
  cases job with
  | request business req => exact Only.getDb (peripheral_route crypto business h)
  | poll =>
    refine Only.getDb (.bind (only_poll crypto ?_ ?_ ?_ ?_) fun _ => .pure _)
    all_goals
      intros
      trivial

/-! ### Statements that register -/

/-- A statement that reads rows of a business and writes no more than a customer or an endpoint
of it; or, for no business, one that writes the progress of a delivery. -/
def Stmt.Registers (b : Option Uuid) : Stmt → Prop
  | select q => ∀ b' ∈ b, q.Of b'
  | lockInvoice .. => False
  | claimDeliveries .. => b = none
  | insertCustomer businessId _ _ => some businessId = b
  | insertEndpoint businessId _ _ => some businessId = b
  | updateDelivery .. => b = none
  | insertInvoice _ => False
  | insertLineItems .. => False
  | insertAttempt _ => False
  | insertDeliveries _ => False
  | updateInvoice .. => False
  | updateAttempt .. => False
  | deactivateEndpoint _ => False
  | _ => True

instance (b : Option Uuid) : Stmt.Plain (Stmt.Registers b) :=
  ⟨trivial, trivial, trivial, trivial⟩

/-- The requests that register issue no other statements. -/
theorem registers_request (crypto : Crypto) (business : Business) {req : Request}
    (h : req.Registers) : Prog.Keeps (only (Stmt.Registers (some business.id))) (fun _ _ => True) ()
      (Job.program crypto (.request business req)) :=
  Only.getDb (only_route (fun _ hq _ hb => Option.some.inj hb ▸ hq) crypto h (fun _ _ => rfl)
    fun _ _ => rfl)

/-- The worker updates deliveries only. -/
theorem registers_poll (crypto : Crypto) :
    Prog.Keeps (only (Stmt.Registers none)) (fun _ _ => True) () (Job.program crypto .poll) := by
  refine Only.getDb (.bind (only_poll crypto ?_ ?_ ?_ ?_) fun _ => .pure _)
  all_goals
    intros
    first | trivial | rfl | exact fun _ hb => by cases hb

end TenantBilling
