import Mathlib.Logic.Embedding.Basic
import TenantBilling.Model.Statements

/-!
# The database server and the outside world

The state the sessions share, and what each statement does to it, at the isolation
level the service runs at (`READ COMMITTED`).

A session's uncommitted writes are kept apart, tagged with the session: a
statement of session `p` reads the committed database with `p`'s own writes
applied (`TenantBilling.World.view`), a commit makes that view the committed
database, and a rollback forgets the writes. A row that is updated, or selected
`FOR UPDATE`, is locked by the session until its transaction ends.

A statement that has to wait is one that cannot be executed yet:
`TenantBilling.World.blockers` lists the sessions it waits for. There are two
kinds of waits. One is for the lock of a row. The other is implicit: an insert
that meets, in a unique index, an entry that an uncommitted transaction has
inserted or is replacing waits for that transaction.

An error of a statement aborts the transaction at once: the writes and the locks
of the session are gone.
-/

namespace TenantBilling

open Base

/-- The number of a session, in order of arrival. -/
abbrev Pid := ℕ

/-- The tables that have rows to lock or to insert. -/
inductive TableName where
  | customers | invoices | lineItems | attempts | endpoints | deliveries
deriving DecidableEq

/-- A row, by table and primary key. -/
structure RowRef where
  table : TableName
  id : Uuid
deriving DecidableEq

/-! ### Writes -/

/-- What a statement has written: rows with their generated columns, or a change of
one row. -/
inductive Write where
  | insertCustomer (row : Customer)
  | insertInvoice (row : Invoice)
  | insertLineItems (rows : List InvoiceLineItem)
  | insertAttempt (row : PaymentAttempt)
  | insertEndpoint (row : WebhookEndpoint)
  | insertDeliveries (rows : List WebhookDelivery)
  | updateInvoice (id : Uuid) (state : InvoiceState) (now : Timestamp)
  | updateAttempt (id : Uuid) (change : AttemptUpdate) (now : Timestamp)
  | deactivateEndpoint (id : Uuid)
  | updateDelivery (id : Uuid) (change : DeliveryUpdate)

/-- The columns of an attempt after an update; `updated_at` has `onupdate=now()`. -/
def PaymentAttempt.update (a : PaymentAttempt) (c : AttemptUpdate) (now : Timestamp) :
    PaymentAttempt :=
  { a with
    status := c.status.getD a.status
    pspRef := c.pspRef.getD a.pspRef
    failureCode := c.failureCode.getD a.failureCode
    updatedAt := now }

/-- The columns of an invoice after an update of its state. -/
def Invoice.update (v : Invoice) (state : InvoiceState) (now : Timestamp) : Invoice :=
  { v with state := state, updatedAt := now }

/-- The columns of a delivery after an update. -/
def WebhookDelivery.update (d : WebhookDelivery) (c : DeliveryUpdate) : WebhookDelivery :=
  { d with
    status := c.status.getD d.status
    attempts := c.attempts.getD d.attempts
    nextAttemptAt := c.nextAttemptAt.orElse fun _ => d.nextAttemptAt
    lastError := c.lastError.getD d.lastError
    deliveredAt := c.deliveredAt.orElse fun _ => d.deliveredAt }

@[simp] theorem PaymentAttempt.update_id (a : PaymentAttempt) (c : AttemptUpdate)
    (now : Timestamp) : (a.update c now).id = a.id := rfl

@[simp] theorem Invoice.update_id (v : Invoice) (state : InvoiceState) (now : Timestamp) :
    (v.update state now).id = v.id := rfl

@[simp] theorem WebhookDelivery.update_id (d : WebhookDelivery) (c : DeliveryUpdate) :
    (d.update c).id = d.id := rfl

/-- A write applied to the database. -/
def Database.apply (db : Database) : Write → Database
  | .insertCustomer row => { db with customers := db.customers.insert row }
  | .insertInvoice row => { db with invoices := db.invoices.insert row }
  | .insertLineItems rows => { db with lineItems := db.lineItems.insertAll rows }
  | .insertAttempt row => { db with attempts := db.attempts.insert row }
  | .insertEndpoint row => { db with endpoints := db.endpoints.insert row }
  | .insertDeliveries rows => { db with deliveries := db.deliveries.insertAll rows }
  | .updateInvoice id state now =>
    { db with invoices := db.invoices.update id (·.update state now) (·.update_id state now) }
  | .updateAttempt id change now =>
    { db with attempts := db.attempts.update id (·.update change now) (·.update_id change now) }
  | .deactivateEndpoint id =>
    { db with endpoints := db.endpoints.update id ({ · with isActive := false }) fun _ => rfl }
  | .updateDelivery id change =>
    { db with deliveries := db.deliveries.update id (·.update change) (·.update_id change) }

/-- Several writes applied in order. -/
def Database.applyAll (db : Database) (ws : List Write) : Database := ws.foldl Database.apply db

/-- The rows a write inserts. -/
def Write.inserted : Write → List RowRef
  | .insertCustomer row => [⟨.customers, row.id⟩]
  | .insertInvoice row => [⟨.invoices, row.id⟩]
  | .insertLineItems rows => rows.map fun row => ⟨.lineItems, row.id⟩
  | .insertAttempt row => [⟨.attempts, row.id⟩]
  | .insertEndpoint row => [⟨.endpoints, row.id⟩]
  | .insertDeliveries rows => rows.map fun row => ⟨.deliveries, row.id⟩
  | _ => []

/-- No row of the database has the reference. -/
def Database.Lacks (db : Database) (r : RowRef) : Prop :=
  match r.table with
  | .customers => db.customers.Free r.id
  | .invoices => db.invoices.Free r.id
  | .lineItems => db.lineItems.Free r.id
  | .attempts => db.attempts.Free r.id
  | .endpoints => db.endpoints.Free r.id
  | .deliveries => db.deliveries.Free r.id

instance (db : Database) (r : RowRef) : Decidable (db.Lacks r) := by
  unfold Database.Lacks
  split <;> infer_instance

/-! ### The shared state -/

/-- A call of the payment provider, with its outcome once it has arrived. -/
structure Charge where
  pid : Pid
  cardToken : String
  amountCents : ℤ
  idempotencyKey : String
  result : Option HttpResult

/-- A `POST` of the webhook worker. -/
structure Post where
  pid : Pid
  deliveryId : Uuid
  url : String
  body : String
  headers : List (String × String)
  result : HttpResult

/-- A committed transaction: whose it was and what it wrote. -/
structure Commit where
  pid : Pid
  writes : List Write

/-- The committed database, the uncommitted writes in the order they were made, the
row locks, and a record of what was committed and of what left the service. -/
structure World where
  db : Database
  inflight : List (Pid × Write)
  locks : RowRef → Option Pid
  history : List Commit
  charges : List Charge
  posts : List Post

/-- What the environment contributes to a statement: the UUIDs the server generates,
the time, the order of rows no `ORDER BY` decides, the text of an integrity error, the
outcome of an HTTP request, a random token. -/
structure Env where
  ids : ℕ → Uuid := fun n => n
  now : Timestamp := 0
  rank : Uuid ↪ ℕ := .refl ℕ
  errorText : String := ""
  http : HttpResult := .timeout
  token : String := ""

namespace World

/-- The service before the first request. -/
def init : World := ⟨.empty, [], fun _ => none, [], [], []⟩

/-- The uncommitted writes of a session. -/
def writesOf (w : World) (p : Pid) : List Write :=
  w.inflight.filterMap fun x => if x.1 = p then some x.2 else none

/-- What a session's statements read. -/
def view (w : World) (p : Pid) : Database := w.db.applyAll (w.writesOf p)

/-- A session writes. -/
def write (w : World) (p : Pid) (x : Write) : World := { w with inflight := w.inflight ++ [(p, x)] }

/-- A session locks a row. -/
def lock (w : World) (p : Pid) (r : RowRef) : World :=
  { w with locks := fun r' => if r' = r then some p else w.locks r' }

/-- The end of a session's transaction: its writes are no longer uncommitted and its
locks are released. -/
def release (w : World) (p : Pid) : World :=
  { w with
    inflight := w.inflight.filter fun x => x.1 ≠ p
    locks := fun r => if w.locks r = some p then none else w.locks r }

/-- `COMMIT`. -/
def commit (w : World) (p : Pid) : World :=
  release { w with db := w.view p, history := w.history ++ [⟨p, w.writesOf p⟩] } p

/-- A generated UUID is that of no row, committed or not. -/
def Fresh (w : World) (r : RowRef) : Prop :=
  w.db.Lacks r ∧ ∀ x ∈ w.inflight, r ∉ x.2.inserted

instance (w : World) (r : RowRef) : Decidable (w.Fresh r) :=
  inferInstanceAs (Decidable (_ ∧ _))

end World

/-! ### Constraints -/

/-- Why a row cannot be built from the values given. -/
inductive RowError where
  /-- One of these texts is not one its column stores. -/
  | unstorable (texts : List String)
  | outOfRange
  /-- A `CHECK` constraint, and the texts of the failing row. -/
  | check (constraint : String) (row : List String)

/-- A violated constraint: its name, the conflicting key values, and the other
texts of the failing row that the message may quote. -/
structure Violation where
  constraint : String
  quoted : List String
  row : List String

/-- `sub in text`. -/
def occursIn (sub text : String) : Prop := sub.toList <:+: text.toList

instance (sub text : String) : Decidable (occursIn sub text) :=
  inferInstanceAs (Decidable (sub.toList <:+: text.toList))

/-- The text the code looks for in an integrity error. -/
def onePendingMarker : String := "one_pending_per_invoice"

/-- **What the driver's text of a violation can be**: it contains the name of the
constraint and the conflicting key values; all else in it is the server's own fixed
words, which name no index, and texts of the failing row. -/
def Violation.Describes (v : Violation) (text : String) : Prop :=
  occursIn v.constraint text ∧ (∀ x ∈ v.quoted, occursIn x text) ∧
    (occursIn onePendingMarker text →
      occursIn onePendingMarker v.constraint ∨
        ∃ x ∈ v.quoted ++ v.row, occursIn onePendingMarker x)

instance (v : Violation) (text : String) : Decidable (v.Describes text) :=
  inferInstanceAs (Decidable (_ ∧ _ ∧ (_ → _)))

/-- The row that `INSERT INTO payment_attempts` builds. -/
def NewAttempt.row (new : NewAttempt) (id : Uuid) (now : Timestamp) :
    Except RowError PaymentAttempt :=
  match Varchar.ofString? 255 new.idempotencyKey, Varchar.ofString? 100 new.cardToken with
  | some idempotencyKey, some cardToken =>
    if amountPos : 0 < new.amountCents.val then
      .ok { id, invoiceId := new.invoiceId, idempotencyKey, requestHash := new.requestHash,
            status := new.status, amountCents := new.amountCents, cardToken, pspRef := none,
            failureCode := none, createdAt := now, updatedAt := now, amountPos }
    else .error (.check "ck_payment_attempts_amount_pos" [new.idempotencyKey, new.cardToken])
  | _, _ => .error (.unstorable [new.idempotencyKey, new.cardToken])

/-- Two attempts have one entry in `uq_payment_attempts_invoice_idem_key`. -/
def PaymentAttempt.sameKey (a b : PaymentAttempt) : Bool :=
  a.invoiceId = b.invoiceId && a.idempotencyKey = b.idempotencyKey

/-- Two attempts have one entry in `uq_payment_attempts_one_pending_per_invoice`. -/
def PaymentAttempt.samePending (a b : PaymentAttempt) : Bool :=
  a.invoiceId = b.invoiceId && a.status = .pending && b.status = .pending

/-- The violation of `uq_payment_attempts_invoice_idem_key`. -/
def PaymentAttempt.keyViolation (a : PaymentAttempt) : Violation :=
  ⟨"uq_payment_attempts_invoice_idem_key", [Uuid.str a.invoiceId, a.idempotencyKey.text], []⟩

/-- The violation of `uq_payment_attempts_one_pending_per_invoice`. -/
def PaymentAttempt.pendingViolation (a : PaymentAttempt) : Violation :=
  ⟨"uq_payment_attempts_one_pending_per_invoice", [Uuid.str a.invoiceId], []⟩

/-- The violation of the foreign key on `invoices`. -/
def PaymentAttempt.invoiceViolation (a : PaymentAttempt) : Violation :=
  ⟨"payment_attempts_invoice_id_fkey", [Uuid.str a.invoiceId], []⟩

/-- The row that `INSERT INTO customers` builds. -/
def customerRow (businessId : Uuid) (name email : String) (id : Uuid) (now : Timestamp) :
    Except RowError Customer :=
  match Varchar.ofString? 200 name, Varchar.ofString? 320 email with
  | some name, some email => .ok ⟨id, businessId, name, email, now, now⟩
  | _, _ => .error (.unstorable [name, email])

/-- Two customers have one entry in `uq_customers_business_email`. -/
def Customer.sameEmail (c d : Customer) : Bool :=
  c.businessId = d.businessId && c.email = d.email

/-- The row that `INSERT INTO invoices` builds. -/
def NewInvoice.row (new : NewInvoice) (id : Uuid) (now : Timestamp) : Except RowError Invoice :=
  match SignedInt.ofInt? 64 new.totalCents with
  | some totalCents =>
    if totalNonneg : 0 ≤ totalCents.val then
      .ok { id, businessId := new.businessId, customerId := new.customerId, state := new.state,
            totalCents, dueDate := new.dueDate, createdAt := now, updatedAt := now, totalNonneg }
    else .error (.check "ck_invoices_total_nonneg" [])
  | none => .error .outOfRange

/-- The row that `INSERT INTO invoice_line_items` builds. The driver binds the numbers before the
server sees the text. -/
def NewLineItem.row (new : NewLineItem) (invoiceId id : Uuid) (now : Timestamp) :
    Except RowError InvoiceLineItem :=
  match Varchar.ofString? 500 new.description, SignedInt.ofInt? 32 new.quantity,
    SignedInt.ofInt? 64 new.unitAmountCents, SignedInt.ofInt? 64 new.amountCents with
  | some description, some quantity, some unitAmountCents, some amountCents =>
    if amountMatches : amountCents.val = quantity.val * unitAmountCents.val then
      if qtyPositive : 0 < quantity.val then
        if unitAmountNonneg : 0 ≤ unitAmountCents.val then
          .ok { id, invoiceId, description, quantity, unitAmountCents, amountCents,
                createdAt := now, qtyPositive, unitAmountNonneg, amountMatches }
        else .error (.check "ck_line_items_unit_amount_nonneg" [new.description])
      else .error (.check "ck_line_items_qty_positive" [new.description])
    else .error (.check "ck_line_items_amount_matches" [new.description])
  | none, some _, some _, some _ => .error (.unstorable [new.description])
  | _, _, _, _ => .error .outOfRange

/-- The rows of a multi-row insert; the `k`-th row gets the `k`-th generated UUID. -/
def buildRows {ν ρ : Type} (build : ν → Uuid → Except RowError ρ) (ids : ℕ → Uuid) :
    ℕ → List ν → Except RowError (List ρ)
  | _, [] => .ok []
  | k, n :: ns =>
    match build n (ids k), buildRows build ids (k + 1) ns with
    | .ok r, .ok rs => .ok (r :: rs)
    | .error e, _ => .error e
    | _, .error e => .error e

/-- The row that `INSERT INTO webhook_endpoints` builds. -/
def endpointRow (businessId : Uuid) (url signingSecret : String) (id : Uuid) (now : Timestamp) :
    Except RowError WebhookEndpoint :=
  match Varchar.ofString? 2000 url, Varchar.ofString? 64 signingSecret with
  | some url, some signingSecret => .ok ⟨id, businessId, url, signingSecret, true, now⟩
  | _, _ => .error (.unstorable [url, signingSecret])

/-- The row that `INSERT INTO webhook_deliveries` builds. Its `payload` is a `JSONB` column. -/
def NewDelivery.row (new : NewDelivery) (id : Uuid) (now : Timestamp) : WebhookDelivery :=
  { id, webhookEndpointId := new.webhookEndpointId, eventType := new.eventType,
    payload := new.payload.jsonb, status := new.status, attempts := new.attempts,
    nextAttemptAt := new.nextAttemptAt, lastError := none, createdAt := now, deliveredAt := none }

/-- The error for texts of which one is not storable: a `U+0000` is found when the texts are bound,
before any of them is put in its column. -/
def textError (texts : List String) : DbError :=
  if texts.any fun text => nul ∈ text.toList then .characterNotInRepertoire
  else .stringDataRightTruncation

/-- It is never an `IntegrityError`. -/
theorem textError_ne_integrity {texts : List String} {errorMsg : String} :
    textError texts ≠ .integrity errorMsg := by
  unfold textError
  split <;> simp

/-- A Python value bound to a nullable `VARCHAR(n)` column: `None`, or a text of the column. -/
def Json.store (n : ℕ) : Json → Except DbError (Option (Varchar n))
  | .null => .ok none
  | .str s =>
    match Varchar.ofString? n s with
    | some v => .ok (some v)
    | none => .error (textError [s])
  | _ => .error .invalidParameter

/-- The same for an attribute that may have been left alone. -/
def storeIfSet (n : ℕ) : Option Json → Except DbError (Option (Option (Varchar n)))
  | none => .ok none
  | some j => (j.store n).map some

/-- An update of an attempt with its values bound. -/
def AttemptChange.bind (c : AttemptChange) : Except DbError AttemptUpdate :=
  match storeIfSet 100 c.pspRef, storeIfSet 50 c.failureCode with
  | .ok pspRef, .ok failureCode => .ok ⟨c.status, pspRef, failureCode⟩
  | .error e, _ => .error e
  | _, .error e => .error e

/-- An update of a delivery with its values bound. -/
def DeliveryChange.bind (c : DeliveryChange) : Except DbError DeliveryUpdate :=
  match storeIfSet 2000 (c.lastError.map fun e => (e.map Json.str).getD .null) with
  | .ok lastError => .ok ⟨c.status, c.attempts, c.nextAttemptAt, lastError, c.deliveredAt⟩
  | .error e => .error e

namespace World

/-! ### Waiting -/

/-- The session that has locked a row, if it is another one. -/
def lockWaits (w : World) (p : Pid) (r : RowRef) : List Pid :=
  match w.locks r with
  | some q => if q = p then [] else [q]
  | none => []

/-- The index entries of `payment_attempts` that an uncommitted write has inserted or
is replacing. -/
def touchedAttempts (w : World) : Write → List PaymentAttempt
  | .insertAttempt row => [row]
  | .updateAttempt id change now =>
    match w.db.attempts.find? id with
    | some row => [row, row.update change now]
    | none => []
  | _ => []

/-- The other sessions with an uncommitted write of an attempt that conflicts. -/
def attemptWaits (w : World) (p : Pid) (conflicts : PaymentAttempt → Bool) : List Pid :=
  (w.inflight.filter fun x => x.1 ≠ p && (w.touchedAttempts x.2).any conflicts).map Prod.fst

/-- The other sessions with an uncommitted customer of one email. -/
def customerWaits (w : World) (p : Pid) (row : Customer) : List Pid :=
  (w.inflight.filter fun x => x.1 ≠ p && match x.2 with
    | .insertCustomer row' => row'.sameEmail row
    | _ => false).map Prod.fst

/-- **The sessions a statement waits for.** The unique indexes are checked in the
order of their creation, so a conflict in the index on the idempotency key is met
first. -/
def blockers (w : World) (p : Pid) : Stmt → List Pid
  | .lockInvoice id businessId =>
    match (w.view p).invoices.find? id with
    | some v => if v.belongsTo businessId then w.lockWaits p ⟨.invoices, id⟩ else []
    | none => []
  | .updateInvoice id _ => w.lockWaits p ⟨.invoices, id⟩
  | .updateAttempt id _ => w.lockWaits p ⟨.attempts, id⟩
  | .deactivateEndpoint id => w.lockWaits p ⟨.endpoints, id⟩
  | .updateDelivery id _ => w.lockWaits p ⟨.deliveries, id⟩
  | .insertAttempt new =>
    match new.row 0 0 with
    | .error _ => []
    | .ok row =>
      match w.attemptWaits p (row.sameKey ·) with
      | [] =>
        if (w.view p).attempts.rows.any (row.sameKey ·) then []
        else w.attemptWaits p (row.samePending ·)
      | ps => ps
  | .insertCustomer businessId name email =>
    match customerRow businessId name email 0 0 with
    | .error _ => []
    | .ok row => w.customerWaits p row
  | _ => []

/-! ### Executing a statement -/

/-- A statement fails and its transaction is aborted. -/
def refuse {α : Type} (w : World) (p : Pid) (e : DbError) : Except DbError α × World :=
  (.error e, w.release p)

/-- A statement violates a constraint; the text of the error is the environment's. -/
def violate {α : Type} (w : World) (p : Pid) (env : Env) (v : Violation) :
    Option (Except DbError α × World) :=
  if v.Describes env.errorText then some (w.refuse p (.integrity env.errorText)) else none

/-- A row that cannot be built is refused. -/
def reject {α : Type} (w : World) (p : Pid) (env : Env) :
    RowError → Option (Except DbError α × World)
  | .unstorable texts => some (w.refuse p (textError texts))
  | .outOfRange => some (w.refuse p .numericValueOutOfRange)
  | .check constraint row => w.violate p env ⟨constraint, [], row⟩

/-- `INSERT INTO payment_attempts … RETURNING …`. -/
def insertAttempt (w : World) (p : Pid) (env : Env) (new : NewAttempt) :
    Option (Except DbError PaymentAttempt × World) :=
  match new.row (env.ids 0) env.now with
  | .error e => w.reject p env e
  | .ok row =>
    if (w.view p).attempts.rows.any (row.sameKey ·) then w.violate p env row.keyViolation
    else if (w.view p).attempts.rows.any (row.samePending ·) then
      w.violate p env row.pendingViolation
    else if (w.view p).invoices.Free row.invoiceId then w.violate p env row.invoiceViolation
    else if w.Fresh ⟨.attempts, row.id⟩ then some (.ok row, w.write p (.insertAttempt row))
    else none

/-- `INSERT INTO customers … RETURNING …`. -/
def insertCustomer (w : World) (p : Pid) (env : Env) (businessId : Uuid) (name email : String) :
    Option (Except DbError Customer × World) :=
  match customerRow businessId name email (env.ids 0) env.now with
  | .error e => w.reject p env e
  | .ok row =>
    if (w.view p).customers.rows.any (row.sameEmail ·) then
      w.violate p env ⟨"uq_customers_business_email", [Uuid.str businessId, email], []⟩
    else if w.Fresh ⟨.customers, row.id⟩ then some (.ok row, w.write p (.insertCustomer row))
    else none

/-- `INSERT INTO invoices … RETURNING …`. -/
def insertInvoice (w : World) (p : Pid) (env : Env) (new : NewInvoice) :
    Option (Except DbError Invoice × World) :=
  match new.row (env.ids 0) env.now with
  | .error e => w.reject p env e
  | .ok row =>
    if w.Fresh ⟨.invoices, row.id⟩ then some (.ok row, w.write p (.insertInvoice row)) else none

/-- `INSERT INTO invoice_line_items …`, all rows in one statement. -/
def insertLineItems (w : World) (p : Pid) (env : Env) (invoiceId : Uuid) (new : List NewLineItem) :
    Option (Except DbError Unit × World) :=
  match buildRows (fun n id => n.row invoiceId id env.now) env.ids 0 new with
  | .error e => w.reject p env e
  | .ok rows =>
    if (rows.map InvoiceLineItem.id).Nodup ∧ ∀ row ∈ rows, w.Fresh ⟨.lineItems, row.id⟩ then
      some (.ok (), w.write p (.insertLineItems rows))
    else none

/-- `INSERT INTO webhook_endpoints … RETURNING …`. -/
def insertEndpoint (w : World) (p : Pid) (env : Env) (businessId : Uuid) (url secret : String) :
    Option (Except DbError WebhookEndpoint × World) :=
  match endpointRow businessId url secret (env.ids 0) env.now with
  | .error e => w.reject p env e
  | .ok row =>
    if w.Fresh ⟨.endpoints, row.id⟩ then some (.ok row, w.write p (.insertEndpoint row)) else none

/-- `INSERT INTO webhook_deliveries …`, all rows in one statement. -/
def insertDeliveries (w : World) (p : Pid) (env : Env) (new : List NewDelivery) :
    Option (Except DbError Unit × World) :=
  let rows := new.mapIdx fun k n => n.row (env.ids k) env.now
  if (rows.map WebhookDelivery.id).Nodup ∧ ∀ row ∈ rows, w.Fresh ⟨.deliveries, row.id⟩ then
    some (.ok (), w.write p (.insertDeliveries rows))
  else none

/-- `SELECT … FROM invoices WHERE … FOR UPDATE`. -/
def lockInvoice (w : World) (p : Pid) (id : Uuid) (businessId : Option Uuid) :
    Except DbError (Option Invoice) × World :=
  match (w.view p).invoices.find? id with
  | some v =>
    if v.belongsTo businessId then (.ok (some v), w.lock p ⟨.invoices, id⟩) else (.ok none, w)
  | none => (.ok none, w)

/-- The deliveries that are due and not locked by another session, oldest first. -/
def dueDeliveries (w : World) (p : Pid) (rank : Uuid → ℕ) (now : Timestamp) (limit : ℕ) :
    List WebhookDelivery :=
  (((w.view p).deliveries.rows.filter fun d =>
    d.status = .pending && d.nextAttemptAt.any (· ≤ now) &&
      (w.lockWaits p ⟨.deliveries, d.id⟩).isEmpty).insertionSort fun a b =>
        a.nextAttemptAt.getD 0 < b.nextAttemptAt.getD 0 ∨
          a.nextAttemptAt.getD 0 = b.nextAttemptAt.getD 0 ∧ rank a.id ≤ rank b.id).take limit

/-- An update of a row, which locks it. -/
def updateRow (w : World) (p : Pid) (r : RowRef) (x : Write) : Except DbError Unit × World :=
  (.ok (), (w.lock p r).write p x)

/-- The outcome of a session's outstanding call is recorded. -/
def recordCharge (w : World) (p : Pid) (result : HttpResult) : World :=
  { w with charges := w.charges.map fun c =>
      if c.pid = p ∧ c.result.isNone then { c with result := some result } else c }

/-- What a statement that need not wait does. -/
def perform (w : World) (p : Pid) (env : Env) : (st : Stmt) → Option (st.Resp × World)
  | .select q => some ((w.view p).eval env.rank q, w)
  | .lockInvoice id businessId => some (w.lockInvoice p id businessId)
  | .claimDeliveries now limit =>
    let due := w.dueDeliveries p env.rank now limit
    some (due, due.foldl (fun w d => w.lock p ⟨.deliveries, d.id⟩) w)
  | .insertCustomer businessId name email => w.insertCustomer p env businessId name email
  | .insertInvoice new => w.insertInvoice p env new
  | .insertLineItems invoiceId new => w.insertLineItems p env invoiceId new
  | .insertAttempt new => w.insertAttempt p env new
  | .insertEndpoint businessId url signingSecret =>
    w.insertEndpoint p env businessId url signingSecret
  | .insertDeliveries new => w.insertDeliveries p env new
  | .updateInvoice id state =>
    some (w.updateRow p ⟨.invoices, id⟩ (.updateInvoice id state env.now))
  | .updateAttempt id change =>
    match change.bind with
    | .ok update => some (w.updateRow p ⟨.attempts, id⟩ (.updateAttempt id update env.now))
    | .error e => some (w.refuse p e)
  | .deactivateEndpoint id => some (w.updateRow p ⟨.endpoints, id⟩ (.deactivateEndpoint id))
  | .updateDelivery id change =>
    match change.bind with
    | .ok update => some (w.updateRow p ⟨.deliveries, id⟩ (.updateDelivery id update))
    | .error e => some (w.refuse p e)
  | .commit => some ((), w.commit p)
  | .rollback => some ((), w.release p)
  | .sendCharge cardToken amountCents idempotencyKey =>
    some ((), { w with charges :=
      w.charges ++ [⟨p, cardToken, amountCents, idempotencyKey, none⟩] })
  | .awaitCharge => some (env.http, w.recordCharge p env.http)
  | .post deliveryId url body headers =>
    some (env.http, { w with posts := w.posts ++ [⟨p, deliveryId, url, body, headers, env.http⟩] })
  | .clock => some (env.now, w)
  | .secret => some (env.token, w)

/-- A statement is executed once it need not wait. -/
def exec (w : World) (p : Pid) (env : Env) (st : Stmt) : Option (st.Resp × World) :=
  if w.blockers p st = [] then w.perform p env st else none

/-- The deadlock detector makes a waiting statement fail. -/
def fail (w : World) (p : Pid) (e : DbError) : (st : Stmt) → Option (st.Resp × World)
  | .lockInvoice .. => some (w.refuse p e)
  | .insertCustomer .. => some (w.refuse p e)
  | .insertAttempt .. => some (w.refuse p e)
  | .updateInvoice .. => some (w.refuse p e)
  | .updateAttempt .. => some (w.refuse p e)
  | .deactivateEndpoint .. => some (w.refuse p e)
  | .updateDelivery .. => some (w.refuse p e)
  | _ => none

end World

end TenantBilling
