import TenantBilling.Invariant.Reads
import TenantBilling.Invariant.Transactions
import TenantBilling.Properties.DeliveryStates
import TenantBilling.Properties.Noninterference

/-!
# Every change of state has its event, and every event its change

An invoice that is created, and an attempt that succeeds or fails, is told to every endpoint that
its transaction has read as active, once, and nothing else is told to anybody
(`TenantBilling.outbox_exact`). What a transaction has read is read off the transcript of its
session (`TenantBilling.endpointsRead?`), and what has an event is read off the databases before and
after a commit (`TenantBilling.Database.Happened`). A transaction that has an event must have read
the endpoints since the last commit, so that one that does not know of its event would be found.
-/

namespace TenantBilling

open Base World

/-! ### Events -/

/-- A column of texts as a value of a payload. -/
def storedJson {n : ℕ} (v : Option (Varchar n)) : Json :=
    (v.map fun v => Json.str v.text).getD .null

/-- From one database to another, the attempt gets the status. -/
structure Database.Becomes (db db' : Database) (target : PaymentStatus) (a : PaymentAttempt) :
    Prop where
  found : db'.attempts.find? a.id = some a
  status : a.status = target
  before : ∀ b, db.attempts.find? a.id = some b → b.status ≠ target

/-- **What has an event**, in going from one database to another: the type of the event, its
payload, and the business whose endpoints are to be told. -/
inductive Database.Happened (db db' : Database) : EventType → Payload → Uuid → Prop where
  | created {v : Invoice} (hnew : db.invoices.find? v.id = none)
    (hv : db'.invoices.find? v.id = some v) :
    Happened db db' .invoiceCreated (createdPayload v) v.businessId
  | paid {a : PaymentAttempt} {v : Invoice} (ha : db.Becomes db' .succeeded a)
    (hv : db'.invoices.find? a.invoiceId = some v) :
    Happened db db' .invoicePaid [("invoice_id", .uuid a.invoiceId),
      ("amount_cents", .cents a.amountCents.val),
        ("psp_ref", .json (storedJson a.pspRef))] v.businessId
  | failed {a : PaymentAttempt} {v : Invoice} (ha : db.Becomes db' .failed a)
    (hv : db'.invoices.find? a.invoiceId = some v) :
    Happened db db' .invoicePaymentFailed [("invoice_id", .uuid a.invoiceId),
      ("failure_code", .json (storedJson a.failureCode)),
        ("amount_cents", .cents a.amountCents.val)]
      v.businessId

/-- The deliveries that the second database has, and the first one has not. -/
def Database.added (db db' : Database) : List WebhookDelivery :=
  db'.deliveries.rows.filter fun d => (db.deliveries.find? d.id).isNone

/-- The delivery is a new one that tells the endpoint of the event. -/
structure WebhookDelivery.Tells (eventType : EventType) (payload : Payload) (d : WebhookDelivery)
    (e : WebhookEndpoint) : Prop where
  endpoint : d.webhookEndpointId = e.id
  eventType : d.eventType = eventType
  /-- The keys are in the order of the `JSONB` column. -/
  payload : d.payload = payload.jsonb
  status : d.status = .pending
  attempts : d.attempts = 0

/-- **The outbox is exact**: where something has an event, the transaction has read the active
endpoints of the business, and has told it to them, one delivery for each; and where nothing has an
event there is no delivery. -/
structure OutboxExact (db db' : Database) (told : List (Exchange Stmt Stmt.Resp)) : Prop where
  told : ∀ eventType payload b, db.Happened db' eventType payload b →
    ∃ endpoints, endpointsRead? b told = some endpoints ∧
      List.Forall₂ (WebhookDelivery.Tells eventType payload) (db.added db') endpoints ∧
      (endpoints.map WebhookEndpoint.id).Nodup ∧
      ∀ e ∈ endpoints, e.businessId = b ∧ e.isActive = true
  untold : (∀ eventType payload b, ¬db.Happened db' eventType payload b) → db.added db' = []

/-! ### What writes add, and what has an event of them -/

section Databases

variable {db db' : Database} {ws : List Write}

/-- A write that tells nothing: it inserts no invoice and no delivery, and makes no attempt succeed
or fail. -/
def Write.Silent : Write → Prop
  | insertInvoice _ | insertDeliveries _ => False
  | insertAttempt a => a.status = .pending
  | updateAttempt _ update _ => update.status = none
  | _ => True

theorem Write.Silent.inserted {x : Write} (hx : x.Silent) :
    ∀ r ∈ x.inserted, r.table ≠ .invoices ∧ r.table ≠ .deliveries := by
  intro r hr
  cases x with
  | insertInvoice row => exact hx.elim
  | insertDeliveries rows => exact hx.elim
  | insertLineItems rows =>
    obtain ⟨row, -, rfl⟩ := List.mem_map.mp hr
    exact ⟨by rintro ⟨⟩, by rintro ⟨⟩⟩
  | insertCustomer row | insertAttempt row | insertEndpoint row =>
    rw [List.mem_singleton.mp hr]
    exact ⟨by rintro ⟨⟩, by rintro ⟨⟩⟩
  | _ => cases hr

theorem Database.added_eq_nil (h : ∀ x ∈ ws, ∀ r ∈ x.inserted, r.table ≠ .deliveries) :
    db.added (db.applyAll ws) = [] := by
  refine List.filter_eq_nil_iff.mpr fun d hd hnone => ?_
  have hrow : (db.applyAll ws).row ⟨.deliveries, d.id⟩ = none := by
    refine row_applyAll_eq_none (fun x hx hr => h x hx _ hr rfl) ?_
    exact congrArg (Option.map Row.delivery) (Option.isNone_iff_eq_none.mp hnone)
  have hfind : (db.applyAll ws).deliveries.find? d.id = some d := Table.find?_key hd
  rw [Database.row, hfind] at hrow
  cases hrow

/-- Fresh deliveries that are inserted are those that are added. -/
theorem Database.added_insertAll {rows : List WebhookDelivery}
    (hdeliveries : db'.deliveries = db.deliveries.insertAll rows)
    (hfree : ∀ d ∈ rows, db.deliveries.Free d.id) (hnodup : (rows.map WebhookDelivery.id).Nodup) :
    db.added db' = rows := by
  unfold Database.added
  rw [hdeliveries, Table.rows_insertAll hfree hnodup, List.filter_append,
    List.filter_eq_nil_iff.mpr, List.nil_append, List.filter_eq_self]
  · intro d hd
    exact Option.isNone_iff_eq_none.mpr (Table.free_iff.mp (hfree d hd))
  · intro d hd hnone
    rw [Table.find?_key hd] at hnone
    cases hnone

/-- An invoice is created only where one is inserted. -/
theorem Database.not_created (h : ∀ x ∈ ws, ∀ r ∈ x.inserted, r.table ≠ .invoices) {v : Invoice}
    (hnew : db.invoices.find? v.id = none) : (db.applyAll ws).invoices.find? v.id ≠ some v := by
  intro hv
  have hrow : (db.applyAll ws).row ⟨.invoices, v.id⟩ = none :=
    row_applyAll_eq_none (fun x hx hr => h x hx _ hr rfl) (congrArg (Option.map Row.invoice) hnew)
  rw [Database.row, hv] at hrow
  cases hrow

/-- After a silent write an attempt has the status it had, or is a new one. -/
theorem Write.Silent.status {x : Write} (hx : x.Silent) {a : PaymentAttempt} {i : Uuid}
    (ha : (db.apply x).attempts.find? i = some a) :
    a.status = .pending ∨ ∃ b, db.attempts.find? i = some b ∧ b.status = a.status := by
  cases x with
  | insertAttempt row =>
    rw [Database.apply, Table.find?_insert, Option.or_eq_some_iff] at ha
    rcases ha with ha | ⟨-, ha⟩
    · exact Or.inr ⟨a, ha, rfl⟩
    · split at ha
      · cases ha
        exact Or.inl hx
      · cases ha
  | updateAttempt j update now =>
    rw [Database.apply, Table.find?_update] at ha
    split at ha
    case isTrue hi =>
      subst hi
      obtain ⟨b, hb, rfl⟩ := Option.map_eq_some_iff.mp ha
      refine Or.inr ⟨b, hb, ?_⟩
      rw [PaymentAttempt.update, show update.status = none from hx]
      rfl
    case isFalse => exact Or.inr ⟨a, ha, rfl⟩
  | _ => exact Or.inr ⟨a, ha, rfl⟩

theorem status_of_silent (hws : ∀ x ∈ ws, x.Silent) {a : PaymentAttempt} {i : Uuid}
    (ha : (db.applyAll ws).attempts.find? i = some a) :
    a.status = .pending ∨ ∃ b, db.attempts.find? i = some b ∧ b.status = a.status := by
  induction ws generalizing db with
  | nil => exact Or.inr ⟨a, ha, rfl⟩
  | cons x ws ih =>
    rcases ih (fun y hy => hws y (List.mem_cons_of_mem _ hy)) ha with ha | ⟨b, hb, hstatus⟩
    · exact Or.inl ha
    · rcases (hws x List.mem_cons_self).status hb with hpending | ⟨b', hb', hstatus'⟩
      · exact Or.inl (hstatus ▸ hpending)
      · exact Or.inr ⟨b', hb', hstatus'.trans hstatus⟩

/-- Where all writes are silent nothing has an event. -/
theorem Database.Happened.not_silent {eventType : EventType} {payload : Payload} {b : Uuid}
    (hws : ∀ x ∈ ws, x.Silent) : ¬db.Happened (db.applyAll ws) eventType payload b := by
  have hbecomes : ∀ {status a}, status ≠ .pending → ¬db.Becomes (db.applyAll ws) status a := by
    intro status a hne h
    rcases status_of_silent hws h.found with hpending | ⟨b, hb, hstatus⟩
    · exact hne (h.status.symm.trans hpending)
    · exact h.before b hb (hstatus.trans h.status)
  rintro (⟨hnew, hv⟩ | ⟨ha, -⟩ | ⟨ha, -⟩)
  · exact Database.not_created (fun x hx r hr => ((hws x hx).inserted r hr).1) hnew hv
  · exact hbecomes (by rintro ⟨⟩) ha
  · exact hbecomes (by rintro ⟨⟩) ha

/-- Silent writes are told to nobody. -/
theorem OutboxExact.of_silent (hws : ∀ x ∈ ws, x.Silent) (told : List (Exchange Stmt Stmt.Resp)) :
    OutboxExact db (db.applyAll ws) told := by
  refine ⟨fun _ _ _ h => absurd h (Database.Happened.not_silent hws), fun _ => ?_⟩
  exact Database.added_eq_nil fun x hx r hr => ((hws x hx).inserted r hr).2

/-! ### The outbox rows of an event -/

/-- The rows of an event tell each of the endpoints. -/
theorem tells_deliveryRows (eventType : EventType) (payload : Payload) (now : Timestamp) (env : Env)
    (endpoints : List WebhookEndpoint) :
    List.Forall₂ (WebhookDelivery.Tells eventType payload)
      (deliveryRows env (endpoints.map (newDelivery eventType payload now))) endpoints := by
  refine List.forall₂_iff_get.mpr ⟨by simp [deliveryRows], fun i h h' => ?_⟩
  simp only [List.get_eq_getElem, deliveryRows, List.getElem_mapIdx, List.getElem_map]
  exact ⟨rfl, rfl, rfl, rfl, rfl⟩

/-- Writes that end with the outbox rows of an event add these rows. -/
theorem Database.tells_added {eventType : EventType} {payload : Payload}
    {endpoints : List WebhookEndpoint} {pre rest : List Write} (hfits : db.Fits (pre ++ rest))
    (hpre : (db.applyAll pre).deliveries = db.deliveries)
    (hrest : endpoints = [] ∧ rest = [] ∨ ∃ now env, rest = [.insertDeliveries (deliveryRows env
      (endpoints.map (newDelivery eventType payload now)))]) :
    List.Forall₂ (WebhookDelivery.Tells eventType payload) (db.added (db.applyAll (pre ++ rest)))
      endpoints := by
  rcases hrest with ⟨rfl, rfl⟩ | ⟨now, env, rfl⟩
  · have hnone : db.added (db.applyAll pre) = [] :=
      Database.added_insertAll hpre (by simp) List.nodup_nil
    rw [List.append_nil, hnone]
    exact .nil
  · set rows := deliveryRows env (endpoints.map (newDelivery eventType payload now)) with hrows
    have hdeliveries : (db.applyAll (pre ++ [.insertDeliveries rows])).deliveries =
        db.deliveries.insertAll rows := by
      rw [← hpre, Database.applyAll, List.foldl_append]
      rfl
    have hfree : ∀ d ∈ rows, db.deliveries.Free d.id := by
      intro d hd
      have hrow := hfits.fresh _ (List.mem_append_right _ (List.mem_singleton_self _))
        ⟨.deliveries, d.id⟩ (List.mem_map.mpr ⟨d, hd, rfl⟩)
      exact Table.free_iff.mpr (Option.map_eq_none_iff.mp hrow)
    have hnodup : (rows.map WebhookDelivery.id).Nodup := by
      have hinserted := hfits.nodup
      rw [List.flatMap_append, List.flatMap_singleton] at hinserted
      refine List.Nodup.of_map (fun i => (⟨.deliveries, i⟩ : RowRef)) ?_
      rw [List.map_map]
      exact hinserted.of_append_right
    rw [Database.added_insertAll hdeliveries hfree hnodup]
    exact tells_deliveryRows ..

/-- The text that is stored is the one that is sent. -/
theorem storedJson_store {n : ℕ} {j : Json} {v : Option (Varchar n)} (h : j.store n = .ok v) :
    storedJson v = j := by
  cases j with
  | null =>
    cases h
    rfl
  | str s =>
    simp only [Json.store] at h
    split at h
    case h_1 v' hv =>
      cases h
      exact congrArg Json.str (Varchar.ofString?_eq_some.mp hv)
    case h_2 => cases h
  | _ => cases h

theorem bind_result {result : PspChargeResult} {update : AttemptUpdate}
    (h : (outcomeChange (.ok result)).bind = .ok update) (a : PaymentAttempt) (now : Timestamp) :
    result.Succeeded ∧ (a.update update now).status = .succeeded ∧
        storedJson (a.update update now).pspRef = result.pspRef ∨
      ¬result.Succeeded ∧ (a.update update now).status = .failed ∧
        storedJson (a.update update now).failureCode = result.code := by
  by_cases hresult : result.Succeeded
  · rw [outcomeChange, if_pos hresult] at h
    simp only [succeededChange, AttemptChange.bind, storeIfSet] at h
    cases hstore : result.pspRef.store 100 with
    | error e =>
      rw [hstore] at h
      cases h
    | ok ref =>
      rw [hstore] at h
      cases h
      exact Or.inl ⟨hresult, rfl, storedJson_store hstore⟩
  · rw [outcomeChange, if_neg hresult] at h
    simp only [failedChange, AttemptChange.bind, storeIfSet] at h
    cases hstore : result.code.store 50 with
    | error e =>
      rw [hstore] at h
      cases h
    | ok code =>
      rw [hstore] at h
      cases h
      exact Or.inr ⟨hresult, rfl, storedJson_store hstore⟩

/-! ### The transactions that tell something -/

theorem Database.Becomes.of_update {a b : PaymentAttempt} {update : AttemptUpdate} {now : Timestamp}
    {target : PaymentStatus} (h : db.Becomes db' target b) (hfind : db.attempts.find? a.id = some a)
    (hattempts :
      db'.attempts = db.attempts.update a.id (·.update update now) (·.update_id update now)) :
    b = a.update update now := by
  have hfound := h.found
  rw [hattempts, Table.find?_update] at hfound
  split at hfound
  case isTrue hid =>
    rw [hfind] at hfound
    exact (Option.some.inj hfound).symm
  case isFalse => exact absurd h.status (h.before b hfound)

/-- **A transaction that persists a result** tells the endpoints of it. -/
theorem OutboxExact.of_settled {c : PayCall} {a : PaymentAttempt} {result : PspChargeResult}
    {endpoints : List WebhookEndpoint} {update : AttemptUpdate} {now : Timestamp}
    {told : List (Exchange Stmt Stmt.Resp)} (hfind : db.attempts.find? a.id = some a)
    (hpending : a.status = .pending) (hinvoice : a.invoiceId = c.invoiceId)
    (hbind : (outcomeChange (.ok result)).bind = .ok update)
    (hattempts :
      db'.attempts = db.attempts.update a.id (·.update update now) (·.update_id update now))
    (hinvoices : ∀ v : Invoice, db.invoices.find? v.id = none → db'.invoices.find? v.id ≠ some v)
    (howned : db'.HasInvoice c.business.id c.invoiceId)
    (htells : List.Forall₂ (WebhookDelivery.Tells (resultEvent result)
      (resultPayload c.invoiceId a result)) (db.added db') endpoints)
    (hread : endpointsRead? c.business.id told = some endpoints)
    (hendpoints : (endpoints.map WebhookEndpoint.id).Nodup ∧
      ∀ e ∈ endpoints, e.businessId = c.business.id ∧ e.isActive = true) :
    OutboxExact db db' told := by
  obtain ⟨v, hv, hbusiness⟩ := howned
  have hid : (a.update update now).invoiceId = c.invoiceId := hinvoice
  -- the attempt was pending before, so its new status is an event
  have hbecomes : ∀ {target}, (a.update update now).status = target → target ≠ .pending →
      db.Becomes db' target (a.update update now) := by
    intro target hstatus hne
    refine ⟨?_, hstatus, fun b hb => ?_⟩
    · rw [hattempts]
      exact Table.find?_update_self.trans (congrArg _ hfind)
    · obtain rfl : b = a := Option.some.inj (hb.symm.trans hfind)
      rw [hpending]
      exact hne.symm
  -- the two outcomes: the invoice is paid, or the payment has failed
  rcases bind_result hbind a now with ⟨hresult, hstatus, href⟩ | ⟨hresult, hstatus, hcode⟩
  · rw [resultEvent, resultPayload, if_pos hresult, if_pos hresult, paidPayload] at htells
    refine ⟨fun eventType payload b hevent => ?_, fun hno => ?_⟩
    · cases hevent with
      -- the transaction inserts no invoice
      | created hnew hv' => exact absurd hv' (hinvoices _ hnew)
      | paid ha hv' =>
        obtain rfl := ha.of_update hfind hattempts
        rw [hid, hv] at hv'
        cases hv'
        rw [hid, href, hbusiness]
        exact ⟨endpoints, hread, htells, hendpoints⟩
      | failed ha =>
        obtain rfl := ha.of_update hfind hattempts
        -- the attempt has succeeded, and not failed
        cases hstatus.symm.trans ha.status
    · exact absurd (.paid (hbecomes hstatus (by rintro ⟨⟩)) (hid ▸ hv)) (hno _ _ _)
  · rw [resultEvent, resultPayload, if_neg hresult, if_neg hresult, failedPayload] at htells
    refine ⟨fun eventType payload b hevent => ?_, fun hno => ?_⟩
    · cases hevent with
      | created hnew hv' => exact absurd hv' (hinvoices _ hnew)
      | paid ha =>
        obtain rfl := ha.of_update hfind hattempts
        cases hstatus.symm.trans ha.status
      | failed ha hv' =>
        obtain rfl := ha.of_update hfind hattempts
        rw [hid, hv] at hv'
        cases hv'
        rw [hid, hcode, hbusiness]
        exact ⟨endpoints, hread, htells, hendpoints⟩
    · exact absurd (.failed (hbecomes hstatus (by rintro ⟨⟩)) (hid ▸ hv)) (hno _ _ _)

/-- **A transaction that creates an invoice** tells the endpoints of it. -/
theorem OutboxExact.of_created {v : Invoice} {endpoints : List WebhookEndpoint}
    {told : List (Exchange Stmt Stmt.Resp)} (hnew : db.invoices.find? v.id = none)
    (hinvoices : db'.invoices = db.invoices.insert v) (hattempts : db'.attempts = db.attempts)
    (htells : List.Forall₂ (WebhookDelivery.Tells .invoiceCreated (createdPayload v)) (db.added db')
      endpoints) (hread : endpointsRead? v.businessId told = some endpoints)
    (hendpoints : (endpoints.map WebhookEndpoint.id).Nodup ∧
      ∀ e ∈ endpoints, e.businessId = v.businessId ∧ e.isActive = true) :
    OutboxExact db db' told := by
  have hbecomes : ∀ {target a}, ¬db.Becomes db' target a := by
    intro target a h
    exact absurd h.status (h.before a (hattempts ▸ h.found))
  refine ⟨fun eventType payload b hevent => ?_, fun hno => ?_⟩
  · cases hevent with
    | @created v' hnew' hv' =>
      rw [hinvoices, Table.find?_insert, hnew', Option.none_or] at hv'
      split at hv'
      case isTrue =>
        cases hv'
        exact ⟨endpoints, hread, htells, hendpoints⟩
      case isFalse => cases hv'
    | paid ha => exact absurd ha hbecomes
    | failed ha => exact absurd ha hbecomes
  · refine absurd (.created hnew ?_) (hno _ _ _)
    rw [hinvoices, Table.find?_insert, hnew, Option.none_or, if_pos rfl]

end Databases

/-! ### What has been read -/

section Reads

variable {crypto : Crypto} {s t : System} {φ φ' : Pid → Phase} {e : Event} {es : List Event}
  {p : Pid} {b : Uuid} {told : List (Exchange Stmt Stmt.Resp)}

/-- What is read is the answer to a query. -/
theorem mem_of_endpointsRead? {endpoints : List WebhookEndpoint}
    (h : endpointsRead? b told = some endpoints) :
    (⟨.select (.activeEndpoints b), endpoints⟩ : Exchange Stmt Stmt.Resp) ∈ told := by
  induction told using List.reverseRecOn with
  | nil => cases h
  | append_singleton told x ih =>
    obtain ⟨st, r⟩ := x
    rw [endpointsRead?_concat] at h
    have hkeep : endpointsRead? b told = some endpoints →
        (⟨.select (.activeEndpoints b), endpoints⟩ : Exchange Stmt Stmt.Resp) ∈ told ++ [⟨st, r⟩] :=
      fun h => List.mem_append_left _ (ih h)
    cases st with
    | commit => cases h
    | rollback => cases h
    | select q =>
      cases q with
      | activeEndpoints b' =>
        by_cases hb : b' = b
        · subst hb
          obtain rfl := Option.some.inj ((if_pos rfl).symm.trans h)
          exact List.mem_append_right _ (List.mem_singleton_self _)
        · exact hkeep ((if_neg hb).symm.trans h)
      | _ => exact hkeep h
    | _ => exact hkeep h

/-- An exchange of a transcript has taken place in some state. -/
theorem System.exists_of_mem_transcript {x : Exchange Stmt Stmt.Resp}
    (h : x ∈ System.transcript crypto p s es) :
    ∃ (u : System) (e : Event), u.exchange? p e = some x := by
  induction es generalizing s with
  | nil => cases h
  | cons e es ih =>
    simp only [System.transcript] at h
    split at h
    case h_1 t _ =>
      rcases List.mem_append.mp h with h | h
      · exact ⟨s, e, Option.mem_toList.mp h⟩
      · exact ih h
    case h_2 => cases h

/-- **What is read as active** are active endpoints of the business, each of them once. -/
theorem endpointsRead?_transcript {endpoints : List WebhookEndpoint}
    (h : endpointsRead? b (System.transcript crypto p s es) = some endpoints) :
    (endpoints.map WebhookEndpoint.id).Nodup ∧
      ∀ e ∈ endpoints, e.businessId = b ∧ e.isActive = true := by
  obtain ⟨u, e, hu⟩ := System.exists_of_mem_transcript (mem_of_endpointsRead? h)
  obtain ⟨-, -, w', -, hans⟩ := System.exchange?_eq_some hu
  obtain ⟨⟨env, rfl⟩, -⟩ := answers_select hans
  constructor
  · refine ((List.perm_insertionSort _ _).map _).nodup_iff.mpr ?_
    exact (u.world.view p).endpoints.nodup.sublist (List.filter_sublist.map _)
  · intro e he
    have hmem := (List.mem_insertionSort _).mp he
    rw [Database.activeEndpointsOf, List.mem_filter] at hmem
    simpa using hmem.2

/-- What a request that creates an invoice has read at a point. -/
def CreatePoint.Read (b : Uuid) (told : List (Exchange Stmt Stmt.Resp)) : CreatePoint → Prop
  | readClock _ endpoints | outbox _ endpoints _ | reselect _ endpoints | commit _ endpoints _ =>
    endpointsRead? b told = some endpoints
  | _ => True

theorem CreatePoint.read_of_walks {c : CreateCall} {pt : CreatePoint}
    (h : Walks (CreatePoint.out c) .readCustomer told pt) : pt.Read c.business.id told := by
  induction h with
  | nil => trivial
  | @snoc told pt st next h hout r ih =>
    cases pt with
    | listEndpoints v =>
      cases hout
      dsimp only
      split
      · exact endpointsRead?_select r
      · exact endpointsRead?_select r
    | readClock v endpoints =>
      cases hout
      exact (endpointsRead?_concat ..).trans ih
    | outbox v endpoints now =>
      cases hout
      cases r with
      | error e => trivial
      | ok u => exact (endpointsRead?_concat ..).trans ih
    | reselect v endpoints =>
      cases hout
      cases r with
      | none => trivial
      | some x => exact (endpointsRead?_concat ..).trans ih
    | readCustomer | insert | insertItems v =>
      cases hout
      cases r <;> trivial
    | commit v endpoints x | closing x =>
      cases hout
      trivial
    | done x => cases hout

/-- A request that is creating an invoice is at the point to which its transcript leads. -/
theorem System.creates (hrun : run (System.step crypto) .init es = some s) {c : CreateCall}
    {prog : ServerProg (Except Exc Result)}
    (hproc : s.procs[p]? = some ⟨.request c.business (.createInvoice c.payload), prog, true⟩) :
    ∃ pt : CreatePoint, pt.Read c.business.id (System.transcript crypto p .init es) ∧
      Prog.Tracks (CreatePoint.out c) pt prog ∧ pt.Holds s.world p c := by
  have hstart : ∀ (s : System) (φ : Pid → Phase), s.Reachable crypto → s.Sound crypto φ →
      CreatePoint.readCustomer.Holds s.world s.procs.length c := fun s φ _ h => h.idle_new.writes
  obtain ⟨pt, hwalk, htracks, hholds⟩ := System.holds_walked
    (Q := fun w p pt => CreatePoint.Holds w p c pt) hstart
    (fun s φ p pt st next r w' h _ _ hpt hout hans => hpt.step h.consistent hout hans)
    (fun s t φ φ' e p pt h _ hmove _ hf hpt => hpt.frame hf.writes (h.grows hmove)) hrun hproc
    (tracks_create crypto c)
  exact ⟨pt, CreatePoint.read_of_walks hwalk, htracks, hholds rfl⟩

end Reads

/-! ### Every commit -/

section Runs

variable {crypto : Crypto} {s t : System} {e : Event} {es : List Event} {p : Pid}

/-- **Every commit is exact.** -/
theorem System.commit_exact (hrun : run (System.step crypto) .init es = some s)
    (hnext : s.next? p = some .commit) :
    OutboxExact s.world.db (s.world.commit p).db (System.transcript crypto p .init es) := by
  obtain ⟨φ, h, ho, hread⟩ := System.phases_read hrun
  obtain ⟨job, k, hproc⟩ := System.next?_eq_some.mp hnext
  have hp : s.Alive p := ⟨_, hproc, rfl⟩
  have htracks := h.tracks p _ hproc
  have hholds := h.alive p hp
  have hgood := h.forGood p
  have hfits := h.consistent.fits p
  change OutboxExact s.world.db (s.world.db.applyAll (s.world.writesOf p)) _
  cases hph : φ p with
  | pay c pt =>
    rw [hph] at htracks hholds hgood
    obtain ⟨-, next, hout, -⟩ := htracks
    cases pt with
    | reserve v a =>
      rw [hholds.1.writes]
      refine .of_silent (fun x hx => ?_) _
      rw [List.mem_singleton.mp hx]
      exact hholds.2.2.2.made.status
    | settle a http outcome endpoints =>
      have hread := hread p
      rw [hph] at hread
      obtain ⟨rest, hrest, houtcome, update, now, hbind, hcase⟩ := hholds
      obtain ⟨marks, hmarks, hwrites⟩ : ∃ marks, ((∃ now', marks =
          [.updateInvoice c.invoiceId .paid now']) ∨ marks = []) ∧
            s.world.writesOf p = [.updateAttempt a.id update now] ++ marks ++ rest := by
        rcases hcase with ⟨-, now', htx⟩ | ⟨-, htx⟩
        · exact ⟨_, Or.inl ⟨now', rfl⟩, htx.writes⟩
        · exact ⟨[], Or.inr rfl, htx.writes⟩
      cases outcome with
      | error e =>
        rcases hrest with ⟨-, rfl⟩ | ⟨-, result, _, _, ⟨⟩, -⟩
        have hstatus : update.status = none := AttemptChange.bind_status hbind
        rw [hwrites]
        refine .of_silent (fun x hx => ?_) _
        rcases hmarks with ⟨now', rfl⟩ | rfl
        · rcases List.mem_cons.mp hx with rfl | hx
          · exact hstatus
          · rw [List.mem_singleton.mp hx]
            trivial
        · rw [List.mem_singleton.mp hx]
          exact hstatus
      | ok result =>
        have hrest' : endpoints = [] ∧ rest = [] ∨ ∃ now env, rest = [.insertDeliveries
            (deliveryRows env (endpoints.map
              (newDelivery (resultEvent result) (resultPayload c.invoiceId a result) now)))] := by
          rcases hrest with hnil | ⟨-, result', now, env, ⟨⟩, hrest⟩
          · exact Or.inl hnil
          · exact Or.inr ⟨now, env, hrest⟩
        have howned : s.world.db.HasInvoice c.business.id c.invoiceId := by
          have hphase := ho.phases p
          rw [hph] at hphase
          exact hphase.invoice a rfl
        rw [hwrites] at hfits ⊢
        have hattempts :
            (s.world.db.applyAll ([.updateAttempt a.id update now] ++ marks ++ rest)).attempts =
              s.world.db.attempts.update a.id (·.update update now) (·.update_id update now) := by
          rcases hmarks with ⟨now', rfl⟩ | rfl <;> rcases hrest' with
            ⟨-, rfl⟩ | ⟨now'', env, rfl⟩ <;> rfl
        refine .of_settled hgood.2.2 hgood.2.1.status hgood.2.1.invoiceId hbind hattempts
          (fun v => ?_)
          (howned.grows (Database.grows_applyAll _ _)) (Database.tells_added hfits ?_ hrest') hread
          (endpointsRead?_transcript hread)
        · refine Database.not_created fun x hx r hr => ?_
          rcases List.mem_append.mp hx with hx | hx
          · -- the updates insert nothing
            have hnil : x.inserted = [] := by
              rcases hmarks with ⟨now', rfl⟩ | rfl
              · rcases List.mem_cons.mp hx with rfl | hx
                · rfl
                · rw [List.mem_singleton.mp hx]
                  rfl
              · rw [List.mem_singleton.mp hx]
                rfl
            rw [hnil] at hr
            cases hr
          · rcases hrest' with ⟨-, rfl⟩ | ⟨now'', env, rfl⟩
            · cases hx
            · rw [List.mem_singleton.mp hx] at hr
              obtain ⟨d, -, rfl⟩ := List.mem_map.mp hr
              rintro ⟨⟩
        · rcases hmarks with ⟨now', rfl⟩ | rfl <;> rfl
    | _ => cases hout
  | transition c pt =>
    rw [hph] at htracks hholds
    obtain ⟨-, next, hout, -⟩ := htracks
    cases pt with
    | commit v x =>
      obtain ⟨-, now, htx⟩ := hholds
      rw [htx.writes]
      refine .of_silent (fun x hx => ?_) _
      rw [List.mem_singleton.mp hx]
      trivial
    | _ => cases hout
  | other =>
    rw [hph] at htracks
    have hregisters : ∀ {b}, (∀ x ∈ s.world.writesOf p, x.Registers b) →
        ∀ x ∈ s.world.writesOf p, x.Silent := by
      intro b hws x hx
      have hreg := hws x hx
      cases x with
      | insertInvoice row => exact hreg.elim
      | insertDeliveries rows => exact hreg.elim
      | insertAttempt row => exact hreg.elim
      | updateAttempt id update now => exact hreg.elim
      | _ => trivial
    cases ho.sides p _ hproc rfl with
    | phase hnot => exact absurd htracks.1 hnot
    | @create c _ prog _ _ _ =>
      obtain ⟨pt, hread, ⟨next, hout, -⟩, hholds⟩ := System.creates hrun hproc
      cases pt with
      | commit v endpoints x =>
        obtain ⟨-, rest, hrest, hmade, -, rows, hitems, hwrites⟩ := hholds
        rw [hwrites] at hfits ⊢
        obtain ⟨hbusiness, -⟩ := newInvoice_row hmade
        have hnew : s.world.db.invoices.find? v.id = none :=
          Option.map_eq_none_iff.mp (hfits.fresh (.insertInvoice v) (by simp) ⟨.invoices, v.id⟩
            (List.mem_singleton_self _))
        have hrest' : endpoints = [] ∧ rest = [] ∨ ∃ now env, rest =
            [.insertDeliveries <| deliveryRows env <|
              endpoints.map (newDelivery .invoiceCreated (createdPayload v) now)] :=
          hrest.imp_right And.right
        rw [← hbusiness] at hread
        refine .of_created hnew ?_ ?_ (Database.tells_added hfits rfl hrest') hread
          (endpointsRead?_transcript hread)
        · rcases hrest' with ⟨-, rfl⟩ | ⟨now, env, rfl⟩ <;> rfl
        · rcases hrest' with ⟨-, rfl⟩ | ⟨now, env, rfl⟩ <;> rfl
      | _ => cases hout
    | @deactivate c pt _ _ htracks hholds =>
      obtain ⟨next, hout, -⟩ := htracks
      cases pt with
      | commit e =>
        rw [hholds.1]
        refine .of_silent (fun x hx => ?_) _
        split at hx
        · rw [List.mem_singleton.mp hx]
          trivial
        · cases hx
      | _ => cases hout
    | registers _ _ hwrites => exact .of_silent (hregisters hwrites) _
    | poll _ hwrites => exact .of_silent (hregisters hwrites) _

/-- **The outbox is exact** in every step of every run: a step that commits tells the endpoints that
its transaction has read of what has an event, and of nothing else, and a step that does not commit
changes nothing. -/
theorem outbox_exact (hrun : run (System.step crypto) .init es = some s)
    (hstep : s.step crypto e = some t) :
    (∀ p env, e = .exec p env → s.next? p = some .commit →
      OutboxExact s.world.db t.world.db (System.transcript crypto p .init es)) ∧
    ((∀ p env, e = .exec p env → s.next? p ≠ some .commit) → t.world.db = s.world.db) := by
  constructor
  · rintro p env rfl hnext
    obtain ⟨job, st, k, r, w', hproc, hexec, rfl⟩ := System.step_exec_eq_some hstep
    obtain rfl := Option.some.inj ((System.next?_eq_some.mpr ⟨job, k, hproc⟩).symm.trans hnext)
    rw [answers_commit (.exec env hexec)]
    exact System.commit_exact hrun hnext
  · intro hno
    obtain ⟨φ, h⟩ := System.Reachable.sound (reaches_of_run hrun)
    obtain ⟨φ', hmove⟩ := System.moves_of_step h.tracks hstep
    rcases hmove.db_or with ⟨hdb, -⟩ | ⟨p, u, job, k, hproc, hans, -⟩
    · exact hdb
    · cases hans with
      | exec env hexec => exact absurd (System.next?_eq_some.mpr ⟨job, k, hproc⟩) (hno p env rfl)
      | abort cycle _ hfail => cases hfail

end Runs

/-! ### An invoice that is told to one of two endpoints -/

/-- The business registers two endpoints, deactivates one of them, and creates an invoice, whose
transaction is about to be committed. -/
def telling : List Event :=
  [.request (.createCustomer "Ada" "ada@example.com")] ++ Event.steps 0 3 ++
    [.request (.createEndpoint "https://a.example")] ++ Event.steps 1 4 ++
    [.request (.createEndpoint "https://b.example")] ++ Event.steps 2 1 ++
    [.exec 2 { ids := fun n => n + 1 }] ++ Event.steps 2 2 ++
    [.request (.deactivateEndpoint 0)] ++ Event.steps 3 4 ++
    [.request (.createInvoice ⟨0, none, [⟨"two hours", 2, 9000, by decide, by decide, by decide⟩],
      List.cons_ne_nil _ _⟩)] ++ Event.steps 4 7

def tellingState : System := (run (System.step sampleCrypto) .init telling).get (by decide +kernel)

def toldState : System := (tellingState.step sampleCrypto (.exec 4 {})).get (by decide +kernel)

def Stmt.isCommit : Stmt → Bool
  | .commit => true
  | _ => false

theorem Stmt.isCommit_iff {st : Stmt} : st.isCommit = true ↔ st = .commit := by
  cases st <;> simp [isCommit]

theorem outbox_exact_telling :
    OutboxExact tellingState.world.db toldState.world.db
      (System.transcript sampleCrypto 4 .init telling) ∧
    (tellingState.world.db.added toldState.world.db).map WebhookDelivery.webhookEndpointId =
      [1] := by
  have hany : (tellingState.next? 4).any Stmt.isCommit = true := by decide +kernel
  obtain ⟨st, hst, hcommit⟩ := (Option.any_eq_true _ _).mp hany
  obtain rfl := Stmt.isCommit_iff.mp hcommit
  have hrun : run (System.step sampleCrypto) .init telling = some tellingState :=
    (Option.some_get _).symm
  have hstep : tellingState.step sampleCrypto (.exec 4 {}) = some toldState :=
    (Option.some_get _).symm
  exact ⟨(outbox_exact hrun hstep).1 4 {} rfl hst, by decide +kernel⟩

end TenantBilling
