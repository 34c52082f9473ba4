import TenantBilling.Invariant.Others
import TenantBilling.Points.Create
import TenantBilling.World.Owners

/-!
# What holds at each point of the other writing requests

For every point of a request that creates an invoice, or deactivates an endpoint, what its
session has written so far and what it knows of the committed rows
(`TenantBilling.CreatePoint.Holds`, `TenantBilling.DeactivatePoint.Holds`): a step hands it
over, and the steps of the others leave it alone.

The requests that are left, and the worker, write rows of one kind each, whatever they
have read (`TenantBilling.registers`).
-/

namespace TenantBilling

open Base World

section Creating

variable {w w' : World} {p : Pid}

/-! ### Creating an invoice -/

/-- The outbox rows of the event that an invoice has been created. -/
def Invoice.Outbox (v : Invoice) (endpoints : List WebhookEndpoint) (rest : List Write) : Prop :=
  endpoints = [] ∧ rest = [] ∨
    endpoints ≠ [] ∧ ∃ now env, rest = [.insertDeliveries (deliveryRows env
      (endpoints.map (newDelivery .invoiceCreated (createdPayload v) now)))]

/-- The keys of the payload are told apart. -/
theorem nodup_createdPayload (v : Invoice) : ((createdPayload v).map Prod.fst).Nodup := by
  change ["id", "customer_id", "state", "total_cents"].Nodup
  decide

/-- A row of an event is for one of the endpoints. -/
theorem mem_deliveryRows {env : Env} {endpoints : List WebhookEndpoint} {eventType : EventType}
    {payload : Payload} {now : Timestamp} {d : WebhookDelivery}
    (h : d ∈ deliveryRows env (endpoints.map (newDelivery eventType payload now))) :
    ∃ e ∈ endpoints, d.webhookEndpointId = e.id ∧ d.eventType = eventType ∧
      d.payload = payload.jsonb := by
  obtain ⟨k, hk, rfl⟩ := List.mem_mapIdx.mp h
  have hk' : k < endpoints.length := by simpa using hk
  exact ⟨endpoints[k], List.getElem_mem hk', by simp [newDelivery, NewDelivery.row]⟩

namespace CreateCall

variable (c : CreateCall)

/-- The invoice is one that the call inserts. -/
def Made (v : Invoice) : Prop := ∃ now, c.newInvoice.row v.id now = .ok v

/-- The line items are those that the call inserts. -/
def Items (v : Invoice) (rows : List InvoiceLineItem) : Prop :=
  ∃ (ids : ℕ → Uuid) (now : Timestamp),
    buildRows (fun n id => n.row v.id id now) ids 0 c.payload.newLineItems = .ok rows

/-- The transaction that creates the invoice, once the line items have been inserted; `rest` are
the outbox rows. -/
def Creating (w : World) (p : Pid) (v : Invoice) (rest : List Write) : Prop :=
  c.Made v ∧ w.db.HasCustomer c.business.id c.payload.customerId ∧
    ∃ rows, c.Items v rows ∧ w.writesOf p = [.insertInvoice v, .insertLineItems rows] ++ rest

end CreateCall

/-- The endpoints are committed ones of the business. -/
def Database.HasEndpoints (db : Database) (b : Uuid) (endpoints : List WebhookEndpoint) : Prop :=
  ∀ e ∈ endpoints, db.HasEndpoint b e.id

/-- What holds of the session at a point of a request that creates an invoice. -/
def CreatePoint.Holds (w : World) (p : Pid) (c : CreateCall) : CreatePoint → Prop
  | readCustomer | closing _ | done _ => w.writesOf p = []
  | insert => w.writesOf p = [] ∧ w.db.HasCustomer c.business.id c.payload.customerId
  | insertItems v =>
    c.Made v ∧ w.db.HasCustomer c.business.id c.payload.customerId ∧
      w.writesOf p = [.insertInvoice v]
  | listEndpoints v => c.Creating w p v []
  | readClock v endpoints | outbox v endpoints _ =>
    endpoints ≠ [] ∧ w.db.HasEndpoints c.business.id endpoints ∧ c.Creating w p v []
  | reselect v endpoints | commit v endpoints _ =>
    w.db.HasEndpoints c.business.id endpoints ∧ ∃ rest,
      v.Outbox endpoints rest ∧ c.Creating w p v rest

/-- The active endpoints that a session lists are committed, if it has written none. -/
theorem hasEndpoints_of_select {b : Uuid} {env : Env} {endpoints : List WebhookEndpoint}
    (hview : (w.view p).endpoints = w.db.endpoints)
    (h : endpoints = (w.view p).eval env.rank (.activeEndpoints b)) :
    w.db.HasEndpoints b endpoints := by
  intro e he
  rw [h] at he
  have hmem := (List.mem_insertionSort _).mp he
  rw [Database.activeEndpointsOf, List.mem_filter, hview] at hmem
  obtain ⟨hmem, hactive⟩ := hmem
  simp only [Bool.and_eq_true, decide_eq_true_eq] at hactive
  exact ⟨e, Table.find?_key hmem, hactive.1⟩

theorem Database.HasEndpoints.grows {db db' : Database} {b : Uuid}
    {endpoints : List WebhookEndpoint}
    (h : db.HasEndpoints b endpoints) (hgrows : db.Grows db') : db'.HasEndpoints b endpoints :=
  fun e he => (h e he).grows hgrows

theorem writesOf_write_self {ws : List Write} {x : Write} (h : w.writesOf p = ws) :
    (w.write p x).writesOf p = ws ++ [x] := by
  rw [writesOf_write, if_pos rfl, h]

theorem writesOf_release_self : (w.release p).writesOf p = [] := by
  rw [writesOf_release, if_pos rfl]

/-- The invoice that has been inserted is found. -/
theorem CreateCall.Creating.find?_view {c : CreateCall} {v : Invoice} {rest : List Write}
    (h : c.Creating w p v rest) (hcons : w.Consistent) : (w.view p).invoices.find? v.id ≠ none := by
  obtain ⟨-, -, rows, -, hwrites⟩ := h
  obtain ⟨row, hrow, hev⟩ := (hcons.fits p).row_applyAll
    (show .insertInvoice v ∈ w.writesOf p by rw [hwrites]; simp) (List.mem_singleton_self _)
  obtain ⟨v', hv', rfl⟩ := Option.map_eq_some_iff.mp hrow
  change (w.view p).invoices.find? v.id = some v' at hv'
  rw [hv']
  simp

/-- **A step of a request that creates an invoice** hands over what holds of its session. -/
theorem CreatePoint.Holds.step {c : CreateCall} {pt : CreatePoint} {st : Stmt}
    {next : st.Resp → CreatePoint} {r : st.Resp} (h : pt.Holds w p c) (hcons : w.Consistent)
    (hout : pt.out c = .op st next) (hans : w.Answers p st r w') : (next r).Holds w' p c := by
  cases pt with
  | readCustomer =>
    cases hout
    obtain ⟨⟨env, hr⟩, rfl⟩ := answers_select hans
    rcases r with _ | customer
    · exact h
    · refine ⟨h, ?_⟩
      -- the session has written nothing yet, so it reads the committed rows
      have hview : w'.view p = w'.db := by rw [World.view, h]; rfl
      rw [hview] at hr
      obtain ⟨hfind, hb⟩ := Option.filter_eq_some_iff.mp hr.symm
      exact ⟨customer, hfind, by simpa using hb⟩
  | insert =>
    cases hout
    have hinsert := answers_insertInvoice hans
    rcases r with e | v
    · obtain rfl := hinsert
      exact writesOf_release_self
    · obtain ⟨rfl, now, hmade⟩ := hinsert
      exact ⟨⟨now, hmade⟩, h.2, writesOf_write_self h.1⟩
  | insertItems v =>
    cases hout
    have hinsert := answers_insertLineItems hans
    rcases r with e | _
    · obtain rfl := hinsert
      exact writesOf_release_self
    · obtain ⟨ids, now, rows, hrows, rfl⟩ := hinsert
      exact ⟨h.1, h.2.1, rows, ⟨ids, now, hrows⟩, writesOf_write_self h.2.2⟩
  | listEndpoints v =>
    cases hout
    obtain ⟨⟨env, hr⟩, rfl⟩ := answers_select hans
    have hendpoints : w'.db.HasEndpoints c.business.id r := by
      refine hasEndpoints_of_select ?_ hr
      obtain ⟨-, -, rows, -, hwrites⟩ := h
      rw [World.view, hwrites]
      rfl
    rcases r with _ | ⟨e, es⟩
    · exact ⟨hendpoints, [], Or.inl ⟨rfl, rfl⟩, h⟩
    · exact ⟨by simp, hendpoints, h⟩
  | readClock v endpoints =>
    cases hout
    obtain rfl := answers_clock hans
    exact h
  | outbox v endpoints now =>
    cases hout
    obtain ⟨rfl, env, rfl⟩ := answers_insertDeliveries hans
    obtain ⟨hne, hendpoints, hmade, hcustomer, rows, hrows, hwrites⟩ := h
    refine ⟨hendpoints, _, Or.inr ⟨hne, now, env, rfl⟩, hmade, hcustomer, rows, hrows, ?_⟩
    exact writesOf_write_self hwrites
  | reselect v endpoints =>
    cases hout
    obtain ⟨⟨env, hr⟩, rfl⟩ := answers_select hans
    rcases r with _ | x
    -- its own invoice cannot be missing from its view
    · obtain ⟨-, rest, -, hcreating⟩ := h
      have hfind := hcreating.find?_view hcons
      obtain ⟨v', hv'⟩ := Option.ne_none_iff_exists'.mp hfind
      simp [Database.eval, hv', Invoice.belongsTo, Option.filter] at hr
    · exact h
  | commit v endpoints x =>
    cases hout
    obtain rfl := answers_commit hans
    change (w.commit p).writesOf p = []
    rw [writesOf_commit, if_pos rfl]
  | closing x =>
    cases hout
    obtain rfl := answers_rollback hans
    exact writesOf_release_self
  | done x => cases hout

/-- The others leave the creation of an invoice where it is. -/
theorem CreatePoint.Holds.frame {c : CreateCall} {pt : CreatePoint} (h : pt.Holds w p c)
    (hwrites : w'.writesOf p = w.writesOf p) (hgrows : w.db.Grows w'.db) : pt.Holds w' p c := by
  have hcreating : ∀ {v rest}, c.Creating w p v rest → c.Creating w' p v rest := by
    rintro v rest ⟨hmade, hcustomer, rows, hrows, heq⟩
    exact ⟨hmade, hcustomer.grows hgrows, rows, hrows, hwrites.trans heq⟩
  cases pt with
  | insert => exact ⟨hwrites.trans h.1, h.2.grows hgrows⟩
  | insertItems v => exact ⟨h.1, h.2.1.grows hgrows, hwrites.trans h.2.2⟩
  | listEndpoints v => exact hcreating h
  | readClock v endpoints => exact ⟨h.1, h.2.1.grows hgrows, hcreating h.2.2⟩
  | outbox v endpoints now => exact ⟨h.1, h.2.1.grows hgrows, hcreating h.2.2⟩
  | reselect v endpoints =>
    obtain ⟨hendpoints, rest, hrest, h⟩ := h
    exact ⟨hendpoints.grows hgrows, rest, hrest, hcreating h⟩
  | commit v endpoints x =>
    obtain ⟨hendpoints, rest, hrest, h⟩ := h
    exact ⟨hendpoints.grows hgrows, rest, hrest, hcreating h⟩
  | _ => exact hwrites.trans h

/-! ### Deactivating an endpoint -/

/-- What holds of the session at a point of a request that deactivates an endpoint. -/
def DeactivatePoint.Holds (w : World) (p : Pid) (c : DeactivateCall) : DeactivatePoint → Prop
  | read | closing _ | done _ => w.writesOf p = []
  | update e => w.writesOf p = [] ∧ e.isActive = true ∧ w.db.HasEndpoint c.business.id e.id
  | commit e => (w.writesOf p = if e.isActive then [.deactivateEndpoint e.id] else []) ∧
      w.db.HasEndpoint c.business.id e.id

/-- A deactivation hands on what holds at its points. -/
theorem DeactivatePoint.Holds.step {c : DeactivateCall} {pt : DeactivatePoint} {st : Stmt}
    {next : st.Resp → DeactivatePoint} {r : st.Resp} (h : pt.Holds w p c)
    (hout : pt.out c = .op st next) (hans : w.Answers p st r w') : (next r).Holds w' p c := by
  cases pt with
  | read =>
    cases hout
    obtain ⟨⟨env, hr⟩, rfl⟩ := answers_select hans
    rcases r with _ | e
    · exact h
    have hview : w'.view p = w'.db := by rw [World.view, h]; rfl
    rw [hview] at hr
    obtain ⟨hfind, hb⟩ := Option.filter_eq_some_iff.mp hr.symm
    have hid := (Table.find?_eq_some.mp hfind).2
    have hendpoint : w'.db.HasEndpoint c.business.id e.id := ⟨e, hid ▸ hfind, by simpa using hb⟩
    dsimp only
    split
    case isTrue hactive => exact ⟨h, hactive, hendpoint⟩
    case isFalse hinactive => exact ⟨h.trans (if_neg hinactive).symm, hendpoint⟩
  | update e =>
    cases hout
    have hupdate := answers_deactivateEndpoint hans
    rcases r with err | _
    · obtain rfl := hupdate
      exact writesOf_release_self
    · obtain rfl := hupdate
      exact ⟨(writesOf_write_self h.1).trans (if_pos h.2.1).symm, h.2.2⟩
  | commit e =>
    cases hout
    obtain rfl := answers_commit hans
    change (w.commit p).writesOf p = []
    rw [writesOf_commit, if_pos rfl]
  | closing x =>
    cases hout
    obtain rfl := answers_rollback hans
    exact writesOf_release_self
  | done x => cases hout

/-- The others leave a deactivation where it is. -/
theorem DeactivatePoint.Holds.frame {c : DeactivateCall} {pt : DeactivatePoint} (h : pt.Holds w p c)
    (hwrites : w'.writesOf p = w.writesOf p) (hgrows : w.db.Grows w'.db) : pt.Holds w' p c := by
  cases pt with
  | update e => exact ⟨hwrites.trans h.1, h.2.1, h.2.2.grows hgrows⟩
  | commit e => exact ⟨hwrites.trans h.1, h.2.grows hgrows⟩
  | _ => exact hwrites.trans h

end Creating

end TenantBilling
