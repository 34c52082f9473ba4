import TenantBilling.Base.Accounts
import TenantBilling.Properties.Money
import TenantBilling.Properties.Outbox
import TenantBilling.Properties.RoundTrip

/-!
# What is told is true

A delivery, and so a `POST`, tells an endpoint that an invoice has been created, has been paid, or
that a payment of it has failed. The database has a row for each of these: the invoice, or the
attempt that has succeeded or failed. What has happened to a business is read off these rows
(`TenantBilling.Database.events`), what an endpoint has been told off its deliveries
(`TenantBilling.Database.told`), and in every state that can be reached an endpoint has been told
a part of what has happened to its business, each event at most once
(`TenantBilling.webhooks_truthful`). The payload of an event is taken as the deliveries have it,
with its keys in the order of a `JSONB` column, for this is what is posted.
-/

namespace TenantBilling

open Base World

/-! ### What has happened, and what has been told -/

/-- What an invoice of the business stands for: it has been created, as a draft. -/
def Invoice.eventOf (b : Uuid) (v : Invoice) : Option (EventType × Payload) :=
  if v.businessId = b then some (.invoiceCreated, (createdPayload { v with state := .draft }).jsonb)
  else none

/-- What an attempt stands for: nothing while it is pending, and its result then. -/
def PaymentAttempt.event? (a : PaymentAttempt) : Option (EventType × Payload) :=
  match a.status with
  | .pending => none
  | .succeeded => some (.invoicePaid, Payload.jsonb [("invoice_id", .uuid a.invoiceId),
      ("amount_cents", .cents a.amountCents.val), ("psp_ref", .json (storedJson a.pspRef))])
  | .failed => some (.invoicePaymentFailed, Payload.jsonb [("invoice_id", .uuid a.invoiceId),
      ("failure_code", .json (storedJson a.failureCode)),
        ("amount_cents", .cents a.amountCents.val)])

/-- What an attempt on an invoice of the business stands for. -/
def Database.attemptEventOf (db : Database) (b : Uuid) (a : PaymentAttempt) :
    Option (EventType × Payload) :=
  if (db.invoices.find? a.invoiceId).any (·.businessId = b) then a.event? else none

/-- **What has happened to a business**: one event for each of its invoices, and one for each
attempt on them that has succeeded or failed. -/
def Database.events (db : Database) (b : Uuid) : List (EventType × Payload) :=
  db.invoices.account (Invoice.eventOf b) ++ db.attempts.account (db.attemptEventOf b)

/-- What a delivery tells the endpoint. -/
def WebhookDelivery.told? (i : Uuid) (d : WebhookDelivery) : Option (EventType × Payload) :=
  if d.webhookEndpointId = i then some (d.eventType, d.payload) else none

/-- **What an endpoint has been told**, or is to be told: one event for each of its deliveries. -/
def Database.told (db : Database) (i : Uuid) : List (EventType × Payload) :=
  db.deliveries.account (WebhookDelivery.told? i)

/-! ### What has happened has happened for good -/

section Databases

variable {db db' : Database} {b i : Uuid} {eventType : EventType} {payload : Payload}
  {x : EventType × Payload}

/-- A later database has the invoices and the results of an earlier one. -/
structure Database.Onward (db db' : Database) : Prop where
  grows : db.Grows db'
  total : ∀ i total, db.totalOf i = some total → db'.totalOf i = some total
  settled : ∀ a, db.attempts.find? a.id = some a → a.status ≠ .pending →
    db'.attempts.find? a.id = some a
  drafted : ∀ v, db.invoices.find? v.id = none → db'.invoices.find? v.id = some v → v.state = .draft

theorem Database.attemptEventOf_eq_some {a : PaymentAttempt} :
    db.attemptEventOf b a = some x ↔ db.HasInvoice b a.invoiceId ∧ a.event? = some x := by
  have howner : (db.invoices.find? a.invoiceId).any (·.businessId = b) = true ↔
      db.HasInvoice b a.invoiceId := by
    simp [Database.HasInvoice, Option.any_eq_true]
  unfold Database.attemptEventOf
  by_cases h : db.HasInvoice b a.invoiceId
  · rw [if_pos (howner.mpr h)]
    exact ⟨fun hx => ⟨h, hx⟩, And.right⟩
  · rw [if_neg (mt howner.mp h)]
    exact ⟨fun hx => (by cases hx), fun hx => absurd hx.1 h⟩

theorem PaymentAttempt.status_of_event {a : PaymentAttempt} (h : a.event? = some x) :
    a.status ≠ .pending := by
  intro hstatus
  rw [PaymentAttempt.event?, hstatus] at h
  cases h

theorem Database.Onward.invoice (h : db.Onward db') {v : Invoice} (hv : v ∈ db.invoices)
    (hx : v.eventOf b = some x) : db'.invoices.accountAt (Invoice.eventOf b) v.id = some x := by
  have hfind : db.invoices.find? v.id = some v := Table.find?_key hv
  obtain ⟨row, hrow, hev⟩ := h.grows ⟨.invoices, v.id⟩ (.invoice v)
    (congrArg (Option.map Row.invoice) hfind)
  obtain ⟨v', hv', rfl⟩ := Option.map_eq_some_iff.mp hrow
  obtain ⟨hid, hbusiness, hcustomer⟩ := hev
  have htotal : v'.totalCents = v.totalCents := by
    have hold : db.totalOf v.id = some v.totalCents :=
      congrArg (Option.map Invoice.totalCents) hfind
    have hnew := h.total v.id _ hold
    rw [Database.totalOf, hv'] at hnew
    exact Option.some.inj hnew
  have hpayload : createdPayload { v' with state := .draft } =
      createdPayload { v with state := .draft } := by
    simp only [createdPayload, hid, hcustomer, htotal]
  rw [Table.accountAt, hv', Option.bind_some, ← hx, Invoice.eventOf, Invoice.eventOf, hpayload,
    hbusiness]

theorem Database.Onward.attempt (h : db.Onward db') {a : PaymentAttempt} (ha : a ∈ db.attempts)
    (hx : db.attemptEventOf b a = some x) :
    db'.attempts.accountAt (db'.attemptEventOf b) a.id = some x := by
  obtain ⟨howner, hevent⟩ := Database.attemptEventOf_eq_some.mp hx
  have hfind := h.settled a (Table.find?_key ha) (PaymentAttempt.status_of_event hevent)
  rw [Table.accountAt, hfind, Option.bind_some]
  exact Database.attemptEventOf_eq_some.mpr ⟨howner.grows h.grows, hevent⟩

theorem Database.Onward.events (h : db.Onward db') : (db.events b).Subperm (db'.events b) :=
  (Table.account_subperm fun _ hv _ hx => h.invoice hv hx).append
    (Table.account_subperm fun _ ha _ hx => h.attempt ha hx)

/-- An attempt that has got a status stood for nothing before. -/
theorem Database.Onward.pending (h : db.Onward db') {status : PaymentStatus} {a : PaymentAttempt}
    (ha : db.Becomes db' status a) : db.attempts.accountAt (db.attemptEventOf b) a.id = none := by
  rw [Table.accountAt]
  cases hfind : db.attempts.find? a.id with
  | none => rfl
  | some a' =>
    obtain ⟨hmem, hid⟩ := Table.find?_eq_some.mp hfind
    refine Option.eq_none_iff_forall_not_mem.mpr fun x hx => ?_
    obtain ⟨-, hevent⟩ := Database.attemptEventOf_eq_some.mp hx
    -- it has kept the status, so it had it before
    have hkept := h.settled a' (Table.find?_key hmem) (PaymentAttempt.status_of_event hevent)
    rw [hid, ha.found] at hkept
    cases hkept
    exact ha.before a hfind ha.status

/-- **What has an event comes on top** of what has happened before. -/
theorem Database.Onward.cons_events (h : db.Onward db')
    (hevent : db.Happened db' eventType payload b) :
    ((eventType, payload.jsonb) :: db.events b).Subperm (db'.events b) := by
  have hresult : ∀ {status a v}, db.Becomes db' status a → db'.invoices.find? a.invoiceId = some v →
      a.event? = some (eventType, payload.jsonb) → b = v.businessId →
        ((eventType, payload.jsonb) :: db.events b).Subperm (db'.events b) := by
    rintro status a v ha hv hx rfl
    have hnew : db'.attempts.accountAt (db'.attemptEventOf v.businessId) a.id =
        some (eventType, payload.jsonb) := by
      rw [Table.accountAt, ha.found, Option.bind_some]
      exact Database.attemptEventOf_eq_some.mpr ⟨⟨v, hv, rfl⟩, hx⟩
    refine List.perm_middle.symm.subperm.trans ?_
    exact (Table.account_subperm fun _ hv _ hx => h.invoice hv hx).append
      (Table.cons_account_subperm (fun _ ha _ hx => h.attempt ha hx) (h.pending ha) hnew)
  cases hevent with
  | @created v hnew hv =>
    have hevent : db'.invoices.accountAt (Invoice.eventOf v.businessId) v.id =
        some (.invoiceCreated, (createdPayload v).jsonb) := by
      rw [Table.accountAt, hv, Option.bind_some, Invoice.eventOf, if_pos rfl]
      have hdraft : { v with state := .draft } = v := by
        rw [← h.drafted v hnew hv]
      rw [hdraft]
    have hold : db.invoices.accountAt (Invoice.eventOf v.businessId) v.id = none := by
      rw [Table.accountAt, hnew, Option.bind_none]
    exact (Table.cons_account_subperm (fun _ hv _ hx => h.invoice hv hx) hold hevent).append
      (Table.account_subperm fun _ ha _ hx => h.attempt ha hx)
  | paid ha hv =>
    refine hresult ha hv ?_ rfl
    rw [PaymentAttempt.event?, ha.status]
  | failed ha hv =>
    refine hresult ha hv ?_ rfl
    rw [PaymentAttempt.event?, ha.status]

theorem Database.Happened.nodup_keys (h : db.Happened db' eventType payload b) :
    (payload.map Prod.fst).Nodup := by
  cases h with
  | created => exact nodup_createdPayload _
  | paid =>
    change ["invoice_id", "amount_cents", "psp_ref"].Nodup
    decide
  | failed =>
    change ["invoice_id", "failure_code", "amount_cents"].Nodup
    decide

/-- The event names an invoice of the business. -/
theorem Database.Happened.names (h : db.Happened db' eventType payload b)
    (hi : payload.jsonb.lookup eventType.invoiceField = some (.uuid i)) : db'.HasInvoice b i := by
  rw [Payload.lookup_jsonb h.nodup_keys] at hi
  cases h with
  | created hnew hv =>
    cases hi
    exact ⟨_, hv, rfl⟩
  | paid ha hv =>
    cases hi
    exact ⟨_, hv, rfl⟩
  | failed ha hv =>
    cases hi
    exact ⟨_, hv, rfl⟩

/-! ### What is added to what has been told -/

theorem WebhookDelivery.told?_eq_some {d : WebhookDelivery} :
    d.told? i = some x ↔ d.webhookEndpointId = i ∧ (d.eventType, d.payload) = x := by
  unfold WebhookDelivery.told?
  split
  case isTrue h => exact ⟨fun hx => ⟨h, Option.some.inj hx⟩, fun hx => congrArg some hx.2⟩
  case isFalse h => exact ⟨fun hx => (by cases hx), fun hx => absurd hx.1 h⟩

theorem Database.Onward.told (h : db.Onward db') :
    (db'.told i).Subperm ((db.added db').filterMap (WebhookDelivery.told? i) ++ db.told i) := by
  refine Table.account_subperm_append fun d hd x hx d' hd' => ?_
  obtain ⟨row, hrow, hev⟩ := h.grows ⟨.deliveries, d.id⟩ (.delivery d')
    (congrArg (Option.map Row.delivery) hd')
  obtain ⟨d'', hd'', rfl⟩ := Option.map_eq_some_iff.mp hrow
  obtain rfl : d'' = d := Option.some.inj (hd''.symm.trans (Table.find?_key hd))
  obtain ⟨-, hendpoint, heventType, hpayload⟩ := hev
  rwa [WebhookDelivery.told?, ← hendpoint, ← heventType, ← hpayload]

/-- **Each endpoint is told once**, if it is told. -/
theorem filterMap_told? {ds : List WebhookDelivery} {es : List WebhookEndpoint}
    (h : List.Forall₂ (WebhookDelivery.Tells eventType payload) ds es)
    (hnodup : (es.map WebhookEndpoint.id).Nodup) (i : Uuid) :
    ds.filterMap (WebhookDelivery.told? i) =
      if i ∈ es.map WebhookEndpoint.id then [(eventType, payload.jsonb)] else [] := by
  induction h with
  | nil => rfl
  | @cons d e ds es htells hrest ih =>
    obtain ⟨hnot, hnodup⟩ := List.nodup_cons.mp hnodup
    by_cases hi : e.id = i
    · subst hi
      have htold : d.told? e.id = some (eventType, payload.jsonb) :=
        WebhookDelivery.told?_eq_some.mpr
          ⟨htells.endpoint, by rw [htells.eventType, htells.payload]⟩
      rw [List.filterMap_cons_some htold, ih hnodup, if_neg hnot, List.map_cons,
        if_pos List.mem_cons_self]
    · have htold : d.told? i = none := by
        rw [WebhookDelivery.told?, htells.endpoint, if_neg hi]
      rw [List.filterMap_cons_none htold, ih hnodup, List.map_cons]
      simp only [List.mem_cons, Ne.symm hi, false_or]

end Databases

/-! ### Runs -/

namespace System

variable {crypto : Crypto} {s t : System} {φ φ' : Pid → Phase} {e : Event} {p : Pid}

/-- A commit leaves an attempt alone that is not pending. -/
theorem Sound.settled (h : s.Sound crypto φ) (hmove : s.Moves crypto φ e t φ') {a : PaymentAttempt}
    (ha : s.world.db.attempts.find? a.id = some a) (hstatus : a.status ≠ .pending) :
    t.world.db.attempts.find? a.id = some a := by
  have hupdate : ∀ {c : PayCall} {b : PaymentAttempt} {http : HttpResult} {q : Pid}
      {update : AttemptUpdate} {now : Timestamp},
      (Progress.answered b http).Holds crypto s.world q c →
      t.world.db.attempts = s.world.db.attempts.update b.id (·.update update now)
        (·.update_id update now) →
        t.world.db.attempts.find? a.id = some a := by
    intro c b http q update now hgood hattempts
    obtain ⟨-, hmade, hfind⟩ := hgood
    have hne : a.id ≠ b.id := by
      intro hid
      rw [hid, hfind] at ha
      cases ha
      exact hstatus hmade.status
    rw [hattempts, Table.find?_update_of_ne hne, ha]
  rcases h.commit_or hmove with ⟨hdb, -, -⟩ | ⟨q, ph, -, -, -, hcommits⟩
  · rwa [hdb]
  · generalize φ q = before at hcommits
    cases hcommits with
    | reserve _ hattempts _ =>
      rw [hattempts]
      exact Table.find?_insert_of_some ha
    | paid hgood _ _ _ _ _ hattempts _ => exact hupdate hgood hattempts
    | unpaid hgood _ _ _ _ _ hattempts _ => exact hupdate hgood hattempts
    | transition _ _ hattempts _ => rwa [hattempts]
    | other _ hattempts _ => rwa [hattempts]

/-- A new invoice is a draft. -/
theorem Sound.drafted (h : s.Sound crypto φ) (ho : s.Owned φ) (hmove : s.Moves crypto φ e t φ')
    {v : Invoice} (hnone : s.world.db.invoices.find? v.id = none)
    (hv : t.world.db.invoices.find? v.id = some v) : v.state = .draft := by
  have hbefore : s.world.db.stateOf v.id = none := congrArg (Option.map Invoice.state) hnone
  have hafter : t.world.db.stateOf v.id = some v.state := congrArg (Option.map Invoice.state) hv
  -- no commit makes an invoice appear in a state of its own choice
  have hmarked : ∀ {b i : Uuid} {state : InvoiceState}, s.world.db.HasInvoice b i →
      t.world.db.stateOf v.id = (if v.id = i then some state else s.world.db.stateOf v.id) →
        v.state = .draft := by
    rintro b i state ⟨v', hv', -⟩ hstate
    split at hstate
    case isTrue hi =>
      rw [← hi, hnone] at hv'
      cases hv'
    case isFalse =>
      rw [hafter, hbefore] at hstate
      cases hstate
  have hsame : t.world.db.stateOf v.id = s.world.db.stateOf v.id → v.state = .draft := by
    intro hstate
    rw [hafter, hbefore] at hstate
    cases hstate
  rcases h.commit_or hmove with ⟨hdb, -, -⟩ | ⟨q, ph, -, -, -, hcommits⟩
  · exact hsame (congrArg (·.stateOf v.id) hdb)
  · have howned := ho.phases q
    generalize φ q = before at hcommits howned
    cases hcommits with
    | reserve _ _ hstate => exact hsame (hstate v.id)
    | @paid _ a _ _ _ _ _ _ _ _ _ _ _ _ _ _ hstate =>
      exact hmarked (howned.invoice a rfl) (hstate v.id)
    | unpaid _ _ _ _ _ _ _ hstate => exact hsame (hstate v.id)
    | transition _ _ _ hstate => exact hmarked howned (hstate v.id)
    | other _ _ hstate =>
      rcases hstate v.id with hstate | ⟨-, hstate⟩
      · exact hsame hstate
      · exact Option.some.inj (hafter.symm.trans hstate)

/-- **A step leaves what has happened.** -/
theorem Sound.onward (h : s.Sound crypto φ) (ho : s.Owned φ) (hmove : s.Moves crypto φ e t φ') :
    s.world.db.Onward t.world.db where
  grows := h.grows hmove
  total i total htotal := by
    rcases h.commit_or hmove with ⟨hdb, -, -⟩ | ⟨p, ph, -, ht, -, -⟩
    · rwa [hdb]
    · rw [ht]
      exact Database.totalOf_applyAll_of_some _ htotal
  settled _ ha hstatus := h.settled hmove ha hstatus
  drafted _ hnone hv := h.drafted ho hmove hnone hv

/-- An endpoint that is new has been told nothing. -/
theorem told_of_new {db : Database} (h : db.Linked) {i : Uuid}
    (hnew : db.endpoints.find? i = none) : db.told i = [] := by
  refine List.eq_nil_iff_forall_not_mem.mpr fun x hx => ?_
  obtain ⟨d, hd, htold⟩ := Table.mem_account.mp hx
  obtain ⟨hid, -⟩ := WebhookDelivery.told?_eq_some.mp htold
  obtain ⟨b, j, ⟨endpoint, hendpoint, -⟩, -⟩ := h.delivery d hd
  rw [hid, hnew] at hendpoint
  cases hendpoint

/-- **A step tells what has happened**, once more than before at most. -/
theorem told_move {es : List Event} (hrun : run (step crypto) .init es = some s)
    (h : s.Sound crypto φ) (ho : s.Owned φ) (hmove : s.Moves crypto φ e t φ')
    (hI : ∀ endpoint ∈ s.world.db.endpoints,
      (s.world.db.told endpoint.id).Subperm (s.world.db.events endpoint.businessId))
    {endpoint : WebhookEndpoint} (hendpoint : endpoint ∈ t.world.db.endpoints) :
    (t.world.db.told endpoint.id).Subperm (t.world.db.events endpoint.businessId) := by
  have honward := h.onward ho hmove
  have hfind : t.world.db.endpoints.find? endpoint.id = some endpoint := Table.find?_key hendpoint
  have hold : (s.world.db.told endpoint.id).Subperm (s.world.db.events endpoint.businessId) := by
    cases hbefore : s.world.db.endpoints.find? endpoint.id with
    | none =>
      rw [told_of_new ho.linked hbefore]
      exact List.nil_subperm
    | some endpoint' =>
      obtain ⟨hmem, hid⟩ := Table.find?_eq_some.mp hbefore
      obtain ⟨active, hkept⟩ := hmove.find?_endpoint hbefore
      obtain rfl := Option.some.inj (hfind.symm.trans hkept)
      exact hI endpoint' hmem
  rcases hmove.db_or with ⟨hdb, -⟩ | ⟨p, u, job, k, hproc, -, ht⟩
  · rw [hdb]
    exact hold
  have hexact := commit_exact hrun (next?_eq_some.mpr ⟨job, k, hproc⟩)
  rw [← ht] at hexact
  refine honward.told.trans ?_
  by_cases hevent : ∃ eventType payload b, s.world.db.Happened t.world.db eventType payload b
  · obtain ⟨eventType, payload, b, hevent⟩ := hevent
    obtain ⟨endpoints, -, htells, hnodup, -⟩ := hexact.told eventType payload b hevent
    rw [filterMap_told? htells hnodup]
    split
    case isTrue hmem =>
      obtain rfl : b = endpoint.businessId := by
        -- the new delivery names an invoice of the business of its endpoint
        obtain ⟨d, hd, htold⟩ : ∃ d ∈ s.world.db.added t.world.db,
            d.told? endpoint.id = some (eventType, payload.jsonb) := by
          refine List.mem_filterMap.mp ?_
          rw [filterMap_told? htells hnodup, if_pos hmem]
          exact List.mem_singleton_self _
        obtain ⟨hid, hpair⟩ := WebhookDelivery.told?_eq_some.mp htold
        obtain ⟨rfl, hpayload⟩ := Prod.mk.inj hpair
        have hlinked := (ho.move h hmove).linked
        obtain ⟨b', i, ⟨endpoint', hendpoint', rfl⟩, hnames, v, hv, hbusiness⟩ :=
          hlinked.delivery d (List.mem_of_mem_filter hd)
        rw [hid, hfind] at hendpoint'
        cases hendpoint'
        rw [WebhookDelivery.Names, hpayload] at hnames
        obtain ⟨v', hv', rfl⟩ := hevent.names hnames
        cases hv.symm.trans hv'
        exact hbusiness
      exact ((List.subperm_cons _).mpr hold).trans (honward.cons_events hevent)
    case isFalse => exact hold.trans honward.events
  · have hnone : s.world.db.added t.world.db = [] :=
      hexact.untold fun eventType payload b hb => hevent ⟨eventType, payload, b, hb⟩
    rw [hnone]
    exact hold.trans honward.events

/-- **An endpoint has been told a part of what has happened.** -/
theorem Reachable.told (hs : s.Reachable crypto) {endpoint : WebhookEndpoint}
    (hendpoint : endpoint ∈ s.world.db.endpoints) :
    (s.world.db.told endpoint.id).Subperm (s.world.db.events endpoint.businessId) := by
  obtain ⟨es, hrun⟩ := Reaches.exists_run hs
  obtain ⟨φ, -, -, htold⟩ := run_induction (I := fun _ s φ => s.Owned φ ∧
      ∀ endpoint ∈ s.world.db.endpoints,
        (s.world.db.told endpoint.id).Subperm (s.world.db.events endpoint.businessId))
    hrun ⟨owned_init, fun endpoint h => absurd h (Table.not_mem_empty endpoint)⟩ <| by
      rintro es s φ e t φ' hrun h ⟨ho, hI⟩ - hmove -
      exact ⟨ho.move h hmove, fun endpoint => told_move hrun h ho hmove hI⟩
  exact htold endpoint hendpoint

end System

/-- **Webhooks tell the truth.** In every state that can be reached, what an endpoint has been told
is a part of what has happened to its business, every event as often as it has happened at most;
what is posted is one of these events, signed for the endpoint; and what has happened stays so. -/
theorem webhooks_truthful {crypto : Crypto} {s t : System} (hs : s.Reachable crypto)
    (hreach : Reaches (System.step crypto) Always s t) :
    (∀ endpoint ∈ s.world.db.endpoints,
      (s.world.db.told endpoint.id).Subperm (s.world.db.events endpoint.businessId)) ∧
    (∀ x ∈ s.world.posts, ∃ endpoint ∈ s.world.db.endpoints,
      ∃ event ∈ s.world.db.events endpoint.businessId, ∃ time,
        x.url = endpoint.url.text ∧ x.body = event.2.dumps ∧ x.headers =
          deliveryHeaders event.1 (signPayload crypto endpoint.signingSecret.text x.body time)) ∧
    ∀ b, (s.world.db.events b).Subperm (t.world.db.events b) := by
  refine ⟨fun endpoint => hs.told, fun x hx => ?_, fun b => ?_⟩
  · obtain ⟨d, endpoint, time, hsends⟩ := hs.sends x hx
    obtain ⟨hd, -⟩ := Table.find?_eq_some.mp hsends.row
    obtain ⟨hendpoint, hid⟩ := Table.find?_eq_some.mp hsends.receiver
    have htold : (d.eventType, d.payload) ∈ s.world.db.told endpoint.id :=
      Table.mem_account.mpr ⟨d, hd, WebhookDelivery.told?_eq_some.mpr ⟨hid.symm, rfl⟩⟩
    exact ⟨endpoint, hendpoint, _, (hs.told hendpoint).subset htold, time, hsends.url, hsends.body,
      hsends.headers⟩
  · obtain ⟨φ, h, ho⟩ := hs.owned
    obtain ⟨φ', -, -, hevents⟩ := System.Sound.reaches
      (I := fun u ψ => u.Owned ψ ∧ (s.world.db.events b).Subperm (u.world.db.events b)) hreach h
      ⟨ho, List.Subperm.refl _⟩ <| by
        rintro u ψ e v ψ' hu ⟨hou, hI⟩ - - hmove -
        exact ⟨hou.move hu hmove, hI.trans (hu.onward hou hmove).events⟩
    exact hevents

theorem webhooks_truthful_accepting : ∃ s, run (System.step sampleCrypto) .init accepting = some s ∧
    ∃ x ∈ s.world.posts, ∃ endpoint ∈ s.world.db.endpoints,
      ∃ event ∈ s.world.db.events endpoint.businessId, x.body = event.2.dumps := by
  have hrun : (run (System.step sampleCrypto) .init accepting).any (fun s => s.world.posts ≠ []) =
      true := by decide +kernel
  obtain ⟨s, hs, hne⟩ := (Option.any_eq_true _ _).mp hrun
  obtain ⟨x, hx⟩ := List.exists_mem_of_ne_nil _ (of_decide_eq_true hne)
  obtain ⟨-, hposts, -⟩ := webhooks_truthful (reaches_of_run hs) .refl
  obtain ⟨endpoint, hendpoint, event, hevent, time, -, hbody, -⟩ := hposts x hx
  exact ⟨s, hs, x, hx, endpoint, hendpoint, event, hevent, hbody⟩

end TenantBilling
