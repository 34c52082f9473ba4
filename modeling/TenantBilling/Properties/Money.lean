import TenantBilling.Invariant.Calls
import TenantBilling.Invariant.Transactions
import TenantBilling.Properties.DurableAttempt
import TenantBilling.Properties.Replay

/-!
# Money is conserved

An amount is computed once, when an invoice is created, and from then on copied: from the
payload to the line items and to the total, from the total to the attempts, from an attempt to
the call of the provider and to the events. The copies are made in different transactions, so
that they agree is a property of the committed tables together
(`TenantBilling.Database.Balanced`), kept by every transaction.

* The total of an invoice never changes (`TenantBilling.Database.totalOf_applyAll_of_some`).
* The transaction that creates an invoice inserts line items that add up to its total
  (`TenantBilling.CreateCall.Made.total`), and no other inserts line items of the invoice.
* An attempt has the total that its session has read under the lock of the invoice, and an
  event the amount of its invoice or attempt.
-/

namespace TenantBilling

open Base World

/-- The field of an event payload that carries the amount. -/
def EventType.amountField : EventType → String
  | invoiceCreated => "total_cents"
  | invoicePaid => "amount_cents"
  | invoicePaymentFailed => "amount_cents"

/-- The delivery is about the invoice, and carries the amount. -/
def WebhookDelivery.Carries (d : WebhookDelivery) (i : Uuid) (total : BigInt) : Prop :=
  d.Names i ∧ d.payload.lookup d.eventType.amountField = some (.cents total.val)

/-- An attempt that is about to be committed has the total of the invoice that is locked. -/
def PayPoint.Copies : PayPoint → Prop
  | reserve v a => a.amountCents = v.totalCents
  | _ => True

/-- The write inserts neither an invoice nor line items. -/
def Write.KeepsTotals : Write → Prop
  | insertInvoice _ | insertLineItems _ => False
  | _ => True

namespace Database

/-- The total of an invoice. -/
def totalOf (db : Database) (i : Uuid) : Option BigInt :=
    (db.invoices.find? i).map Invoice.totalCents

/-- The sum of the amounts of the line items of an invoice. -/
def sumOf (db : Database) (i : Uuid) : ℤ :=
  ((db.lineItemsOf i).map fun li => li.amountCents.val).sum

/-- **The amounts of the tables agree.** -/
structure Balanced (db : Database) : Prop where
  items : ∀ i total, db.totalOf i = some total → db.lineItemsOf i ≠ [] ∧ total.val = db.sumOf i
  attempt : ∀ a ∈ db.attempts, db.totalOf a.invoiceId = some a.amountCents
  delivery : ∀ d ∈ db.deliveries, ∃ i total, db.totalOf i = some total ∧ d.Carries i total

variable {db : Database} {x : Write} {ws : List Write} {i : Uuid} {total : BigInt}

/-! ### Totals and line items -/

theorem totalOf_apply_of_some (x : Write) (h : db.totalOf i = some total) :
    (db.apply x).totalOf i = some total := by
  obtain ⟨v, hv, rfl⟩ := Option.map_eq_some_iff.mp h
  unfold totalOf
  cases x with
  | insertInvoice row => exact congrArg _ (Table.find?_insert_of_some hv)
  | updateInvoice j state now =>
    rw [find?_apply_updateInvoice]
    split
    case isTrue hij =>
      subst hij
      rw [hv]
      rfl
    case isFalse => exact h
  | _ => exact h

/-- **A total never changes.** -/
theorem totalOf_applyAll_of_some (ws : List Write) (h : db.totalOf i = some total) :
    (db.applyAll ws).totalOf i = some total := by
  induction ws generalizing db with
  | nil => exact h
  | cons x ws ih => exact ih (totalOf_apply_of_some x h)

theorem totalOf_apply (hx : x.KeepsTotals) : (db.apply x).totalOf i = db.totalOf i := by
  cases x with
  | insertInvoice row => exact hx.elim
  | updateInvoice j state now =>
    unfold totalOf
    rw [find?_apply_updateInvoice]
    split
    case isTrue hij =>
      subst hij
      rw [Option.map_map]
      rfl
    case isFalse => rfl
  | _ => rfl

/-- A transaction that creates no invoice keeps the balance of each. -/
theorem totals_applyAll (hws : ∀ x ∈ ws, x.KeepsTotals) :
    (db.applyAll ws).lineItems = db.lineItems ∧ ∀ i, (db.applyAll ws).totalOf i = db.totalOf i := by
  induction ws generalizing db with
  | nil => exact ⟨rfl, fun _ => rfl⟩
  | cons x ws ih =>
    obtain ⟨hitems, htotal⟩ := @ih (db.apply x) fun y hy => hws y (List.mem_cons_of_mem _ hy)
    have hx := hws x List.mem_cons_self
    refine ⟨hitems.trans ?_, fun i => (htotal i).trans (totalOf_apply hx)⟩
    cases x with
    | insertLineItems rows => exact hx.elim
    | _ => rfl

/-- The line items of an invoice after an insert of new ones. -/
theorem lineItemsOf_insert {v : Invoice} {rows : List InvoiceLineItem} (db : Database)
    (hfree : ∀ li ∈ rows, db.lineItems.Free li.id) (hnodup : (rows.map InvoiceLineItem.id).Nodup)
    (hrest : ∀ x ∈ ws, x.KeepsTotals) (i : Uuid) :
    (db.applyAll (.insertInvoice v :: .insertLineItems rows :: ws)).lineItemsOf i =
      db.lineItemsOf i ++ rows.filter fun li => li.invoiceId = i := by
  unfold lineItemsOf
  rw [applyAll_cons, applyAll_cons, (totals_applyAll hrest).1]
  change ((db.lineItems.insertAll rows).rows.filter _) = _
  rw [Table.rows_insertAll hfree hnodup, List.filter_append]

/-- The totals after an insert of a new invoice. -/
theorem totalOf_insert {v : Invoice} {rows : List InvoiceLineItem}
    (hnone : db.invoices.find? v.id = none) (hrest : ∀ x ∈ ws, x.KeepsTotals) (i : Uuid) :
    (db.applyAll (.insertInvoice v :: .insertLineItems rows :: ws)).totalOf i =
      if i = v.id then some v.totalCents else db.totalOf i := by
  rw [applyAll_cons, applyAll_cons, (totals_applyAll hrest).2]
  change ((db.invoices.insert v).find? i).map Invoice.totalCents = _
  rw [Table.find?_insert]
  split
  case isTrue hi =>
    subst hi
    rw [hnone, if_pos rfl]
    rfl
  case isFalse hi =>
    rw [if_neg (Ne.symm hi), Option.or_none]
    rfl

theorem Fits.find?_invoice_eq_none {v : Invoice} (h : db.Fits ws) (hv : .insertInvoice v ∈ ws) :
    db.invoices.find? v.id = none :=
  Option.map_eq_none_iff.mp (h.fresh _ hv _ (List.mem_singleton_self _))

theorem Fits.lineItems_free {rows : List InvoiceLineItem} (h : db.Fits ws)
    (hrows : .insertLineItems rows ∈ ws) :
    (∀ li ∈ rows, db.lineItems.Free li.id) ∧ (rows.map InvoiceLineItem.id).Nodup := by
  constructor
  · intro li hli
    have hrow := h.fresh _ hrows ⟨.lineItems, li.id⟩ (List.mem_map_of_mem hli)
    exact Table.free_iff.mpr (Option.map_eq_none_iff.mp hrow)
  · have hnodup : (Write.insertLineItems rows).inserted.Nodup :=
      (List.nodup_flatMap.mp h.nodup).1 _ hrows
    have hmap : (Write.insertLineItems rows).inserted.map RowRef.id =
      rows.map InvoiceLineItem.id := by
      simp [Write.inserted, Function.comp_def]
    rw [← hmap]
    refine hnodup.map_on fun r hr r' hr' hid => ?_
    obtain ⟨li, -, rfl⟩ := List.mem_map.mp hr
    obtain ⟨li', -, rfl⟩ := List.mem_map.mp hr'
    exact congrArg (RowRef.mk .lineItems) hid

/-! ### Deliveries -/

/-- A delivery keeps what it is about. -/
theorem mem_deliveries_applyAll {d : WebhookDelivery} (h : d ∈ (db.applyAll ws).deliveries) :
    ∃ d', d.eventType = d'.eventType ∧ d.payload = d'.payload ∧
      (d' ∈ db.deliveries ∨ ∃ rows, .insertDeliveries rows ∈ ws ∧ d' ∈ rows) := by
  have hrow : (db.applyAll ws).row ⟨.deliveries, d.id⟩ = some (.delivery d) := by
    simp [Database.row, Table.find?_key h]
  rcases row_applyAll_or hrow with ⟨row, hold, hev⟩ | ⟨x, hx, row, hnew, hev⟩
  · cases row with
    | delivery d' =>
      obtain ⟨d'', hd'', heq⟩ := Option.map_eq_some_iff.mp hold
      obtain rfl := Row.delivery.inj heq
      obtain ⟨-, -, htype, hpayload⟩ := hev
      exact ⟨d'', htype, hpayload, Or.inl (Table.find?_eq_some.mp hd'').1⟩
    | _ => exact hev.elim
  · cases row with
    | delivery d' =>
      obtain ⟨-, -, htype, hpayload⟩ := hev
      cases x with
      | insertDeliveries rows =>
        obtain ⟨d'', hd'', heq⟩ := List.mem_map.mp hnew
        obtain rfl := Row.delivery.inj heq
        exact ⟨d'', htype, hpayload, Or.inr ⟨rows, hx, hd''⟩⟩
      | insertLineItems rows =>
        obtain ⟨li, -, heq⟩ := List.mem_map.mp hnew
        cases heq
      | insertCustomer | insertInvoice | insertAttempt | insertEndpoint =>
        cases List.mem_singleton.mp hnew
      | _ => cases hnew
    | _ => exact hev.elim

end Database

/-! ### The amounts of a payload -/

section Payload

theorem NewLineItem.row_amount {n : NewLineItem} {i id : Uuid} {now : Timestamp}
    {li : InvoiceLineItem} (h : n.row i id now = .ok li) : li.amountCents.val = n.amountCents := by
  unfold NewLineItem.row at h
  split at h
  case h_1 description quantity unit amount _ _ _ hamount =>
    split at h
    · split at h
      · split at h
        · rw [← Except.ok.inj h]
          exact SignedInt.ofInt?_eq_some.mp hamount
        · cases h
      · cases h
    · cases h
  · cases h
  · cases h

/-- The rows of a multi-row insert have the amounts that were asked for. -/
theorem buildRows_amounts {i : Uuid} {now : Timestamp} {ids : ℕ → Uuid} {k : ℕ}
    {new : List NewLineItem} {rows : List InvoiceLineItem} (h :
      buildRows (fun n id => n.row i id now) ids k new = .ok rows) :
    rows.map (fun li => li.amountCents.val) = new.map NewLineItem.amountCents := by
  induction new generalizing k rows with
  | nil =>
    obtain rfl := Except.ok.inj h
    rfl
  | cons n new ih =>
    simp only [buildRows] at h
    cases hrow : n.row i (ids k) now with
    | error e => simp [hrow] at h
    | ok row =>
      cases hrest : buildRows (fun n id => n.row i id now) ids (k + 1) new with
      | error e => simp [hrow, hrest] at h
      | ok rest =>
        simp only [hrow, hrest] at h
        obtain rfl := Except.ok.inj h
        rw [List.map_cons, List.map_cons, NewLineItem.row_amount hrow, ih hrest]

/-- **The line items of a new invoice add up to its total.** -/
theorem CreateCall.Made.total {c : CreateCall} {v : Invoice} {rows : List InvoiceLineItem}
    (hmade : c.Made v) (hitems : c.Items v rows) :
    rows ≠ [] ∧ v.totalCents.val = (rows.map fun li => li.amountCents.val).sum := by
  obtain ⟨now, hrow⟩ := hmade
  obtain ⟨ids, now', hrows⟩ := hitems
  have hamounts : rows.map (fun li => li.amountCents.val) =
      c.payload.lineItems.map InvoiceLineItemCreate.amountCents := by
    rw [buildRows_amounts hrows, InvoiceCreate.newLineItems, List.map_map]
    rfl
  constructor
  · rintro rfl
    exact c.payload.lineItemsNonempty (List.map_eq_nil_iff.mp hamounts.symm)
  · rw [hamounts]
    unfold NewInvoice.row at hrow
    split at hrow
    case h_1 total htotal =>
      split at hrow
      · rw [← Except.ok.inj hrow]
        exact SignedInt.ofInt?_eq_some.mp htotal
      · cases hrow
    case h_2 => cases hrow

/-- The rows of an event carry the amount of its payload. -/
theorem carries_of_mem_deliveryRows {env : Env} {endpoints : List WebhookEndpoint}
    {eventType : EventType}
    {payload : Payload} {now : Timestamp} {d : WebhookDelivery} {i : Uuid} {total : BigInt}
    (h : d ∈ deliveryRows env (endpoints.map (newDelivery eventType payload now)))
    (hkeys : (payload.map Prod.fst).Nodup)
    (hi : payload.lookup eventType.invoiceField = some (.uuid i))
    (htotal : payload.lookup eventType.amountField = some (.cents total.val)) :
    d.Carries i total := by
  obtain ⟨e, -, -, htype, hpayload⟩ := mem_deliveryRows h
  refine ⟨?_, ?_⟩
  · rw [WebhookDelivery.Names, htype, hpayload, Payload.lookup_jsonb hkeys, hi]
  · rw [htype, hpayload, Payload.lookup_jsonb hkeys, htotal]

theorem PayCall.Outbox.carries {c : PayCall} {a : PaymentAttempt}
    {outcome : Except PspError PspChargeResult} {endpoints : List WebhookEndpoint}
    {rest : List Write} (h : c.Outbox a outcome endpoints rest) {rows : List WebhookDelivery}
    (hrows : .insertDeliveries rows ∈ rest) {d : WebhookDelivery} (hd : d ∈ rows) :
    d.Carries c.invoiceId a.amountCents := by
  rcases h with ⟨-, rfl⟩ | ⟨-, result, now, env, -, rfl⟩
  · cases hrows
  · obtain rfl := Write.insertDeliveries.inj (List.mem_singleton.mp hrows)
    refine carries_of_mem_deliveryRows hd (nodup_resultPayload ..) (lookup_resultPayload ..) ?_
    unfold resultPayload resultEvent
    split <;> rfl

theorem Invoice.Outbox.carries {v : Invoice} {endpoints : List WebhookEndpoint}
    {rest : List Write} (h : v.Outbox endpoints rest) {rows : List WebhookDelivery}
    (hrows : .insertDeliveries rows ∈ rest) {d : WebhookDelivery} (hd : d ∈ rows) :
    d.Carries v.id v.totalCents := by
  rcases h with ⟨-, rfl⟩ | ⟨-, now, env, rfl⟩
  · cases hrows
  · obtain rfl := Write.insertDeliveries.inj (List.mem_singleton.mp hrows)
    exact carries_of_mem_deliveryRows hd (nodup_createdPayload v) rfl rfl

theorem PayCall.Outbox.keepsTotals {c : PayCall} {a : PaymentAttempt}
    {outcome : Except PspError PspChargeResult} {endpoints : List WebhookEndpoint}
    {rest : List Write} (h : c.Outbox a outcome endpoints rest) : ∀ x ∈ rest, x.KeepsTotals := by
  rintro x hx
  rcases h with ⟨-, rfl⟩ | ⟨-, result, now, env, -, rfl⟩
  · cases hx
  · obtain rfl := List.mem_singleton.mp hx
    trivial

theorem Invoice.Outbox.keepsTotals {v : Invoice} {endpoints : List WebhookEndpoint}
    {rest : List Write} (h : v.Outbox endpoints rest) : ∀ x ∈ rest, x.KeepsTotals := by
  rintro x hx
  rcases h with ⟨-, rfl⟩ | ⟨-, now, env, rfl⟩
  · cases hx
  · obtain rfl := List.mem_singleton.mp hx
    trivial

end Payload

/-! ### Transactions -/

section Balance

variable {crypto : Crypto} {w : World} {p : Pid} {ws : List Write}

/-- A transaction creates an invoice, or keeps the totals. -/
theorem Transacts.keepsTotals (h : Transacts crypto w p ws) :
    (∀ x ∈ ws, x.KeepsTotals) ∨ ∃ c v rows rest, ws = .insertInvoice v :: .insertLineItems rows ::
      rest ∧
      CreateCall.Made c v ∧ c.Items v rows ∧ ∀ x ∈ rest, x.KeepsTotals := by
  cases h with
  | @create c v _ rows rest hmade hitems hrest =>
    exact Or.inr ⟨c, v, rows, rest, rfl, hmade, hitems, hrest.keepsTotals⟩
  | settle _ _ _ hmarks hrest =>
    refine Or.inl fun x hx => ?_
    rcases List.mem_cons.mp hx with rfl | hx
    · trivial
    · rcases List.mem_append.mp hx with hx | hx
      · rcases hmarks with ⟨-, now', rfl⟩ | ⟨-, rfl⟩
        · obtain rfl := List.mem_singleton.mp hx
          trivial
        · cases hx
      · exact hrest.keepsTotals x hx
  | registers h =>
    refine Or.inl fun x hx => ?_
    have hregisters := h x hx
    cases x <;> trivial
  | _ =>
    refine Or.inl fun x hx => ?_
    obtain rfl := List.mem_singleton.mp hx
    trivial

/-- The deliveries of a transaction carry the amounts of the totals that it leaves. -/
theorem Transacts.carries (h : Transacts crypto w p ws) (hbalanced : w.db.Balanced)
    (hfits : w.db.Fits ws) {rows : List WebhookDelivery} (hrows : .insertDeliveries rows ∈ ws)
    {d : WebhookDelivery} (hd : d ∈ rows) :
    ∃ i total, (w.db.applyAll ws).totalOf i = some total ∧ d.Carries i total := by
  cases h with
  | @settle c a _ _ _ _ _ marks rest hgood _ _ hmarks hrest =>
    refine ⟨c.invoiceId, a.amountCents, Database.totalOf_applyAll_of_some _ ?_, ?_⟩
    · obtain ⟨-, hmade, hfind⟩ := hgood
      rw [← hmade.invoiceId]
      exact hbalanced.attempt a (Table.find?_eq_some.mp hfind).1
    · refine hrest.carries ?_ hd
      rcases List.mem_cons.mp hrows with hrows | hrows
      · cases hrows
      · rcases List.mem_append.mp hrows with hrows | hrows
        · rcases hmarks with ⟨-, now', rfl⟩ | ⟨-, rfl⟩
          · cases List.mem_singleton.mp hrows
          · cases hrows
        · exact hrows
  | @create c v _ items rest hmade hitems hrest =>
    refine ⟨v.id, v.totalCents, ?_, ?_⟩
    · rw [Database.totalOf_insert (hfits.find?_invoice_eq_none List.mem_cons_self)
        hrest.keepsTotals]
      exact if_pos rfl
    · refine hrest.carries ?_ hd
      rcases List.mem_cons.mp hrows with hrows | hrows
      · cases hrows
      · rcases List.mem_cons.mp hrows with hrows | hrows
        · cases hrows
        · exact hrows
  | registers h => exact (h _ hrows).elim
  | _ => cases List.mem_singleton.mp hrows

/-- **Every transaction keeps the amounts in agreement.** -/
theorem Transacts.balanced (h : Transacts crypto w p ws) (hbalanced : w.db.Balanced)
    (hfits : w.db.Fits ws) (hlinked : w.db.Linked)
    (hattempts : ∀ a ∈ (w.db.applyAll ws).attempts, w.db.totalOf a.invoiceId = some a.amountCents) :
    (w.db.applyAll ws).Balanced := by
  refine ⟨fun i total htotal => ?_, fun a ha => ?_, fun d hd => ?_⟩
  · rcases h.keepsTotals with hkeeps | ⟨c, v, rows, rest, rfl, hmade, hitems, hrest⟩
    · have ⟨hitems, htotals⟩ := w.db.totals_applyAll hkeeps
      rw [htotals i] at htotal
      unfold Database.sumOf Database.lineItemsOf
      rw [hitems]
      exact hbalanced.items i total htotal
    have hnone := hfits.find?_invoice_eq_none (v := v) List.mem_cons_self
    have hrows : Write.insertLineItems rows ∈
        Write.insertInvoice v :: .insertLineItems rows :: rest := by simp
    obtain ⟨hfree, hnodup⟩ := hfits.lineItems_free hrows
    have hinvoice : ∀ li ∈ rows, li.invoiceId = v.id := by
      obtain ⟨ids, now, hrows⟩ := hitems
      exact buildRows_invoiceId hrows
    rw [Database.totalOf_insert hnone hrest] at htotal
    rw [Database.sumOf, Database.lineItemsOf_insert w.db hfree hnodup hrest i]
    split at htotal
    case isTrue hi =>
      -- no line item is there before its invoice
      subst hi
      obtain rfl := Option.some.inj htotal
      have hold : w.db.lineItemsOf v.id = [] := by
        refine List.filter_eq_nil_iff.mpr fun li hli hid => ?_
        obtain ⟨b, v', hv', -⟩ := hlinked.lineItem li hli
        rw [of_decide_eq_true hid, hnone] at hv'
        cases hv'
      have hnew : rows.filter (fun li => li.invoiceId = v.id) = rows :=
        List.filter_eq_self.mpr fun li hli => by simpa using hinvoice li hli
      rw [hold, hnew, List.nil_append]
      exact hmade.total hitems
    case isFalse hi =>
      have hnew : rows.filter (fun li => li.invoiceId = i) = [] := by
        refine List.filter_eq_nil_iff.mpr fun li hli hid => hi ?_
        exact (of_decide_eq_true hid).symm.trans (hinvoice li hli)
      rw [hnew, List.append_nil]
      exact hbalanced.items i total htotal
  · exact Database.totalOf_applyAll_of_some ws (hattempts a ha)
  · obtain ⟨d', htype, hpayload, hd' | ⟨rows, hrows, hd'⟩⟩ := Database.mem_deliveries_applyAll hd
    · obtain ⟨i, total, htotal, hcarries⟩ := hbalanced.delivery d' hd'
      exact ⟨i, total, Database.totalOf_applyAll_of_some ws htotal, by
        rwa [WebhookDelivery.Carries, WebhookDelivery.Names, htype, hpayload]⟩
    · obtain ⟨i, total, htotal, hcarries⟩ := h.carries hbalanced hfits hrows hd'
      exact ⟨i, total, htotal, by
        rwa [WebhookDelivery.Carries, WebhookDelivery.Names, htype, hpayload]⟩

/-! ### Attempts -/

theorem PayPoint.Copies.step {w' : World} {c : PayCall} {pt : PayPoint} {st : Stmt}
    {next : st.Resp → PayPoint} {r : st.Resp} (hout : pt.out crypto c = .op st next)
    (hans : w.Answers p st r w') : (next r).Copies := by
  cases pt with
  | insert v =>
    cases hout
    have hinsert := answers_insertAttempt hans
    rcases r with err | a
    · cases err <;> trivial
    · obtain ⟨-, ⟨now, hrow⟩, -⟩ := hinsert
      exact NewAttempt.row_amountCents hrow
  | _ =>
    cases hout <;> dsimp only [recorded] <;> repeat' split
    all_goals trivial

/-- Every payment copies the total. -/
def Copying (φ : Pid → Phase) : Prop := ∀ p c pt, φ p = .pay c pt → pt.Copies

theorem Copying.move {s t : System} {φ φ' : Pid → Phase} {e : Event} (hI : Copying φ)
    (hmove : s.Moves crypto φ e t φ') : Copying φ' := by
  refine hmove.phases (Q := fun _ p ph => ∀ c pt, ph = .pay c pt → pt.Copies) hI ?_ ?_ ?_ ?_
  · intro job _ c pt hph
    rcases Job.phase_eq_pay hph with rfl | ⟨x, rfl⟩ <;> trivial
  · intro p st r ph _ hans hnext _ c pt hph
    generalize φ p = ph₀ at hnext
    cases hnext with
    | pay hout r =>
      obtain ⟨rfl, rfl⟩ := Phase.pay.inj hph
      exact PayPoint.Copies.step hout hans.answers
    | _ => cases hph
  · exact fun p _ hold => hold
  · exact fun q _ _ hold => hold

/-- A commit leaves each attempt with the total of its invoice. -/
theorem Commits.amounts {db' : Database} {ph ph' : Phase} (h : Commits crypto w p db' ph ph')
    (hbalanced : w.db.Balanced) (hcopies : ∀ c pt, ph = .pay c pt → pt.Copies) :
    ∀ a ∈ db'.attempts, w.db.totalOf a.invoiceId = some a.amountCents := by
  have hupdate : ∀ {i : Uuid} {update : AttemptUpdate} {now : Timestamp},
      db'.attempts = w.db.attempts.update i (·.update update now) (·.update_id update now) →
        ∀ a ∈ db'.attempts, w.db.totalOf a.invoiceId = some a.amountCents := by
    intro i update now hattempts a ha
    rw [hattempts] at ha
    obtain ⟨b, hb, rfl⟩ := Table.mem_update.mp ha
    split
    · exact hbalanced.attempt b hb
    · exact hbalanced.attempt b hb
  cases h with
  | @reserve c v a hholds hattempts _ =>
    intro b hb
    rw [hattempts] at hb
    rcases Table.of_mem_insert hb with hb | rfl
    · exact hbalanced.attempt b hb
    · obtain ⟨-, -, hfind, hres⟩ := hholds
      have hcopy : b.amountCents = v.totalCents := hcopies c _ rfl
      rw [Database.totalOf, hres.made.invoiceId, hfind, hcopy]
      rfl
  | paid _ _ _ _ _ _ hattempts _ => exact hupdate hattempts
  | unpaid _ _ _ _ _ _ hattempts _ => exact hupdate hattempts
  | transition _ _ hattempts _ => exact fun a ha => hbalanced.attempt a (hattempts ▸ ha)
  | other _ hattempts _ => exact fun a ha => hbalanced.attempt a (hattempts ▸ ha)

end Balance

/-! ### Runs -/

/-- **Amounts are conserved.** -/
structure MoneyConserved (s : System) : Prop where
  /-- An invoice has line items, and they add up to its total. -/
  items : ∀ v ∈ s.world.db.invoices, s.world.db.lineItemsOf v.id ≠ [] ∧
    v.totalCents.val = ((s.world.db.lineItemsOf v.id).map fun li => li.amountCents.val).sum
  lines : ∀ li ∈ s.world.db.lineItems, li.amountCents.val = li.quantity.val * li.unitAmountCents.val
  /-- An attempt is over the total of its invoice. -/
  attempt : ∀ a ∈ s.world.db.attempts, s.world.db.totalOf a.invoiceId = some a.amountCents
  /-- A call of the provider is made for an attempt that its session has committed. -/
  call : ∀ x ∈ s.world.charges, ∃ a ∈ s.world.db.attempts, s.Reserved x.pid a ∧
    x ∈ s.chargesOn a.invoiceId ∧ x.amountCents = a.amountCents.val
  /-- A delivery is about an invoice, and carries its total. -/
  delivery : ∀ d ∈ s.world.db.deliveries, ∃ i total, s.world.db.totalOf i = some total ∧
    d.Carries i total

section Runs

variable {crypto : Crypto} {s t : System} {φ φ' : Pid → Phase} {e : Event}

theorem Database.balanced_empty : Database.empty.Balanced :=
  ⟨(fun i total h => by cases h), fun a ha => absurd ha (Table.not_mem_empty a),
    fun d hd => absurd hd (Table.not_mem_empty d)⟩

theorem Database.Balanced.move (h : s.Sound crypto φ) (ho : s.Owned φ) (hcopies : Copying φ)
    (hI : s.world.db.Balanced) (hmove : s.Moves crypto φ e t φ') : t.world.db.Balanced := by
  have hattempts : ∀ a ∈ t.world.db.attempts,
    s.world.db.totalOf a.invoiceId = some a.amountCents := by
    rcases h.commit_or hmove with ⟨hdb, -, -⟩ | ⟨p, ph, -, -, -, hcommits⟩
    · rw [hdb]
      exact hI.attempt
    · exact hcommits.amounts hI (hcopies p)
  rcases ho.transacts_or h hmove with ⟨hdb, -⟩ | ⟨p, -, hdb, htransacts⟩
  · rwa [hdb]
  · rw [hdb] at hattempts ⊢
    exact htransacts.balanced hI (h.consistent.fits p) ho.linked hattempts

theorem Database.Balanced.of_reachable (hs : s.Reachable crypto) : s.world.db.Balanced := by
  obtain ⟨φ, -, -, -, h⟩ := System.Sound.reaches
    (I := fun s φ => s.Owned φ ∧ Copying φ ∧ s.world.db.Balanced) hs System.sound_init
    ⟨System.owned_init, (fun p c pt hph => by cases hph), Database.balanced_empty⟩
    fun _ _ _ _ _ hu hIu _ _ hmove _ => by
      obtain ⟨ho, hcopies, hbalanced⟩ := hIu
      exact ⟨ho.move hu hmove, hcopies.move hmove, hbalanced.move hu ho hcopies hmove⟩
  exact h

/-- The total of an invoice stays as it is. -/
theorem System.Reachable.totalOf (hreach : Reaches (System.step crypto) Always s t)
    (hs : s.Reachable crypto) {i : Uuid} {total : BigInt} (h : s.world.db.totalOf i = some total) :
    t.world.db.totalOf i = some total := by
  obtain ⟨φ, hsound, -⟩ := hs.owned
  obtain ⟨ψ, -, htotal⟩ := System.Sound.reaches
    (I := fun u _ => u.world.db.totalOf i = some total) hreach hsound h <| by
      rintro u ψ e v ψ' hu hIu - - hmove -
      rcases hu.commit_or hmove with ⟨hdb, -, -⟩ | ⟨p, ph, -, ht, -, -⟩
      · rwa [hdb]
      · rw [ht]
        exact Database.totalOf_applyAll_of_some _ hIu
  exact htotal

/-- **Money is conserved** in every state that can be reached, and the total of an invoice stays
as it is over every run. -/
theorem money_conserved (hs : s.Reachable crypto)
    (hreach : Reaches (System.step crypto) Always s t) : MoneyConserved s ∧
      ∀ i total, s.world.db.totalOf i = some total → t.world.db.totalOf i = some total := by
  have hbalanced := Database.Balanced.of_reachable hs
  refine ⟨⟨fun v hv => ?_, fun li _ => li.amountMatches, hbalanced.attempt, fun x hx => ?_,
    hbalanced.delivery⟩, fun i total => hs.totalOf hreach⟩
  · refine hbalanced.items v.id v.totalCents ?_
    rw [Database.totalOf, Table.find?_key hv]
    rfl
  · obtain ⟨φ, h, hrec⟩ := Recorded.of_reachable hs
    obtain ⟨c, pt, a, hph, hmade, ha, hcases⟩ := h.charge_cases hx
    have hcommitted : (φ x.pid).committed? = some a := by
      rw [hph]
      exact ha
    have hgood := h.forGood x.pid
    rw [hph] at hgood
    obtain ⟨row, hrow, hfollows⟩ := Progress.Holds.follows hgood ha
    refine ⟨row, hrow, ?_, ?_, ?_⟩
    · obtain ⟨m, hm, hpid, hinsert⟩ := hrec.history x.pid a hcommitted
      exact ⟨m, hm, hpid, a, hinsert, hfollows.id.symm⟩
    · refine List.mem_filter.mpr ⟨hx, ?_⟩
      rw [h.payCall?_eq_some.mpr ⟨pt, hph⟩]
      simp [hfollows.invoiceId, hmade.invoiceId]
    · rw [hfollows.amountCents]
      rcases hcases with ⟨-, hx⟩ | ⟨http, -, hx⟩ | ⟨http, -, hx⟩ <;> rw [hx] <;> rfl

theorem money_paidAlone : MoneyConserved paidAlone ∧
    paidAlone.world.db.totalOf 0 = some ⟨500, by decide, by decide⟩ := by
  have hs : paidAlone.Reachable sampleCrypto := reaches_of_run (Option.some_get _).symm
  obtain ⟨hmoney, htotal⟩ := money_conserved hs .refl
  exact ⟨hmoney, htotal 0 _ (by decide +kernel)⟩

end Runs

end TenantBilling
