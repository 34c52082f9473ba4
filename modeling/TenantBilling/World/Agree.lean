import TenantBilling.Points.Peripheral
import TenantBilling.World.Owners

/-!
# Databases that agree on the rows of a business

Two databases agree on a business when it has the same rows in both
(`TenantBilling.Database.Agrees`). Then a query that is about rows of the business
(`TenantBilling.Query.Scoped`) returns the same from both
(`TenantBilling.Database.Agrees.eval`), every statement of that kind is answered alike
(`TenantBilling.World.exec_alike`), and a transaction of the business keeps the agreement
(`TenantBilling.Database.Agrees.applyAll`).

The order in which a table happens to hold its rows does not matter for this: an answer
lists rows in an order that tells any two of them apart.
-/

namespace TenantBilling

open Base

namespace Database

variable {db db' : Database} {b i : Uuid}

/-! ### The rows of a business -/

/-- The business has the row. -/
def HasRow (db : Database) (b : Uuid) (row : Row) : Prop :=
    db.row row.ref = some row ∧ db.IsOf b row

/-- **The two databases agree on the rows of the business.** -/
def Agrees (b : Uuid) (db db' : Database) : Prop := ∀ row, db.HasRow b row ↔ db'.HasRow b row

theorem map_find?_eq_some {ρ : Type} {id : ρ → Uuid} {t : Table id} {y : ρ} {g : ρ → Row}
    (hg : Function.Injective g) : (t.find? (id y)).map g = some (g y) ↔ y ∈ t := by
  rw [Option.map_eq_some_iff]
  constructor
  · rintro ⟨z, hz, heq⟩
    rw [← hg heq]
    exact (Table.find?_eq_some.mp hz).1
  · exact fun h => ⟨y, Table.find?_key h, rfl⟩

/-- A customer is a row of the business whose id it carries. -/
theorem hasRow_customer {c : Customer} :
    db.HasRow b (.customer c) ↔ c ∈ db.customers ∧ c.businessId = b :=
  and_congr_left' (map_find?_eq_some fun _ _ => Row.customer.inj)

/-- An invoice is a row of the business whose id it carries. -/
theorem hasRow_invoice {v : Invoice} :
    db.HasRow b (.invoice v) ↔ v ∈ db.invoices ∧ v.businessId = b :=
  and_congr_left' (map_find?_eq_some fun _ _ => Row.invoice.inj)

/-- A line item is a row of the business that has its invoice. -/
theorem hasRow_lineItem {li : InvoiceLineItem} :
    db.HasRow b (.lineItem li) ↔ li ∈ db.lineItems ∧ db.HasInvoice b li.invoiceId :=
  and_congr_left' (map_find?_eq_some fun _ _ => Row.lineItem.inj)

/-- An attempt is a row of the business that has its invoice. -/
theorem hasRow_attempt {a : PaymentAttempt} :
    db.HasRow b (.attempt a) ↔ a ∈ db.attempts ∧ db.HasInvoice b a.invoiceId :=
  and_congr_left' (map_find?_eq_some fun _ _ => Row.attempt.inj)

/-- An endpoint is a row of the business whose id it carries. -/
theorem hasRow_endpoint {e : WebhookEndpoint} :
    db.HasRow b (.endpoint e) ↔ e ∈ db.endpoints ∧ e.businessId = b :=
  and_congr_left' (map_find?_eq_some fun _ _ => Row.endpoint.inj)

/-- The business has a row where it owns the reference. -/
theorem Owns.hasRow {r : RowRef} {row : Row} (h : db.Owns b r) (hrow : db.row r = some row) :
    db.HasRow b row := by
  obtain ⟨row', hrow', hb⟩ := h
  obtain rfl : row' = row := Option.some.inj (hrow'.symm.trans hrow)
  exact ⟨by rw [ref_of_row hrow, hrow], hb⟩

namespace Agrees

theorem symm (h : Agrees b db db') : Agrees b db' db := fun row => (h row).symm

theorem customer (h : Agrees b db db') (c : Customer) :
    c ∈ db.customers ∧ c.businessId = b ↔ c ∈ db'.customers ∧ c.businessId = b := by
  rw [← hasRow_customer, ← hasRow_customer]
  exact h _

theorem invoice (h : Agrees b db db') (v : Invoice) :
    v ∈ db.invoices ∧ v.businessId = b ↔ v ∈ db'.invoices ∧ v.businessId = b := by
  rw [← hasRow_invoice, ← hasRow_invoice]
  exact h _

theorem endpoint (h : Agrees b db db') (e : WebhookEndpoint) :
    e ∈ db.endpoints ∧ e.businessId = b ↔ e ∈ db'.endpoints ∧ e.businessId = b := by
  rw [← hasRow_endpoint, ← hasRow_endpoint]
  exact h _

theorem hasInvoice (h : Agrees b db db') : db.HasInvoice b i ↔ db'.HasInvoice b i := by
  have hdir : ∀ {d d' : Database}, Agrees b d d' → d.HasInvoice b i → d'.HasInvoice b i := by
    rintro d d' h ⟨v, hv, hb⟩
    obtain ⟨hmem, rfl⟩ := Table.find?_eq_some.mp hv
    exact ⟨v, Table.find?_key ((h.invoice v).mp ⟨hmem, hb⟩).1, hb⟩
  exact ⟨hdir h, hdir h.symm⟩

/-- The line items of an invoice of the business. -/
theorem lineItem (h : Agrees b db db') (hi : db.HasInvoice b i) (li : InvoiceLineItem) :
    li ∈ db.lineItems ∧ li.invoiceId = i ↔ li ∈ db'.lineItems ∧ li.invoiceId = i := by
  have hdir : ∀ {d d' : Database}, Agrees b d d' → d.HasInvoice b i →
      li ∈ d.lineItems ∧ li.invoiceId = i → li ∈ d'.lineItems ∧ li.invoiceId = i := by
    rintro d d' h hi ⟨hmem, rfl⟩
    exact ⟨(hasRow_lineItem.mp ((h _).mp (hasRow_lineItem.mpr ⟨hmem, hi⟩))).1, rfl⟩
  exact ⟨hdir h hi, hdir h.symm (h.hasInvoice.mp hi)⟩

/-- The attempts on an invoice of the business. -/
theorem attempt (h : Agrees b db db') (hi : db.HasInvoice b i) (a : PaymentAttempt) :
    a ∈ db.attempts ∧ a.invoiceId = i ↔ a ∈ db'.attempts ∧ a.invoiceId = i := by
  have hdir : ∀ {d d' : Database}, Agrees b d d' → d.HasInvoice b i →
      a ∈ d.attempts ∧ a.invoiceId = i → a ∈ d'.attempts ∧ a.invoiceId = i := by
    rintro d d' h hi ⟨hmem, rfl⟩
    exact ⟨(hasRow_attempt.mp ((h _).mp (hasRow_attempt.mpr ⟨hmem, hi⟩))).1, rfl⟩
  exact ⟨hdir h hi, hdir h.symm (h.hasInvoice.mp hi)⟩

/-- The row at a reference that the business owns. -/
theorem row_eq {r : RowRef} (h : Agrees b db db') (hr : db.Owns b r) : db.row r = db'.row r := by
  obtain ⟨row, hrow, -⟩ := id hr
  obtain rfl := ref_of_row hrow
  rw [hrow, ((h row).mp (hr.hasRow hrow)).1]

end Agrees

end Database

/-! ### Queries -/

/-- The query is about rows of the business. -/
def Query.Scoped (db : Database) (b : Uuid) : Query → Prop
  | attemptByKey invoiceId _ => db.HasInvoice b invoiceId
  | attemptById id => db.Owns b ⟨.attempts, id⟩
  | invoice id none => db.HasInvoice b id
  | q => q.Of b

/-- No two attempts have one entry in the index on the idempotency key. -/
def Database.Keyed (db : Database) : Prop :=
  ∀ a ∈ db.attempts, ∀ a' ∈ db.attempts, a.sameKey a' = true → a = a'

namespace Database

variable {db db' : Database} {b i : Uuid}

/-- The row of a business with an id. -/
theorem filter_find?_eq {ρ : Type} {id : ρ → Uuid} {t u : Table id} {owner : ρ → Uuid}
    (h : ∀ y, y ∈ t ∧ owner y = b ↔ y ∈ u ∧ owner y = b) :
    ((t.find? i).filter fun y => owner y = b) = (u.find? i).filter fun y => owner y = b := by
  refine Option.ext fun y => ?_
  rw [Option.filter_eq_some_iff, Option.filter_eq_some_iff, Table.find?_eq_some,
    Table.find?_eq_some, decide_eq_true_eq]
  have hy := h y
  tauto

/-- What a list of customers is cut out of is the same up to its order. -/
theorem Agrees.perm_customersOf (h : Agrees b db db') :
    (db.customersOf b).Perm (db'.customersOf b) :=
  Table.perm_filter fun c => by simpa using h.customer c

/-- What a list of invoices is cut out of is the same up to its order. -/
theorem Agrees.perm_invoicesOf (h : Agrees b db db') (state : Option InvoiceState) :
    (db.invoicesOf b state).Perm (db'.invoicesOf b state) := by
  refine Table.perm_filter fun v => ?_
  have hv := h.invoice v
  rw [Bool.and_eq_true, decide_eq_true_eq]
  tauto

theorem Agrees.perm_lineItemsOf (h : Agrees b db db') (hi : db.HasInvoice b i) :
    (db.lineItemsOf i).Perm (db'.lineItemsOf i) :=
  Table.perm_filter fun li => by simpa using h.lineItem hi li

/-- The endpoints that are told of an event are the same up to their order. -/
theorem Agrees.perm_activeEndpointsOf (h : Agrees b db db') :
    (db.activeEndpointsOf b).Perm (db'.activeEndpointsOf b) := by
  refine Table.perm_filter fun e => ?_
  have he := h.endpoint e
  rw [Bool.and_eq_true, decide_eq_true_eq]
  tauto

section Order

variable {ρ : Type} {id : ρ → Uuid} {t : Table id} {l l' : List ρ} (rank : Uuid ↪ ℕ)

/-- Rows of one table have one order on the server, whatever order they are found in. -/
theorem inServerOrder_eq (hperm : l.Perm l') (hmem : ∀ y ∈ l, y ∈ t) :
    inServerOrder rank id l = inServerOrder rank id l' := by
  have : Std.Total fun x y : ρ => rank (id x) ≤ rank (id y) := ⟨fun x y => le_total _ _⟩
  have : IsTrans ρ fun x y => rank (id x) ≤ rank (id y) := ⟨fun x y z => le_trans⟩
  exact Table.insertionSort_eq_of_perm hperm hmem fun x y hxy hyx =>
    rank.injective (le_antisymm hxy hyx)

/-- A page is ordered by the rows alone, whatever order they are found in. -/
theorem newestFirst_eq {createdAt : ρ → Timestamp} (hperm : l.Perm l') (hmem : ∀ y ∈ l, y ∈ t) :
    newestFirst rank id createdAt l = newestFirst rank id createdAt l' := by
  let r : ρ → ρ → Prop := fun x y =>
    createdAt y < createdAt x ∨ createdAt x = createdAt y ∧ rank (id x) ≤ rank (id y)
  have : Std.Total r := by
    refine ⟨fun x y => ?_⟩
    rcases lt_trichotomy (createdAt x) (createdAt y) with h | h | h
    · exact Or.inr (Or.inl h)
    · exact (le_total (rank (id x)) (rank (id y))).imp (fun hr => Or.inr ⟨h, hr⟩)
        fun hr => Or.inr ⟨h.symm, hr⟩
    · exact Or.inl (Or.inl h)
  have : IsTrans ρ r := by
    refine ⟨fun x y z hxy hyz => ?_⟩
    rcases hxy with hxy | ⟨hxy, hr⟩
    · rcases hyz with hyz | ⟨hyz, -⟩
      · exact Or.inl (hyz.trans hxy)
      · exact Or.inl (hyz ▸ hxy)
    · rcases hyz with hyz | ⟨hyz, hr'⟩
      · exact Or.inl (hxy ▸ hyz)
      · exact Or.inr ⟨hxy.trans hyz, hr.trans hr'⟩
  refine Table.insertionSort_eq_of_perm (r := r) hperm hmem fun x y hxy hyx => ?_
  rcases hxy with hxy | ⟨hxy, hr⟩
  · rcases hyx with hyx | ⟨hyx, -⟩
    · exact absurd hyx (lt_asymm hxy)
    · exact absurd hyx (ne_of_lt hxy)
  · rcases hyx with hyx | ⟨-, hr'⟩
    · exact absurd hxy (ne_of_lt hyx)
    · exact rank.injective (le_antisymm hr hr')

end Order

theorem mem_of_mem_filter {ρ : Type} {id : ρ → Uuid} {t : Table id} {P : ρ → Bool} {y : ρ}
    (h : y ∈ t.rows.filter P) : y ∈ t :=
  (List.mem_filter.mp h).1

/-- **An invoice is shown the same**, with its line items in the same order. -/
theorem Agrees.withLineItems (h : Agrees b db db') {rank : Uuid ↪ ℕ} {v : Invoice}
    (hv : db.HasInvoice b v.id) : db.withLineItems rank v = db'.withLineItems rank v :=
  congrArg (Prod.mk v) (inServerOrder_eq rank (h.perm_lineItemsOf hv) fun _ => mem_of_mem_filter)

/-- The attempt under a key, where no two share one. -/
theorem attemptByKey_eq_some (hkeyed : db.Keyed) {key : String} {a : PaymentAttempt} :
    db.attemptByKey i key = some a ↔
      a ∈ db.attempts ∧ a.invoiceId = i ∧ a.idempotencyKey.text = key := by
  constructor
  · intro h
    have hkey := List.find?_some h
    simp only [Bool.and_eq_true, decide_eq_true_eq] at hkey
    exact ⟨List.mem_of_find?_eq_some h, hkey⟩
  · rintro ⟨hmem, rfl, rfl⟩
    cases h : db.attemptByKey a.invoiceId a.idempotencyKey.text with
    | none => simpa using List.find?_eq_none.mp h a hmem
    | some a' =>
      have hkey := List.find?_some h
      simp only [Bool.and_eq_true, decide_eq_true_eq] at hkey
      rw [hkeyed a' (List.mem_of_find?_eq_some h) a hmem]
      simpa [PaymentAttempt.sameKey] using ⟨hkey.1, Varchar.ext hkey.2⟩

/-- The cache check of a payment finds the same where the invoice is the business's own. -/
theorem Agrees.attemptByKey (h : Agrees b db db') (hkeyed : db.Keyed) (hkeyed' : db'.Keyed)
    (hi : db.HasInvoice b i) (key : String) : db.attemptByKey i key = db'.attemptByKey i key := by
  refine Option.ext fun a => ?_
  rw [attemptByKey_eq_some hkeyed, attemptByKey_eq_some hkeyed', ← and_assoc, ← and_assoc,
    h.attempt hi a]

theorem hasInvoice_of_mem {v : Invoice} (hv : v ∈ db.invoices) (hb : v.businessId = b) :
    db.HasInvoice b v.id :=
  ⟨v, Table.find?_key hv, hb⟩

/-- **A query about rows of the business** returns the same from both databases. -/
theorem Agrees.eval (h : Agrees b db db') (hkeyed : db.Keyed) (hkeyed' : db'.Keyed) {q : Query}
    (hq : q.Scoped db b) (rank : Uuid ↪ ℕ) : db.eval rank q = db'.eval rank q := by
  cases q with
  | attemptByKey invoiceId key => exact h.attemptByKey hkeyed hkeyed' hq key
  | attemptById id =>
    exact Option.map_injective (fun _ _ ha => Row.attempt.inj ha) (h.row_eq hq)
  | customer id businessId =>
    obtain rfl : businessId = b := hq
    exact filter_find?_eq h.customer
  | countCustomers businessId =>
    obtain rfl : businessId = b := hq
    exact h.perm_customersOf.length_eq
  | listCustomers businessId skip limit =>
    obtain rfl : businessId = b := hq
    exact congrArg (page skip limit)
      (newestFirst_eq rank h.perm_customersOf fun _ => mem_of_mem_filter)
  | invoice id businessId =>
    cases businessId with
    | none =>
      -- by the id alone the query is scoped if the invoice is of the business
      have hinvoice : db.HasInvoice b id := hq
      obtain ⟨v, hv, hb⟩ := hinvoice
      have hfind : db'.invoices.find? id = some v := by
        obtain ⟨hmem, rfl⟩ := Table.find?_eq_some.mp hv
        exact Table.find?_key ((h.invoice v).mp ⟨hmem, hb⟩).1
      obtain rfl := (Table.find?_eq_some.mp hv).2
      simp only [Database.eval, hv, hfind, Option.filter_some, Invoice.belongsTo, Option.all_none,
        if_true, Option.map_some]
      exact congrArg some (h.withLineItems hq)
    | some businessId =>
      obtain rfl : businessId = b := Option.some.inj hq
      have hfind : ((db.invoices.find? id).filter fun v => v.belongsTo (some businessId)) =
          (db'.invoices.find? id).filter fun v => v.belongsTo (some businessId) :=
        filter_find?_eq h.invoice
      simp only [Database.eval, hfind]
      refine Option.map_congr fun v hv => ?_
      rw [← hfind] at hv
      obtain ⟨hv, hb⟩ := Option.filter_eq_some_iff.mp hv
      exact h.withLineItems <|
        hasInvoice_of_mem (Table.find?_eq_some.mp hv).1 (by simpa [Invoice.belongsTo] using hb)
  | countInvoices businessId state =>
    obtain rfl : businessId = b := hq
    exact (h.perm_invoicesOf state).length_eq
  | listInvoices businessId state skip limit =>
    obtain rfl : businessId = b := hq
    simp only [Database.eval]
    rw [newestFirst_eq rank (h.perm_invoicesOf state) fun _ => mem_of_mem_filter]
    refine List.map_congr_left fun v hv => ?_
    have hmem := (List.mem_insertionSort _).mp (List.mem_of_mem_drop (List.mem_of_mem_take hv))
    have hv := List.mem_filter.mp ((h.perm_invoicesOf state).mem_iff.mpr hmem)
    rw [Bool.and_eq_true, decide_eq_true_eq] at hv
    exact h.withLineItems (hasInvoice_of_mem hv.1 hv.2.1)
  | activeEndpoints businessId =>
    obtain rfl : businessId = b := hq
    exact inServerOrder_eq rank h.perm_activeEndpointsOf fun _ => mem_of_mem_filter
  | endpointById id => exact hq.elim
  | endpointOf id businessId =>
    obtain rfl : businessId = b := hq
    exact filter_find?_eq h.endpoint

/-! ### Transactions -/

section Transactions

variable {x : Write} {ws : List Write} {r : RowRef}

/-- An update makes the same of rows that are the same. -/
theorem map_find?_update_congr {ρ : Type} {id : ρ → Uuid} {t u : Table id} {j : Uuid} {f : ρ → ρ}
    (hf : ∀ y, id (f y) = id y) {g : ρ → Row} (hg : Function.Injective g)
    (h : (t.find? i).map g = (u.find? i).map g) :
    ((t.update j f hf).find? i).map g = ((u.update j f hf).find? i).map g := by
  have hfind := Option.map_injective hg h
  rw [Table.find?_update, Table.find?_update]
  split
  case isTrue hi => rw [← hi, hfind]
  case isFalse => rw [hfind]

theorem map_find?_insert_congr {ρ : Type} {id : ρ → Uuid} {t u : Table id} {y : ρ} {g : ρ → Row}
    (hg : Function.Injective g) (h : (t.find? i).map g = (u.find? i).map g) :
    ((t.insert y).find? i).map g = ((u.insert y).find? i).map g := by
  rw [Table.find?_insert, Table.find?_insert, Option.map_injective hg h]

theorem map_find?_insertAll_congr {ρ : Type} {id : ρ → Uuid} {t u : Table id} {ys : List ρ}
    {g : ρ → Row} (hg : Function.Injective g) (h : (t.find? i).map g = (u.find? i).map g) :
    ((t.insertAll ys).find? i).map g = ((u.insertAll ys).find? i).map g := by
  rw [Table.find?_insertAll_congr (Option.map_injective hg h)]

/-- What a write makes of a row depends on that row only. -/
theorem row_apply_congr (h : db.row r = db'.row r) : (db.apply x).row r = (db'.apply x).row r := by
  obtain ⟨table, j⟩ := r
  cases x with
  | insertCustomer c =>
    cases table with
    | customers => exact map_find?_insert_congr (g := .customer) (fun _ _ => Row.customer.inj) h
    | _ => exact h
  | insertInvoice v =>
    cases table with
    | invoices => exact map_find?_insert_congr (g := .invoice) (fun _ _ => Row.invoice.inj) h
    | _ => exact h
  | insertLineItems rows =>
    cases table with
    | lineItems => exact map_find?_insertAll_congr (g := .lineItem) (fun _ _ => Row.lineItem.inj) h
    | _ => exact h
  | insertAttempt a =>
    cases table with
    | attempts => exact map_find?_insert_congr (g := .attempt) (fun _ _ => Row.attempt.inj) h
    | _ => exact h
  | insertEndpoint e =>
    cases table with
    | endpoints => exact map_find?_insert_congr (g := .endpoint) (fun _ _ => Row.endpoint.inj) h
    | _ => exact h
  | insertDeliveries rows =>
    cases table with
    | deliveries => exact map_find?_insertAll_congr (g := .delivery) (fun _ _ => Row.delivery.inj) h
    | _ => exact h
  | updateInvoice id state now =>
    cases table with
    | invoices =>
      exact map_find?_update_congr (by intro; rfl) (g := .invoice) (fun _ _ => Row.invoice.inj) h
    | _ => exact h
  | updateAttempt id change now =>
    cases table with
    | attempts =>
      exact map_find?_update_congr (by intro; rfl) (g := .attempt) (fun _ _ => Row.attempt.inj) h
    | _ => exact h
  | deactivateEndpoint id =>
    cases table with
    | endpoints =>
      exact map_find?_update_congr (by intro; rfl) (g := .endpoint) (fun _ _ => Row.endpoint.inj) h
    | _ => exact h
  | updateDelivery id change =>
    cases table with
    | deliveries =>
      exact map_find?_update_congr (by intro; rfl) (g := .delivery) (fun _ _ => Row.delivery.inj) h
    | _ => exact h

/-- Writes make the same of a row that is the same. -/
theorem row_applyAll_congr (h : db.row r = db'.row r) :
    (db.applyAll ws).row r = (db'.applyAll ws).row r := by
  induction ws generalizing db db' with
  | nil => exact h
  | cons x ws ih => exact ih (row_apply_congr h)

/-- A business had the row that it has later, if it was there. -/
theorem HasRow.of_evolves (hlinked : db.Linked) (hgrows : db.Grows db') {row row' : Row}
    (hrow : db.row row'.ref = some row) (hev : row.Evolves row') (h : db'.HasRow b row') :
    db.HasRow b row := by
  refine ⟨by rw [ref_of_row hrow, hrow], ?_⟩
  -- an invoice keeps its business, and so does what names it
  have hinvoice : ∀ {i b'}, db.HasInvoice b' i → db'.HasInvoice b i → db.HasInvoice b i := by
    rintro i b' hi ⟨v, hv, rfl⟩
    obtain ⟨v', hv', rfl⟩ := hi.grows hgrows
    rw [hv] at hv'
    rw [Option.some.inj hv']
    exact hi
  have hendpoint : ∀ {i b'}, db.HasEndpoint b' i → db'.HasEndpoint b i → db.HasEndpoint b i := by
    rintro i b' hi ⟨e, he, rfl⟩
    obtain ⟨e', he', rfl⟩ := hi.grows hgrows
    rw [he] at he'
    rw [Option.some.inj he']
    exact hi
  have hof := h.2
  cases row with
  | customer c =>
    cases row' with
    | customer c' =>
      obtain rfl : c' = c := hev
      exact hof
    | _ => exact hev.elim
  | invoice v =>
    cases row' with
    | invoice v' => exact hev.2.1.symm.trans hof
    | _ => exact hev.elim
  | lineItem li =>
    cases row' with
    | lineItem li' =>
      obtain rfl : li' = li := hev
      obtain ⟨y, hy, heq⟩ := Option.map_eq_some_iff.mp hrow
      obtain rfl := Row.lineItem.inj heq
      obtain ⟨b', hi⟩ := hlinked.lineItem y (Table.find?_eq_some.mp hy).1
      exact hinvoice hi hof
    | _ => exact hev.elim
  | attempt a =>
    cases row' with
    | attempt a' =>
      obtain ⟨y, hy, heq⟩ := Option.map_eq_some_iff.mp hrow
      obtain rfl := Row.attempt.inj heq
      obtain ⟨b', hi⟩ := hlinked.attempt y (Table.find?_eq_some.mp hy).1
      change db'.HasInvoice b a'.invoiceId at hof
      rw [hev.2] at hof
      exact hinvoice hi hof
    | _ => exact hev.elim
  | endpoint e =>
    cases row' with
    | endpoint e' => exact hev.2.symm.trans hof
    | _ => exact hev.elim
  | delivery d =>
    cases row' with
    | delivery d' =>
      obtain ⟨y, hy, heq⟩ := Option.map_eq_some_iff.mp hrow
      obtain rfl := Row.delivery.inj heq
      obtain ⟨b', -, hi, -⟩ := hlinked.delivery y (Table.find?_eq_some.mp hy).1
      change db'.HasEndpoint b d'.webhookEndpointId at hof
      rw [hev.2.1] at hof
      exact hendpoint hi hof
    | _ => exact hev.elim

/-- A row that one database has for the business after the writes, the other has too: it is as
before, or a write has brought it. -/
theorem HasRow.applyAll (h : Agrees b db db') (hlinked : db.Linked) (hfits : db.Fits ws)
    (hfits' : db'.Fits ws) (hadmits' : ∀ x ∈ ws, db'.Admits ws b x) {row : Row}
    (hrow : (db.applyAll ws).HasRow b row) : (db'.applyAll ws).HasRow b row := by
  rcases row_applyAll_or hrow.1 with ⟨row₀, hrow₀, hev⟩ | ⟨x, hx, row₀, hrow₀, hev⟩
  · -- the row was there before, in both databases
    have hold := hrow.of_evolves hlinked (grows_applyAll db ws) hrow₀ hev
    have hsame := h.row_eq (r := row.ref) ⟨row₀, hrow₀, hold.2⟩
    refine ⟨by rw [← row_applyAll_congr hsame, hrow.1], ?_⟩
    exact ((h row₀).mp hold).2.evolves (grows_applyAll db' ws) hev
  · -- the row has been inserted, in both databases
    have hins : row.ref ∈ x.inserted := by
      rw [← hev.ref_eq, Write.inserted_eq]
      exact List.mem_map_of_mem hrow₀
    have hnone := hfits.fresh x hx _ hins
    have hnone' := hfits'.fresh x hx _ hins
    have hrow' : (db'.applyAll ws).row row.ref = some row := by
      rw [← row_applyAll_congr (hnone.trans hnone'.symm), hrow.1]
    refine (Admits.owns hfits' hadmits' ?_).1.hasRow hrow'
    rw [hrow', hnone']
    exact Option.some_ne_none _

/-- **A transaction of the business keeps the agreement.** -/
theorem Agrees.applyAll (h : Agrees b db db') (hlinked : db.Linked) (hlinked' : db'.Linked)
    (hfits : db.Fits ws) (hfits' : db'.Fits ws) (hadmits : ∀ x ∈ ws, db.Admits ws b x)
    (hadmits' : ∀ x ∈ ws, db'.Admits ws b x) :
    Agrees b (db.applyAll ws) (db'.applyAll ws) := fun _ =>
  ⟨HasRow.applyAll h hlinked hfits hfits' hadmits',
    HasRow.applyAll h.symm hlinked' hfits' hfits hadmits⟩

end Transactions

end Database

/-! ### Statements -/

/-- The statement is about rows of the business. -/
def Stmt.Scoped (db : Database) (b : Uuid) : Stmt → Prop
  | select q => q.Scoped db b
  | lockInvoice id none => db.HasInvoice b id
  | lockInvoice _ (some businessId) => businessId = b
  | claimDeliveries .. => False
  | insertCustomer businessId _ _ => businessId = b
  | insertAttempt new => db.HasInvoice b new.invoiceId
  | _ => True

namespace World

section Alike

variable {w v : World} {p q : Pid} {env : Env} {b : Uuid} {α : Type}

/-- Two executions of a statement answer the same, and leave the same writes. -/
def Alike (p q : Pid) (x y : Option (α × World)) : Prop :=
  ∀ r w' s v', x = some (r, w') → y = some (s, v') → r = s ∧ w'.writesOf p = v'.writesOf q

theorem alike_some {r : α} {w' v' : World} (h : w'.writesOf p = v'.writesOf q) :
    Alike p q (some (r, w')) (some (r, v')) := by
  rintro _ _ _ _ ⟨⟩ ⟨⟩
  exact ⟨rfl, h⟩

/-- A branch is alike if its conditions are equivalent and its cases alike. -/
theorem alike_ite {c d : Prop} [Decidable c] [Decidable d] {x x' y y' : Option (α × World)}
    (hcd : c ↔ d) (h : Alike p q x y) (h' : Alike p q x' y') :
    Alike p q (if c then x else x') (if d then y else y') := by
  by_cases hc : c
  · rwa [if_pos hc, if_pos (hcd.mp hc)]
  · rwa [if_neg hc, if_neg fun hd => hc (hcd.mpr hd)]

/-- One of the two is not possible. -/
theorem alike_guard {c d : Prop} [Decidable c] [Decidable d] {x y : Option (α × World)}
    (h : Alike p q x y) : Alike p q (if c then x else none) (if d then y else none) := by
  intro r w' s v' hx hy
  rw [Option.ite_none_right_eq_some] at hx hy
  exact h r w' s v' hx.2 hy.2

theorem alike_refuse {e : DbError} :
    Alike p q (some (w.refuse p e : Except DbError α × World)) (some (v.refuse q e)) :=
  alike_some (by rw [writesOf_release, writesOf_release, if_pos rfl, if_pos rfl])

theorem alike_violate {x : Violation} :
    Alike p q (w.violate p env x : Option (Except DbError α × World)) (v.violate q env x) :=
  alike_guard alike_refuse

theorem alike_reject {e : RowError} :
    Alike p q (w.reject p env e : Option (Except DbError α × World)) (v.reject q env e) := by
  cases e with
  | check => exact alike_violate
  | _ => exact alike_refuse

theorem alike_write (hwrites : w.writesOf p = v.writesOf q) {r : α} {x : Write} :
    Alike p q (some (r, w.write p x)) (some (r, v.write q x)) :=
  alike_some (by rw [writesOf_write, writesOf_write, if_pos rfl, if_pos rfl, hwrites])

/-- A check over the rows finds the same if the rows it looks for are the same. -/
theorem any_congr {ρ : Type} {id : ρ → Uuid} {t u : Base.Table id} {P : ρ → Bool}
    (h : ∀ y, P y = true → (y ∈ t ↔ y ∈ u)) : t.rows.any P = true ↔ u.rows.any P = true := by
  rw [List.any_eq_true, List.any_eq_true]
  constructor
  · rintro ⟨y, hy, hP⟩
    exact ⟨y, (h y hP).mp hy, hP⟩
  · rintro ⟨y, hy, hP⟩
    exact ⟨y, (h y hP).mpr hy, hP⟩

/-- The attempts that an attempt on an invoice of the business can conflict with. -/
theorem any_attempts_congr {db db' : Database} (h : db.Agrees b db') {i : Uuid}
    (hi : db.HasInvoice b i) {conflicts : PaymentAttempt → Bool}
    (hc : ∀ a, conflicts a = true → a.invoiceId = i) :
    db.attempts.rows.any conflicts = true ↔ db'.attempts.rows.any conflicts = true :=
  any_congr fun a ha => by simpa [hc a ha] using h.attempt hi a

variable (hwrites : w.writesOf p = v.writesOf q) (hviews : (w.view p).Agrees b (v.view q))

include hwrites hviews

/-- **The insert of an attempt fares alike** where the invoice is the business's own: the
constraints are about attempts on it alone. -/
theorem alike_insertAttempt {new : NewAttempt} (hi : (w.view p).HasInvoice b new.invoiceId) :
    Alike p q (w.insertAttempt p env new) (v.insertAttempt q env new) := by
  unfold insertAttempt
  cases hrow : new.row (env.ids 0) env.now with
  | error e => exact alike_reject
  | ok row =>
    have hid : row.invoiceId = new.invoiceId := (NewAttempt.row_fields hrow).2.1
    refine alike_ite (any_attempts_congr hviews hi fun a ha => ?_) alike_violate ?_
    · simp only [PaymentAttempt.sameKey, Bool.and_eq_true, decide_eq_true_eq] at ha
      exact ha.1.symm.trans hid
    refine alike_ite (any_attempts_congr hviews hi fun a ha => ?_) alike_violate ?_
    · simp only [PaymentAttempt.samePending, Bool.and_eq_true, decide_eq_true_eq] at ha
      exact ha.1.1.symm.trans hid
    refine alike_ite ?_ alike_violate (alike_guard (alike_write hwrites))
    have hfree : ∀ {db : Database}, db.HasInvoice b new.invoiceId →
      ¬db.invoices.Free row.invoiceId := by
      rintro db ⟨y, hy, -⟩ hfree
      rw [hid, Table.free_iff, hy] at hfree
      cases hfree
    exact iff_of_false (hfree hi) (hfree (hviews.hasInvoice.mp hi))

/-- The insert of a customer fares alike: an email is unique within its business. -/
theorem alike_insertCustomer {name email : String} :
    Alike p q (w.insertCustomer p env b name email) (v.insertCustomer q env b name email) := by
  unfold insertCustomer
  cases hrow : customerRow b name email (env.ids 0) env.now with
  | error e => exact alike_reject
  | ok row =>
    have hb : row.businessId = b := customerRow_businessId hrow
    refine alike_ite (any_congr fun c hc => ?_) alike_violate (alike_guard (alike_write hwrites))
    simp only [Customer.sameEmail, Bool.and_eq_true, decide_eq_true_eq] at hc
    simpa [hc.1.symm.trans hb] using hviews.customer c

/-- A lock is taken alike on an invoice of the business. -/
theorem alike_lockInvoice {id : Uuid} {businessId : Option Uuid}
    (hst : (Stmt.lockInvoice id businessId).Scoped (w.view p) b) :
    Alike p q (some (w.lockInvoice p id businessId)) (some (v.lockInvoice q id businessId)) := by
  -- the same invoice is found, if it belongs to the business that is asked for
  have hfind : ((w.view p).invoices.find? id).filter (·.belongsTo businessId) =
      ((v.view q).invoices.find? id).filter (·.belongsTo businessId) := by
    cases businessId with
    | some businessId =>
      obtain rfl : businessId = b := hst
      exact Database.filter_find?_eq hviews.invoice
    | none =>
      obtain ⟨x, hx, hb⟩ : (w.view p).HasInvoice b id := hst
      obtain ⟨hmem, rfl⟩ := Table.find?_eq_some.mp hx
      rw [hx, Table.find?_key ((hviews.invoice x).mp ⟨hmem, hb⟩).1]
  have hlock : ∀ (u : World) (r : Pid), ∃ u', u'.writesOf r = u.writesOf r ∧
      u.lockInvoice r id businessId =
        (.ok (((u.view r).invoices.find? id).filter (·.belongsTo businessId)), u') := by
    intro u r
    unfold lockInvoice
    cases (u.view r).invoices.find? id with
    | none => exact ⟨u, rfl, rfl⟩
    | some x =>
      dsimp only
      split
      case isTrue hb => exact ⟨u.lock r _, rfl, by rw [Option.filter_some, if_pos hb]⟩
      case isFalse hb => exact ⟨u, rfl, by rw [Option.filter_some, if_neg hb]⟩
  obtain ⟨w', hw, hw'⟩ := hlock w p
  obtain ⟨v', hv, hv'⟩ := hlock v q
  rw [hw', hv', hfind]
  exact alike_some (by rw [hw, hv, hwrites])

/-- **A statement about rows of the business** is answered alike. -/
theorem exec_alike (hkeyed : (w.view p).Keyed) (hkeyed' : (v.view q).Keyed) {st : Stmt}
    (hst : st.Scoped (w.view p) b) : Alike p q (w.exec p env st) (v.exec q env st) := by
  refine alike_guard ?_
  cases st with
  | select query =>
    rintro _ _ _ _ ⟨⟩ ⟨⟩
    exact ⟨hviews.eval hkeyed hkeyed' hst env.rank, hwrites⟩
  | lockInvoice id businessId => exact alike_lockInvoice hwrites hviews hst
  | claimDeliveries now limit => exact hst.elim
  | insertCustomer businessId name email =>
    obtain rfl : businessId = b := hst
    exact alike_insertCustomer hwrites hviews
  | insertInvoice new =>
    change Alike p q (w.insertInvoice p env new) (v.insertInvoice q env new)
    unfold insertInvoice
    cases new.row (env.ids 0) env.now with
    | error e => exact alike_reject
    | ok row => exact alike_guard (alike_write hwrites)
  | insertLineItems invoiceId new =>
    change Alike p q (w.insertLineItems p env invoiceId new) (v.insertLineItems q env invoiceId new)
    unfold insertLineItems
    cases buildRows (fun n id => n.row invoiceId id env.now) env.ids 0 new with
    | error e => exact alike_reject
    | ok rows => exact alike_guard (alike_write hwrites)
  | insertAttempt new => exact alike_insertAttempt hwrites hviews hst
  | insertEndpoint businessId url secret =>
    change Alike p q (w.insertEndpoint p env businessId url secret)
      (v.insertEndpoint q env businessId url secret)
    unfold insertEndpoint
    cases endpointRow businessId url secret (env.ids 0) env.now with
    | error e => exact alike_reject
    | ok row => exact alike_guard (alike_write hwrites)
  | insertDeliveries new => exact alike_guard (alike_write hwrites)
  | updateInvoice id state => exact alike_write (w := w.lock p _) (v := v.lock q _) hwrites
  | updateAttempt id change =>
    dsimp only [perform]
    cases change.bind with
    | error e => exact alike_refuse
    | ok update => exact alike_write (w := w.lock p _) (v := v.lock q _) hwrites
  | deactivateEndpoint id => exact alike_write (w := w.lock p _) (v := v.lock q _) hwrites
  | updateDelivery id change =>
    dsimp only [perform]
    cases change.bind with
    | error e => exact alike_refuse
    | ok update => exact alike_write (w := w.lock p _) (v := v.lock q _) hwrites
  | commit =>
    exact alike_some (by rw [writesOf_commit, writesOf_commit, if_pos rfl, if_pos rfl])
  | rollback =>
    exact alike_some (by rw [writesOf_release, writesOf_release, if_pos rfl, if_pos rfl])
  | sendCharge => exact alike_some hwrites
  | awaitCharge => exact alike_some hwrites
  | post => exact alike_some hwrites
  | clock => exact alike_some hwrites
  | secret => exact alike_some hwrites

end Alike

end World

end TenantBilling
