import TenantBilling.World.Answers

/-!
# Whose rows

Which business a row belongs to. A customer, an invoice and an endpoint say so; a line
item and an attempt belong to the business of their invoice, and a delivery to that of its
endpoint (`TenantBilling.Database.Owns`). The columns this rests on never change, and no
row is ever deleted, so a row keeps its owner (`TenantBilling.Database.Grows`).

For a transaction that names only rows of one business
(`TenantBilling.Database.Admits`), every row it inserts or changes is of that business
(`TenantBilling.Database.Admits.owns`), and the rows still refer to rows of the same
business afterwards (`TenantBilling.Database.Linked`).
-/

namespace TenantBilling

open Base

/-! ### Columns that never change -/

namespace Row

/-- The reference of a row. -/
def ref : Row → RowRef
  | customer c => ⟨.customers, c.id⟩
  | invoice v => ⟨.invoices, v.id⟩
  | lineItem li => ⟨.lineItems, li.id⟩
  | attempt a => ⟨.attempts, a.id⟩
  | endpoint e => ⟨.endpoints, e.id⟩
  | delivery d => ⟨.deliveries, d.id⟩

/-- One row is another at a later time: the columns that tell whose it is are the same. -/
def Evolves : Row → Row → Prop
  | customer c, customer c' => c' = c
  | invoice v, invoice v' =>
    v'.id = v.id ∧ v'.businessId = v.businessId ∧ v'.customerId = v.customerId
  | lineItem li, lineItem li' => li' = li
  | attempt a, attempt a' => a'.id = a.id ∧ a'.invoiceId = a.invoiceId
  | endpoint e, endpoint e' => e'.id = e.id ∧ e'.businessId = e.businessId
  | delivery d, delivery d' => d'.id = d.id ∧ d'.webhookEndpointId = d.webhookEndpointId ∧
      d'.eventType = d.eventType ∧ d'.payload = d.payload
  | _, _ => False

theorem Evolves.refl (row : Row) : row.Evolves row := by
  cases row <;> simp [Evolves]

theorem Evolves.trans {a b c : Row} (h : a.Evolves b) (h' : b.Evolves c) : a.Evolves c := by
  cases a <;> cases b <;> try exact h.elim
  all_goals
    cases c <;> try exact h'.elim
    simp_all [Evolves]

/-- A row that evolves is found where it was. -/
theorem Evolves.ref_eq {row row' : Row} (h : row.Evolves row') : row.ref = row'.ref := by
  cases row <;> cases row' <;> simp_all [Evolves, ref]

end Row

namespace Database

variable {db db' db'' : Database} {b : Uuid} {r : RowRef} {x : Write} {ws : List Write}

theorem ref_of_row {row : Row} (h : db.row r = some row) : row.ref = r := by
  obtain ⟨table, id⟩ := r
  cases table <;> obtain ⟨y, hy, rfl⟩ := Option.map_eq_some_iff.mp h <;>
    exact congrArg (RowRef.mk _) (Table.find?_eq_some.mp hy).2

/-- The rows that are there stay, with the columns that never change. -/
def Grows (db db' : Database) : Prop :=
  ∀ r row, db.row r = some row → ∃ row', db'.row r = some row' ∧ row.Evolves row'

theorem Grows.refl (db : Database) : db.Grows db := fun _ row h => ⟨row, h, .refl row⟩

theorem Grows.trans (h : db.Grows db') (h' : db'.Grows db'') : db.Grows db'' := by
  intro r row hrow
  obtain ⟨row', hrow', hev⟩ := h r row hrow
  obtain ⟨row'', hrow'', hev'⟩ := h' r row' hrow'
  exact ⟨row'', hrow'', hev.trans hev'⟩

/-- A row after an update of its table. -/
theorem evolves_update {ρ : Type} {id : ρ → Uuid} {t : Table id} {i : Uuid} {f : ρ → ρ}
    (hf : ∀ y, id (f y) = id y) {g : ρ → Row} (hg : ∀ y, (g y).Evolves (g (f y))) {row : Row}
    (h : (t.find? i).map g = some row) :
    ∃ row', ((t.update i f hf).find? i).map g = some row' ∧ row.Evolves row' := by
  obtain ⟨y, hy, rfl⟩ := Option.map_eq_some_iff.mp h
  exact ⟨g (f y), by rw [Table.find?_update_self, hy]; rfl, hg y⟩

theorem grows_apply (db : Database) (x : Write) : db.Grows (db.apply x) := by
  intro r row hrow
  by_cases hupd : r ∈ x.updated
  · cases x with
    | updateInvoice i state now =>
      obtain rfl := List.mem_singleton.mp hupd
      exact evolves_update (g := .invoice) (f := (·.update state now)) (by intro; rfl)
        (fun v => ⟨rfl, rfl, rfl⟩) hrow
    | updateAttempt i change now =>
      obtain rfl := List.mem_singleton.mp hupd
      exact evolves_update (g := .attempt) (f := (·.update change now)) (by intro; rfl)
        (fun a => ⟨rfl, rfl⟩) hrow
    | deactivateEndpoint i =>
      obtain rfl := List.mem_singleton.mp hupd
      exact evolves_update (g := .endpoint) (f := ({ · with isActive := false })) (by intro; rfl)
        (fun e => ⟨rfl, rfl⟩) hrow
    | updateDelivery i change =>
      obtain rfl := List.mem_singleton.mp hupd
      exact evolves_update (g := .delivery) (f := (·.update change)) (by intro; rfl)
        (fun d => ⟨rfl, rfl, rfl, rfl⟩) hrow
    | _ => cases hupd
  · refine ⟨row, ?_, .refl row⟩
    rw [row_apply hupd fun _ => by rw [hrow]; simp, hrow]

/-- **A database only grows** by writes: its rows stay, and evolve. -/
theorem grows_applyAll (db : Database) (ws : List Write) : db.Grows (db.applyAll ws) := by
  induction ws generalizing db with
  | nil => exact .refl db
  | cons x ws ih => exact (grows_apply db x).trans (ih (db.apply x))

/-! ### Owners -/

/-- The business has an invoice with the id. -/
def HasInvoice (db : Database) (b i : Uuid) : Prop :=
  ∃ v, db.invoices.find? i = some v ∧ v.businessId = b

/-- The business has a customer with the id. -/
def HasCustomer (db : Database) (b i : Uuid) : Prop :=
  ∃ c, db.customers.find? i = some c ∧ c.businessId = b

/-- The business has an endpoint with the id. -/
def HasEndpoint (db : Database) (b i : Uuid) : Prop :=
  ∃ e, db.endpoints.find? i = some e ∧ e.businessId = b

/-- The row is one of the business. -/
def IsOf (db : Database) (b : Uuid) : Row → Prop
  | .customer c => c.businessId = b
  | .invoice v => v.businessId = b
  | .lineItem li => db.HasInvoice b li.invoiceId
  | .attempt a => db.HasInvoice b a.invoiceId
  | .endpoint e => e.businessId = b
  | .delivery d => db.HasEndpoint b d.webhookEndpointId

/-- **The business owns the row** with the reference. -/
def Owns (db : Database) (b : Uuid) (r : RowRef) : Prop :=
    ∃ row, db.row r = some row ∧ db.IsOf b row

theorem HasInvoice.grows {i : Uuid} (h : db.HasInvoice b i) (hgrows : db.Grows db') :
    db'.HasInvoice b i := by
  obtain ⟨v, hv, hb⟩ := h
  obtain ⟨row, hrow, hev⟩ := hgrows ⟨.invoices, i⟩ (.invoice v) (by simp [row, hv])
  obtain ⟨v', hv', rfl⟩ := Option.map_eq_some_iff.mp hrow
  exact ⟨v', hv', hev.2.1.trans hb⟩

theorem HasCustomer.grows {i : Uuid} (h : db.HasCustomer b i) (hgrows : db.Grows db') :
    db'.HasCustomer b i := by
  obtain ⟨c, hc, hb⟩ := h
  obtain ⟨row, hrow, hev⟩ := hgrows ⟨.customers, i⟩ (.customer c) (by simp [row, hc])
  obtain ⟨c', hc', rfl⟩ := Option.map_eq_some_iff.mp hrow
  obtain rfl : c' = c := hev
  exact ⟨c', hc', hb⟩

theorem HasEndpoint.grows {i : Uuid} (h : db.HasEndpoint b i) (hgrows : db.Grows db') :
    db'.HasEndpoint b i := by
  obtain ⟨e, he, hb⟩ := h
  obtain ⟨row, hrow, hev⟩ := hgrows ⟨.endpoints, i⟩ (.endpoint e) (by simp [row, he])
  obtain ⟨e', he', rfl⟩ := Option.map_eq_some_iff.mp hrow
  exact ⟨e', he', hev.2.trans hb⟩

/-- What belongs to a business still does later. -/
theorem IsOf.evolves {row row' : Row} (h : db.IsOf b row) (hgrows : db.Grows db')
    (hev : row.Evolves row') : db'.IsOf b row' := by
  cases row <;> cases row' <;> try exact hev.elim
  case customer c c' =>
    obtain rfl : c' = c := hev
    exact h
  case invoice v v' => exact hev.2.1.trans h
  case lineItem li li' =>
    obtain rfl : li' = li := hev
    exact HasInvoice.grows h hgrows
  case attempt a a' =>
    change db'.HasInvoice b a'.invoiceId
    rw [hev.2]
    exact HasInvoice.grows h hgrows
  case endpoint e e' => exact hev.2.trans h
  case delivery d d' =>
    change db'.HasEndpoint b d'.webhookEndpointId
    rw [hev.2.1]
    exact HasEndpoint.grows h hgrows

/-- A business keeps its rows. -/
theorem Owns.grows (h : db.Owns b r) (hgrows : db.Grows db') : db'.Owns b r := by
  obtain ⟨row, hrow, hb⟩ := h
  obtain ⟨row', hrow', hev⟩ := hgrows r row hrow
  exact ⟨row', hrow', hb.evolves hgrows hev⟩

end Database

/-! ### Inserted rows -/

/-- The rows a write inserts. -/
def Write.rows : Write → List Row
  | insertCustomer c => [.customer c]
  | insertInvoice v => [.invoice v]
  | insertLineItems rows => rows.map .lineItem
  | insertAttempt a => [.attempt a]
  | insertEndpoint e => [.endpoint e]
  | insertDeliveries rows => rows.map .delivery
  | _ => []

theorem customerRow_businessId {businessId id : Uuid} {name email : String} {now : Timestamp}
    {row : Customer} (h : customerRow businessId name email id now = .ok row) :
    row.businessId = businessId := by
  unfold customerRow at h
  split at h
  · rw [← Except.ok.inj h]
  · cases h

theorem endpointRow_businessId {businessId id : Uuid} {url secret : String} {now : Timestamp}
    {row : WebhookEndpoint} (h : endpointRow businessId url secret id now = .ok row) :
    row.businessId = businessId := by
  unfold endpointRow at h
  split at h
  · rw [← Except.ok.inj h]
  · cases h

theorem Write.inserted_eq (x : Write) : x.inserted = x.rows.map Row.ref := by
  cases x <;> simp [inserted, rows, Row.ref, Function.comp_def]

namespace Database

variable {db db' : Database} {b : Uuid} {r : RowRef} {x : Write} {ws : List Write}

/-- A row that is inserted under a free key is there. -/
theorem row_insert {ρ : Type} {id : ρ → Uuid} {t : Table id} {y : ρ} {g : ρ → Row}
    (h : (t.find? (id y)).map g = none) : ((t.insert y).find? (id y)).map g = some (g y) := by
  have hfree : t.Free (id y) := Table.free_iff.mpr (Option.map_eq_none_iff.mp h)
  rw [Table.find?_key ((Table.mem_insert hfree).mpr (Or.inr rfl)), Option.map_some]

/-- Rows that are inserted under different free keys are there. -/
theorem row_insertAll {ρ : Type} {id : ρ → Uuid} {t : Table id} {ys : List ρ} {g : ρ → Row}
    (hnodup : (ys.map id).Nodup) (h : ∀ y ∈ ys, (t.find? (id y)).map g = none) {y : ρ}
    (hy : y ∈ ys) :
    ((t.insertAll ys).find? (id y)).map g = some (g y) := by
  induction ys generalizing t with
  | nil => cases hy
  | cons z zs ih =>
    rw [List.map_cons, List.nodup_cons] at hnodup
    rw [Table.insertAll_cons]
    have hz := h z List.mem_cons_self
    rcases List.mem_cons.mp hy with rfl | hy
    · obtain ⟨y', hy', heq⟩ := Option.map_eq_some_iff.mp (row_insert hz)
      rw [Table.find?_insertAll_of_some hy', Option.map_some, heq]
    · refine ih hnodup.2 (fun y' hy' => ?_) hy
      rw [Table.find?_insert_of_ne]
      · exact h y' (List.mem_cons_of_mem _ hy')
      · intro heq
        exact hnodup.1 (heq ▸ List.mem_map_of_mem hy')

/-- What a write inserts is there after it. -/
theorem row_apply_of_mem_rows {row : Row} (hnodup : x.inserted.Nodup)
    (hfresh : ∀ r ∈ x.inserted, db.row r = none) (h : row ∈ x.rows) :
    (db.apply x).row row.ref = some row := by
  have hall : ∀ {ρ : Type} {id : ρ → Uuid} {table : TableName} {rows : List ρ},
      (rows.map fun y => (⟨table, id y⟩ : RowRef)).Nodup → (rows.map id).Nodup := by
    intro ρ id table rows hn
    have : (rows.map fun y => (⟨table, id y⟩ : RowRef)) = (rows.map id).map (RowRef.mk table) := by
      simp [Function.comp_def]
    rw [this] at hn
    exact hn.of_map _
  cases x with
  | insertCustomer c =>
    obtain rfl := List.mem_singleton.mp h
    exact row_insert (g := .customer) (hfresh _ (List.mem_singleton_self _))
  | insertInvoice v =>
    obtain rfl := List.mem_singleton.mp h
    exact row_insert (g := .invoice) (hfresh _ (List.mem_singleton_self _))
  | insertLineItems rows =>
    obtain ⟨li, hli, rfl⟩ := List.mem_map.mp h
    exact row_insertAll (g := .lineItem) (hall hnodup)
      (fun y hy => hfresh _ (List.mem_map.mpr ⟨y, hy, rfl⟩)) hli
  | insertAttempt a =>
    obtain rfl := List.mem_singleton.mp h
    exact row_insert (g := .attempt) (hfresh _ (List.mem_singleton_self _))
  | insertEndpoint e =>
    obtain rfl := List.mem_singleton.mp h
    exact row_insert (g := .endpoint) (hfresh _ (List.mem_singleton_self _))
  | insertDeliveries rows =>
    obtain ⟨d, hd, rfl⟩ := List.mem_map.mp h
    exact row_insertAll (g := .delivery) (hall hnodup)
      (fun y hy => hfresh _ (List.mem_map.mpr ⟨y, hy, rfl⟩)) hd
  | _ => cases h

/-- The inserts of a transaction meet no row, and not each other. -/
structure Fits (db : Database) (ws : List Write) : Prop where
  fresh : ∀ x ∈ ws, ∀ r ∈ x.inserted, db.row r = none
  nodup : (ws.flatMap Write.inserted).Nodup

/-- What a transaction inserts is there after it. -/
theorem Fits.row_applyAll {row : Row} (h : db.Fits ws) (hx : x ∈ ws) (hrow : row ∈ x.rows) :
    ∃ row', (db.applyAll ws).row row.ref = some row' ∧ row.Evolves row' := by
  induction ws generalizing db with
  | nil => cases hx
  | cons y ws ih =>
    have hnodup := h.nodup
    rw [List.flatMap_cons, List.nodup_append'] at hnodup
    rcases List.mem_cons.mp hx with rfl | hx
    · refine grows_applyAll (db.apply x) ws _ row ?_
      exact row_apply_of_mem_rows hnodup.1 (h.fresh x List.mem_cons_self) hrow
    · refine ih ⟨fun z hz r hr => ?_, hnodup.2.1⟩ hx
      refine row_apply_eq_none (fun hr' => ?_) (h.fresh z (List.mem_cons_of_mem _ hz) r hr)
      exact hnodup.2.2 hr' (List.mem_flatMap.mpr ⟨z, hz, hr⟩)

/-- A row after a table has been updated was there before. -/
theorem exists_of_update {ρ : Type} {id : ρ → Uuid} {t : Table id} {i j : Uuid} {f : ρ → ρ}
    (hf : ∀ y, id (f y) = id y) {g : ρ → Row} (hg : ∀ y, (g y).Evolves (g (f y))) {row : Row}
    (h : ((t.update i f hf).find? j).map g = some row) :
    ∃ row', (t.find? j).map g = some row' ∧ row'.Evolves row := by
  obtain ⟨y, hy, rfl⟩ := Option.map_eq_some_iff.mp h
  rw [Table.find?_update] at hy
  split at hy
  case isTrue hj =>
    obtain ⟨y', hy', rfl⟩ := Option.map_eq_some_iff.mp hy
    exact ⟨g y', by rw [hj, hy']; rfl, hg y'⟩
  case isFalse => exact ⟨g y, by rw [hy]; rfl, .refl _⟩

/-- A row after an insert was there before, or is the inserted one. -/
theorem of_row_insert {ρ : Type} {id : ρ → Uuid} {t : Table id} {y : ρ} {j : Uuid} {g : ρ → Row}
    {row : Row} (h : ((t.insert y).find? j).map g = some row) :
    (t.find? j).map g = some row ∨ row = g y := by
  obtain ⟨z, hz, rfl⟩ := Option.map_eq_some_iff.mp h
  obtain ⟨hmem, rfl⟩ := Table.find?_eq_some.mp hz
  rcases Table.of_mem_insert hmem with hmem | rfl
  · exact Or.inl (by rw [Table.find?_key hmem]; rfl)
  · exact Or.inr rfl

/-- A row after inserts was there or has been inserted. -/
theorem of_row_insertAll {ρ : Type} {id : ρ → Uuid} {t : Table id} {ys : List ρ} {j : Uuid}
    {g : ρ → Row} {row : Row} (h : ((t.insertAll ys).find? j).map g = some row) :
    (t.find? j).map g = some row ∨ row ∈ ys.map g := by
  obtain ⟨z, hz, rfl⟩ := Option.map_eq_some_iff.mp h
  obtain ⟨hmem, rfl⟩ := Table.find?_eq_some.mp hz
  rcases Table.of_mem_insertAll hmem with hmem | hmem
  · exact Or.inl (by rw [Table.find?_key hmem]; rfl)
  · exact Or.inr (List.mem_map_of_mem hmem)

/-- A row after a write was there before, or has been inserted. -/
theorem row_apply_or {row : Row} (h : (db.apply x).row r = some row) :
    (∃ row', db.row r = some row' ∧ row'.Evolves row) ∨ row ∈ x.rows := by
  have hsame : ∀ {ρ : Type} {id : ρ → Uuid} {t : Table id} {j : Uuid} {g : ρ → Row} {ys : List Row},
      (t.find? j).map g = some row ∨ row ∈ ys →
        (∃ row', (t.find? j).map g = some row' ∧ row'.Evolves row) ∨ row ∈ ys := by
    rintro ρ id t j g ys (hrow | hrow)
    · exact Or.inl ⟨row, hrow, .refl row⟩
    · exact Or.inr hrow
  obtain ⟨table, id⟩ := r
  -- each write reaches one table, and leaves the rows of the others as they were
  cases x with
  | insertCustomer c =>
    cases table
    case customers => exact hsame ((of_row_insert h).imp_right List.mem_singleton.mpr)
    all_goals exact Or.inl ⟨row, h, .refl row⟩
  | insertInvoice v =>
    cases table
    case invoices => exact hsame ((of_row_insert h).imp_right List.mem_singleton.mpr)
    all_goals exact Or.inl ⟨row, h, .refl row⟩
  | insertLineItems rows =>
    cases table
    case lineItems => exact hsame (of_row_insertAll h)
    all_goals exact Or.inl ⟨row, h, .refl row⟩
  | insertAttempt a =>
    cases table
    case attempts => exact hsame ((of_row_insert h).imp_right List.mem_singleton.mpr)
    all_goals exact Or.inl ⟨row, h, .refl row⟩
  | insertEndpoint e =>
    cases table
    case endpoints => exact hsame ((of_row_insert h).imp_right List.mem_singleton.mpr)
    all_goals exact Or.inl ⟨row, h, .refl row⟩
  | insertDeliveries rows =>
    cases table
    case deliveries => exact hsame (of_row_insertAll h)
    all_goals exact Or.inl ⟨row, h, .refl row⟩
  | updateInvoice i state now =>
    cases table
    case invoices =>
      exact Or.inl (exists_of_update (g := .invoice)
        (f := fun v : Invoice => v.update state now) (by intro; rfl)
        (fun v => ⟨rfl, rfl, rfl⟩) h)
    all_goals exact Or.inl ⟨row, h, .refl row⟩
  | updateAttempt i change now =>
    cases table
    case attempts =>
      exact Or.inl (exists_of_update (g := .attempt)
        (f := fun a : PaymentAttempt => a.update change now) (by intro; rfl)
        (fun a => ⟨rfl, rfl⟩) h)
    all_goals exact Or.inl ⟨row, h, .refl row⟩
  | deactivateEndpoint i =>
    cases table
    case endpoints =>
      exact Or.inl (exists_of_update (g := .endpoint)
        (f := fun e : WebhookEndpoint => { e with isActive := false })
        (by intro; rfl) (fun e => ⟨rfl, rfl⟩) h)
    all_goals exact Or.inl ⟨row, h, .refl row⟩
  | updateDelivery i change =>
    cases table
    case deliveries =>
      exact Or.inl (exists_of_update (g := .delivery)
        (f := fun d : WebhookDelivery => d.update change) (by intro; rfl)
        (fun d => ⟨rfl, rfl, rfl, rfl⟩) h)
    all_goals exact Or.inl ⟨row, h, .refl row⟩

/-- **Every row after a transaction** was there before, or has been inserted by it. -/
theorem row_applyAll_or {row : Row} (h : (db.applyAll ws).row r = some row) :
    (∃ row', db.row r = some row' ∧ row'.Evolves row) ∨
      ∃ x ∈ ws, ∃ row' ∈ x.rows, row'.Evolves row := by
  induction ws generalizing db with
  | nil => exact Or.inl ⟨row, h, .refl row⟩
  | cons x ws ih =>
    rcases ih h with ⟨row', hrow', hev⟩ | ⟨y, hy, row', hrow', hev⟩
    · rcases row_apply_or hrow' with ⟨row'', hrow'', hev'⟩ | hrow'
      · exact Or.inl ⟨row'', hrow'', hev'.trans hev⟩
      · exact Or.inr ⟨x, List.mem_cons_self, row', hrow', hev⟩
    · exact Or.inr ⟨y, List.mem_cons_of_mem _ hy, row', hrow', hev⟩

/-! ### Transactions of one business -/

/-- The invoice is one of the business, or the transaction inserts it as such. -/
def HasInvoiceIn (db : Database) (ws : List Write) (b i : Uuid) : Prop :=
  db.HasInvoice b i ∨ ∃ v, .insertInvoice v ∈ ws ∧ v.id = i ∧ v.businessId = b

/-- A write of a transaction names rows of the business only. -/
def Admits (db : Database) (ws : List Write) (b : Uuid) : Write → Prop
  | .insertCustomer c => c.businessId = b
  | .insertInvoice v => v.businessId = b ∧ db.HasCustomer b v.customerId
  | .insertLineItems rows => ∀ li ∈ rows, db.HasInvoiceIn ws b li.invoiceId
  | .insertAttempt a => db.HasInvoice b a.invoiceId
  | .insertEndpoint e => e.businessId = b
  | .insertDeliveries rows => ∀ d ∈ rows, db.HasEndpoint b d.webhookEndpointId ∧
      ∃ i, d.Names i ∧ db.HasInvoiceIn ws b i
  | .updateInvoice i _ _ => db.HasInvoice b i
  | .updateAttempt i _ _ => db.Owns b ⟨.attempts, i⟩
  | .deactivateEndpoint i => db.HasEndpoint b i
  | .updateDelivery _ _ => False

/-- **The rows refer to rows that are there, and of the same business**: an invoice to a customer,
a line item and an attempt to an invoice, and a delivery to an endpoint and, in its payload, to
an invoice. -/
structure Linked (db : Database) : Prop where
  customer : ∀ v ∈ db.invoices, db.HasCustomer v.businessId v.customerId
  lineItem : ∀ li ∈ db.lineItems, ∃ b, db.HasInvoice b li.invoiceId
  attempt : ∀ a ∈ db.attempts, ∃ b, db.HasInvoice b a.invoiceId
  delivery : ∀ d ∈ db.deliveries, ∃ b i, db.HasEndpoint b d.webhookEndpointId ∧ d.Names i ∧
    db.HasInvoice b i

/-- An invoice that the transaction inserts is there after it. -/
theorem HasInvoiceIn.applyAll {i : Uuid} (h : db.HasInvoiceIn ws b i) (hfits : db.Fits ws) :
    (db.applyAll ws).HasInvoice b i := by
  rcases h with h | ⟨v, hv, rfl, hb⟩
  · exact h.grows (grows_applyAll db ws)
  · obtain ⟨row, hrow, hev⟩ := hfits.row_applyAll hv (List.mem_singleton_self _)
    obtain ⟨v', hv', rfl⟩ := Option.map_eq_some_iff.mp hrow
    exact ⟨v', hv', hev.2.1.trans hb⟩

/-- **What a transaction of one business inserts or changes is of the business.** -/
theorem Admits.owns (hfits : db.Fits ws) (h : ∀ x ∈ ws, db.Admits ws b x)
    (hrow : (db.applyAll ws).row r ≠ db.row r) :
    (db.applyAll ws).Owns b r ∧ (db.row r ≠ none → db.Owns b r) := by
  have hgrows := grows_applyAll db ws
  -- some write of the transaction changes the row, or inserts it
  have hx : ∃ x ∈ ws, r ∈ x.updated ∨ r ∈ x.inserted := by
    by_contra hnone
    push Not at hnone
    exact hrow (Database.row_applyAll (fun x hx => (hnone x hx).1)
      fun x hx hr => absurd hr (hnone x hx).2)
  obtain ⟨x, hx, hupd | hins⟩ := hx
  · have howns : db.Owns b r := by
      have hadmits := h x hx
      cases x with
      | updateInvoice i state now =>
        obtain rfl := List.mem_singleton.mp hupd
        obtain ⟨v, hv, hb⟩ := hadmits
        exact ⟨.invoice v, by simp [row, hv], hb⟩
      | updateAttempt i change now =>
        obtain rfl := List.mem_singleton.mp hupd
        exact hadmits
      | deactivateEndpoint i =>
        obtain rfl := List.mem_singleton.mp hupd
        obtain ⟨e, he, hb⟩ := hadmits
        exact ⟨.endpoint e, by simp [row, he], hb⟩
      | updateDelivery i change => exact hadmits.elim
      | _ => cases hupd
    exact ⟨howns.grows hgrows, fun _ => howns⟩
  · have hnone := hfits.fresh x hx r hins
    rw [Write.inserted_eq] at hins
    obtain ⟨row, hmem, rfl⟩ := List.mem_map.mp hins
    obtain ⟨row', hrow', hev⟩ := hfits.row_applyAll hx hmem
    refine ⟨⟨row', hrow', ?_⟩, fun hne => absurd hnone hne⟩
    have hadmits := h x hx
    suffices hof : (db.applyAll ws).IsOf b row from hof.evolves (.refl _) hev
    cases x with
    | insertCustomer c =>
      obtain rfl := List.mem_singleton.mp hmem
      exact hadmits
    | insertInvoice v =>
      obtain rfl := List.mem_singleton.mp hmem
      exact hadmits.1
    | insertLineItems rows =>
      obtain ⟨li, hli, rfl⟩ := List.mem_map.mp hmem
      exact (hadmits li hli).applyAll hfits
    | insertAttempt a =>
      obtain rfl := List.mem_singleton.mp hmem
      exact HasInvoice.grows hadmits hgrows
    | insertEndpoint e =>
      obtain rfl := List.mem_singleton.mp hmem
      exact hadmits
    | insertDeliveries rows =>
      obtain ⟨d, hd, rfl⟩ := List.mem_map.mp hmem
      exact (hadmits d hd).1.grows hgrows
    | _ => cases hmem

theorem linked_empty : Database.empty.Linked where
  customer v hv := absurd hv (Table.not_mem_empty v)
  lineItem li hli := absurd hli (Table.not_mem_empty li)
  attempt a ha := absurd ha (Table.not_mem_empty a)
  delivery d hd := absurd hd (Table.not_mem_empty d)

/-- Who inserts an invoice. -/
theorem insertInvoice_of_evolves {row : Row} {v : Invoice} (h : row ∈ x.rows)
    (hev : row.Evolves (.invoice v)) : ∃ v', x = .insertInvoice v' ∧ v.businessId = v'.businessId ∧
      v.customerId = v'.customerId := by
  cases row with
  | invoice v' =>
    refine ⟨v', ?_, hev.2.1, hev.2.2⟩
    cases x <;> simp_all [Write.rows]
  | _ => exact hev.elim

/-- Who inserts a line item. -/
theorem insertLineItems_of_evolves {row : Row} {li : InvoiceLineItem} (h : row ∈ x.rows)
    (hev : row.Evolves (.lineItem li)) : ∃ rows, x = .insertLineItems rows ∧ li ∈ rows := by
  cases row with
  | lineItem li' =>
    obtain rfl : li = li' := hev
    cases x with
    | insertLineItems rows =>
      obtain ⟨li', hli, heq⟩ := List.mem_map.mp h
      obtain rfl := Row.lineItem.inj heq
      exact ⟨rows, rfl, hli⟩
    | _ => simp [Write.rows] at h
  | _ => exact hev.elim

/-- Who inserts an attempt. -/
theorem insertAttempt_of_evolves {row : Row} {a : PaymentAttempt} (h : row ∈ x.rows)
    (hev : row.Evolves (.attempt a)) :
    ∃ a', x = .insertAttempt a' ∧ a.invoiceId = a'.invoiceId := by
  cases row with
  | attempt a' =>
    refine ⟨a', ?_, hev.2⟩
    cases x <;> simp_all [Write.rows]
  | _ => exact hev.elim

/-- Who inserts a delivery. -/
theorem insertDeliveries_of_evolves {row : Row} {d : WebhookDelivery} (h : row ∈ x.rows)
    (hev : row.Evolves (.delivery d)) : ∃ rows d', x = .insertDeliveries rows ∧ d' ∈ rows ∧
      d.webhookEndpointId = d'.webhookEndpointId ∧ ∀ i, d'.Names i → d.Names i := by
  cases row with
  | delivery d' =>
    obtain ⟨-, hendpoint, htype, hpayload⟩ := hev
    have hnames : ∀ i, d'.Names i → d.Names i := by
      intro i hi
      rw [WebhookDelivery.Names, htype, hpayload]
      exact hi
    cases x with
    | insertDeliveries rows =>
      obtain ⟨d'', hd, heq⟩ := List.mem_map.mp h
      obtain rfl := Row.delivery.inj heq
      exact ⟨rows, d'', rfl, hd, hendpoint, hnames⟩
    | _ => simp [Write.rows] at h
  | _ => exact hev.elim

/-- **A transaction of one business keeps the rows linked.** -/
theorem Linked.applyAll (h : db.Linked) (hfits : db.Fits ws)
    (hws : ∀ x ∈ ws, x.rows ≠ [] → db.Admits ws b x) : (db.applyAll ws).Linked := by
  have hgrows := grows_applyAll db ws
  refine ⟨?_, ?_, ?_, ?_⟩
  -- for each table: a row that was there keeps its links, a new one has been admitted
  · intro v hv
    rcases @row_applyAll_or db ⟨.invoices, v.id⟩ ws (.invoice v)
      (by simp [row, Table.find?_key hv]) with ⟨row', hrow', hev⟩ | ⟨x, hx, row', hrow', hev⟩
    · obtain ⟨v', hv', rfl⟩ := Option.map_eq_some_iff.mp hrow'
      rw [hev.2.1, hev.2.2]
      exact (h.customer v' (Table.find?_eq_some.mp hv').1).grows hgrows
    · have hadmits := hws x hx (List.ne_nil_of_mem hrow')
      obtain ⟨v', rfl, hb, hc⟩ := insertInvoice_of_evolves hrow' hev
      rw [hb, hc, hadmits.1]
      exact hadmits.2.grows hgrows
  · intro li hli
    rcases @row_applyAll_or db ⟨.lineItems, li.id⟩ ws (.lineItem li)
      (by simp [row, Table.find?_key hli]) with ⟨row', hrow', hev⟩ | ⟨x, hx, row', hrow', hev⟩
    · obtain ⟨li', hli', rfl⟩ := Option.map_eq_some_iff.mp hrow'
      obtain rfl : li = li' := hev
      obtain ⟨b', hinvoice⟩ := h.lineItem li (Table.find?_eq_some.mp hli').1
      exact ⟨b', hinvoice.grows hgrows⟩
    · have hadmits := hws x hx (List.ne_nil_of_mem hrow')
      obtain ⟨rows, rfl, hmem⟩ := insertLineItems_of_evolves hrow' hev
      exact ⟨b, (hadmits li hmem).applyAll hfits⟩
  · intro a ha
    rcases @row_applyAll_or db ⟨.attempts, a.id⟩ ws (.attempt a)
      (by simp [row, Table.find?_key ha]) with ⟨row', hrow', hev⟩ | ⟨x, hx, row', hrow', hev⟩
    · obtain ⟨a', ha', rfl⟩ := Option.map_eq_some_iff.mp hrow'
      obtain ⟨b', hinvoice⟩ := h.attempt a' (Table.find?_eq_some.mp ha').1
      rw [hev.2]
      exact ⟨b', hinvoice.grows hgrows⟩
    · have hadmits := hws x hx (List.ne_nil_of_mem hrow')
      obtain ⟨a', rfl, hinvoice⟩ := insertAttempt_of_evolves hrow' hev
      rw [hinvoice]
      exact ⟨b, HasInvoice.grows hadmits hgrows⟩
  · intro d hd
    rcases @row_applyAll_or db ⟨.deliveries, d.id⟩ ws (.delivery d)
      (by simp [row, Table.find?_key hd]) with ⟨row', hrow', hev⟩ | ⟨x, hx, row', hrow', hev⟩
    · obtain ⟨d', hd', rfl⟩ := Option.map_eq_some_iff.mp hrow'
      obtain ⟨b', i, hendpoint, hi, hinvoice⟩ := h.delivery d' (Table.find?_eq_some.mp hd').1
      obtain ⟨-, hid, htype, hpayload⟩ := hev
      refine ⟨b', i, ?_, ?_, hinvoice.grows hgrows⟩
      · rw [hid]
        exact hendpoint.grows hgrows
      · rw [WebhookDelivery.Names, htype, hpayload]
        exact hi
    · have hadmits := hws x hx (List.ne_nil_of_mem hrow')
      obtain ⟨rows, d', rfl, hd', hid, hnames⟩ := insertDeliveries_of_evolves hrow' hev
      obtain ⟨hendpoint, i, hi, hinvoice⟩ := hadmits d' hd'
      exact ⟨b, i, hid ▸ hendpoint.grows hgrows, hnames i hi, hinvoice.applyAll hfits⟩

end Database

/-- The uncommitted writes of a session meet no row, and not each other. -/
theorem World.Consistent.fits {w : World} (h : w.Consistent) (p : Pid) :
    w.db.Fits (w.writesOf p) := by
  refine ⟨fun x hx r hr => h.fresh p x (World.mem_writesOf.mp hx) r hr, ?_⟩
  have hwrites : (w.writesOf p).flatMap Write.inserted =
      (w.inflight.filter fun y => y.1 = p).flatMap fun y => y.2.inserted := by
    unfold World.writesOf
    induction w.inflight with
    | nil => rfl
    | cons y l ih =>
      by_cases hy : y.1 = p
      · simp [hy, ih]
      · simp [hy, ih]
  rw [hwrites]
  exact (List.filter_sublist.flatMap _).nodup h.nodup

end TenantBilling
