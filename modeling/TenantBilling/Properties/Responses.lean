import TenantBilling.Properties.Later
import TenantBilling.World.Registers

/-!
# What a response stands for

A client that gets a response goes on to use it: it stores the id of the customer it has created,
shows the invoices it has listed, hands the secret of an endpoint to its receiver. For every
request and what it returns, `TenantBilling.Request.Stands` says what of it is to be found in the
tables: the very customer, the invoice with exactly its line items, the attempt, the endpoint
under its secret, each of the business that has asked and with the values that it has given. The
one exception is a payment that is answered by a replay: the attempt is looked up by its invoice
and key alone, so that it may be the attempt of another business, and of the card token no more
than the hash of the body is compared. Nothing of a response is taken back by what happens to the
tables later (`TenantBilling.Request.Stands.later`).

The requests that read or register are executed here, statement by statement, in the setting of a
session among others (`TenantBilling.System.among`): what a session reads that has written nothing
is committed (`TenantBilling.ensures_select`), and what it has written is committed on the tables
as they are by then (`TenantBilling.ensures_commit`).
-/

namespace TenantBilling

open Base World

/-! ### What is told -/

namespace Database

/-- The invoice is one of the business, and these are its line items. -/
structure Shows (db : Database) (b : Uuid) (x : Invoice × List InvoiceLineItem) : Prop where
  business : x.1.businessId = b
  row : ∃ v ∈ db.invoices, x.1.Later v
  items : x.2.Perm (db.lineItemsOf x.1.id)

/-- The endpoint is one of the business. -/
structure ShowsEndpoint (db : Database) (b : Uuid) (e : WebhookEndpoint) : Prop where
  business : e.businessId = b
  row : ∃ e' ∈ db.endpoints, e.Later e'

end Database

/-- The values of a line item, as they are posted. -/
def InvoiceLineItem.posted (li : InvoiceLineItem) : NewLineItem :=
  ⟨li.description.text, li.quantity.val, li.unitAmountCents.val, li.amountCents.val⟩

/-- The invoice is the one that is asked for. -/
structure InvoiceCreate.Describes (payload : InvoiceCreate) (x : Invoice × List InvoiceLineItem) :
    Prop where
  customer : x.1.customerId = payload.customerId
  state : x.1.state = .draft
  total : x.1.totalCents.val = payload.totalCents
  dueDate : x.1.dueDate = payload.dueDate
  items : (x.2.map InvoiceLineItem.posted).Perm payload.newLineItems

/-- **What a response stands for.** -/
def Request.Stands (crypto : Crypto) (db : Database) (b : Uuid) : Request → Result → Prop
  | .createCustomer name email, .customer c =>
    c ∈ db.customers ∧ c.businessId = b ∧ c.name.text = name ∧ c.email.text = email
  | .getCustomer i, .customer c => c ∈ db.customers ∧ c.businessId = b ∧ c.id = i
  | .listCustomers skip limit, .customers items total skip' limit' =>
    skip' = skip ∧ limit' = limit ∧ items.length ≤ limit ∧ items.Nodup ∧
      (∀ c ∈ items, c ∈ db.customersOf b) ∧ total ≤ (db.customersOf b).length
  | .createInvoice payload, .invoice x => db.Shows b x ∧ payload.Describes x
  | .getInvoice i, .invoice x => db.Shows b x ∧ x.1.id = i
  | .listInvoices state skip limit, .invoices items total skip' limit' =>
    skip' = skip ∧ limit' = limit ∧ items.length ≤ limit ∧ (items.map (·.1.id)).Nodup ∧
      (∀ x ∈ items, db.Shows b x ∧ (state = "" ∨ x.1.state.value = state)) ∧
      total ≤ (db.invoicesOf b none).length
  | .finalize i, .invoice x => db.Shows b x ∧ x.1.id = i ∧ x.1.state = .open
  | .void i, .invoice x => db.Shows b x ∧ x.1.id = i ∧ x.1.state = .void
  | .uncollectible i, .invoice x => db.Shows b x ∧ x.1.id = i ∧ x.1.state = .uncollectible
  | .pay i cardToken key, .attempt a cached =>
    key ≠ "" ∧ a.invoiceId = i ∧ a.idempotencyKey.text = key ∧
      a.requestHash = hashRequestBody crypto cardToken ∧ (∃ d ∈ db.attempts, a.Follows d) ∧
        (cached = false → a.cardToken.text = cardToken ∧ db.HasInvoice b i)
  | .createEndpoint url, .endpoint e signingSecret =>
    db.ShowsEndpoint b e ∧ e.url.text = url ∧ e.signingSecret.text = signingSecret ∧
      e.isActive = true
  | .listEndpoints, .endpoints items => items.Nodup ∧ ∀ e ∈ items,
    db.ShowsEndpoint b e ∧ e.isActive = true
  | .deactivateEndpoint i, .done =>
    ∃ e ∈ db.endpoints, e.id = i ∧ e.businessId = b ∧ e.isActive = false
  | _, _ => False

section Later

variable {crypto : Crypto} {db db' : Database} {b : Uuid}

/-- An invoice that is shown can be shown later, up to its state. -/
theorem Database.Shows.later {x : Invoice × List InvoiceLineItem} (h : db.Shows b x)
    (hlater : db.Later db') : db'.Shows b x := by
  obtain ⟨hb, ⟨v, hv, hxv⟩, hitems⟩ := h
  obtain ⟨v', hv', hvv'⟩ := hlater.invoice v hv
  refine ⟨hb, ⟨v', hv', hxv.trans hvv'⟩, hitems.trans (.of_eq ?_)⟩
  rw [← hxv.id]
  exact (hlater.items v hv).symm

/-- An endpoint that is shown can be shown later, up to whether it is active. -/
theorem Database.ShowsEndpoint.later {e : WebhookEndpoint} (h : db.ShowsEndpoint b e)
    (hlater : db.Later db') : db'.ShowsEndpoint b e := by
  obtain ⟨hb, e', he', hlater'⟩ := h
  obtain ⟨e'', he'', hlater''⟩ := hlater.endpoint e' he'
  exact ⟨hb, e'', he'', hlater'.trans hlater''⟩

theorem Database.Later.mem_customersOf (h : db.Later db') {c : Customer}
    (hc : c ∈ db.customersOf b) : c ∈ db'.customersOf b := by
  obtain ⟨hc, hb⟩ := List.mem_filter.mp hc
  exact List.mem_filter.mpr ⟨h.grows.customer hc, hb⟩

/-- A business has no fewer customers later. -/
theorem Database.Later.customersOf_le (h : db.Later db') (b : Uuid) :
    (db.customersOf b).length ≤ (db'.customersOf b).length :=
  (List.Nodup.subperm (db.customers.nodup_rows.filter _) fun _ hc => h.mem_customersOf hc).length_le

theorem Database.mem_invoicesOf {v : Invoice} :
    v ∈ db.invoicesOf b none ↔ v ∈ db.invoices ∧ v.businessId = b := by
  simp [Database.invoicesOf, List.mem_filter, Table.mem_rows]

/-- A business has no fewer invoices later. -/
theorem Database.Later.invoicesOf_le (h : db.Later db') (b : Uuid) :
    (db.invoicesOf b none).length ≤ (db'.invoicesOf b none).length := by
  have hnodup : ((db.invoicesOf b none).map Invoice.id).Nodup :=
    db.invoices.nodup.sublist (List.filter_sublist.map _)
  have hsub : (db.invoicesOf b none).map Invoice.id ⊆ (db'.invoicesOf b none).map Invoice.id := by
    intro i hi
    obtain ⟨v, hv, rfl⟩ := List.mem_map.mp hi
    obtain ⟨hv, hb⟩ := Database.mem_invoicesOf.mp hv
    obtain ⟨v', hv', hlater⟩ := h.invoice v hv
    refine List.mem_map.mpr ⟨v', Database.mem_invoicesOf.mpr ⟨hv', ?_⟩, hlater.id⟩
    obtain ⟨state, now, rfl⟩ := hlater
    exact hb
  simpa using (hnodup.subperm hsub).length_le

/-- **Nothing that has been told is taken back.** -/
theorem Request.Stands.later {req : Request} {y : Result} (h : req.Stands crypto db b y)
    (hlater : db.Later db') : req.Stands crypto db' b y := by
  cases req with
  | pay i cardToken key =>
    cases y with
    | attempt a cached =>
      obtain ⟨hkey, hi, htext, hhash, ⟨d, hd, had⟩, hown⟩ := h
      obtain ⟨d', hd', hdd'⟩ := hlater.attempt d hd
      exact ⟨hkey, hi, htext, hhash, ⟨d', hd', had.trans hdd'⟩,
        fun hcached => (hown hcached).imp_right (·.grows hlater.grows)⟩
    | _ => exact h
  | createCustomer name email =>
    cases y with
    | customer c => exact ⟨hlater.grows.customer h.1, h.2⟩
    | _ => exact h
  | getCustomer i =>
    cases y with
    | customer c => exact ⟨hlater.grows.customer h.1, h.2⟩
    | _ => exact h
  | listCustomers skip limit =>
    cases y with
    | customers items total skip' limit' =>
      obtain ⟨hskip, hlimit, hlength, hnodup, hitems, htotal⟩ := h
      exact ⟨hskip, hlimit, hlength, hnodup, fun c hc => hlater.mem_customersOf (hitems c hc),
        htotal.trans (hlater.customersOf_le b)⟩
    | _ => exact h
  | listInvoices state skip limit =>
    cases y with
    | invoices items total skip' limit' =>
      obtain ⟨hskip, hlimit, hlength, hnodup, hitems, htotal⟩ := h
      exact ⟨hskip, hlimit, hlength, hnodup, fun x hx => (hitems x hx).imp_left (·.later hlater),
        htotal.trans (hlater.invoicesOf_le b)⟩
    | _ => exact h
  | listEndpoints =>
    cases y with
    | endpoints items => exact ⟨h.1, fun e he => (h.2 e he).imp_left (·.later hlater)⟩
    | _ => exact h
  | createEndpoint url =>
    cases y with
    | endpoint e signingSecret => exact ⟨h.1.later hlater, h.2⟩
    | _ => exact h
  | deactivateEndpoint i =>
    cases y with
    | done =>
      obtain ⟨e, he, hid, hb, hactive⟩ := h
      obtain ⟨e', he', hlater⟩ := hlater.endpoint e he
      refine ⟨e', he', ?_, ?_, hlater.isActive hactive⟩
      · rcases hlater with rfl | rfl <;> exact hid
      · rcases hlater with rfl | rfl <;> exact hb
    | _ => exact h
  | _ =>
    -- the requests that return an invoice
    cases y with
    | invoice x => exact ⟨h.1.later hlater, h.2⟩
    | _ => exact h

end Later

/-! ### Statement by statement -/

section Rules

variable {α : Type} {Q : World → α → Prop} {w : World} {p : Pid} {ws : List Write}

/-- **A session that has written nothing reads the committed tables.** -/
theorem ensures_select {q : Query} {k : q.Result → ServerProg α} (hwrites : w.writesOf p = [])
    (h : ∀ (w' : World) (rank : Uuid → ℕ), w.Later w' → w'.writesOf p = [] →
      Prog.Ensures (System.among p) Q w' (k (w'.db.eval rank q))) :
    Prog.Ensures (System.among p) Q w (.op (.select q) k) := by
  rintro w₁ r w₂ ⟨hf, hlater⟩ htold
  obtain ⟨⟨env, rfl⟩, rfl⟩ := answers_select htold.answers
  have hwrites₂ : w₂.writesOf p = [] := hf.writes.trans hwrites
  have hview : w₂.view p = w₂.db := by rw [World.view, hwrites₂]; rfl
  rw [hview]
  exact h w₂ env.rank hlater hwrites₂

/-- **What a session has written is committed** on the tables as they are by then. -/
theorem ensures_commit {k : Unit → ServerProg α} (hwrites : w.writesOf p = ws)
    (h : ∀ (w₁ w' : World), w.Later w₁ → w₁.db.Fits ws → w'.db = w₁.db.applyAll ws →
      ⟨p, ws⟩ ∈ w'.history → Prog.Ensures (System.among p) Q w' (k ())) :
    Prog.Ensures (System.among p) Q w (.op .commit k) := by
  rintro w₁ ⟨⟩ w₂ ⟨hf, hlater⟩ htold
  obtain rfl := answers_commit htold.answers
  have hwrites₁ : w₁.writesOf p = ws := hf.writes.trans hwrites
  refine h w₁ _ hlater (hwrites₁ ▸ htold.consistent.fits p) ?_ ?_
  · rw [db_commit, World.view, hwrites₁]
  · rw [history_commit, hwrites₁]
    exact List.mem_append_right _ (List.mem_singleton_self _)

/-- What a route returns is handed back when its session has been closed. -/
theorem ensures_getDb {m : Orm Result} {A : World → Except Exc Result → Prop}
    (hA : ∀ w w' x, w.Later w' → A w x → A w' x)
    (h : Prog.Ensures (System.among p) (fun w x => A w x.1) w (m {})) :
    Prog.Ensures (System.among p) A w (Orm.getDb m) := by
  refine Prog.Ensures.bind h fun w' x hx => ?_
  rintro w₁ _ w₂ ⟨-, hlater⟩ htold w₃ ⟨-, hlater'⟩
  exact hA _ _ _ ((hlater.trans htold.later).trans hlater') hx

end Rules

section Requests

variable {crypto : Crypto} {business : Business} {w : World} {p : Pid}

/-- What a request returns stands. -/
def Request.Returns (crypto : Crypto) (business : Business) (req : Request) (db : Database)
    (x : Except Exc Result) : Prop := ∀ y, x = .ok y → req.Stands crypto db business.id y

/-- A request that raises has told nothing. -/
theorem ensures_error {req : Request} {e : Exc} {σ : Session} :
    Prog.Ensures (System.among p) (fun w (x : Except Exc Result × Session) =>
      req.Returns crypto business w.db x.1) w (.ret (.error e, σ)) := by
  rintro w' - y ⟨⟩

/-- A new customer is stored with the name and the email given. -/
theorem ensures_createCustomer (name email : String) (hwrites : w.writesOf p = []) :
    Prog.Ensures (System.among p) (fun w x =>
      (Request.createCustomer name email).Returns crypto business w.db x.1) w
      (route crypto business (.createCustomer name email) {}) := by
  refine Prog.ensures_op.mpr ?_
  rintro w₁ (e | c) w₂ ⟨hf, -⟩ htold
  · cases e with
    | integrity text =>
      refine Prog.ensures_op.mpr fun _ _ _ _ _ => ?_
      exact ensures_error
    | _ => exact ensures_error
  · obtain ⟨rfl, ⟨now, hrow⟩, -, -⟩ := answers_insertCustomer htold.answers
    refine ensures_commit (writesOf_write_self (hf.writes.trans hwrites)) fun w₃ w₄ _ hfits hdb _ =>
      ?_
    rintro w₅ ⟨-, hlater⟩ y ⟨⟩
    obtain ⟨-, hb, hname, hemail⟩ := customerRow_fields hrow
    refine ⟨hlater.db.grows.customer ?_, hb, hname, hemail⟩
    have hfree : w₃.db.customers.Free c.id := Table.free_iff.mpr (Option.map_eq_none_iff.mp
      (hfits.fresh _ (List.mem_singleton_self _) _ (List.mem_singleton_self _)))
    rw [hdb]
    exact (Table.mem_insert hfree).mpr (Or.inr rfl)

theorem ensures_getCustomer (i : Uuid) (hwrites : w.writesOf p = []) :
    Prog.Ensures (System.among p) (fun w x =>
      (Request.getCustomer i).Returns crypto business w.db x.1) w
      (route crypto business (.getCustomer i) {}) := by
  refine ensures_select hwrites fun w₁ rank _ _ => ?_
  generalize heval : w₁.db.eval rank (.customer i business.id) = r
  rcases r with _ | c
  · exact ensures_error
  · rintro w₂ ⟨-, hlater⟩ y ⟨⟩
    obtain ⟨hfind, hb⟩ := Option.filter_eq_some_iff.mp heval
    obtain ⟨hc, hid⟩ := Table.find?_eq_some.mp hfind
    exact ⟨hlater.db.grows.customer hc, of_decide_eq_true hb, hid⟩

/-- A page of the rows of a table: some of them, each once, and not too many. -/
theorem page_newestFirst {ρ : Type} (rank : Uuid → ℕ) (id : ρ → Uuid) (createdAt : ρ → Timestamp)
    (skip limit : ℕ) {rows : List ρ} (hnodup : (rows.map id).Nodup) :
    (∀ r ∈ page skip limit (newestFirst rank id createdAt rows), r ∈ rows) ∧
      ((page skip limit (newestFirst rank id createdAt rows)).map id).Nodup ∧
      (page skip limit (newestFirst rank id createdAt rows)).length ≤ limit := by
  have hperm : (newestFirst rank id createdAt rows).Perm rows := List.perm_insertionSort _ rows
  have hsub : (page skip limit (newestFirst rank id createdAt rows)).Sublist
      (newestFirst rank id createdAt rows) := (List.take_sublist ..).trans (List.drop_sublist ..)
  refine ⟨fun r hr => hperm.mem_iff.mp (hsub.subset hr), ?_, List.length_take_le ..⟩
  exact ((hperm.map id).nodup_iff.mpr hnodup).sublist (hsub.map id)

/-- A page of customers is one of rows of the business. -/
theorem ensures_listCustomers (skip limit : ℕ) (hwrites : w.writesOf p = []) :
    Prog.Ensures (System.among p) (fun w x =>
      (Request.listCustomers skip limit).Returns crypto business w.db x.1) w
      (route crypto business (.listCustomers skip limit) {}) := by
  refine ensures_select hwrites fun w₁ rank₁ _ hwrites₁ => ?_
  refine ensures_select hwrites₁ fun w₂ rank hlater _ => ?_
  rintro w₃ ⟨-, hlater'⟩ y ⟨⟩
  obtain ⟨hmem, hnodup, hlength⟩ := page_newestFirst rank Customer.id Customer.createdAt skip limit
    (w₂.db.customers.nodup.sublist (List.filter_sublist.map _))
  exact ⟨rfl, rfl, hlength, hnodup.of_map, fun c hc => hlater'.db.mem_customersOf (hmem c hc),
    (hlater.trans hlater').db.customersOf_le _⟩

/-- An invoice that is found is shown with all of its line items. -/
theorem Database.shows_withLineItems {db : Database} {b : Uuid} {v : Invoice} (hv : v ∈ db.invoices)
    (hb : v.businessId = b) (rank : Uuid → ℕ) : db.Shows b (db.withLineItems rank v) :=
  ⟨hb, ⟨v, hv, .refl v⟩, List.perm_insertionSort _ _⟩

theorem ensures_getInvoice (i : Uuid) (hwrites : w.writesOf p = []) :
    Prog.Ensures (System.among p) (fun w x =>
      (Request.getInvoice i).Returns crypto business w.db x.1) w
      (route crypto business (.getInvoice i) {}) := by
  refine ensures_select hwrites fun w₁ rank _ _ => ?_
  generalize heval : w₁.db.eval rank (.invoice i (some business.id)) = r
  rcases r with _ | ⟨row, lineItems⟩
  · exact ensures_error
  · rintro w₂ ⟨-, hlater⟩ y ⟨⟩
    obtain ⟨v, hv, hx⟩ := Option.map_eq_some_iff.mp heval
    obtain ⟨hfind, hb⟩ := Option.filter_eq_some_iff.mp hv
    obtain ⟨hv, hid⟩ := Table.find?_eq_some.mp hfind
    rw [← hx]
    exact ⟨(Database.shows_withLineItems hv (of_decide_eq_true hb) rank).later hlater.db, hid⟩

/-- A page of invoices, in one state if one is given. -/
theorem ensures_listInvoices_page {state : String} {st : Option InvoiceState}
    (hst : ∀ s ∈ st, s.value = state) (hstate : st = none → state = "") (skip limit : ℕ)
    (hwrites : w.writesOf p = []) :
    Prog.Ensures (System.among p) (fun w x =>
      (Request.listInvoices state skip limit).Returns crypto business w.db x.1) w
      ((do
        let (invoices, total) ← listInvoices business st skip limit
        pure (.invoices invoices total skip limit) : Orm Result) {}) := by
  refine ensures_select hwrites fun w₁ rank₁ _ hwrites₁ => ?_
  refine ensures_select hwrites₁ fun w₂ rank hlater _ => ?_
  rintro w₃ ⟨-, hlater'⟩ y ⟨⟩
  obtain ⟨hmem, hnodup, hlength⟩ := page_newestFirst rank Invoice.id Invoice.createdAt skip limit
    (w₂.db.invoices.nodup.sublist ((List.filter_sublist (p := fun v => v.businessId = business.id &&
      st.all fun s => v.state = s)).map _))
  refine ⟨rfl, rfl, (List.length_map ..).trans_le hlength, ?_, fun x hx => ?_, ?_⟩
  · change (List.map _ (List.map _ _)).Nodup
    rw [List.map_map]
    exact hnodup
  · obtain ⟨v, hv, rfl⟩ := List.mem_map.mp hx
    obtain ⟨hv, hp⟩ := List.mem_filter.mp (hmem v hv)
    obtain ⟨hb, hall⟩ := Bool.and_eq_true_iff.mp hp
    refine ⟨(Database.shows_withLineItems hv (of_decide_eq_true hb) rank).later hlater'.db, ?_⟩
    cases st with
    | none => exact Or.inl (hstate rfl)
    | some s => exact Or.inr (of_decide_eq_true hall ▸ hst s rfl)
  · refine le_trans ?_ ((hlater.trans hlater').db.invoicesOf_le _)
    have hsub : (w₁.db.invoicesOf business.id st).Sublist (w₁.db.invoicesOf business.id none) := by
      refine List.monotone_filter_right _ fun v hv => ?_
      simpa using (Bool.and_eq_true_iff.mp hv).1
    exact hsub.length_le

theorem InvoiceState.value_of_ofValue? {s : String} {st : InvoiceState}
    (h : InvoiceState.ofValue? s = some st) : st.value = s :=
  of_decide_eq_true (List.find?_some (p := fun st : InvoiceState => decide (st.value = s)) h)

/-- A page of invoices is one of rows of the business in the state asked for. -/
theorem ensures_listInvoices (state : String) (skip limit : ℕ) (hwrites : w.writesOf p = []) :
    Prog.Ensures (System.among p) (fun w x =>
      (Request.listInvoices state skip limit).Returns crypto business w.db x.1) w
      (route crypto business (.listInvoices state skip limit) {}) := by
  change Prog.Ensures _ _ _ ((if state = "" then _ else _ : Orm Result) {})
  split
  case isTrue h => exact ensures_listInvoices_page (by rintro s ⟨⟩) (fun _ => h) skip limit hwrites
  case isFalse h =>
    cases hst : InvoiceState.ofValue? state with
    | none => exact ensures_error
    | some st =>
      refine ensures_listInvoices_page ?_ (by rintro ⟨⟩) skip limit hwrites
      rintro s ⟨⟩
      exact InvoiceState.value_of_ofValue? hst

/-- A new endpoint is stored under the secret that is handed out. -/
theorem ensures_createEndpoint (url : String) (hwrites : w.writesOf p = []) :
    Prog.Ensures (System.among p) (fun w x =>
      (Request.createEndpoint url).Returns crypto business w.db x.1) w
      (route crypto business (.createEndpoint url) {}) := by
  refine Prog.ensures_op.mpr fun w₁ signingSecret w₂ hrely htold => ?_
  obtain rfl := answers_secret htold.answers
  refine Prog.ensures_op.mpr ?_
  rintro w₃ (err | e) w₄ ⟨hf, -⟩ htold'
  · exact ensures_error
  · obtain ⟨rfl, now, hrow⟩ := answers_insertEndpoint htold'.answers
    refine ensures_commit (writesOf_write_self (hf.writes.trans (hrely.1.writes.trans hwrites)))
      fun w₅ w₆ _ hfits hdb _ => ?_
    rintro w₇ ⟨-, hlater⟩ y ⟨⟩
    obtain ⟨-, hb, hurl, hsecret, hactive⟩ := endpointRow_fields hrow
    have hfree : w₅.db.endpoints.Free e.id := Table.free_iff.mpr (Option.map_eq_none_iff.mp
      (hfits.fresh _ (List.mem_singleton_self _) _ (List.mem_singleton_self _)))
    have hmem : e ∈ w₆.db.endpoints := hdb ▸ (Table.mem_insert hfree).mpr (Or.inr rfl)
    exact ⟨Database.ShowsEndpoint.later ⟨hb, e, hmem, .refl e⟩ hlater.db, hurl, hsecret, hactive⟩

theorem ensures_listEndpoints (hwrites : w.writesOf p = []) :
    Prog.Ensures (System.among p) (fun w x =>
      Request.listEndpoints.Returns crypto business w.db x.1) w
      (route crypto business .listEndpoints {}) := by
  refine ensures_select hwrites fun w₁ rank _ _ => ?_
  rintro w₂ ⟨-, hlater⟩ y ⟨⟩
  have hperm : (w₁.db.eval rank (.activeEndpoints business.id)).Perm
      (w₁.db.activeEndpointsOf business.id) := List.perm_insertionSort _ _
  refine ⟨hperm.nodup_iff.mpr (w₁.db.endpoints.nodup_rows.filter _), fun e he => ?_⟩
  obtain ⟨he, hp⟩ := List.mem_filter.mp (hperm.mem_iff.mp he)
  obtain ⟨hb, hactive⟩ := Bool.and_eq_true_iff.mp hp
  exact ⟨Database.ShowsEndpoint.later ⟨of_decide_eq_true hb, e, he, .refl e⟩ hlater.db, hactive⟩

end Requests

end TenantBilling
