import TenantBilling.Base.Ensures
import TenantBilling.Properties.Money

/-!
# What is never undone

A customer is stored for good, and so are the line items of an invoice; of an invoice only the
state and the time of its last change are changed, and of an endpoint only whether it is active,
which it ceases to be once; an attempt keeps its request, and its outcome. This is
`TenantBilling.Database.Later`, and holds between the committed tables before and after any move
(`TenantBilling.System.Owned.later`).

It is what a session can rely on while the others go on
(`TenantBilling.System.among`), next to its own uncommitted writes being its own. What every request
ensures in this setting is then an invariant of the system
(`TenantBilling.System.Reachable.ensures`).
-/

namespace TenantBilling

open Base World

/-- The same endpoint at a later time. -/
def WebhookEndpoint.Later (e e' : WebhookEndpoint) : Prop :=
    e' = e ∨ e' = { e with isActive := false }

/-- The same invoice at a later time. -/
def Invoice.Later (v v' : Invoice) : Prop := ∃ state now, v' = v.update state now

/-- **The tables at a later time.** -/
structure Database.Later (db db' : Database) : Prop where
  grows : db.Grows db'
  attempt : ∀ a ∈ db.attempts, ∃ d ∈ db'.attempts, a.Follows d
  endpoint : ∀ e ∈ db.endpoints, ∃ e' ∈ db'.endpoints, e.Later e'
  invoice : ∀ v ∈ db.invoices, ∃ v' ∈ db'.invoices, v.Later v'
  items : ∀ v ∈ db.invoices, db'.lineItemsOf v.id = db.lineItemsOf v.id

/-- **The world at a later time**: nothing that is stored is undone, and nothing that is recorded is
forgotten. -/
structure World.Later (w w' : World) : Prop where
  db : w.db.Later w'.db
  history : ∀ m ∈ w.history, m ∈ w'.history

section Later

variable {db db' db'' : Database} {x : Write} {ws : List Write}

theorem WebhookEndpoint.Later.refl (e : WebhookEndpoint) : e.Later e := Or.inl rfl

theorem WebhookEndpoint.Later.trans {e e' e'' : WebhookEndpoint} (h : e.Later e')
    (h' : e'.Later e'') : e.Later e'' := by
  rcases h with rfl | rfl
  · exact h'
  · rcases h' with rfl | rfl
    · exact Or.inr rfl
    · exact Or.inr rfl

/-- An endpoint that is inactive stays so. -/
theorem WebhookEndpoint.Later.isActive {e e' : WebhookEndpoint} (h : e.Later e')
    (hactive : e.isActive = false) : e'.isActive = false := by
  rcases h with rfl | rfl
  · exact hactive
  · rfl

theorem Invoice.Later.refl (v : Invoice) : v.Later v := ⟨v.state, v.updatedAt, rfl⟩

theorem Invoice.Later.trans {v v' v'' : Invoice} (h : v.Later v') (h' : v'.Later v'') :
    v.Later v'' := by
  obtain ⟨state, now, rfl⟩ := h
  obtain ⟨state', now', rfl⟩ := h'
  exact ⟨state', now', rfl⟩

theorem Invoice.Later.id {v v' : Invoice} (h : v.Later v') : v'.id = v.id := by
  obtain ⟨state, now, rfl⟩ := h
  rfl

namespace Database

theorem Later.refl (db : Database) : db.Later db :=
  ⟨.refl db, fun a h => ⟨a, h, .refl a⟩, fun e h => ⟨e, h, .refl e⟩, fun v h => ⟨v, h, .refl v⟩,
    fun _ _ => rfl⟩

theorem Later.trans (h : db.Later db') (h' : db'.Later db'') : db.Later db'' := by
  refine ⟨h.grows.trans h'.grows, fun a ha => ?_, fun e he => ?_, fun v hv => ?_, fun v hv => ?_⟩
  · obtain ⟨d, hd, had⟩ := h.attempt a ha
    obtain ⟨d', hd', hdd'⟩ := h'.attempt d hd
    exact ⟨d', hd', had.trans hdd'⟩
  · obtain ⟨e', he', hlater⟩ := h.endpoint e he
    obtain ⟨e'', he'', hlater'⟩ := h'.endpoint e' he'
    exact ⟨e'', he'', hlater.trans hlater'⟩
  · obtain ⟨v', hv', hlater⟩ := h.invoice v hv
    obtain ⟨v'', hv'', hlater'⟩ := h'.invoice v' hv'
    exact ⟨v'', hv'', hlater.trans hlater'⟩
  · obtain ⟨v', hv', hlater⟩ := h.invoice v hv
    exact (hlater.id ▸ h'.items v' hv').trans (h.items v hv)

/-- A row of a table after an update of one row. -/
theorem exists_mem_update {ρ : Type} {id : ρ → Uuid} {t : Table id} {i : Uuid} {f : ρ → ρ}
    {L : ρ → ρ → Prop} (hrefl : ∀ r, L r r) (hL : ∀ r, L r (f r)) (hf : ∀ r, id (f r) = id r)
    {r : ρ} (h : r ∈ t) : ∃ r' ∈ t.update i f hf, L r r' := by
  refine ⟨if id r = i then f r else r, Table.mem_update.mpr ⟨r, h, rfl⟩, ?_⟩
  split
  · exact hL r
  · exact hrefl r

/-- A customer is stored for good. -/
theorem Grows.customer (h : db.Grows db') {c : Customer} (hc : c ∈ db.customers) :
    c ∈ db'.customers := by
  have hrow : db.row ⟨.customers, c.id⟩ = some (.customer c) :=
    congrArg (Option.map Row.customer) (Table.find?_key hc)
  obtain ⟨row, hrow', hev⟩ := h _ _ hrow
  obtain ⟨c', hc', rfl⟩ := Option.map_eq_some_iff.mp hrow'
  obtain rfl : c' = c := hev
  exact (Table.find?_eq_some.mp hc').1

/-- Every write leaves the endpoints and the invoices that are there to their later versions. -/
theorem later_apply (db : Database) (x : Write) :
    (∀ e ∈ db.endpoints, ∃ e' ∈ (db.apply x).endpoints, e.Later e') ∧
      ∀ v ∈ db.invoices, ∃ v' ∈ (db.apply x).invoices, v.Later v' := by
  have hsame : ∀ e ∈ db.endpoints, ∃ e' ∈ db.endpoints, e.Later e' := fun e he => ⟨e, he, .refl e⟩
  have hkept : ∀ v ∈ db.invoices, ∃ v' ∈ db.invoices, v.Later v' := fun v hv => ⟨v, hv, .refl v⟩
  cases x with
  | insertEndpoint row => exact ⟨fun e he => ⟨e, Table.mem_insert_of_mem he, .refl e⟩, hkept⟩
  | insertInvoice row => exact ⟨hsame, fun v hv => ⟨v, Table.mem_insert_of_mem hv, .refl v⟩⟩
  | deactivateEndpoint i =>
    refine ⟨fun _ => ?_, hkept⟩
    exact exists_mem_update WebhookEndpoint.Later.refl (fun _ => Or.inr rfl) fun _ => rfl
  | updateInvoice i state now =>
    refine ⟨hsame, fun _ => ?_⟩
    exact exists_mem_update Invoice.Later.refl (fun _ => ⟨state, now, rfl⟩) fun _ => rfl
  | _ => exact ⟨hsame, hkept⟩

/-- Writes make a database later if they settle no attempt twice and add no line item to an
invoice that is there. -/
theorem later_applyAll (ws : List Write)
    (hattempts : ∀ a ∈ db.attempts, ∃ d ∈ (db.applyAll ws).attempts, a.Follows d)
    (hitems : ∀ v ∈ db.invoices, (db.applyAll ws).lineItemsOf v.id = db.lineItemsOf v.id) :
    db.Later (db.applyAll ws) := by
  have hrows : (∀ e ∈ db.endpoints, ∃ e' ∈ (db.applyAll ws).endpoints, e.Later e') ∧
      ∀ v ∈ db.invoices, ∃ v' ∈ (db.applyAll ws).invoices, v.Later v' := by
    clear hattempts hitems
    induction ws generalizing db with
    | nil => exact ⟨fun e he => ⟨e, he, .refl e⟩, fun v hv => ⟨v, hv, .refl v⟩⟩
    | cons x ws ih =>
      obtain ⟨he, hv⟩ := db.later_apply x
      obtain ⟨hes, hvs⟩ := @ih (db.apply x)
      refine ⟨fun e h => ?_, fun v h => ?_⟩
      · obtain ⟨e', he', hlater⟩ := he e h
        obtain ⟨e'', he'', hlater'⟩ := hes e' he'
        exact ⟨e'', he'', hlater.trans hlater'⟩
      · obtain ⟨v', hv', hlater⟩ := hv v h
        obtain ⟨v'', hv'', hlater'⟩ := hvs v' hv'
        exact ⟨v'', hv'', hlater.trans hlater'⟩
  exact ⟨db.grows_applyAll ws, hattempts, hrows.1, hrows.2, hitems⟩

end Database

theorem World.Later.refl (w : World) : w.Later w := ⟨.refl w.db, fun _ h => h⟩

theorem World.Later.trans {w w' w'' : World} (h : w.Later w') (h' : w'.Later w'') : w.Later w'' :=
  ⟨h.db.trans h'.db, fun m hm => h'.history m (h.history m hm)⟩

/-- No transaction adds a line item to an invoice that is there. -/
theorem Transacts.lineItemsOf {crypto : Crypto} {w : World} {p : Pid} (h : Transacts crypto w p ws)
    (hfits : w.db.Fits ws) {v : Invoice} (hv : v ∈ w.db.invoices) :
    (w.db.applyAll ws).lineItemsOf v.id = w.db.lineItemsOf v.id := by
  rcases h.keepsTotals with hkeeps | ⟨c, v₀, rows, rest, rfl, -, ⟨ids, now, hbuilt⟩, hrest⟩
  · unfold Database.lineItemsOf
    rw [(w.db.totals_applyAll hkeeps).1]
  have hnone := hfits.find?_invoice_eq_none (v := v₀) List.mem_cons_self
  have hne : v₀.id ≠ v.id := by
    intro hid
    rw [hid, Table.find?_key hv] at hnone
    cases hnone
  have hrows : Write.insertLineItems rows ∈
      Write.insertInvoice v₀ :: .insertLineItems rows :: rest := by simp
  obtain ⟨hfree, hnodup⟩ := hfits.lineItems_free hrows
  have hnew : rows.filter (fun li => li.invoiceId = v.id) = [] := by
    refine List.filter_eq_nil_iff.mpr fun li hli hid => hne ?_
    exact (buildRows_invoiceId hbuilt li hli).symm.trans (of_decide_eq_true hid)
  rw [Database.lineItemsOf_insert w.db hfree hnodup hrest, hnew, List.append_nil]

end Later

/-! ### Among the others -/

namespace System

/-- What a session can rely on when it is answered: nothing that is stored is undone, the committed
rows that refer to others refer to rows that are there, and what is uncommitted fits next to
them. -/
structure Told (p : Pid) (w : World) (st : Stmt) (r : st.Resp) (w' : World) : Prop where
  answered : (∃ env, w.exec p env st = some (r, w')) ∨ w.fail p .deadlockDetected st = some (r, w')
  later : w.Later w'
  consistent : w.Consistent
  linked : w.db.Linked

/-- **A session among others**: its writes, its locks and its calls are its own, and nothing that is
stored is undone. -/
def among (p : Pid) : Setting Stmt Stmt.Resp World where
  rely w w' := Frame p w w' ∧ w.Later w'
  answers := Told p
  refl w := ⟨.refl p w, .refl w⟩
  trans h h' := ⟨h.1.trans h'.1, h.2.trans h'.2⟩

theorem Told.answers {p : Pid} {w w' : World} {st : Stmt} {r : st.Resp} (h : Told p w st r w') :
    w.Answers p st r w' := by
  rcases h.answered with ⟨env, h⟩ | h
  · exact .exec env h
  · exact .fail _ h

variable {crypto : Crypto} {s t : System} {φ φ' : Pid → Phase} {e : Event}

/-- **No move undoes what is stored.** -/
theorem Owned.later (h : s.Sound crypto φ) (ho : s.Owned φ) (hmove : s.Moves crypto φ e t φ') :
    s.world.Later t.world := by
  refine ⟨?_, fun m hm => h.mem_history hmove hm⟩
  rcases ho.transacts_or h hmove with ⟨hdb, -⟩ | ⟨p, -, hdb, htransacts⟩
  · exact hdb ▸ .refl _
  · have hfollows : ∀ a ∈ s.world.db.attempts, ∃ d ∈ t.world.db.attempts, a.Follows d :=
      fun a ha => h.follows hmove ha
    rw [hdb] at hfollows ⊢
    exact Database.later_applyAll _ hfollows fun v hv =>
      htransacts.lineItemsOf (h.consistent.fits p) hv

/-- **Every later state has later tables**, and the commits so far. -/
theorem Reachable.later (hs : s.Reachable crypto)
    (hreach : Reaches (System.step crypto) Always s t) : s.world.Later t.world := by
  obtain ⟨φ, h, ho⟩ := hs.owned
  obtain ⟨ψ, -, -, hlater⟩ := Sound.reaches
    (I := fun u ψ => u.Owned ψ ∧ s.world.Later u.world) hreach h ⟨ho, .refl _⟩ <| by
      rintro u ψ e v ψ' hu ⟨ho, hlater⟩ - - hmove -
      exact ⟨ho.move hu hmove, hlater.trans (ho.later hu hmove)⟩
  exact hlater

/-- What the program of every job ensures of what it returns, in its session. -/
structure Ensuring (crypto : Crypto) (A : Pid → Job → World → Except Exc Result → Prop) : Prop where
  /-- A program ensures it from its first statement on. -/
  program : ∀ p job w, w.Idle p → Prog.Ensures (among p) (A p job) w (job.program crypto)
  /-- It is never undone. -/
  later : ∀ p job w w' x, w.Later w' → A p job w x → A p job w' x

/-- **What every program ensures holds of every session that has returned.** -/
theorem Reachable.ensures {A : Pid → Job → World → Except Exc Result → Prop}
    (hA : Ensuring crypto A)
    (hs : s.Reachable crypto) {p : Pid} {job : Job} {x : Except Exc Result} {alive : Bool}
    (hproc : s.procs[p]? = some ⟨job, .ret x, alive⟩) : A p job s.world x := by
  let Q : World → Pid → Proc → Prop := fun w p proc =>
    (proc.alive = true → Prog.Ensures (among p) (A p proc.job) w proc.prog) ∧
      ∀ x, proc.prog = .ret x → A p proc.job w x
  have hret : ∀ {w p} {proc : Proc}, Prog.Ensures (among p) (A p proc.job) w proc.prog →
    Q w p proc := by
    refine fun h => ⟨fun _ => h, fun x hx => ?_⟩
    rw [hx] at h
    exact h.returned
  obtain ⟨φ, -, -, hQ⟩ := Sound.reaches
    (I := fun u ψ => u.Owned ψ ∧ ∀ p proc, u.procs[p]? = some proc → Q u.world p proc) hs sound_init
    ⟨owned_init, fun p proc h => by cases h⟩ <| by
      rintro u ψ e v ψ' hu ⟨ho, hI⟩ - - hmove -
      have hlater := ho.later hu hmove
      refine ⟨ho.move hu hmove, hmove.each hI (fun job hw => ?_) ?_ ?_ ?_⟩
      · -- a new session has written nothing
        refine hret (hA.program _ job _ ?_)
        rw [hw]
        exact hu.idle _ fun ⟨proc, hproc, _⟩ => by simp at hproc
      · rintro p job st k r - hans ⟨h, -⟩
        refine hret ((h rfl).answer ⟨?_, hlater, hu.consistent, ho.linked⟩)
        cases hans with
        | exec env h => exact Or.inl ⟨env, h⟩
        | abort cycle hcycle h => exact Or.inr h
      · rintro p job prog - ⟨-, h⟩
        exact ⟨by rintro ⟨⟩, fun x hx => hA.later _ _ _ _ _ hlater (h x hx)⟩
      · rintro q proc - hf ⟨h, h'⟩
        exact ⟨fun halive => (h halive).rely ⟨hf, hlater⟩,
          fun x hx => hA.later _ _ _ _ _ hlater (h' x hx)⟩
  exact (hQ p _ hproc).2 x rfl

end System

end TenantBilling
