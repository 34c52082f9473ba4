import TenantBilling.Invariant.Commits
import TenantBilling.Invariant.Creating

/-!
# Every session keeps to its business

What each session knows of the owners of the rows it goes by
(`TenantBilling.System.Owned`): a payment or a transition that has checked its invoice knows
that it is one of its business, and the endpoints that an event is enqueued for have been
listed for the business. With it the uncommitted writes of a request name rows of its
business only (`TenantBilling.System.Owned.admits`), in particular those of the second
transaction of a payment, which reads the attempt and the invoice again without asking for
the business.
-/

namespace TenantBilling

open Base World

/-! ### Payments and transitions -/

/-- The endpoints that a payment holds at a point. -/
def PayPoint.endpoints : PayPoint → List WebhookEndpoint
  | readClock _ _ _ endpoints | outbox _ _ _ endpoints _ | settle _ _ _ endpoints => endpoints
  | _ => []

/-- What is known of the owners at a point of a payment. -/
structure PayPoint.Owned (db : Database) (c : PayCall) (pt : PayPoint) : Prop where
  invoice : ∀ a, pt.progress.attempt? = some a → db.HasInvoice c.business.id c.invoiceId
  endpoints : db.HasEndpoints c.business.id pt.endpoints

/-- What is known of the owners at a point of a transition. -/
def TransitionPoint.Owned (db : Database) (c : TransitionCall) : TransitionPoint → Prop
  | update _ | reselect _ | commit .. => db.HasInvoice c.business.id c.invoiceId
  | _ => True

/-- What is known of the owners at a phase. -/
def Phase.Owned (db : Database) : Phase → Prop
  | pay c pt => pt.Owned db c
  | transition c pt => pt.Owned db c
  | other => True

section Phases

variable {crypto : Crypto} {w w' : World} {p : Pid} {st : Stmt} {r : st.Resp}

/-- What a phase knows of the business's rows stays so while the database grows. -/
theorem Phase.Owned.grows {ph : Phase} {db db' : Database} (h : ph.Owned db)
    (hgrows : db.Grows db') : ph.Owned db' := by
  cases ph with
  | pay c pt => exact ⟨fun a ha => (h.invoice a ha).grows hgrows, h.endpoints.grows hgrows⟩
  | transition c pt => cases pt <;> first | trivial | exact Database.HasInvoice.grows h hgrows
  | other => trivial

/-- The endpoints come from the listing. -/
theorem PayPoint.endpoints_next {c : PayCall} {pt : PayPoint} {next : st.Resp → PayPoint}
    (hout : pt.out crypto c = .op st next)
    (hlist : ∀ a http result, pt ≠ .listEndpoints a http result) :
    ∀ e ∈ (next r).endpoints, e ∈ pt.endpoints := by
  cases pt with
  | listEndpoints a http result => exact absurd rfl (hlist a http result)
  | _ =>
    cases hout <;> dsimp only [recorded] <;> repeat' split
    all_goals
      first
      | exact fun e he => he
      | exact fun e he => absurd he List.not_mem_nil

/-- A payment has selected rows of its business only, and an attempt that is the business's is its
own. -/
theorem PayPoint.Owned.step {c : PayCall} {pt : PayPoint} {next : st.Resp → PayPoint}
    (h : pt.Owned w.db c) (hholds : pt.Holds crypto w p c)
    (hgood : pt.progress.Holds crypto w p c) (hout : pt.out crypto c = .op st next)
    (hans : w.Answers p st r w') (hgrows : w.db.Grows w'.db) : (next r).Owned w'.db c := by
  constructor
  · intro a ha
    rcases (Phase.Next.pay hout r).committed? hholds hgood hans with
      heq | ⟨_, v, a', heq, rfl, -⟩
    · exact (h.invoice a (heq.symm.trans ha)).grows hgrows
    · -- the invoice that has been locked is one of the business
      obtain ⟨rfl, rfl⟩ := Phase.pay.inj heq
      obtain ⟨-, hv, hfind, -⟩ := hholds
      exact Database.HasInvoice.grows ⟨v, hfind, hv.business⟩ hgrows
  · by_cases hlist : ∃ a http result, pt = .listEndpoints a http result
    · obtain ⟨a, http, result, rfl⟩ := hlist
      cases hout
      obtain ⟨⟨env, hr⟩, rfl⟩ := answers_select hans
      have hendpoints := hasEndpoints_of_select hholds.endpoints_view hr
      rcases r with _ | ⟨e, es⟩ <;> exact hendpoints
    · have hne : ∀ a http result, pt ≠ .listEndpoints a http result :=
        fun a http result heq => hlist ⟨a, http, result, heq⟩
      intro e he
      exact (h.endpoints e (PayPoint.endpoints_next hout hne e he)).grows hgrows

/-- A transition has selected an invoice of its business only. -/
theorem TransitionPoint.Owned.step {c : TransitionCall} {pt : TransitionPoint}
    {next : st.Resp → TransitionPoint} (h : pt.Owned w.db c) (hholds : pt.Holds w p c)
    (hout : pt.out c = .op st next) (hans : w.Answers p st r w') (hgrows : w.db.Grows w'.db) :
    (next r).Owned w'.db c := by
  cases pt with
  | read =>
    cases hout
    obtain ⟨⟨env, hr⟩, rfl⟩ := answers_select hans
    rcases r with _ | ⟨v, lineItems⟩
    · trivial
    · rw [World.Idle.view hholds] at hr
      obtain ⟨v', hv', heq⟩ := Option.map_eq_some_iff.mp hr.symm
      obtain ⟨hfind, hb⟩ := Option.filter_eq_some_iff.mp hv'
      have hown : w'.db.HasInvoice c.business.id c.invoiceId :=
        ⟨v', hfind, by simpa [Invoice.belongsTo] using hb⟩
      dsimp only
      split
      · trivial
      · exact hown
  | update v =>
    cases hout
    rcases r with e | _
    · trivial
    · exact Database.HasInvoice.grows h hgrows
  | reselect v =>
    cases hout
    rcases r with _ | ⟨row, lineItems⟩
    · trivial
    · exact Database.HasInvoice.grows h hgrows
  | commit v x =>
    cases hout
    trivial
  | closing x =>
    cases hout
    trivial
  | done x => cases hout

/-- **A step keeps to the rows of the business.** -/
theorem Phase.Owned.step {ph ph' : Phase} (h : ph.Owned w.db) (hholds : ph.Holds crypto w p)
    (hgood : ph.HoldsForGood crypto w p) (hnext : ph.Next crypto st r ph')
    (hans : w.Answers p st r w') (hgrows : w.db.Grows w'.db) : ph'.Owned w'.db := by
  cases hnext with
  | pay hout r => exact PayPoint.Owned.step h hholds hgood hout hans hgrows
  | transition hout r => exact TransitionPoint.Owned.step h hholds hout hans hgrows
  | other _ r => trivial

theorem Job.owned_phase (job : Job) (db : Database) : job.phase.Owned db := by
  have hpay : ∀ c, (PayPoint.start c).Owned db c := by
    intro c
    unfold PayPoint.start
    split
    · exact ⟨(fun a ha => by cases ha), fun e he => absurd he List.not_mem_nil⟩
    · exact ⟨(fun a ha => by cases ha), fun e he => absurd he List.not_mem_nil⟩
  cases job with
  | poll => trivial
  | request business req =>
    cases req with
    | pay invoiceId cardToken idempotencyKey => exact hpay _
    | _ => trivial

end Phases

/-! ### The other programs -/

/-- A write of no more than a customer or an endpoint of a business, or, for no business, the
progress of a delivery. -/
def Write.Registers (b : Option Uuid) : Write → Prop
  | insertCustomer row => some row.businessId = b
  | insertEndpoint row => some row.businessId = b
  | updateDelivery .. => b = none
  | _ => False

/-- What holds of the session of a program whose points are none of the system's phases. -/
inductive Proc.Sides (w : World) (p : Pid) : Proc → Prop where
  | phase {proc : Proc} (h : ¬proc.job.Peripheral) : Sides w p proc
  | create {c : CreateCall} {pt : CreatePoint} {prog : ServerProg (Except Exc Result)}
    {alive : Bool} (htracks : Prog.Tracks (CreatePoint.out c) pt prog) (hholds : pt.Holds w p c) :
    Sides w p ⟨.request c.business (.createInvoice c.payload), prog, alive⟩
  | deactivate {c : DeactivateCall} {pt : DeactivatePoint} {prog : ServerProg (Except Exc Result)}
    {alive : Bool} (htracks : Prog.Tracks (DeactivatePoint.out c) pt prog)
    (hholds : pt.Holds w p c) :
    Sides w p ⟨.request c.business (.deactivateEndpoint c.endpointId), prog, alive⟩
  | registers {business : Business} {req : Request} {prog : ServerProg (Except Exc Result)}
    {alive : Bool} (hreq : req.Registers)
    (hprog : Prog.Keeps (only (Stmt.Registers (some business.id))) (fun _ _ => True) () prog)
    (hwrites : ∀ x ∈ w.writesOf p, x.Registers (some business.id)) :
    Sides w p ⟨.request business req, prog, alive⟩
  | poll {prog : ServerProg (Except Exc Result)} {alive : Bool}
    (hprog : Prog.Keeps (only (Stmt.Registers none)) (fun _ _ => True) () prog)
    (hwrites : ∀ x ∈ w.writesOf p, x.Registers none) : Sides w p ⟨.poll, prog, alive⟩

section Sides

variable {crypto : Crypto} {w w' : World} {p : Pid} {st : Stmt} {r : st.Resp}

/-- A statement that registers something for a business writes nothing for another. -/
theorem Stmt.Registers.writes {b : Option Uuid} (h : st.Registers b) {x : Write}
    (hx : st.Writes x) : x.Registers b := by
  cases st with
  | insertCustomer businessId name email =>
    cases x with
    | insertCustomer row =>
      obtain ⟨id, now, hrow⟩ := hx
      exact (congrArg some (customerRow_businessId hrow)).trans h
    | _ => exact hx.elim
  | insertEndpoint businessId url secret =>
    cases x with
    | insertEndpoint row =>
      obtain ⟨id, now, hrow⟩ := hx
      exact (congrArg some (endpointRow_businessId hrow)).trans h
    | _ => exact hx.elim
  | updateDelivery id change =>
    cases x with
    | updateDelivery id' update => exact h
    | _ => exact hx.elim
  | _ => first | exact h.elim | (cases x <;> exact hx.elim)

theorem Proc.Sides.step {job : Job} {k : st.Resp → ServerProg (Except Exc Result)}
    (h : Sides w p ⟨job, .op st k, true⟩) (hcons : w.Consistent) (hans : w.Answers p st r w') :
    Sides w' p ⟨job, k r, true⟩ := by
  cases h with
  | phase h => exact .phase h
  | create htracks hholds =>
    obtain ⟨next, hout, -⟩ := id htracks
    exact .create (htracks.next hout r) (hholds.step hcons hout hans)
  | deactivate htracks hholds =>
    obtain ⟨next, hout, -⟩ := id htracks
    exact .deactivate (htracks.next hout r) (hholds.step hout hans)
  | registers hreq hprog hwrites =>
    refine .registers hreq (hprog.next r) fun x hx => ?_
    rcases hans.effect.writes x hx with hx | hx
    · exact hwrites x hx
    · exact Stmt.Registers.writes hprog.1 hx
  | poll hprog hwrites =>
    refine .poll (hprog.next r) fun x hx => ?_
    rcases hans.effect.writes x hx with hx | hx
    · exact hwrites x hx
    · exact Stmt.Registers.writes hprog.1 hx

theorem Proc.Sides.frame {proc : Proc} (h : proc.Sides w p) (hwrites : w'.writesOf p = w.writesOf p)
    (hgrows : w.db.Grows w'.db) : proc.Sides w' p := by
  cases h with
  | phase h => exact .phase h
  | create htracks hholds => exact .create htracks (hholds.frame hwrites hgrows)
  | deactivate htracks hholds => exact .deactivate htracks (hholds.frame hwrites hgrows)
  | registers hreq hprog h => exact .registers hreq hprog (by rwa [hwrites])
  | poll hprog h => exact .poll hprog (by rwa [hwrites])

theorem Job.sides_program (crypto : Crypto) (job : Job) (h : w.writesOf p = []) :
    Proc.Sides w p ⟨job, job.program crypto, true⟩ := by
  have hnil : ∀ {b}, ∀ x ∈ w.writesOf p, x.Registers b := by
    intro b x hx
    rw [h] at hx
    cases hx
  cases job with
  | poll => exact .poll (registers_poll crypto) hnil
  | request business req =>
    cases req with
    | createInvoice payload =>
      exact .create (c := ⟨business, payload⟩) (tracks_create crypto ⟨business, payload⟩) h
    | deactivateEndpoint endpointId =>
      exact .deactivate (c := ⟨business, endpointId⟩)
        (tracks_deactivate crypto ⟨business, endpointId⟩) h
    | finalize | void | uncollectible | pay => exact .phase id
    | _ => exact .registers trivial (registers_request crypto business trivial) hnil

end Sides

/-! ### Transactions -/

section Transactions

variable {p : Pid}

/-- The payload of a payment event names the invoice. -/
theorem lookup_resultPayload (i : Uuid) (a : PaymentAttempt) (result : PspChargeResult) :
    (resultPayload i a result).lookup (resultEvent result).invoiceField = some (.uuid i) := by
  unfold resultPayload resultEvent
  split <;> rfl

/-- The keys of the payload are told apart. -/
theorem nodup_resultPayload (i : Uuid) (a : PaymentAttempt) (result : PspChargeResult) :
    ((resultPayload i a result).map Prod.fst).Nodup := by
  unfold resultPayload
  split
  · change ["invoice_id", "amount_cents", "psp_ref"].Nodup
    decide
  · change ["invoice_id", "failure_code", "amount_cents"].Nodup
    decide

/-- The outbox rows of a payment event are for endpoints of the business, and about its invoice. -/
theorem admits_outbox {db : Database} {c : PayCall} {a : PaymentAttempt}
    {outcome : Except PspError PspChargeResult} {endpoints : List WebhookEndpoint}
    {rest ws : List Write} (hrest : c.Outbox a outcome endpoints rest)
    (hinvoice : db.HasInvoice c.business.id c.invoiceId)
    (hendpoints : db.HasEndpoints c.business.id endpoints) :
    ∀ x ∈ rest, db.Admits ws c.business.id x := by
  rintro x hx
  rcases hrest with ⟨-, rfl⟩ | ⟨-, result, now, env, -, rfl⟩
  · cases hx
  obtain rfl := List.mem_singleton.mp hx
  intro d hd
  obtain ⟨e, he, hid, htype, hpayload⟩ := mem_deliveryRows hd
  refine ⟨hid ▸ hendpoints e he, c.invoiceId, ?_, Or.inl hinvoice⟩
  rw [WebhookDelivery.Names, htype, hpayload, Payload.lookup_jsonb (nodup_resultPayload ..)]
  exact lookup_resultPayload ..

/-- What the transaction of an outcome writes belongs to the business of its request. -/
theorem Settling.admits {w : World} {c : PayCall} {a : PaymentAttempt} {http : HttpResult}
    {outcome : Except PspError PspChargeResult} {endpoints : List WebhookEndpoint}
    {rest : List Write}
    (h : Settling w p c a http outcome rest) (hrest : c.Outbox a outcome endpoints rest)
    (hattempt : w.db.Owns c.business.id a.ref)
    (hinvoice : w.db.HasInvoice c.business.id c.invoiceId)
    (hendpoints : w.db.HasEndpoints c.business.id endpoints) :
    ∀ x ∈ w.writesOf p, w.db.Admits (w.writesOf p) c.business.id x := by
  intro x hx
  obtain ⟨-, update, now, -, ⟨-, now', htx⟩ | ⟨-, htx⟩⟩ := h
  · rw [htx.writes] at hx
    rcases List.mem_append.mp hx with hx | hx
    · simp only [List.mem_cons, List.not_mem_nil, or_false] at hx
      rcases hx with rfl | rfl
      · exact hattempt
      · exact hinvoice
    · exact admits_outbox hrest hinvoice hendpoints x hx
  · rw [htx.writes] at hx
    rcases List.mem_append.mp hx with hx | hx
    · obtain rfl := List.mem_singleton.mp hx
      exact hattempt
    · exact admits_outbox hrest hinvoice hendpoints x hx

/-- A new invoice is the business's, and for the customer of the payload. -/
theorem newInvoice_row {c : CreateCall} {v : Invoice} (h : c.Made v) :
    v.businessId = c.business.id ∧ v.customerId = c.payload.customerId := by
  obtain ⟨now, h⟩ := h
  unfold NewInvoice.row at h
  split at h
  · split at h
    · rw [← Except.ok.inj h]
      exact ⟨rfl, rfl⟩
    · cases h
  · cases h

theorem newLineItem_invoiceId {n : NewLineItem} {i id : Uuid} {now : Timestamp}
    {li : InvoiceLineItem} (h : n.row i id now = .ok li) : li.invoiceId = i := by
  unfold NewLineItem.row at h
  split at h
  · split at h
    · split at h
      · split at h
        · rw [← Except.ok.inj h]
        · cases h
      · cases h
    · cases h
  · cases h
  · cases h

/-- The line items of an invoice carry its id. -/
theorem buildRows_invoiceId {i : Uuid} {now : Timestamp} {ids : ℕ → Uuid} {k : ℕ}
    {new : List NewLineItem} {rows : List InvoiceLineItem} (h :
      buildRows (fun n id => n.row i id now) ids k new = .ok rows) :
    ∀ li ∈ rows, li.invoiceId = i := by
  induction new generalizing k rows with
  | nil =>
    obtain rfl := Except.ok.inj h
    exact fun li hli => absurd hli List.not_mem_nil
  | cons n new ih =>
    simp only [buildRows] at h
    cases hrow : n.row i (ids k) now with
    | error e => simp [hrow] at h
    | ok row =>
      cases hrest : buildRows (fun n id => n.row i id now) ids (k + 1) new with
      | error e => simp [hrow, hrest] at h
      | ok rest =>
        simp only [hrow, hrest] at h
        obtain rfl := Except.ok.inj h
        intro li hli
        rcases List.mem_cons.mp hli with rfl | hli
        · exact newLineItem_invoiceId hrow
        · exact ih hrest li hli

/-- The transaction that creates an invoice names rows of the business. -/
theorem CreateCall.Creating.admits {w : World} {c : CreateCall} {v : Invoice} {rest : List Write}
    {endpoints : List WebhookEndpoint} (h : c.Creating w p v rest) (hrest : v.Outbox endpoints rest)
    (hendpoints : w.db.HasEndpoints c.business.id endpoints) :
    ∀ x ∈ w.writesOf p, w.db.Admits (w.writesOf p) c.business.id x := by
  obtain ⟨hmade, hcustomer, rows, ⟨ids, now, hrows⟩, hwrites⟩ := h
  obtain ⟨hb, hc⟩ := newInvoice_row hmade
  have hinvoice : w.db.HasInvoiceIn (w.writesOf p) c.business.id v.id :=
    Or.inr ⟨v, by rw [hwrites]; simp, rfl, hb⟩
  intro x hx
  rw [hwrites] at hx
  rcases List.mem_append.mp hx with hx | hx
  · simp only [List.mem_cons, List.not_mem_nil, or_false] at hx
    rcases hx with rfl | rfl
    · exact ⟨hb, hc ▸ hcustomer⟩
    · intro li hli
      rw [buildRows_invoiceId hrows li hli]
      exact hinvoice
  · rcases hrest with ⟨-, rfl⟩ | ⟨-, now, env, rfl⟩
    · cases hx
    obtain rfl := List.mem_singleton.mp hx
    intro d hd
    obtain ⟨e, he, hid, htype, hpayload⟩ := mem_deliveryRows hd
    refine ⟨hid ▸ hendpoints e he, v.id, ?_, hinvoice⟩
    rw [WebhookDelivery.Names, htype, hpayload, Payload.lookup_jsonb (nodup_createdPayload v)]
    rfl

/-- What a creation writes belongs to the business of its request. -/
theorem CreatePoint.Holds.admits {w : World} {c : CreateCall} {pt : CreatePoint}
    (h : pt.Holds w p c) :
    ∀ x ∈ w.writesOf p, w.db.Admits (w.writesOf p) c.business.id x := by
  have hnil : w.writesOf p = [] →
      ∀ x ∈ w.writesOf p, w.db.Admits (w.writesOf p) c.business.id x := by
    intro hwrites x hx
    rw [hwrites] at hx
    cases hx
  cases pt with
  | insert => exact hnil h.1
  | insertItems v =>
    obtain ⟨hmade, hcustomer, hwrites⟩ := h
    obtain ⟨hb, hc⟩ := newInvoice_row hmade
    intro x hx
    rw [hwrites] at hx
    obtain rfl := List.mem_singleton.mp hx
    exact ⟨hb, hc ▸ hcustomer⟩
  | listEndpoints v => exact CreateCall.Creating.admits h (Or.inl ⟨rfl, rfl⟩) (by rintro _ ⟨⟩)
  | readClock v endpoints => exact h.2.2.admits (Or.inl ⟨rfl, rfl⟩) (by rintro _ ⟨⟩)
  | outbox v endpoints now => exact h.2.2.admits (Or.inl ⟨rfl, rfl⟩) (by rintro _ ⟨⟩)
  | reselect v endpoints =>
    obtain ⟨hendpoints, rest, hrest, hcreating⟩ := h
    exact hcreating.admits hrest hendpoints
  | commit v endpoints x =>
    obtain ⟨hendpoints, rest, hrest, hcreating⟩ := h
    exact hcreating.admits hrest hendpoints
  | _ => exact hnil h

/-- What a deactivation writes belongs to the business of its request. -/
theorem DeactivatePoint.Holds.admits {w : World} {c : DeactivateCall} {pt : DeactivatePoint}
    (h : pt.Holds w p c) :
    ∀ x ∈ w.writesOf p, w.db.Admits (w.writesOf p) c.business.id x := by
  have hnil : w.writesOf p = [] →
      ∀ x ∈ w.writesOf p, w.db.Admits (w.writesOf p) c.business.id x := by
    intro hwrites x hx
    rw [hwrites] at hx
    cases hx
  cases pt with
  | update e => exact hnil h.1
  | commit e =>
    obtain ⟨hwrites, hendpoint⟩ := h
    intro x hx
    rw [hwrites] at hx
    split at hx
    · obtain rfl := List.mem_singleton.mp hx
      exact hendpoint
    · cases hx
  | _ => exact hnil h

end Transactions

/-! ### The system -/

namespace System

/-- **Every session keeps to its business**, for the phases of the sessions. -/
structure Owned (s : System) (φ : Pid → Phase) : Prop where
  phases : ∀ p, (φ p).Owned s.world.db
  sides : ∀ p (proc : Proc), s.procs[p]? = some proc → proc.alive = true → proc.Sides s.world p
  linked : s.world.db.Linked

section Owned

variable {crypto : Crypto} {s t : System} {φ φ' : Pid → Phase} {e : Event} {p : Pid}

theorem owned_init : Owned .init fun _ => .other :=
  ⟨fun _ => trivial, (fun _ _ h => by cases h), Database.linked_empty⟩

/-- Every move leaves the rows with their owners. -/
theorem Sound.grows (h : s.Sound crypto φ) (hmove : s.Moves crypto φ e t φ') :
    s.world.db.Grows t.world.db := by
  rcases h.commit_or hmove with ⟨hdb, -, -⟩ | ⟨p, ph, -, ht, -, -⟩
  · rw [hdb]
    exact .refl _
  · rw [ht]
    exact Database.grows_applyAll _ _

/-- The attempt that a payment has committed is one on an invoice of its business. -/
theorem Owned.attempt (h : s.Sound crypto φ) (ho : s.Owned φ) {c : PayCall} {pt : PayPoint}
    (hph : φ p = .pay c pt) {a : PaymentAttempt} (ha : pt.progress.attempt? = some a) :
    s.world.db.Owns c.business.id a.ref := by
  have howned := ho.phases p
  have hgood := h.forGood p
  obtain ⟨row, hrow, hadv⟩ := hgood.row (a := a) (by rw [hph]; exact ha)
  rw [hph] at howned hgood
  refine ⟨.attempt row, by simp [Database.row, PaymentAttempt.ref, hrow], ?_⟩
  have hmade : c.Made crypto a := by
    change pt.progress.Holds crypto s.world p c at hgood
    cases hg : pt.progress <;> rw [hg] at hgood ha <;> cases ha <;> exact hgood.2.1
  change s.world.db.HasInvoice c.business.id row.invoiceId
  rw [← hadv.invoiceId, hmade.invoiceId]
  exact howned.invoice a ha

/-- What a payment has written names rows of its business. -/
theorem Owned.admits_pay (h : s.Sound crypto φ) (ho : s.Owned φ) (hp : s.Alive p) {c : PayCall}
    {pt : PayPoint} (hph : φ p = .pay c pt) :
    ∀ x ∈ s.world.writesOf p, s.world.db.Admits (s.world.writesOf p) c.business.id x := by
  have hholds := h.alive p hp
  have howned := ho.phases p
  rw [hph] at hholds howned
  have hnil : ∀ {rs}, s.world.HasTx p rs [] →
      ∀ x ∈ s.world.writesOf p, s.world.db.Admits (s.world.writesOf p) c.business.id x := by
    intro rs htx x hx
    rw [htx.writes] at hx
    cases hx
  have hattempt : ∀ {a}, pt.progress.attempt? = some a → s.world.db.Owns c.business.id a.ref :=
    fun ha => ho.attempt h hph ha
  have hone : ∀ {rs a update now}, pt.progress.attempt? = some a →
      s.world.HasTx p rs [.updateAttempt a.id update now] →
      ∀ x ∈ s.world.writesOf p, s.world.db.Admits (s.world.writesOf p) c.business.id x := by
    intro rs a update now ha htx x hx
    rw [htx.writes] at hx
    obtain rfl := List.mem_singleton.mp hx
    exact hattempt ha
  cases pt with
  | insert v => exact hnil hholds.1
  | reserve v a =>
    -- the new attempt names the invoice, which was selected by the business
    obtain ⟨htx, hv, hfind, hres⟩ := hholds
    intro x hx
    rw [htx.writes] at hx
    obtain rfl := List.mem_singleton.mp hx
    change s.world.db.HasInvoice c.business.id a.invoiceId
    rw [hres.made.invoiceId]
    exact ⟨v, hfind, hv.business⟩
  | send v a => exact hnil hholds.1
  | receive v a => exact hnil hholds.1
  | refetch v a http outcome => exact hnil hholds.1
  | record v a http outcome => exact hnil hholds.1
  | relock v a http result =>
    obtain ⟨-, -, -, update, now, -, htx⟩ := hholds
    exact hone rfl htx
  | markPaid a http result =>
    obtain ⟨-, -, update, now, -, htx⟩ := hholds
    exact hone rfl htx
  | listEndpoints a http result =>
    -- the outbox is still empty: the write is that of the attempt, or of the invoice
    exact hholds.admits (Or.inl ⟨rfl, rfl⟩) (hattempt rfl) (howned.invoice a rfl) (by rintro _ ⟨⟩)
  | readClock a http result endpoints =>
    exact hholds.2.admits (Or.inl ⟨rfl, rfl⟩) (hattempt rfl) (howned.invoice a rfl) (by rintro _ ⟨⟩)
  | outbox a http result endpoints now =>
    exact hholds.2.admits (Or.inl ⟨rfl, rfl⟩) (hattempt rfl) (howned.invoice a rfl) (by rintro _ ⟨⟩)
  | settle a http outcome endpoints =>
    obtain ⟨rest, hrest, hs⟩ := hholds
    exact hs.admits hrest (hattempt rfl) (howned.invoice a rfl) howned.endpoints
  | closing x g =>
    intro x hx
    rw [hholds.1] at hx
    cases hx
  | _ => exact hnil hholds

/-- What a transition has written names a row of its business. -/
theorem Owned.admits_transition (h : s.Sound crypto φ) (ho : s.Owned φ) (hp : s.Alive p)
    {c : TransitionCall} {pt : TransitionPoint} (hph : φ p = .transition c pt) :
    ∀ x ∈ s.world.writesOf p, s.world.db.Admits (s.world.writesOf p) c.business.id x := by
  have hholds := h.alive p hp
  have howned := ho.phases p
  rw [hph] at hholds howned
  intro x hx
  have hnil : ∀ {rs}, ¬s.world.HasTx p rs [] := by
    intro rs htx
    rw [htx.writes] at hx
    cases hx
  have hone : ∀ {rs state now}, s.world.HasTx p rs [.updateInvoice c.invoiceId state now] →
      s.world.db.HasInvoice c.business.id c.invoiceId →
      s.world.db.Admits (s.world.writesOf p) c.business.id x := by
    intro rs state now htx hinvoice
    rw [htx.writes] at hx
    obtain rfl := List.mem_singleton.mp hx
    exact hinvoice
  cases pt with
  | update v => exact absurd hholds.1 hnil
  | reselect v => exact hone hholds.2.choose_spec howned
  | commit v x => exact hone hholds.2.choose_spec howned
  | _ => exact absurd hholds hnil

/-- **The uncommitted writes of a request name rows of its business.** -/
theorem Owned.admits (h : s.Sound crypto φ) (ho : s.Owned φ) {proc : Proc}
    (hproc : s.procs[p]? = some proc) {business : Business} {req : Request}
    (hjob : proc.job = .request business req) :
    ∀ x ∈ s.world.writesOf p, s.world.db.Admits (s.world.writesOf p) business.id x := by
  by_cases halive : proc.alive = true
  case neg =>
    intro x hx
    -- a session that is dead has no writes left
    have hdead : ¬s.Alive p := by
      rintro ⟨proc', hproc', halive'⟩
      rw [hproc] at hproc'
      exact halive (Option.some.inj hproc' ▸ halive')
    rw [(h.idle p hdead).writes] at hx
    cases hx
  have hp : s.Alive p := ⟨proc, hproc, halive⟩
  have htracks := h.tracks p proc hproc
  have hsides := ho.sides p proc hproc halive
  cases hph : φ p with
  | pay c pt =>
    rw [hph] at htracks
    obtain ⟨rfl, -⟩ := Job.request.inj (hjob.symm.trans htracks.1)
    exact ho.admits_pay h hp hph
  | transition c pt =>
    rw [hph] at htracks
    obtain ⟨⟨req', hreq, -⟩, -⟩ := htracks
    obtain ⟨rfl, -⟩ := Job.request.inj (hjob.symm.trans hreq)
    exact ho.admits_transition h hp hph
  | other =>
    rw [hph] at htracks
    cases hsides with
    | phase hnot => exact absurd htracks.1 hnot
    | @create c pt prog alive _ hholds =>
      obtain ⟨rfl, -⟩ := Job.request.inj hjob
      exact hholds.admits
    | @deactivate c pt prog alive _ hholds =>
      obtain ⟨rfl, -⟩ := Job.request.inj hjob
      exact hholds.admits
    | registers hreq hprog hwrites =>
      obtain ⟨rfl, -⟩ := Job.request.inj hjob
      intro x hx
      -- a registration writes one customer or one endpoint of its business
      have hregisters := hwrites x hx
      cases x with
      | insertCustomer row => exact Option.some.inj hregisters
      | insertEndpoint row => exact Option.some.inj hregisters
      | updateDelivery id change => cases hregisters
      | _ => exact hregisters.elim
    | poll => cases hjob

/-- What a session inserts is of one business. -/
theorem Owned.inserts (h : s.Sound crypto φ) (ho : s.Owned φ) (p : Pid) :
    ∃ b, ∀ x ∈ s.world.writesOf p, x.rows ≠ [] → s.world.db.Admits (s.world.writesOf p) b x := by
  by_cases hp : s.Alive p
  case neg =>
    refine ⟨0, fun x hx => ?_⟩
    rw [(h.idle p hp).writes] at hx
    cases hx
  obtain ⟨proc, hproc, halive⟩ := hp
  cases hjob : proc.job with
  | request business req => exact ⟨business.id, fun x hx _ => ho.admits h hproc hjob x hx⟩
  | poll =>
    refine ⟨0, fun x hx hrows => ?_⟩
    cases ho.sides p proc hproc halive with
    | phase hnot => exact absurd (by rw [hjob]; trivial) hnot
    | poll hprog hwrites =>
      have hregisters := hwrites x hx
      cases x with
      | insertCustomer row => cases hregisters
      | insertEndpoint row => cases hregisters
      | updateDelivery id change => exact absurd rfl hrows
      | _ => exact hregisters.elim
    | _ => cases hjob

/-- **Every step keeps what is known of the owners.** -/
theorem Owned.move (h : s.Sound crypto φ) (ho : s.Owned φ) (hmove : s.Moves crypto φ e t φ') :
    t.Owned φ' := by
  have hgrows := h.grows hmove
  have hlinked : t.world.db.Linked := by
    rcases h.commit_or hmove with ⟨hdb, -, -⟩ | ⟨p, ph, -, ht, -, -⟩
    · rw [hdb]
      exact ho.linked
    -- what is committed has been inserted for one business
    · obtain ⟨b, hb⟩ := ho.inserts h p
      rw [ht]
      exact ho.linked.applyAll (h.consistent.fits p) hb
  cases hmove with
  | start job =>
    refine ⟨fun p => ?_, fun p proc hproc halive => ?_, hlinked⟩
    · by_cases hp : p = s.procs.length
      · rw [hp, Function.update_self]
        exact job.owned_phase _
      · rw [Function.update_of_ne hp]
        exact ho.phases p
    · rcases getElem?_start hproc with ⟨-, hproc⟩ | ⟨rfl, rfl⟩
      · exact ho.sides p proc hproc halive
      · refine job.sides_program crypto ((h.idle _ ?_).writes)
        rintro ⟨proc, hproc', -⟩
        exact absurd (List.getElem?_eq_some_iff.mp hproc').1 (Nat.lt_irrefl _)
  | @kill p' job prog hproc' =>
    refine ⟨fun p => (ho.phases p).grows hgrows, fun p proc hproc halive => ?_, hlinked⟩
    by_cases hp : p' = p
    · subst hp
      rw [getElem?_replace_self hproc'] at hproc
      obtain rfl := Option.some.inj hproc
      cases halive
    · rw [getElem?_replace_of_ne hp] at hproc
      refine (ho.sides p proc hproc halive).frame ?_ hgrows
      change (s.world.release p').writesOf p = s.world.writesOf p
      rw [writesOf_release, if_neg hp]
  | @answer _ p' job st r w' k ph hproc' hans hnext =>
    have hp' : s.Alive p' := ⟨_, hproc', rfl⟩
    refine ⟨fun p => ?_, fun p proc hproc halive => ?_, hlinked⟩
    · by_cases hp : p = p'
      · subst hp
        rw [Function.update_self]
        exact (ho.phases p).step (h.alive p hp') (h.forGood p) hnext hans.answers hgrows
      · rw [Function.update_of_ne hp]
        exact (ho.phases p).grows hgrows
    · by_cases hp : p' = p
      · subst hp
        rw [getElem?_replace_self hproc'] at hproc
        obtain rfl := Option.some.inj hproc
        exact (ho.sides p' _ hproc' rfl).step h.consistent hans.answers
      · rw [getElem?_replace_of_ne hp] at hproc
        exact (ho.sides p proc hproc halive).frame (hans.answers.acts.frame hp).writes hgrows

/-- **In every state that can be reached, every session keeps to its business.** -/
theorem Reachable.owned (h : s.Reachable crypto) : ∃ φ, s.Sound crypto φ ∧ s.Owned φ :=
  Sound.reaches h sound_init owned_init fun _ _ _ _ _ hu hIu _ _ hmove _ => hIu.move hu hmove

end Owned

end System

end TenantBilling
