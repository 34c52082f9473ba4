import TenantBilling.Properties.Errors
import TenantBilling.Properties.Outcomes

/-!
# Which open invoices can be paid

An open invoice of the business without a pending attempt is paid alone, under an unused key and
with a provider that reports success. The checks of three layers meet here: the schema admits an
amount of zero, the columns of the invoice do, and those of the attempt do not. So the invoice is
paid exactly if its total is positive and the texts of the request can be stored
(`TenantBilling.payable_iff`). A total of zero is refused as a violated constraint of the attempt,
which the payment takes for a reused idempotency key; a text that cannot be stored is an error of
the database that it does not handle.
-/

namespace TenantBilling

open Base World

section Insert

variable {w w' : World} {p : Pid} {env : Env} {new : NewAttempt}

theorem violate_error {α : Type} {v : Violation} {r : Except DbError α}
    (h : w.violate p env v = some (r, w')) : ∃ errorMsg, r = .error (.integrity errorMsg) := by
  obtain ⟨-, hx⟩ := violate_eq_some h
  exact ⟨_, (Prod.mk.inj hx).1⟩

/-- An insert whose texts are storable is refused for no other reason than a violated constraint. -/
theorem exec_insertAttempt_integrity {e : DbError}
    (hexec : w.exec p env (.insertAttempt new) = some (.error e, w'))
    (hkey : Varchar.Stores 255 new.idempotencyKey) (htoken : Varchar.Stores 100 new.cardToken) :
    ∃ errorMsg, e = .integrity errorMsg := by
  have hviolate : ∀ {v : Violation}, w.violate (α := PaymentAttempt) p env v = some (.error e, w') →
      ∃ errorMsg, e = .integrity errorMsg := by
    intro v h
    obtain ⟨errorMsg, heq⟩ := violate_error h
    exact ⟨errorMsg, Except.error.inj heq⟩
  have hinsert : w.insertAttempt p env new = some (.error e, w') := (exec_eq_some.mp hexec).2
  unfold World.insertAttempt at hinsert
  split at hinsert
  case h_1 err hrow =>
    by_cases hpos : 0 < new.amountCents.val
    · obtain ⟨row, hok⟩ := NewAttempt.exists_row hkey htoken hpos (env.ids 0) env.now
      rw [hok] at hrow
      cases hrow
    · rw [NewAttempt.row_of_not_pos hkey htoken hpos] at hrow
      cases hrow
      exact hviolate hinsert
  case h_2 row hrow =>
    split at hinsert
    · exact hviolate hinsert
    · split at hinsert
      · exact hviolate hinsert
      · split at hinsert
        · exact hviolate hinsert
        · split at hinsert
          · cases hinsert
          · cases hinsert

end Insert

/-! ### Up to the first commit -/

/-- The texts of the request can be stored in their columns. -/
structure PayCall.Fits (c : PayCall) : Prop where
  key : Varchar.Stores 255 c.idempotencyKey
  token : Varchar.Stores 100 c.cardToken

instance (c : PayCall) : Decidable c.Fits :=
  decidable_of_iff (Varchar.Stores 255 c.idempotencyKey ∧ Varchar.Stores 100 c.cardToken)
    ⟨fun h => ⟨h.1, h.2⟩, fun h => ⟨h.key, h.token⟩⟩

/-- The attempt of the request is one its columns admit: there is an amount to charge, and the texts
can be stored. -/
def PayCall.Chargeable (c : PayCall) (v : Invoice) : Prop := 0 < v.totalCents.val ∧ c.Fits

theorem NewAttempt.stores_of_row {new : NewAttempt} {id : Uuid} {now : Timestamp}
    {a : PaymentAttempt} (h : new.row id now = .ok a) :
    Varchar.Stores 255 new.idempotencyKey ∧ Varchar.Stores 100 new.cardToken := by
  unfold NewAttempt.row at h
  split at h
  case h_1 key token hkey htoken =>
    exact ⟨Varchar.ofString?_eq_some.mp hkey ▸ key.fits,
      Varchar.ofString?_eq_some.mp htoken ▸ token.fits⟩
  case h_2 => cases h

/-- The invoice that the request is to pay, and what there is of attempts on it. -/
structure PayCall.Ready (c : PayCall) (db : Database) (v : Invoice) : Prop where
  found : db.invoices.find? c.invoiceId = some v
  business : v.businessId = c.business.id
  isOpen : v.state = .open
  unused : ¬db.HasKey c.invoiceId c.idempotencyKey
  noPending : ∀ a ∈ db.attempts, a.invoiceId = c.invoiceId → a.status ≠ .pending
  keyed : c.idempotencyKey ≠ ""

/-- A payment that runs alone on a database, up to its first commit, or to where it ends because its
attempt cannot be stored. -/
def PayPoint.Approaching (c : PayCall) (db : Database) (v : Invoice) (w : World) : PayPoint → Prop
  | lookup | lock => w.db = db
  | insert v' => v' = v ∧ w.db = db
  | undo _ | relookup => w.db = db ∧ ¬c.Chargeable v
  | reserve _ a => a.amountCents = v.totalCents ∧ c.Chargeable v
  | closing x _ | done x _ => ¬c.Chargeable v ∧ ∃ e, x = .error e
  | _ => False

/-- The payment is on its way to its first commit, or past it. -/
def PayPoint.Paying (c : PayCall) (http : HttpResult) (db : Database) (v : Invoice) (w : World)
    (pt : PayPoint) : Prop :=
  pt.Approaching c db v w ∨
    ∃ a db', (a.amountCents = v.totalCents ∧ c.Chargeable v) ∧ a.invoiceId = v.id ∧
      a.status = .pending ∧ pt.Resolving http db' a w

section Runs

variable {crypto : Crypto} {s t : System} {φ : Pid → Phase} {p : Pid} {c : PayCall} {pt : PayPoint}
  {env : Env} {http : HttpResult} {db : Database} {v : Invoice}

/-- **One statement of a payment that runs alone** up to its first commit. -/
theorem PayPoint.Approaching.step {st : Stmt} {next : st.Resp → PayPoint} {r : st.Resp} {w' : World}
    (h : s.Unopposed crypto φ p c pt) (hready : c.Ready db v) (hout : pt.out crypto c = .op st next)
    (hexec : s.world.exec p env st = some (r, w')) (hpt : pt.Approaching c db v s.world) :
    (next r).Paying c http db v w' := by
  have hans : s.world.Answers p st r w' := .exec env hexec
  have hholds := h.sound.alive p h.alive
  rw [h.phase] at hholds
  have hdb : st ≠ .commit → w'.db = s.world.db := hans.effect.db
  have hkeyed : s.world.db.Keyed := h.sound.keys
  -- as long as the database is as before, the key is unused
  have hnone : s.world.db = db → s.world.db.attemptByKey c.invoiceId c.idempotencyKey = none := by
    rintro rfl
    refine Option.eq_none_iff_forall_not_mem.mpr fun a ha => hready.unused ?_
    exact ⟨a, (Database.attemptByKey_eq_some hkeyed).mp ha⟩
  cases pt with
  | lookup =>
    cases hout
    obtain ⟨⟨env', hr⟩, rfl⟩ := answers_select hans
    rw [World.Idle.view hholds] at hr
    obtain rfl : r = none := hr.trans (hnone hpt)
    exact Or.inl hpt
  | lock =>
    cases hout
    obtain ⟨row?, rfl⟩ := exec_lockInvoice hexec
    have hlock := answers_lockInvoice hans
    have hfind : (s.world.view p).invoices.find? c.invoiceId = some v := by
      rw [World.Idle.view hholds, show s.world.db = db from hpt]
      exact hready.found
    cases row? with
    | none =>
      have hbelongs := hlock.2 v hfind
      simp [Invoice.belongsTo, hready.business] at hbelongs
    | some row =>
      obtain ⟨-, -, hrow, -⟩ := hlock
      obtain rfl := Option.some.inj (hfind.symm.trans hrow)
      dsimp only
      rw [assertTransitionAllowed_paid.mpr hready.isOpen]
      exact Or.inl ⟨rfl, (hdb (by simp)).trans hpt⟩
  | insert v' =>
    cases hout
    obtain ⟨rfl, rfl⟩ := hpt
    rcases r with e | a
    · have hnot : ¬c.Chargeable v' := by
        rintro ⟨hpos, hstores⟩
        obtain ⟨errorMsg, rfl⟩ := exec_insertAttempt_integrity hexec hstores.key hstores.token
        have hview : s.world.view p = s.world.db := hholds.1.view
        -- a refusal has a reason, and only that of the amount is left
        cases insertRefused hexec hview (by simp [newAttempt, hready.found]) with
        | check hnot => exact hnot hpos
        | key _ hkey _ => exact hready.unused hkey
        | pending _ _ hpending _ =>
          obtain ⟨b, hb, hi, hstatus, -⟩ := hpending
          exact hready.noPending b hb hi hstatus
      dsimp only
      split
      · exact Or.inl ⟨hdb (by simp), hnot⟩
      · next hother => exact Or.inl ⟨hnot, _, rfl⟩
      · next hok => cases hok
    · obtain ⟨-, hinserted⟩ := answers_insertAttempt hans
      obtain ⟨now, hrow⟩ := hinserted.row
      have hamount : a.amountCents = v'.totalCents := NewAttempt.row_amountCents hrow
      have hstores := NewAttempt.stores_of_row hrow
      exact Or.inl ⟨hamount, hamount ▸ a.amountPos, hstores.1, hstores.2⟩
  | undo errorMsg =>
    cases hout
    dsimp only
    split
    · exact Or.inl ⟨hpt.2, _, rfl⟩
    · exact Or.inl ⟨(hdb (by simp)).trans hpt.1, hpt.2⟩
  | relookup =>
    cases hout
    obtain ⟨⟨env', hr⟩, rfl⟩ := answers_select hans
    rw [World.Idle.view hholds] at hr
    obtain rfl : r = none := hr.trans (hnone hpt.1)
    exact Or.inl ⟨hpt.2, _, rfl⟩
  | reserve v' a =>
    cases hout
    obtain ⟨-, -, -, hreserving⟩ := hholds
    refine Or.inr ⟨a, w'.db, hpt, ?_, hreserving.made.status, rfl, rfl⟩
    exact hreserving.made.invoiceId.trans (Table.find?_eq_some.mp hready.found).2.symm
  | closing x g =>
    cases hout
    exact Or.inl hpt
  | done x g => cases hout
  | _ => exact hpt.elim

theorem PayPoint.Paying.step {st : Stmt} {next : st.Resp → PayPoint} {r : st.Resp} {w' : World}
    (h : s.Unopposed crypto φ p c pt) (hready : c.Ready db v) (hfits : http.Fits)
    (hout : pt.out crypto c = .op st next) (henv : env.http = http)
    (hexec : s.world.exec p env st = some (r, w')) (hpt : pt.Paying c http db v s.world) :
    (next r).Paying c http db v w' := by
  rcases hpt with hpt | ⟨a, db', hamount, hinvoice, hpending, hpt⟩
  · exact hpt.step h hready hout hexec
  · exact Or.inr ⟨a, db', hamount, hinvoice, hpending, hpt.step h hfits hout henv hexec⟩

/-! ### From the request to its result -/

/-- A reply of success is one that the client takes for one, and its reference can be stored. -/
theorem HttpResult.Replies.reported (h : http.Replies "succeeded") : http.Says "succeeded" := by
  unfold HttpResult.Replies at h
  split at h
  case h_1 => exact ⟨by omega, h.2.2⟩
  case h_2 => exact h.elim

theorem HttpResult.Replies.chargeOutcome (h : http.Replies "succeeded") :
    ∃ result, chargeOutcome http = some (.ok result) ∧ result.Succeeded ∧
      result.pspRef = http.pspRef := by
  obtain ⟨result, hresult, hsucceeded, href⟩ := h.reported.outcome
  exact ⟨result, by simp [TenantBilling.chargeOutcome, hresult], hsucceeded, href⟩

theorem HttpResult.Replies.fits (h : http.Replies "succeeded") (href : http.pspRef.FitsPspRef) :
    http.Fits := by
  intro outcome houtcome
  obtain ⟨result, hresult, hsucceeded, heq⟩ := h.chargeOutcome
  obtain rfl := Option.some.inj (hresult.symm.trans houtcome)
  obtain ⟨ref, -, hbind⟩ := bind_succeededChange result (heq ▸ href)
  exact ⟨_, by rw [outcomeChange, if_pos hsucceeded]; exact hbind⟩

/-- The payment is requested. -/
def PayCall.job (c : PayCall) : Job :=
  .request c.business (.pay c.invoiceId c.cardToken c.idempotencyKey)

/-- **The invoice is paid in full**: the payment can be run alone to its end, and however it is run
to its end, it returns a succeeded attempt of the whole amount and leaves the invoice paid. -/
structure PaysInFull (crypto : Crypto) (s : System) (c : PayCall) (http : HttpResult)
    (v : Invoice) : Prop where
  returns : ∃ n envs t, (∀ k, (envs k).http = http) ∧
    run (System.step crypto) s (.start c.job :: alone s.procs.length n envs) = some t ∧
      ∃ x, t.returned? s.procs.length = some x
  paid : ∀ n envs t x, (∀ k, (envs k).http = http) →
    run (System.step crypto) s (.start c.job :: alone s.procs.length n envs) = some t →
      t.returned? s.procs.length = some x →
        ∃ a, x = .ok (.attempt a false) ∧ a.invoiceId = c.invoiceId ∧ a.status = .succeeded ∧
          a.amountCents = v.totalCents ∧ t.world.db.stateOf c.invoiceId = some .paid

/-- A payment that has just been requested is at its cache check, with no one in its way. -/
theorem System.Sound.unopposed_start (h : s.Sound crypto φ) (hlone : s.Lone s.procs.length)
    (hkey : c.idempotencyKey ≠ "") :
    System.Unopposed crypto ⟨s.world, s.procs ++ [⟨c.job, c.job.program crypto, true⟩]⟩
      (Function.update φ s.procs.length (.pay c .lookup)) s.procs.length c .lookup := by
  have hphase : c.job.phase = .pay c .lookup := by
    change Phase.pay c (PayPoint.start c) = _
    rw [PayPoint.start, if_neg hkey]
  refine ⟨hphase ▸ h.start _, ⟨_, List.getElem?_concat_length .., rfl⟩, Function.update_self .., ?_⟩
  exact h.unopposed hlone

/-- **Where a payment alone ends**: with an error, because its attempt cannot be stored, or with the
outcome of its call. -/
theorem System.Reachable.ends (hs : s.Reachable crypto) (hready : c.Ready s.world.db v)
    (hlone : s.Lone s.procs.length) (hfits : http.Fits) {n : ℕ} {envs : ℕ → Env}
    (henvs : ∀ k, (envs k).http = http)
    (hrun : run (System.step crypto) s (.start c.job :: alone s.procs.length n envs) = some t)
    {x : Except Exc Result} (hx : t.returned? s.procs.length = some x) :
    (¬c.Chargeable v ∧ ∃ e, x = .error e) ∨
      ∃ a db', (a.amountCents = v.totalCents ∧ c.Chargeable v) ∧ a.invoiceId = v.id ∧
        a.status = .pending ∧ EndsWith http db' a t.world x := by
  obtain ⟨φ, h⟩ := hs.sound
  obtain ⟨u, hu, hrun⟩ := Option.bind_eq_some_iff.mp hrun
  cases hu
  obtain ⟨ψ, pt, ht, hpt⟩ := (h.unopposed_start hlone hready.keyed).run
    (I := fun w pt => pt.Paying c http s.world.db v w)
    (fun _ _ _ _ _ _ _ _ hu hout henv hexec hpt => hpt.step hu hready hfits hout henv hexec)
    henvs hrun (Or.inl rfl)
  obtain ⟨g, rfl⟩ := ht.sound.done_of_returned hx ht.phase
  exact hpt

theorem System.Reachable.exists_end (hs : s.Reachable crypto) (hready : c.Ready s.world.db v)
    (hlone : s.Lone s.procs.length) (http : HttpResult) :
    ∃ n envs t, (∀ k, (envs k).http = http) ∧
      run (System.step crypto) s (.start c.job :: alone s.procs.length n envs) = some t ∧
        ∃ x, t.returned? s.procs.length = some x := by
  obtain ⟨φ, h⟩ := hs.sound
  exact (h.unopposed_start hlone hready.keyed).exists_end http

/-- Nothing is paid with an attempt that cannot be stored. -/
theorem not_paysInFull (hs : s.Reachable crypto) (hready : c.Ready s.world.db v)
    (hlone : s.Lone s.procs.length) (hreply : http.Replies "succeeded")
    (href : http.pspRef.FitsPspRef) (hnot : ¬c.Chargeable v) :
    ¬PaysInFull crypto s c http v := by
  intro hpays
  obtain ⟨n, envs, t, henvs, hrun, x, hx⟩ := hpays.returns
  obtain ⟨a, rfl, -⟩ := hpays.paid n envs t x henvs hrun hx
  rcases hs.ends hready hlone (hreply.fits href) henvs hrun hx with ⟨-, e, ⟨⟩⟩ |
    ⟨-, -, ⟨-, hchargeable⟩, -⟩
  exact hnot hchargeable

end Runs

/-! ### An invoice with a total, and one without -/

/-- The business creates an invoice of one line item and finalizes it. -/
def finalizing (item : InvoiceLineItemCreate) : List Event :=
  [.request (.createCustomer "Ada" "ada@example.com")] ++ Event.steps 0 3 ++
    [.request (.createInvoice ⟨0, none, [item], List.cons_ne_nil _ _⟩)] ++ Event.steps 1 7 ++
    [.request (.finalize 0)] ++ Event.steps 2 5

def pricedItem : InvoiceLineItemCreate := ⟨"advice", 1, 250, by decide, Int.one_pos, by decide⟩

/-- The schema admits an item that costs nothing. -/
def freeItem : InvoiceLineItemCreate := ⟨"free trial", 1, 0, by decide, Int.one_pos, Int.le_refl 0⟩

def pricedInvoice : System :=
  (run (System.step sampleCrypto) .init (finalizing pricedItem)).get (by decide +kernel)

def freeInvoice : System :=
  (run (System.step sampleCrypto) .init (finalizing freeItem)).get (by decide +kernel)

def samplePayment : PayCall := ⟨sampleBusiness, 0, "tok_visa", "k1"⟩

/-- The sample payment finds its invoice, and no attempts. -/
theorem exists_ready {db : Database} {P : Invoice → Prop} [DecidablePred P]
    (hfound : (db.invoices.find? 0).any fun v =>
      v.businessId = sampleBusiness.id ∧ v.state = .open ∧ P v)
    (hnone : db.attempts.rows = []) : ∃ v, samplePayment.Ready db v ∧ P v := by
  obtain ⟨v, hv, hprops⟩ := (Option.any_eq_true _ _).mp hfound
  obtain ⟨hbusiness, hopen, hP⟩ := of_decide_eq_true hprops
  have hempty : ∀ a, a ∉ db.attempts := fun a ha => List.not_mem_nil (hnone ▸ ha : a ∈ [])
  exact ⟨v, ⟨hv, hbusiness, hopen, fun ⟨a, ha, _⟩ => hempty a ha, fun a ha => absurd ha (hempty a),
    by decide⟩, hP⟩

theorem ready_pricedInvoice : ∃ v, samplePayment.Ready pricedInvoice.world.db v ∧
    0 < v.totalCents.val :=
  exists_ready (by decide +kernel) (by decide +kernel)

theorem ready_freeInvoice : ∃ v, samplePayment.Ready freeInvoice.world.db v ∧
    ¬0 < v.totalCents.val :=
  exists_ready (by decide +kernel) (by decide +kernel)

theorem replies_sampleReply : (sampleReply "succeeded" "ch_1").Replies "succeeded" := by
  refine ⟨by decide, by decide, ?_⟩
  decide +kernel

end TenantBilling
