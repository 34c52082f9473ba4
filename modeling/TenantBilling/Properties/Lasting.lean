import TenantBilling.Properties.Responses

/-!
# Responses are lasting

The requests that read before they write are seen at their points: what is known there of what the
request is going to return (`TenantBilling.TransitionPoint.Tells`,
`TenantBilling.DeactivatePoint.Tells`, `TenantBilling.CreatePoint.Tells`) is left alone by the
others and handed over by the session's own statements. With the requests that are executed
statement by statement and the payments, of which more than the tables is known, every request
ensures that what it returns stands (`TenantBilling.ensuring_stands`), and so nothing that a
client has been told is ever taken back (`TenantBilling.responses_lasting`).
-/

namespace TenantBilling

open Base World

section Points

variable {crypto : Crypto} {business : Business} {w : World} {p : Pid}

/-! ### At the points of the others -/

/-- What a transition has read is still there. -/
structure TransitionCall.Reads (c : TransitionCall) (db : Database) (v : Invoice) : Prop where
  id : v.id = c.invoiceId
  business : v.businessId = c.business.id
  row : ∃ v' ∈ db.invoices, v.Later v'

/-- What a transition is going to return. -/
def TransitionCall.Shows (c : TransitionCall) (db : Database) (x : Invoice × List InvoiceLineItem) :
    Prop := db.Shows c.business.id x ∧ x.1.id = c.invoiceId ∧ x.1.state = c.target

/-- What is known at a point of a transition of what it returns. -/
def TransitionPoint.Tells (w : World) (p : Pid) (c : TransitionCall) : TransitionPoint → Prop
  | read => w.writesOf p = []
  | update v => w.writesOf p = [] ∧ c.Reads w.db v
  | reselect v => (∃ now, w.writesOf p = [.updateInvoice v.id c.target now]) ∧ c.Reads w.db v
  | commit _ x => c.Shows w.db x
  | closing y | done y => ∀ r, y = .ok r → ∃ x, r = .invoice x ∧ c.Shows w.db x

theorem TransitionCall.Reads.later {c : TransitionCall} {db db' : Database} {v : Invoice}
    (h : c.Reads db v) (hlater : db.Later db') : c.Reads db' v := by
  obtain ⟨hid, hb, v', hv', hvv'⟩ := h
  obtain ⟨v'', hv'', hlater'⟩ := hlater.invoice v' hv'
  exact ⟨hid, hb, v'', hv'', hvv'.trans hlater'⟩

/-- What a transition is about to tell stays so while the others go on. -/
theorem TransitionPoint.Tells.later {w w' : World} {c : TransitionCall} {pt : TransitionPoint}
    (h : pt.Tells w p c) (hwrites : w'.writesOf p = w.writesOf p) (hlater : w.db.Later w'.db) :
    pt.Tells w' p c := by
  have hshows : ∀ {x}, c.Shows w.db x → c.Shows w'.db x := fun hx => hx.imp_left (·.later hlater)
  cases pt with
  | read => exact hwrites.trans h
  | update v => exact ⟨hwrites.trans h.1, h.2.later hlater⟩
  | reselect v =>
    obtain ⟨⟨now, hw⟩, hreads⟩ := h
    exact ⟨⟨now, hwrites.trans hw⟩, hreads.later hlater⟩
  | commit v x => exact hshows h
  | closing y | done y =>
    intro r hr
    obtain ⟨x, hx, hshow⟩ := h r hr
    exact ⟨x, hx, hshows hshow⟩

/-- A transition tells what it was told and has written. -/
theorem TransitionPoint.Tells.step {w w' : World} {c : TransitionCall} {pt : TransitionPoint}
    {st : Stmt} {next : st.Resp → TransitionPoint} {r : st.Resp} (h : pt.Tells w p c)
    (hout : pt.out c = .op st next) (htold : System.Told p w st r w') : (next r).Tells w' p c := by
  cases pt with
  | read =>
    cases hout
    obtain ⟨⟨env, hr⟩, rfl⟩ := answers_select htold.answers
    have hview : w'.view p = w'.db := by rw [World.view, h]; rfl
    rw [hview] at hr
    rcases r with _ | ⟨v, lineItems⟩
    · rintro _ ⟨⟩
    · obtain ⟨v', hv', hx⟩ := Option.map_eq_some_iff.mp hr.symm
      obtain ⟨rfl, -⟩ := Prod.mk.inj hx
      obtain ⟨hfind, hb⟩ := Option.filter_eq_some_iff.mp hv'
      obtain ⟨hv, hid⟩ := Table.find?_eq_some.mp hfind
      dsimp only
      split
      · rintro _ ⟨⟩
      · exact ⟨h, hid, of_decide_eq_true hb, _, hv, .refl _⟩
  | update v =>
    cases hout
    have hupdate := answers_updateInvoice htold.answers
    rcases r with e | _
    · rintro _ ⟨⟩
    · obtain ⟨-, now, rfl⟩ := hupdate
      exact ⟨⟨now, writesOf_write_self ((writesOf_lock ..).trans h.1)⟩, h.2⟩
  | reselect v =>
    cases hout
    obtain ⟨⟨env, hr⟩, rfl⟩ := answers_select htold.answers
    obtain ⟨⟨now, hwrites⟩, hid, hb, v', hv', state, now', rfl⟩ := h
    rcases r with _ | ⟨row, lineItems⟩
    · rintro _ ⟨⟩
    -- the row is the committed one, with the state that the session has written
    obtain ⟨v'', hv'', hx⟩ := Option.map_eq_some_iff.mp hr.symm
    obtain ⟨rfl, rfl⟩ := Prod.mk.inj hx
    obtain ⟨hfind, -⟩ := Option.filter_eq_some_iff.mp hv''
    have hview : w'.view p = w'.db.apply (.updateInvoice v.id c.target now) := by
      rw [World.view, hwrites]
      rfl
    rw [hview, Database.find?_apply_updateInvoice, if_pos rfl] at hfind
    have hrow : w'.db.invoices.find? v.id = some (v.update state now') := Table.find?_key hv'
    rw [hrow] at hfind
    obtain rfl := Option.some.inj hfind
    have hstate : ((v.update state now').update c.target now).orAssigned v c.target =
        (v.update state now').update c.target now := if_pos rfl
    change (commit v (_, _)).Tells w' p c
    rw [hstate, hview]
    refine ⟨⟨hb, ⟨_, hv', state, now', rfl⟩, ?_⟩, hid, rfl⟩
    exact List.perm_insertionSort _ _
  | commit v x =>
    cases hout
    rintro _ ⟨⟩
    exact ⟨x, rfl, h.imp_left (·.later htold.later.db)⟩
  | closing y =>
    cases hout
    intro r hr
    obtain ⟨x, hx, hshows⟩ := h r hr
    exact ⟨x, hx, hshows.imp_left (·.later htold.later.db)⟩
  | done y => cases hout

/-- **A transition shows the invoice in its target state.** -/
theorem ensures_transition (c : TransitionCall) {prog : ServerProg (Except Exc Result)}
    (htracks : Prog.Tracks (TransitionPoint.out c) .read prog) (hwrites : w.writesOf p = []) :
    Prog.Ensures (System.among p) (fun w y => ∀ r, y = .ok r → ∃ x, r = .invoice x ∧ c.Shows w.db x)
      w prog := by
  refine Prog.Ensures.of_tracks htracks (H := fun w pt => pt.Tells w p c) hwrites ?_ ?_ ?_
  · rintro w w' pt ⟨hf, hlater⟩ h
    exact h.later hf.writes hlater.db
  · rintro w pt st next r w' hout htold h
    exact h.step hout htold
  · rintro w pt y hout h
    cases pt <;> cases hout
    exact h

/-- The endpoint is there, and is not active. -/
def DeactivateCall.Retired (c : DeactivateCall) (db : Database) : Prop :=
  ∃ e ∈ db.endpoints, e.id = c.endpointId ∧ e.businessId = c.business.id ∧ e.isActive = false

/-- What is known at a point of a request that deactivates an endpoint of what it returns. -/
def DeactivatePoint.Tells (w : World) (p : Pid) (c : DeactivateCall) : DeactivatePoint → Prop
  | read => w.writesOf p = []
  | update e => w.writesOf p = [] ∧ e.isActive = true ∧ e.id = c.endpointId ∧
      w.db.ShowsEndpoint c.business.id e
  | commit e => (w.writesOf p = if e.isActive then [.deactivateEndpoint e.id] else []) ∧
      e.id = c.endpointId ∧ w.db.ShowsEndpoint c.business.id e
  | closing y | done y => ∀ r, y = .ok r → r = .done ∧ c.Retired w.db

theorem DeactivateCall.Retired.later {c : DeactivateCall} {db db' : Database} (h : c.Retired db)
    (hlater : db.Later db') : c.Retired db' := by
  obtain ⟨e, he, hid, hb, hactive⟩ := h
  obtain ⟨e', he', hlater⟩ := hlater.endpoint e he
  refine ⟨e', he', ?_, ?_, hlater.isActive hactive⟩
  · rcases hlater with rfl | rfl <;> exact hid
  · rcases hlater with rfl | rfl <;> exact hb

/-- What a deactivation is about to tell stays so while the others go on. -/
theorem DeactivatePoint.Tells.later {w w' : World} {c : DeactivateCall} {pt : DeactivatePoint}
    (h : pt.Tells w p c) (hwrites : w'.writesOf p = w.writesOf p) (hlater : w.db.Later w'.db) :
    pt.Tells w' p c := by
  cases pt with
  | read => exact hwrites.trans h
  | update e => exact ⟨hwrites.trans h.1, h.2.1, h.2.2.1, h.2.2.2.later hlater⟩
  | commit e => exact ⟨hwrites.trans h.1, h.2.1, h.2.2.later hlater⟩
  | closing y | done y => exact fun r hr => (h r hr).imp_right (·.later hlater)

/-- A deactivation tells what it has written, or what it found already written. -/
theorem DeactivatePoint.Tells.step {w w' : World} {c : DeactivateCall} {pt : DeactivatePoint}
    {st : Stmt} {next : st.Resp → DeactivatePoint} {r : st.Resp} (h : pt.Tells w p c)
    (hout : pt.out c = .op st next) (htold : System.Told p w st r w') : (next r).Tells w' p c := by
  cases pt with
  | read =>
    cases hout
    obtain ⟨⟨env, hr⟩, rfl⟩ := answers_select htold.answers
    have hview : w'.view p = w'.db := by rw [World.view, h]; rfl
    rw [hview] at hr
    rcases r with _ | e
    · rintro _ ⟨⟩
    · obtain ⟨hfind, hb⟩ := Option.filter_eq_some_iff.mp hr.symm
      obtain ⟨he, hid⟩ := Table.find?_eq_some.mp hfind
      have hshows : w'.db.ShowsEndpoint c.business.id e := ⟨of_decide_eq_true hb, e, he, .refl e⟩
      dsimp only
      split
      case isTrue hactive => exact ⟨h, hactive, hid, hshows⟩
      case isFalse hinactive => exact ⟨h.trans (if_neg hinactive).symm, hid, hshows⟩
  | update e =>
    cases hout
    have hupdate := answers_deactivateEndpoint htold.answers
    rcases r with err | _
    · rintro _ ⟨⟩
    · obtain rfl := hupdate
      exact ⟨(writesOf_write_self ((writesOf_lock ..).trans h.1)).trans (if_pos h.2.1).symm, h.2.2⟩
  | commit e =>
    cases hout
    obtain rfl := answers_commit htold.answers
    obtain ⟨hwrites, hid, hb, e', he', hlater⟩ := h
    rintro _ ⟨⟩
    split at hwrites
    case isFalse hinactive =>
      -- it has been inactive before
      have hinactive : e.isActive = false := by simpa using hinactive
      have hdb : (w.commit p).db = w.db := by
        rw [db_commit, World.view, hwrites]
        rfl
      refine ⟨rfl, e', ?_, ?_, ?_, hlater.isActive hinactive⟩
      · rw [hdb]
        exact he'
      · rcases hlater with rfl | rfl <;> exact hid
      · rcases hlater with rfl | rfl <;> exact hb
    have hdb : (w.commit p).db.endpoints =
        w.db.endpoints.update e.id ({ · with isActive := false }) fun _ => rfl := by
      rw [db_commit, World.view, hwrites]
      rfl
    refine ⟨rfl, { e' with isActive := false }, ?_, ?_, ?_, rfl⟩
    · rw [hdb]
      refine Table.mem_update.mpr ⟨e', he', (if_pos ?_).symm⟩
      rcases hlater with rfl | rfl <;> rfl
    · rcases hlater with rfl | rfl <;> exact hid
    · rcases hlater with rfl | rfl <;> exact hb
  | closing y =>
    cases hout
    exact fun r hr => (h r hr).imp_right (·.later htold.later.db)
  | done y => cases hout

/-- **A deactivated endpoint is inactive.** -/
theorem ensures_deactivate (crypto : Crypto) (c : DeactivateCall) (hwrites : w.writesOf p = []) :
    Prog.Ensures (System.among p) (fun w y => ∀ r, y = .ok r → r = .done ∧ c.Retired w.db) w
      (Orm.getDb (route crypto c.business (.deactivateEndpoint c.endpointId))) := by
  refine Prog.Ensures.of_tracks (tracks_deactivate crypto c)
    (H := fun w pt => pt.Tells w p c) hwrites ?_ ?_ ?_
  · rintro w w' pt ⟨hf, hlater⟩ h
    exact h.later hf.writes hlater.db
  · rintro w pt st next r w' hout htold h
    exact h.step hout htold
  · rintro w pt y hout h
    cases pt <;> cases hout
    exact h

/-! ### The invoice that is created -/

/-- The values of the rows of an insert are those that were asked for. -/
theorem buildRows_map {ν ρ γ : Type} {build : ν → Uuid → Except RowError ρ} {f : ρ → γ} {g : ν → γ}
    (hf : ∀ n i r, build n i = .ok r → f r = g n) {ids : ℕ → Uuid} {k : ℕ} {new : List ν}
    {rows : List ρ} (h : buildRows build ids k new = .ok rows) : rows.map f = new.map g := by
  induction new generalizing k rows with
  | nil =>
    obtain rfl := Except.ok.inj h
    rfl
  | cons n new ih =>
    simp only [buildRows] at h
    cases hrow : build n (ids k) with
    | error e => simp [hrow] at h
    | ok row =>
      cases hrest : buildRows build ids (k + 1) new with
      | error e => simp [hrow, hrest] at h
      | ok rest =>
        simp only [hrow, hrest] at h
        obtain rfl := Except.ok.inj h
        rw [List.map_cons, List.map_cons, hf _ _ _ hrow, ih hrest]

/-- The row of a line item has what was posted. -/
theorem NewLineItem.row_posted {n : NewLineItem} {i id : Uuid} {now : Timestamp}
    {li : InvoiceLineItem} (h : n.row i id now = .ok li) : li.posted = n := by
  unfold NewLineItem.row at h
  split at h
  case h_1 hdescription hquantity hunit hamount =>
    split at h
    · split at h
      · split at h
        · rw [← Except.ok.inj h]
          obtain ⟨description, quantity, unitAmountCents, amountCents⟩ := n
          simp only [InvoiceLineItem.posted, NewLineItem.mk.injEq]
          exact ⟨Varchar.ofString?_eq_some.mp hdescription, SignedInt.ofInt?_eq_some.mp hquantity,
            SignedInt.ofInt?_eq_some.mp hunit, SignedInt.ofInt?_eq_some.mp hamount⟩
        · cases h
      · cases h
    · cases h
  case h_2 => cases h
  case h_3 => cases h

/-- A new invoice has what its request has sent. -/
theorem CreateCall.Made.fields {c : CreateCall} {v : Invoice} (h : c.Made v) :
    v.businessId = c.business.id ∧ v.customerId = c.payload.customerId ∧ v.state = .draft ∧
      v.totalCents.val = c.payload.totalCents ∧ v.dueDate = c.payload.dueDate := by
  obtain ⟨now, h⟩ := h
  unfold NewInvoice.row at h
  split at h
  case h_1 total htotal =>
    split at h
    · rw [← Except.ok.inj h]
      exact ⟨rfl, rfl, rfl, SignedInt.ofInt?_eq_some.mp htotal, rfl⟩
    · cases h
  case h_2 => cases h

/-- What is returned is the invoice that has been inserted, with its line items in some order. -/
def CreateCall.Inserts (c : CreateCall) (v : Invoice) (x : Invoice × List InvoiceLineItem) : Prop :=
  x.1 = v ∧ c.Made v ∧ ∃ rows, c.Items v rows ∧ x.2.Perm rows

/-- The invoice inserted is the one described by the payload. -/
theorem CreateCall.Inserts.describes {c : CreateCall} {v : Invoice}
    {x : Invoice × List InvoiceLineItem}
    (h : c.Inserts v x) : x.1.businessId = c.business.id ∧ c.payload.Describes x := by
  obtain ⟨rfl, hmade, rows, ⟨ids, now, hrows⟩, hperm⟩ := h
  obtain ⟨hb, hcustomer, hstate, htotal, hdue⟩ := hmade.fields
  refine ⟨hb, hcustomer, hstate, htotal, hdue, (hperm.map _).trans (.of_eq ?_)⟩
  have hmap := buildRows_map (g := id) (fun _ _ _ => NewLineItem.row_posted) hrows
  rwa [List.map_id] at hmap

/-- The tables once the invoice and its line items have been inserted. -/
theorem CreateCall.Creating.applied {c : CreateCall} {db : Database} {v : Invoice}
    {endpoints : List WebhookEndpoint} {rows : List InvoiceLineItem} {rest : List Write}
    (hitems : c.Items v rows) (hrest : v.Outbox endpoints rest)
    (hfits : db.Fits (.insertInvoice v :: .insertLineItems rows :: rest)) (hlinked : db.Linked) :
    (db.applyAll (.insertInvoice v :: .insertLineItems rows :: rest)).invoices.find? v.id = some v ∧
      (db.applyAll (.insertInvoice v :: .insertLineItems rows :: rest)).lineItemsOf v.id =
        rows := by
  have hnone := hfits.find?_invoice_eq_none (v := v) List.mem_cons_self
  have hmem :
      Write.insertLineItems rows ∈ Write.insertInvoice v :: .insertLineItems rows :: rest := by
    simp
  obtain ⟨hfree, hnodup⟩ := hfits.lineItems_free hmem
  constructor
  · have hinvoices : (db.applyAll (.insertInvoice v :: .insertLineItems rows :: rest)).invoices =
        db.invoices.insert v := by
      rcases hrest with ⟨-, rfl⟩ | ⟨-, now, env, rfl⟩ <;> rfl
    rw [hinvoices, Table.find?_insert, hnone, if_pos rfl]
    rfl
  · -- no line item is there before its invoice
    have hold : db.lineItemsOf v.id = [] := by
      refine List.filter_eq_nil_iff.mpr fun li hli hid => ?_
      obtain ⟨b, v', hv', -⟩ := hlinked.lineItem li hli
      rw [of_decide_eq_true hid, hnone] at hv'
      cases hv'
    obtain ⟨ids, now, hrows⟩ := hitems
    have hnew : rows.filter (fun li => li.invoiceId = v.id) = rows :=
      List.filter_eq_self.mpr fun li hli => by simpa using buildRows_invoiceId hrows li hli
    rw [Database.lineItemsOf_insert db hfree hnodup hrest.keepsTotals, hold, hnew, List.nil_append]

/-- What is known at a point of a request that creates an invoice of what it returns. -/
def CreatePoint.Tells (w : World) (p : Pid) (c : CreateCall) : CreatePoint → Prop
  | commit v _ x => c.Inserts v x ∧ ∀ rows, .insertLineItems rows ∈ w.writesOf p → x.2.Perm rows
  | closing y | done y => ∀ r, y = .ok r →
      ∃ x, r = .invoice x ∧ w.db.Shows c.business.id x ∧ c.payload.Describes x
  | _ => True

/-- What a new invoice is about to be shown with stays so while the others go on. -/
theorem CreatePoint.Tells.later {w w' : World} {c : CreateCall} {pt : CreatePoint}
    (h : pt.Tells w p c) (hwrites : w'.writesOf p = w.writesOf p) (hlater : w.db.Later w'.db) :
    pt.Tells w' p c := by
  cases pt with
  | commit v endpoints x => exact ⟨h.1, hwrites ▸ h.2⟩
  | closing y | done y =>
    intro r hr
    obtain ⟨x, hx, hshows, hdescribes⟩ := h r hr
    exact ⟨x, hx, hshows.later hlater, hdescribes⟩
  | _ => trivial

/-- The creation of an invoice tells what it has inserted. -/
theorem CreatePoint.Tells.step {w w' : World} {c : CreateCall} {pt : CreatePoint} {st : Stmt}
    {next : st.Resp → CreatePoint} {r : st.Resp} (h : pt.Tells w p c) (hholds : pt.Holds w p c)
    (hout : pt.out c = .op st next) (htold : System.Told p w st r w') : (next r).Tells w' p c := by
  have hraise : ∀ e, (closing (.error e)).Tells w' p c := by rintro e _ ⟨⟩
  cases pt with
  | readCustomer =>
    cases hout
    rcases r with _ | customer
    · exact hraise _
    · trivial
  | insert | insertItems v =>
    cases hout
    rcases r with e | _
    · exact hraise _
    · trivial
  | listEndpoints v =>
    cases hout
    dsimp only
    split <;> trivial
  | readClock v endpoints => cases hout; trivial
  | outbox v endpoints now =>
    cases hout
    rcases r with e | _
    · exact hraise _
    · trivial
  | reselect v endpoints =>
    cases hout
    obtain ⟨⟨env, hr⟩, rfl⟩ := answers_select htold.answers
    obtain ⟨-, rest, hrest, hmade, -, rows, hitems, hwrites⟩ := hholds
    have hfits := htold.consistent.fits p
    rw [hwrites] at hfits
    obtain ⟨hfind, hlines⟩ := CreateCall.Creating.applied hitems hrest hfits htold.linked
    rcases r with _ | ⟨row, lineItems⟩
    · exact hraise _
    obtain ⟨v', hv', hx⟩ := Option.map_eq_some_iff.mp hr.symm
    obtain ⟨rfl, rfl⟩ := Prod.mk.inj hx
    obtain ⟨hfind', -⟩ := Option.filter_eq_some_iff.mp hv'
    rw [World.view, hwrites] at hfind'
    obtain rfl := Option.some.inj (hfind.symm.trans hfind')
    have hstate : v.stateOrLoaded v = v.state := if_pos rfl
    have hperm :
        (inServerOrder env.rank InvoiceLineItem.id ((w'.view p).lineItemsOf v.id)).Perm rows := by
      refine (List.perm_insertionSort _ _).trans (.of_eq ?_)
      rw [World.view, hwrites]
      exact hlines
    change (commit v endpoints ({ v with state := v.stateOrLoaded v }, _)).Tells w' p c
    rw [hstate]
    refine ⟨⟨rfl, hmade, rows, hitems, hperm⟩, fun rows' hrows' => ?_⟩
    -- the session has inserted no other line items
    rw [hwrites] at hrows'
    have hrows : rows' = rows := by
      rcases hrest with ⟨-, rfl⟩ | ⟨-, now, env, rfl⟩ <;> simpa using hrows'
    exact hrows ▸ hperm
  | commit v endpoints x =>
    cases hout
    obtain rfl := answers_commit htold.answers
    obtain ⟨-, rest, hrest, hmade, -, rows, hitems, hwrites⟩ := hholds
    have hfits := htold.consistent.fits p
    rw [hwrites] at hfits
    obtain ⟨hfind, hlines⟩ := CreateCall.Creating.applied hitems hrest hfits htold.linked
    obtain ⟨hinserts, hperm⟩ := h
    obtain ⟨hb, hdescribes⟩ := hinserts.describes
    have hdb : (w.commit p).db = w.db.applyAll
      (.insertInvoice v :: .insertLineItems rows :: rest) := by
      rw [db_commit, World.view, hwrites]
      rfl
    rintro _ ⟨⟩
    refine ⟨x, rfl, ⟨hb, ⟨v, ?_, hinserts.1 ▸ .refl _⟩, ?_⟩, hdescribes⟩
    · rw [hdb]
      exact (Table.find?_eq_some.mp hfind).1
    · rw [hdb, hinserts.1]
      exact (hperm rows (by rw [hwrites]; simp)).trans (.of_eq hlines.symm)
  | closing y =>
    cases hout
    intro r hr
    obtain ⟨x, hx, hshows, hdescribes⟩ := h r hr
    exact ⟨x, hx, hshows.later htold.later.db, hdescribes⟩
  | done y => cases hout

/-- **A new invoice is shown as it was posted.** -/
theorem ensures_createInvoice (crypto : Crypto) (c : CreateCall) (hwrites : w.writesOf p = []) :
    Prog.Ensures (System.among p) (fun w y => ∀ r, y = .ok r →
      ∃ x, r = .invoice x ∧ w.db.Shows c.business.id x ∧ c.payload.Describes x) w
      (Orm.getDb (route crypto c.business (.createInvoice c.payload))) := by
  refine Prog.Ensures.of_tracks (tracks_create crypto c)
    (H := fun w pt => pt.Holds w p c ∧ pt.Tells w p c) ⟨hwrites, trivial⟩ ?_ ?_ ?_
  · rintro w w' pt ⟨hf, hlater⟩ ⟨hholds, h⟩
    exact ⟨hholds.frame hf.writes hlater.db.grows, h.later hf.writes hlater.db⟩
  · rintro w pt st next r w' hout htold ⟨hholds, h⟩
    exact ⟨hholds.step htold.consistent hout htold.answers, h.step hholds hout htold⟩
  · rintro w pt y hout ⟨-, h⟩
    cases pt <;> cases hout
    exact h

/-! ### Every request -/

/-- What the job returns stands. What a payment returns is a matter of its own. -/
def Job.Stands (crypto : Crypto) (_ : Pid) (job : Job) (w : World) (x : Except Exc Result) : Prop :=
  job.payCall? = none → ∀ business req,
    job = .request business req → req.Returns crypto business w.db x

theorem Job.stands_request {crypto : Crypto} {req : Request} {w : World} {x : Except Exc Result}
    (h : req.Returns crypto business w.db x) : Job.Stands crypto p (.request business req) w x := by
  rintro - _ _ ⟨⟩
  exact h

/-- What a route ensures, its request does: the session is closed after it. -/
theorem ensures_route {req : Request} (h : Prog.Ensures (System.among p) (fun w x =>
      req.Returns crypto business w.db x.1) w (route crypto business req {})) :
    Prog.Ensures (System.among p) (Job.Stands crypto p (.request business req)) w
      (Job.program crypto (.request business req)) := by
  refine (ensures_getDb (A := fun w x => req.Returns crypto business w.db x) ?_ h).imp ?_
  · exact fun w w' x hlater hx y hy => (hx y hy).later hlater.db
  · exact fun w' x hx => Job.stands_request hx

/-- **What every request ensures** of what it returns. -/
theorem ensuring_stands (crypto : Crypto) : System.Ensuring crypto (Job.Stands crypto) where
  later p job w w' x hlater h hpay business req hjob y hy :=
    (h hpay business req hjob y hy).later hlater.db
  program p job w hidle := by
    have hwrites : w.writesOf p = [] := hidle.writes
    have htransition : ∀ (business : Business) (req : Request) (i : Uuid) (target : InvoiceState),
        Prog.Tracks (TransitionPoint.out ⟨business, i, target⟩) .read
            (Job.program crypto (.request business req)) →
          (∀ x db, TransitionCall.Shows ⟨business, i, target⟩ db x →
            req.Stands crypto db business.id (.invoice x)) →
          Prog.Ensures (System.among p) (Job.Stands crypto p (.request business req)) w
            (Job.program crypto (.request business req)) := by
      intro business req i target htracks hstands
      refine (ensures_transition ⟨business, i, target⟩ htracks hwrites).imp fun w' x hx => ?_
      refine Job.stands_request fun y hy => ?_
      obtain ⟨shown, rfl, hshows⟩ := hx y hy
      exact hstands shown w'.db hshows
    cases job with
    | poll => exact Prog.ensures_of_forall fun w x => by rintro - _ _ ⟨⟩
    | request business req =>
      cases req with
      | createCustomer name email => exact ensures_route (ensures_createCustomer name email hwrites)
      | listCustomers skip limit => exact ensures_route (ensures_listCustomers skip limit hwrites)
      | getCustomer i => exact ensures_route (ensures_getCustomer i hwrites)
      | createInvoice payload =>
        refine (ensures_createInvoice crypto ⟨business, payload⟩ hwrites).imp fun w' x hx => ?_
        refine Job.stands_request fun y hy => ?_
        obtain ⟨shown, rfl, hshows⟩ := hx y hy
        exact hshows
      | listInvoices state skip limit =>
        exact ensures_route (ensures_listInvoices state skip limit hwrites)
      | getInvoice i => exact ensures_route (ensures_getInvoice i hwrites)
      | finalize i => exact htransition business _ i .open (tracks_transition _) fun _ _ h => h
      | void i => exact htransition business _ i .void (tracks_transition _) fun _ _ h => h
      | uncollectible i =>
        exact htransition business _ i .uncollectible (tracks_transition _) fun _ _ h => h
      | pay i cardToken key => exact Prog.ensures_of_forall fun w x => by rintro ⟨⟩
      | createEndpoint url => exact ensures_route (ensures_createEndpoint url hwrites)
      | listEndpoints => exact ensures_route (ensures_listEndpoints hwrites)
      | deactivateEndpoint i =>
        refine (ensures_deactivate crypto ⟨business, i⟩ hwrites).imp fun w' x hx => ?_
        refine Job.stands_request fun y hy => ?_
        obtain ⟨rfl, hretired⟩ := hx y hy
        exact hretired

/-- A payment returns an attempt, if it does not raise. -/
def Job.ReturnsAttempt (_ : Pid) (job : Job) (_ : World) (x : Except Exc Result) : Prop :=
  job.payCall?.isSome → ∀ y, x = .ok y → ∃ a cached, y = .attempt a cached

theorem ensuring_attempt (crypto : Crypto) : System.Ensuring crypto Job.ReturnsAttempt where
  later _ _ _ _ _ _ h := h
  program p job w _ := by
    cases job with
    | poll => exact Prog.ensures_of_forall fun w x => by rintro ⟨⟩
    | request business req =>
      cases req with
      | pay i cardToken key =>
        refine (ensures_getDb (A := fun _ x => ∀ y, x = .ok y → ∃ a cached, y = .attempt a cached)
          (fun _ _ _ _ h => h) ?_).imp fun _ _ h _ => h
        change Prog.Ensures _ _ _ ((if key = "" then _ else _ : Orm Result) {})
        split
        · rintro w' - y ⟨⟩
        · refine Prog.Ensures.bind (Q := fun _ _ => True) (Prog.ensures_of_forall fun _ _ =>
            trivial) ?_
          rintro w' ⟨e | ⟨a, cached⟩, σ⟩ -
          · rintro w'' - y ⟨⟩
          · rintro w'' - y ⟨⟩
            exact ⟨a, cached, rfl⟩
      | _ => exact Prog.ensures_of_forall fun w x => by rintro ⟨⟩

/-- What a payment has returned stands. -/
theorem System.Reachable.stands_pay {s : System} (hs : s.Reachable crypto) {i : Uuid}
    {cardToken key : String} {y : Result} {alive : Bool}
    (hproc : s.procs[p]? = some ⟨.request business (.pay i cardToken key), .ret (.ok y), alive⟩) :
    (Request.pay i cardToken key).Stands crypto s.world.db business.id y := by
  obtain ⟨φ, h, hreturning, ho⟩ := System.Sound.reaches
    (I := fun u ψ => Returning crypto u ψ ∧ u.Owned ψ)
    hs System.sound_init ⟨(fun p c pt hph => by cases hph), System.owned_init⟩
    fun _ _ _ _ _ hu hIu _ _ hmove _ => ⟨hIu.1.move hu hmove, hIu.2.move hu hmove⟩
  have hc : s.payCall? p = some ⟨business, i, cardToken, key⟩ := by
    rw [System.payCall?, hproc]
    rfl
  obtain ⟨pt, hph⟩ := h.payCall?_eq_some.mp hc
  have hx : s.returned? p = some (.ok y) := (returned?_eq_some hproc).mpr rfl
  obtain ⟨g, rfl⟩ := h.done_of_returned hx hph
  obtain ⟨a, cached, rfl⟩ := hs.ensures (ensuring_attempt crypto) hproc rfl y rfl
  obtain ⟨hkey, hi, htext, hhash, hown, hfollows⟩ := hreturning p _ _ hph a cached rfl
  refine ⟨hkey, hi, htext, hhash, hfollows, fun hcached => ?_⟩
  obtain ⟨htoken, d, hd⟩ := hown hcached
  have hphase := ho.phases p
  rw [hph] at hphase
  exact ⟨htoken, hphase.invoice d hd⟩

end Points

/-- **Responses are lasting.** Whatever a request has returned, and whatever all other requests and
the worker do from then on: what its response has told of customers, invoices and their line items,
attempts and endpoints is found in the tables of every later state, under the business that has
asked and with the values that it has given, but for the business of a replayed attempt. -/
theorem responses_lasting {crypto : Crypto} {s t : System} (hs : s.Reachable crypto) {p : Pid}
    {proc : Proc} {business : Business} {req : Request} {y : Result}
    (hproc : s.procs[p]? = some proc)
    (hjob : proc.job = .request business req) (hret : s.returned? p = some (.ok y))
    (hreach : Reaches (System.step crypto) Always s t) :
    req.Stands crypto t.world.db business.id y := by
  obtain ⟨job, prog, alive⟩ := proc
  obtain rfl : job = .request business req := hjob
  obtain rfl : prog = .ret (.ok y) := (returned?_eq_some hproc).mp hret
  refine Request.Stands.later ?_ (hs.later hreach).db
  cases req with
  | pay i cardToken key => exact hs.stands_pay hproc
  | _ => exact hs.ensures (ensuring_stands crypto) hproc rfl business _ rfl y rfl

/-- The request to create an invoice that the process serves. -/
def Proc.creating? (proc : Proc) : Option CreateCall :=
  match proc.job with
  | .request business (.createInvoice payload) => some ⟨business, payload⟩
  | _ => none

theorem Proc.creating?_eq_some {proc : Proc} {c : CreateCall} (h : proc.creating? = some c) :
    proc.job = .request c.business (.createInvoice c.payload) := by
  unfold creating? at h
  split at h
  case h_1 hjob => rw [hjob, ← Option.some.inj h]
  case h_2 => cases h

/-- The invoice is opened, and voided. -/
def voiding : List Event :=
  [.request (.finalize 0)] ++ Event.steps 2 5 ++ [.request (.void 0)] ++ Event.steps 3 5

/-- An invoice is created; what its response has told stands when it has become void. -/
theorem responses_lasting_voiding : ∃ s t c y,
    run (System.step sampleCrypto) .init drafting = some s ∧
    s.returned? 1 = some (.ok y) ∧ run (System.step sampleCrypto) s voiding = some t ∧
      t.world.db.stateOf 0 = some .void ∧
        (Request.createInvoice c).Stands sampleCrypto t.world.db sampleBusiness.id y := by
  have hany : (run (System.step sampleCrypto) .init drafting).any (fun s =>
      (s.procs[1]?.any fun proc => proc.creating?.any fun c => c.business = sampleBusiness) &&
        (s.returned? 1).any (fun x => x.isOk) &&
          (run (System.step sampleCrypto) s voiding).any fun t =>
            t.world.db.stateOf 0 = some .void) =
      true := by decide +kernel
  obtain ⟨s, hrun, hs⟩ := (Option.any_eq_true _ _).mp hany
  obtain ⟨hs, hvoid⟩ := Bool.and_eq_true_iff.mp hs
  obtain ⟨hcall, hok⟩ := Bool.and_eq_true_iff.mp hs
  obtain ⟨proc, hproc, hc⟩ := (Option.any_eq_true _ _).mp hcall
  obtain ⟨c, hc, hbusiness⟩ := (Option.any_eq_true _ _).mp hc
  obtain ⟨e | y, hret, hy⟩ := (Option.any_eq_true _ _).mp hok
  · cases hy
  obtain ⟨t, hrun', hstate⟩ := (Option.any_eq_true _ _).mp hvoid
  refine ⟨s, t, c.payload, y, hrun, hret, hrun', of_decide_eq_true hstate, ?_⟩
  rw [← of_decide_eq_true hbusiness]
  exact responses_lasting (reaches_of_run hrun) hproc (Proc.creating?_eq_some hc) hret
    (reaches_of_run hrun')

end TenantBilling
