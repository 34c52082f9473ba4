import Mathlib.Algebra.Order.BigOperators.Group.List
import Mathlib.Algebra.Order.Group.Int
import TenantBilling.Properties.Money
import TenantBilling.Properties.Onwards

/-!
# Which invoices fit their columns

The request schema bounds the numbers of an invoice from below only, while its columns are 32 and 64
bits wide, and it admits descriptions that the server stores in no column. A request to create an
invoice for a customer of the business goes through exactly if every quantity and the total are in
range and no description has a `U+0000`, and fails with an unhandled error of the database otherwise
(`TenantBilling.invoice_fits_iff`).
-/

namespace TenantBilling

open Base World

/-! ### The columns -/

namespace InvoiceCreate

variable {payload : InvoiceCreate} {e : DbError}

/-- **Every number of the invoice fits its column.** -/
structure FitsColumns (payload : InvoiceCreate) : Prop where
  quantity : ∀ li ∈ payload.lineItems, li.quantity < 2 ^ 31
  unitAmount : ∀ li ∈ payload.lineItems, li.unitAmountCents < 2 ^ 63
  amount : ∀ li ∈ payload.lineItems, li.amountCents < 2 ^ 63
  total : payload.totalCents < 2 ^ 63

/-- The quantities and the total are in range. -/
def InRange (payload : InvoiceCreate) : Prop :=
  (∀ li ∈ payload.lineItems, li.quantity < 2 ^ 31) ∧ payload.totalCents < 2 ^ 63

/-- The descriptions are texts for the server. -/
def Legible (payload : InvoiceCreate) : Prop :=
    ∀ li ∈ payload.lineItems, nul ∉ li.description.toList

/-- **The error with which the invoice is refused**: one for a number, or one for a description. -/
def Refused (payload : InvoiceCreate) (e : DbError) : Prop :=
  e = .numericValueOutOfRange ∧ ¬payload.InRange ∨ e = .characterNotInRepertoire ∧ ¬payload.Legible

/-- A payload that is refused is out of range or has a text with `U+0000`. -/
theorem Refused.not (h : payload.Refused e) : ¬(payload.InRange ∧ payload.Legible) := by
  rcases h with ⟨-, hnot⟩ | ⟨-, hnot⟩
  · exact fun h => hnot h.1
  · exact fun h => hnot h.2

theorem amountCents_nonneg (li : InvoiceLineItemCreate) : 0 ≤ li.amountCents :=
  Int.mul_nonneg li.quantityPos.le li.unitAmountNonneg

/-- A unit costs no more than the item, of which there is at least one. -/
theorem unitAmountCents_le (li : InvoiceLineItemCreate) : li.unitAmountCents ≤ li.amountCents := by
  have h := Int.mul_le_mul_of_nonneg_right (show 1 ≤ li.quantity from li.quantityPos)
    li.unitAmountNonneg
  rwa [Int.one_mul] at h

/-- An item costs no more than the invoice. -/
theorem amountCents_le_totalCents {li : InvoiceLineItemCreate} (h : li ∈ payload.lineItems) :
    li.amountCents ≤ payload.totalCents :=
  List.single_le_sum (fun _ hx => by
    obtain ⟨li, -, rfl⟩ := List.mem_map.mp hx
    exact amountCents_nonneg li) _ (List.mem_map_of_mem h)

theorem totalCents_nonneg (payload : InvoiceCreate) : 0 ≤ payload.totalCents :=
  List.sum_nonneg fun _ hx => by
    obtain ⟨li, -, rfl⟩ := List.mem_map.mp hx
    exact amountCents_nonneg li

/-- The amounts are no greater than the total, and the unit amounts no greater than the amounts. -/
theorem fitsColumns_iff : payload.FitsColumns ↔ payload.InRange := by
  refine ⟨fun h => ⟨h.quantity, h.total⟩, ?_⟩
  rintro ⟨hquantity, htotal⟩
  have hamount : ∀ li ∈ payload.lineItems, li.amountCents < 2 ^ 63 := fun li hli =>
    lt_of_le_of_lt (amountCents_le_totalCents hli) htotal
  exact ⟨hquantity, fun li hli => lt_of_le_of_lt (unitAmountCents_le li) (hamount li hli), hamount,
    htotal⟩

end InvoiceCreate

/-- A number that is refused and not too small is too large. -/
theorem SignedInt.ofInt?_eq_none {bits : ℕ} {z : ℤ} (hlower : -2 ^ (bits - 1) ≤ z)
    (h : SignedInt.ofInt? bits z = none) : 2 ^ (bits - 1) ≤ z := by
  unfold SignedInt.ofInt? at h
  split at h
  · exact absurd h (by simp)
  · next hrange => exact not_lt.mp fun hlt => hrange ⟨hlower, hlt⟩

/-- The invoice is refused exactly for its total. -/
theorem CreateCall.row_newInvoice (c : CreateCall) (id : Uuid) (now : Timestamp) :
    (∃ v, c.newInvoice.row id now = .ok v ∧ v.totalCents.val = c.payload.totalCents) ∧
        c.payload.totalCents < 2 ^ 63 ∨
      c.newInvoice.row id now = .error .outOfRange ∧ ¬ c.payload.totalCents < 2 ^ 63 := by
  have hnonneg := c.payload.totalCents_nonneg
  unfold NewInvoice.row
  split
  · next total htotal =>
    have htotal : total.val = c.payload.totalCents := SignedInt.ofInt?_eq_some.mp htotal
    rw [dif_pos (by rw [htotal]; exact hnonneg)]
    exact Or.inl ⟨⟨_, rfl, htotal⟩, htotal ▸ total.upper⟩
  · next htotal =>
    refine Or.inr ⟨rfl, not_lt.mpr (SignedInt.ofInt?_eq_none ?_ htotal)⟩
    exact le_trans (by decide) hnonneg

/-- A line item of the payload, as it is inserted. -/
def InvoiceLineItemCreate.newLineItem (li : InvoiceLineItemCreate) : NewLineItem :=
  { description := li.description, quantity := li.quantity
    unitAmountCents := li.unitAmountCents, amountCents := li.amountCents }

theorem textError_of_nul {text : String} (h : nul ∈ text.toList) :
    textError [text] = .characterNotInRepertoire := by
  simp [textError, h]

/-- A line item is refused for its numbers or for its description. -/
theorem InvoiceLineItemCreate.row_newLineItem (li : InvoiceLineItemCreate) (i id : Uuid)
    (now : Timestamp) :
    (∃ row, li.newLineItem.row i id now = .ok row) ∧ li.quantity < 2 ^ 31 ∧
        nul ∉ li.description.toList ∨
      li.newLineItem.row i id now = .error .outOfRange ∧
        ¬ (li.quantity < 2 ^ 31 ∧ li.amountCents < 2 ^ 63) ∨
      li.newLineItem.row i id now = .error (.unstorable [li.description]) ∧
        nul ∈ li.description.toList := by
  have hunit := InvoiceCreate.unitAmountCents_le li
  have hamount := InvoiceCreate.amountCents_nonneg li
  have hlower : ∀ {z : ℤ} (bits : ℕ), 0 ≤ z → -2 ^ (bits - 1) ≤ z := fun bits hz =>
    le_trans (Int.neg_nonpos_of_nonneg (Int.pow_nonneg (by decide))) hz
  simp only [NewLineItem.row, newLineItem]
  cases hq : SignedInt.ofInt? 32 li.quantity with
  | none =>
    have hge := SignedInt.ofInt?_eq_none (hlower 32 li.quantityPos.le) hq
    exact Or.inr (Or.inl ⟨by split <;> simp_all, fun h => absurd h.1 (not_lt.mpr hge)⟩)
  | some quantity =>
    cases hu : SignedInt.ofInt? 64 li.unitAmountCents with
    | none =>
      have hge := SignedInt.ofInt?_eq_none (hlower 64 li.unitAmountNonneg) hu
      exact Or.inr (Or.inl ⟨by split <;> simp_all, fun h =>
        absurd h.2 (not_lt.mpr (le_trans hge hunit))⟩)
    | some unitAmount =>
      cases ha : SignedInt.ofInt? 64 li.amountCents with
      | none =>
        have hge := SignedInt.ofInt?_eq_none (hlower 64 hamount) ha
        exact Or.inr (Or.inl ⟨by split <;> simp_all, fun h => absurd h.2 (not_lt.mpr hge)⟩)
      | some amount =>
        -- the checks of the table are those of the schema
        have hq := SignedInt.ofInt?_eq_some.mp hq
        have hu := SignedInt.ofInt?_eq_some.mp hu
        have ha := SignedInt.ofInt?_eq_some.mp ha
        have hmatches : amount.val = quantity.val * unitAmount.val := by
          rw [ha, hq, hu]
          rfl
        cases hd : Varchar.ofString? 500 li.description with
        | none =>
          refine Or.inr (Or.inr ⟨rfl, ?_⟩)
          by_contra hnul
          exact Varchar.ofString?_eq_none.mp hd ⟨li.descriptionLength.2, hnul⟩
        | some description =>
          have hstores := Varchar.ofString?_eq_some.mp hd ▸ description.fits
          refine Or.inl ⟨?_, hq ▸ quantity.upper, hstores.2⟩
          dsimp only
          rw [dif_pos hmatches, dif_pos (hq ▸ li.quantityPos), dif_pos (hu ▸ li.unitAmountNonneg)]
          exact ⟨_, rfl⟩

/-- The line items are refused exactly for their numbers and their descriptions. -/
theorem buildRows_newLineItems (items : List InvoiceLineItemCreate) (i : Uuid) (now : Timestamp)
    (ids : ℕ → Uuid) (k : ℕ) :
    (∃ rows, buildRows (fun (n : NewLineItem) id => n.row i id now) ids k
        (items.map InvoiceLineItemCreate.newLineItem) = .ok rows) ∧
        (∀ li ∈ items, li.quantity < 2 ^ 31 ∧ nul ∉ li.description.toList) ∨
      buildRows (fun (n : NewLineItem) id => n.row i id now) ids k
        (items.map InvoiceLineItemCreate.newLineItem) = .error .outOfRange ∧
        (¬ ∀ li ∈ items, li.quantity < 2 ^ 31 ∧ li.amountCents < 2 ^ 63) ∨
      ∃ li ∈ items, buildRows (fun (n : NewLineItem) id => n.row i id now) ids k
        (items.map InvoiceLineItemCreate.newLineItem) = .error (.unstorable [li.description]) ∧
        nul ∈ li.description.toList := by
  induction items generalizing k with
  | nil => exact Or.inl ⟨⟨[], rfl⟩, by simp⟩
  | cons li items ih =>
    simp only [List.map_cons, buildRows, List.forall_mem_cons]
    rcases li.row_newLineItem i (ids k) now with ⟨⟨row, hrow⟩, hitem⟩ | ⟨hrow, hout⟩ | ⟨hrow, hnul⟩
    · rcases ih (k + 1) with ⟨⟨rows, hrows⟩, hitems⟩ | ⟨hrows, hout⟩ | ⟨li', hli', hrows, hnul⟩
      · exact Or.inl ⟨⟨row :: rows, by simp only [hrow, hrows]⟩, hitem, hitems⟩
      · exact Or.inr (Or.inl ⟨by simp only [hrow, hrows], fun h => hout h.2⟩)
      · exact Or.inr (Or.inr ⟨li', List.mem_cons_of_mem _ hli', by simp only [hrow, hrows], hnul⟩)
    · exact Or.inr (Or.inl ⟨by simp only [hrow], fun h => hout h.1⟩)
    · exact Or.inr (Or.inr ⟨li, List.mem_cons_self, by simp only [hrow], hnul⟩)

/-! ### The request -/

/-- **How a request to create an invoice ends**: with the invoice and its exact total, or with an
error of the database, as its numbers and descriptions can be stored or not. -/
def CreateCall.Ends (c : CreateCall) (w : World) (x : Except Exc Result) : Prop :=
  (c.payload.InRange ∧ c.payload.Legible) ∧ (∃ v items, x = .ok (.invoice (v, items)) ∧
      v.totalCents.val = c.payload.totalCents ∧ w.db.totalOf v.id = some v.totalCents) ∨
    ∃ e, c.payload.Refused e ∧ x = .error (.db e)

/-- What the points of the request know of the payload. -/
def CreatePoint.Sized (w : World) (c : CreateCall) : CreatePoint → Prop
  | readCustomer => w.db.HasCustomer c.business.id c.payload.customerId
  | insert => True
  | insertItems _ => c.payload.totalCents < 2 ^ 63
  | listEndpoints _ | readClock .. | outbox .. | reselect .. =>
    c.payload.InRange ∧ c.payload.Legible
  | commit v _ x =>
    (c.payload.InRange ∧ c.payload.Legible) ∧ x.1.id = v.id ∧ x.1.totalCents = v.totalCents
  | closing x | done x => c.Ends w x

section Request

variable {w w' : World} {p : Pid} {c : CreateCall}

/-- What the answer to the insert of the invoice tells of its total. -/
theorem CreateCall.answers_insertInvoice_total {r : Except DbError Invoice}
    (hans : w.Answers p (.insertInvoice c.newInvoice) r w') :
    (∃ v, r = .ok v) ∧ c.payload.totalCents < 2 ^ 63 ∨
      r = .error .numericValueOutOfRange ∧ ¬ c.payload.totalCents < 2 ^ 63 := by
  cases hans with
  | fail e h => cases h
  | exec env h =>
    have h := (exec_eq_some.mp h).2
    simp only [perform, insertInvoice] at h
    rcases c.row_newInvoice (env.ids 0) env.now with ⟨⟨v, hrow, -⟩, hlt⟩ | ⟨hrow, hnot⟩
    · simp only [hrow] at h
      split at h
      · exact Or.inl ⟨⟨v, (Prod.mk.inj (Option.some.inj h)).1.symm⟩, hlt⟩
      · cases h
    · simp only [hrow] at h
      exact Or.inr ⟨(Prod.mk.inj (Option.some.inj h)).1.symm, hnot⟩

/-- What the answer to the insert of the line items tells of the payload. -/
theorem CreateCall.answers_insertLineItems_storable {i : Uuid} {r : Except DbError Unit}
    (hans : w.Answers p (.insertLineItems i c.payload.newLineItems) r w')
    (htotal : c.payload.totalCents < 2 ^ 63) :
    r = .ok () ∧ c.payload.InRange ∧ c.payload.Legible ∨
      ∃ e, r = .error e ∧ c.payload.Refused e := by
  cases hans with
  | fail e h => cases h
  | exec env h =>
    have h := (exec_eq_some.mp h).2
    simp only [perform, insertLineItems] at h
    rcases buildRows_newLineItems c.payload.lineItems i env.now env.ids 0 with
      ⟨⟨rows, hrows⟩, hitems⟩ | ⟨hrows, hnot⟩ | ⟨li, hli, hrows, hnul⟩
    · rw [show c.payload.newLineItems = c.payload.lineItems.map InvoiceLineItemCreate.newLineItem
        from rfl, hrows] at h
      dsimp only at h
      split at h
      · exact Or.inl ⟨(Prod.mk.inj (Option.some.inj h)).1.symm,
          ⟨fun li hli => (hitems li hli).1, htotal⟩, fun li hli => (hitems li hli).2⟩
      · cases h
    · rw [show c.payload.newLineItems = c.payload.lineItems.map InvoiceLineItemCreate.newLineItem
        from rfl, hrows] at h
      refine Or.inr ⟨_, (Prod.mk.inj (Option.some.inj h)).1.symm, Or.inl ⟨rfl, fun hrange => ?_⟩⟩
      exact hnot fun li hli =>
        ⟨hrange.1 li hli, (InvoiceCreate.fitsColumns_iff.mpr hrange).amount li hli⟩
    · rw [show c.payload.newLineItems = c.payload.lineItems.map InvoiceLineItemCreate.newLineItem
        from rfl, hrows] at h
      refine Or.inr ⟨_, (Prod.mk.inj (Option.some.inj h)).1.symm,
        Or.inr ⟨textError_of_nul hnul, ?_⟩⟩
      exact fun hlegible => hlegible li hli hnul

/-- The session sees the invoice with the total of the payload. -/
theorem CreateCall.Creating.totalOf_view {v : Invoice} {endpoints : List WebhookEndpoint}
    {rest : List Write} (h : c.Creating w p v rest) (hcons : w.Consistent)
    (hrest : v.Outbox endpoints rest) :
    (w.view p).totalOf v.id = some v.totalCents ∧ v.totalCents.val = c.payload.totalCents := by
  obtain ⟨⟨now, hmade⟩, -, rows, -, hwrites⟩ := h
  have hfits := hcons.fits p
  rw [hwrites] at hfits
  have hnone : w.db.invoices.find? v.id = none := hfits.find?_invoice_eq_none (by simp)
  constructor
  · rw [World.view, hwrites]
    refine (Database.totalOf_insert hnone hrest.keepsTotals v.id).trans ?_
    rw [if_pos rfl]
  · rcases c.row_newInvoice v.id now with ⟨⟨v', hrow, htotal⟩, -⟩ | ⟨hrow, -⟩
    · rw [Except.ok.inj (hmade.symm.trans hrow), htotal]
    · exact absurd (hmade.symm.trans hrow) (by simp)

/-- **A step of the request** hands over what is known of the numbers. -/
theorem CreatePoint.Sized.step {pt : CreatePoint} {st : Stmt} {next : st.Resp → CreatePoint}
    {r : st.Resp} (h : pt.Sized w c) (hholds : pt.Holds w p c) (hcons : w.Consistent)
    (hout : pt.out c = .op st next) (hans : w.Answers p st r w') : (next r).Sized w' c := by
  cases pt with
  | readCustomer =>
    cases hout
    obtain ⟨⟨env, hr⟩, rfl⟩ := answers_select hans
    rcases r with _ | customer
    · -- the customer is there
      obtain ⟨customer, hfind, hb⟩ := h
      have hview : w'.view p = w'.db := by rw [World.view, hholds]; rfl
      rw [hview] at hr
      simp [Database.eval, hfind, hb, Option.filter] at hr
    · trivial
  | insert =>
    cases hout
    rcases c.answers_insertInvoice_total hans with ⟨⟨v, rfl⟩, htotal⟩ | ⟨rfl, hnot⟩
    · exact htotal
    · exact Or.inr ⟨_, Or.inl ⟨rfl, fun hrange => hnot hrange.2⟩, rfl⟩
  | insertItems v =>
    cases hout
    rcases c.answers_insertLineItems_storable hans h with ⟨rfl, hstorable⟩ | ⟨e, rfl, hrefused⟩
    · exact hstorable
    · exact Or.inr ⟨e, hrefused, rfl⟩
  | listEndpoints v =>
    cases hout
    rcases r with _ | ⟨e, es⟩
    · exact h
    · exact h
  | readClock v endpoints =>
    cases hout
    exact h
  | outbox v endpoints now =>
    cases hout
    obtain ⟨rfl, -⟩ := answers_insertDeliveries hans
    exact h
  | reselect v endpoints =>
    cases hout
    obtain ⟨⟨env, hr⟩, rfl⟩ := answers_select hans
    obtain ⟨-, rest, hrest, hcreating⟩ := hholds
    obtain ⟨htotal, -⟩ := hcreating.totalOf_view hcons hrest
    obtain ⟨row, hrow, htotal⟩ := Option.map_eq_some_iff.mp htotal
    have hid : row.id = v.id := (Table.find?_eq_some.mp hrow).2
    have hr : r = some ((w'.view p).withLineItems env.rank row) := by
      rw [hr]
      simp [Database.eval, hrow, Invoice.belongsTo, Option.filter]
      rfl
    rw [hr]
    exact ⟨h, hid, htotal⟩
  | commit v endpoints x =>
    cases hout
    obtain rfl := answers_commit hans
    obtain ⟨hstorable, hid, htotal⟩ := h
    obtain ⟨-, rest, hrest, hcreating⟩ := hholds
    obtain ⟨hview, hval⟩ := hcreating.totalOf_view hcons hrest
    refine Or.inl ⟨hstorable, x.1, x.2, rfl, htotal ▸ hval, ?_⟩
    rw [hid, htotal]
    exact hview
  | closing x =>
    cases hout
    obtain rfl := answers_rollback hans
    exact h
  | done x => cases hout

end Request

section Runs

variable {crypto : Crypto} {s t : System} {φ φ' : Pid → Phase} {e : Event}

theorem System.Sound.totalOf (h : s.Sound crypto φ) (hmove : s.Moves crypto φ e t φ') {i : Uuid}
    {total : BigInt} (htotal : s.world.db.totalOf i = some total) :
    t.world.db.totalOf i = some total := by
  rcases h.commit_or hmove with ⟨hdb, -, -⟩ | ⟨p, ph, -, ht, -, -⟩
  · rwa [hdb]
  · rw [ht]
    exact Database.totalOf_applyAll_of_some _ htotal

/-- What a creation has ended with stays so. -/
theorem CreateCall.Ends.move {c : CreateCall} {x : Except Exc Result} (hx : c.Ends s.world x)
    (h : s.Sound crypto φ) (hmove : s.Moves crypto φ e t φ') : c.Ends t.world x := by
  rcases hx with ⟨hstorable, v, items, rfl, hval, htotal⟩ | hx
  · exact Or.inl ⟨hstorable, v, items, rfl, hval, h.totalOf hmove htotal⟩
  · exact Or.inr hx

theorem CreateCall.kept (crypto : Crypto) (c : CreateCall) :
    System.Kept crypto (CreatePoint.out c)
      (fun w p pt => pt.Holds w p c ∧ pt.Sized w c) c.Ends where
  own s φ p pt st next r w' h ho _ hpt hout hans :=
    ⟨hpt.1.step h.consistent hout hans, hpt.2.step hpt.1 h.consistent hout hans⟩
  others s t φ φ' e p pt h ho hmove hothers hf hpt := by
    refine ⟨hpt.1.frame hf.writes (h.grows hmove), ?_⟩
    cases pt with
    | readCustomer => exact hpt.2.grows (h.grows hmove)
    | closing x => exact hpt.2.move h hmove
    | done x => exact hpt.2.move h hmove
    | _ => exact hpt.2
  ret w p pt x hpt hout := by
    cases pt with
    | done y =>
      cases hout
      exact hpt.2
    | _ => cases hout
  returned s t φ φ' e x h hmove hx := hx.move h hmove

/-- How many statements the request has still to issue. -/
def CreatePoint.remaining : CreatePoint → ℕ
  | readCustomer => 9
  | insert => 8
  | insertItems _ => 7
  | listEndpoints _ => 6
  | readClock .. => 5
  | outbox .. => 4
  | reselect .. => 3
  | commit .. => 2
  | closing _ => 1
  | done _ => 0

/-- A creation comes nearer to its end with every statement. -/
theorem CreatePoint.remaining_next {c : CreateCall} {pt : CreatePoint} {st : Stmt}
    {next : st.Resp → CreatePoint} (hout : pt.out c = .op st next) (r : st.Resp) :
    (next r).remaining < pt.remaining := by
  cases pt with
  | done x => cases hout
  | listEndpoints v =>
    cases hout
    rcases r with _ | ⟨e, es⟩
    · exact (by decide : 3 < 6)
    · exact (by decide : 5 < 6)
  | readCustomer | insert | insertItems v | outbox v endpoints now | reselect v endpoints =>
    cases hout
    cases r <;> simp [remaining]
  | _ =>
    cases hout
    simp [remaining]

/-- The request never waits. -/
theorem CreatePoint.blockers_eq_nil {c : CreateCall} {pt : CreatePoint} {st : Stmt}
    {next : st.Resp → CreatePoint} (hout : pt.out c = .op st next) (w : World) (p : Pid) :
    w.blockers p st = [] := by
  cases pt with
  | done x => cases hout
  | _ =>
    cases hout
    rfl

/-- The request has just arrived. -/
theorem CreateCall.at_start (hs : s.Reachable crypto) (c : CreateCall)
    (hcustomer : s.world.db.HasCustomer c.business.id c.payload.customerId)
    (hstart : s.step crypto (.start (.request c.business (.createInvoice c.payload))) = some t) :
    System.At (CreatePoint.out c) (fun w p pt =>
      pt.Holds w p c ∧ pt.Sized w c) c.Ends t s.procs.length
      ⟨.request c.business (.createInvoice c.payload),
        Job.program crypto (.request c.business (.createInvoice c.payload)),
          true⟩ .readCustomer := by
  obtain rfl := Option.some.inj hstart
  obtain ⟨φ, h⟩ := hs.sound
  exact .of_alive (c.kept crypto) List.getElem?_concat_length (tracks_create crypto c)
    ⟨h.idle_new.writes, hcustomer⟩

/-- **How every run of the request ends.** -/
theorem CreateCall.ends (hs : s.Reachable crypto) (c : CreateCall)
    (hcustomer : s.world.db.HasCustomer c.business.id c.payload.customerId) {u : System}
    (hstart : s.step crypto (.start (.request c.business (.createInvoice c.payload))) = some u)
    (hreach : Reaches (System.step crypto) Always u t) {x : Except Exc Result}
    (hx : t.returned? s.procs.length = some x) : c.Ends t.world x := by
  obtain ⟨proc, pt, hat, -⟩ := System.Reachable.holds_from (c.kept crypto) (hs.step hstart)
    (c.at_start hs hcustomer hstart) hreach
  exact hat.returned x ((returned?_eq_some hat.found).mp hx)

/-- **The invoice is created with its exact total**: its numbers fit their columns, the request
can be run to its end, and however it is run, it ends with the invoice. -/
structure CreatesExactly (crypto : Crypto) (s : System) (business : Business)
    (payload : InvoiceCreate) : Prop where
  fits : payload.FitsColumns
  returns : ∃ n envs t, run (System.step crypto) s
    (.start (.request business (.createInvoice payload)) ::
    alone s.procs.length n envs) = some t ∧ ∃ x, t.returned? s.procs.length = some x
  exact : ∀ u t x, s.step crypto (.start (.request business (.createInvoice payload))) = some u →
    Reaches (System.step crypto) Always u t → t.returned? s.procs.length = some x →
      ∃ v items, x = .ok (.invoice (v, items)) ∧ v.totalCents.val = payload.totalCents ∧
        t.world.db.totalOf v.id = some v.totalCents

/-- **An invoice is created with its exact total exactly if every quantity is below `2 ^ 31`, the
total is below `2 ^ 63` and no description has a `U+0000`**; otherwise every run of the request
fails with an error of the database, which tells which of the two it is. -/
theorem invoice_fits_iff (hs : s.Reachable crypto) (business : Business) (payload : InvoiceCreate)
    (hcustomer : s.world.db.HasCustomer business.id payload.customerId) :
    (CreatesExactly crypto s business payload ↔
      ((∀ li ∈ payload.lineItems, li.quantity < 2 ^ 31) ∧ payload.totalCents < 2 ^ 63) ∧
        ∀ li ∈ payload.lineItems, nul ∉ li.description.toList) ∧
    (¬ (((∀ li ∈ payload.lineItems, li.quantity < 2 ^ 31) ∧ payload.totalCents < 2 ^ 63) ∧
        ∀ li ∈ payload.lineItems, nul ∉ li.description.toList) →
      ∀ u t x, s.step crypto (.start (.request business (.createInvoice payload))) = some u →
        Reaches (System.step crypto) Always u t → t.returned? s.procs.length = some x →
          ∃ e, payload.Refused e ∧ x = .error (.db e)) := by
  let c : CreateCall := ⟨business, payload⟩
  have hends : ∀ u t x,
      s.step crypto (.start (.request business (.createInvoice payload))) = some u →
      Reaches (System.step crypto) Always u t → t.returned? s.procs.length = some x →
        c.Ends t.world x := fun u t x hstart hreach hx => c.ends hs hcustomer hstart hreach hx
  have hreturns : ∃ n envs t, run (System.step crypto) s (.start
      (.request business (.createInvoice payload)) :: alone s.procs.length n envs) = some t ∧
        ∃ x, t.returned? s.procs.length = some x := by
    obtain ⟨u, hstart⟩ : ∃ u, s.step crypto (.start (.request business (.createInvoice payload))) =
      some u := ⟨_, rfl⟩
    obtain ⟨n, envs, t, -, hrun, hx⟩ := System.Reachable.exists_returned (c.kept crypto)
      (hs.step hstart) (c.at_start hs hcustomer hstart) .timeout
      (fun _ _ _ => CreatePoint.remaining_next)
      fun s _ _ _ _ _ _ _ _ hout => CreatePoint.blockers_eq_nil hout s.world _
    refine ⟨n, envs, t, ?_, hx⟩
    rw [run, hstart]
    exact hrun
  refine ⟨⟨fun h => ?_, fun hstorable => ?_⟩, fun hnot u t x hstart hreach hx => ?_⟩
  · -- the request can be run to its end, which then is not a refusal
    obtain ⟨n, envs, t, hrun, x, hx⟩ := hreturns
    obtain ⟨u, hu, hrun⟩ := Option.bind_eq_some_iff.mp hrun
    obtain ⟨v, items, rfl, -⟩ := h.exact u t x hu (reaches_of_run hrun) hx
    rcases hends u t _ hu (reaches_of_run hrun) hx with ⟨hstorable, -⟩ | ⟨e, -, ⟨⟩⟩
    exact hstorable
  · refine ⟨InvoiceCreate.fitsColumns_iff.mpr hstorable.1, hreturns, fun u t x hstart hreach hx =>
      ?_⟩
    rcases hends u t x hstart hreach hx with ⟨-, hok⟩ | ⟨e, hrefused, -⟩
    · exact hok
    · exact absurd hstorable hrefused.not
  · rcases hends u t x hstart hreach hx with ⟨hstorable, -⟩ | herror
    · exact absurd hstorable hnot
    · exact herror

/-- The business registers a customer. -/
def registering : List Event :=
  [.request (.createCustomer "Ada" "ada@example.com")] ++ Event.steps 0 3

def registered : System := (run (System.step sampleCrypto) .init registering).get
    (by decide +kernel)

theorem registered_reachable : registered.Reachable sampleCrypto :=
  reaches_of_run (Option.some_get _).symm

theorem registered_customer : registered.world.db.HasCustomer sampleBusiness.id 0 := by
  have h : (registered.world.db.customers.find? 0).any (fun c => c.businessId = sampleBusiness.id) =
      true := by decide +kernel
  obtain ⟨c, hc, hb⟩ := (Option.any_eq_true _ _).mp h
  exact ⟨c, hc, of_decide_eq_true hb⟩

/-- An order of so many sheets at one cent. -/
def sheets (quantity : ℤ) (h : 0 < quantity) : InvoiceCreate :=
  ⟨0, none, [⟨"sheets", quantity, 1, by decide, h, Int.one_nonneg⟩], List.cons_ne_nil _ _⟩

/-- A thousand sheets are invoiced for a customer of the business. -/
theorem invoice_fits_registered :
    CreatesExactly sampleCrypto registered sampleBusiness (sheets 1000 (by decide)) := by
  refine (invoice_fits_iff registered_reachable sampleBusiness _ registered_customer).1.mpr
    ⟨⟨?_, by decide⟩, ?_⟩
  · rintro li hli
    rw [List.mem_singleton.mp hli]
    decide
  · rintro li hli
    rw [List.mem_singleton.mp hli]
    decide

/-- The order of `2 ^ 31` sheets arrives. -/
def ordering : System :=
  (registered.step sampleCrypto (.request (.createInvoice (sheets (2 ^ 31) (by decide))))).get
    (by decide +kernel)

def ordered : System := (run (System.step sampleCrypto) ordering (Event.steps 1 4)).get
    (by decide +kernel)

/-- `2 ^ 31` sheets are admitted by the schema, and no invoice is made of them. -/
theorem not_invoice_fits : ¬ ∀ (s : System) (business : Business) (payload : InvoiceCreate),
    s.Reachable sampleCrypto → s.world.db.HasCustomer business.id payload.customerId →
      CreatesExactly sampleCrypto s business payload := by
  intro h
  have hraised : ordered.raised? registered.procs.length = some (.db .numericValueOutOfRange) := by
    decide +kernel
  have hreach : Reaches (System.step sampleCrypto) Always ordering ordered :=
    reaches_of_run (Option.some_get _).symm
  obtain ⟨v, items, hx, -⟩ := (h registered sampleBusiness (sheets (2 ^ 31) (by decide))
    registered_reachable registered_customer).exact ordering ordered _
      (Option.some_get _).symm hreach (System.raised?_eq_some.mp hraised)
  exact absurd hx (by simp)

end Runs

end TenantBilling
