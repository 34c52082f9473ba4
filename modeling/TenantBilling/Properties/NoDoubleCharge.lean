import TenantBilling.Invariant.Calls
import TenantBilling.Properties.Conditions

/-!
# No double charge

All calls of the provider for an invoice but the last have been declined: this is what
keeps a customer from being charged twice. Pending attempts exclude each other, and an
invoice with a successful charge is not open, so that no further attempt gets through.
The second fact is broken by a `finalize` that has read a draft before another one
opened it, and writes `open` again after the payment
(`TenantBilling.not_no_double_charge`). In runs in which no `UPDATE` reopens a charged
invoice it holds, and with it the result (`TenantBilling.no_double_charge`).
-/

namespace TenantBilling

open Base World

/-- An `UPDATE` that opens an invoice does not find it charged. -/
def OpensUncharged (db : Database) (i : Uuid) (state : InvoiceState) : Prop :=
  state = .open → ¬db.Charged i

instance (db : Database) (i : Uuid) (state : InvoiceState) :
    Decidable (OpensUncharged db i state) :=
  inferInstanceAs (Decidable (_ → _))

/-- The condition on the steps; that the provider answers `succeeded` or `failed`, if it
answers with a status, is assumed of it. -/
def ReopensNoCharged (s : System) (e : Event) : Prop :=
  WhenUpdating OpensUncharged s e ∧ WhenAnswering HttpResult.Reports s e

instance (s : System) (e : Event) : Decidable (ReopensNoCharged s e) :=
  inferInstanceAs (Decidable (_ ∧ _))

/-- The charge has been declined. -/
def Charge.Failed (x : Charge) : Prop := ∃ http, x.result = some http ∧ http.Says "failed"

instance (x : Charge) : Decidable x.Failed :=
  decidable_of_iff (x.result.any fun http => http.Says "failed")
    (by simp [Charge.Failed, Option.any_eq_true])

/-- The outcome of the charge, if there is one yet, is one that the provider reports. -/
def Charge.Reported (x : Charge) : Prop := ∀ http, x.result = some http → http.Reports

section Runs

variable {crypto : Crypto} {s t : System} {φ φ' : Pid → Phase} {e : Event}

/-- Charged invoices are not open and have no pending attempt, now and when the uncommitted
changes are committed. -/
structure ChargedClosed (w : World) : Prop where
  state : ∀ i, w.db.Charged i → w.db.stateOf i ≠ some .open
  pending : ∀ a ∈ w.db.attempts, a.status = .pending → ¬w.db.Charged a.invoiceId
  updates : WhilePending OpensUncharged w

theorem chargedClosed_init : ChargedClosed World.init where
  state i h := by
    obtain ⟨a, ha, -⟩ := h
    exact absurd ha (Table.not_mem_empty a)
  pending a ha := absurd ha (Table.not_mem_empty a)
  updates p i state now h := by cases h

/-- An invoice that has been charged is not opened again. -/
theorem ChargedClosed.state_move (h : s.Sound crypto φ) (hI : ChargedClosed s.world)
    (hmove : s.Moves crypto φ e t φ') (i : Uuid) (hi : t.world.db.Charged i) :
    t.world.db.stateOf i ≠ some .open := by
  rcases h.commit_or hmove with ⟨hdb, -, -⟩ | ⟨p, ph, -, -, -, hcommits⟩
  · rw [hdb] at hi ⊢
    exact hI.state i hi
  generalize hph : φ p = ph' at hcommits
  -- what becomes charged is paid in the same commit, and nothing else opens a charged invoice
  cases hcommits with
  | reserve hholds hattempts hstate =>
    rw [hstate]
    exact hI.state i ((charged_insert hholds.2.2.2.made.status hattempts i).mp hi)
  | paid hgood houtcome hresult hbind hrest htx hattempts hstate =>
    rw [hstate]
    split
    · simp
    case isFalse hne =>
      rcases (charged_update hgood.2.2 hgood.2.1.status hattempts i).mp hi with hi | ⟨rfl, -⟩
      · exact hI.state i hi
      · exact absurd hgood.2.1.invoiceId hne
  | unpaid hgood houtcome hpays hbind hrest htx hattempts hstate =>
    rw [hstate]
    rcases (charged_update hgood.2.2 hgood.2.1.status hattempts i).mp hi with hi | ⟨-, hs⟩
    · exact hI.state i hi
    · exact absurd hs (not_succeeded_of_not_pays hpays hbind)
  | @transition c v x now hchecked htx hattempts hstate =>
    have hi' : s.world.db.Charged i := by
      obtain ⟨a, ha, hrest⟩ := hi
      exact ⟨a, hattempts ▸ ha, hrest⟩
    rw [hstate]
    split
    case isTrue heq =>
      intro hopen
      -- the transition has not opened a charged invoice when it wrote
      have hmem : .updateInvoice c.invoiceId c.target now ∈ s.world.writesOf p := by
        rw [htx.writes]
        exact List.mem_singleton_self _
      exact hI.updates p _ _ _ hmem (Option.some.inj hopen) (heq ▸ hi')
    case isFalse => exact hI.state i hi'
  | other hwrites hattempts hstate =>
    have hi' : s.world.db.Charged i := by
      obtain ⟨a, ha, hrest⟩ := hi
      exact ⟨a, hattempts ▸ ha, hrest⟩
    rcases hstate i with heq | ⟨hnone, -⟩
    · rw [heq]
      exact hI.state i hi'
    · obtain ⟨a, ha, rfl, -⟩ := hi'
      exact absurd hnone (Database.stateOf_ne_none.mpr (h.invoice a ha))

/-- An invoice that has been charged has no pending attempt. -/
theorem ChargedClosed.pending_move (h : s.Sound crypto φ) (hI : ChargedClosed s.world)
    (hmove : s.Moves crypto φ e t φ') :
    ∀ b ∈ t.world.db.attempts, b.status = .pending → ¬t.world.db.Charged b.invoiceId := by
  rcases h.commit_or hmove with ⟨hdb, -, -⟩ | ⟨p, ph, -, -, -, hcommits⟩
  · rw [hdb]
    exact hI.pending
  intro b hb hpending hi
  generalize hph : φ p = ph' at hcommits
  cases hcommits with
  | @reserve c v a hholds hattempts hstate =>
    have hi' := (charged_insert hholds.2.2.2.made.status hattempts _).mp hi
    rw [hattempts] at hb
    rcases Table.of_mem_insert hb with hb | rfl
    · exact hI.pending b hb hpending hi'
    · -- the attempt is inserted while the invoice is open
      refine hI.state _ hi' ?_
      rw [hholds.2.2.2.made.invoiceId, Database.stateOf, hholds.2.2.1]
      exact congrArg some hholds.2.1.isOpen
  | @paid c a _ _ _ update now _ _ hgood houtcome hresult hbind hrest htx hattempts hstate =>
    rw [hattempts] at hb
    obtain ⟨b', hb', rfl⟩ := Table.mem_update.mp hb
    have hsucceeded : (a.update update now).status = .succeeded := by
      simp [PaymentAttempt.update, AttemptChange.bind_status hbind, succeededChange]
    by_cases hid : b'.id = a.id
    · obtain rfl : b' = a := Table.eq_of_key_eq hb' (Table.find?_eq_some.mp hgood.2.2).1 hid
      rw [if_pos rfl, hsucceeded] at hpending
      cases hpending
    · rw [if_neg hid] at hpending hi
      rcases (charged_update hgood.2.2 hgood.2.1.status hattempts _).mp hi with hi | ⟨hsame, -⟩
      · exact hI.pending b' hb' hpending hi
      · -- no other attempt on the invoice is pending
        refine hid (congrArg _ (h.pending b' hb' a (Table.find?_eq_some.mp hgood.2.2).1 ?_))
        simp [PaymentAttempt.samePending, hsame, hpending, hgood.2.1.status]
  | @unpaid c a _ _ _ update now _ hgood houtcome hpays hbind hrest htx hattempts hstate =>
    rw [hattempts] at hb
    obtain ⟨b', hb', rfl⟩ := Table.mem_update.mp hb
    have hi' : s.world.db.Charged b'.invoiceId := by
      have hinvoice : (if b'.id = a.id then b'.update update now else b').invoiceId =
        b'.invoiceId := by
        split <;> rfl
      rw [hinvoice] at hi
      rcases (charged_update hgood.2.2 hgood.2.1.status hattempts _).mp hi with hi | ⟨-, hs⟩
      · exact hi
      · exact absurd hs (not_succeeded_of_not_pays hpays hbind)
    split at hpending
    case isTrue hid =>
      obtain rfl : b' = a := Table.eq_of_key_eq hb' (Table.find?_eq_some.mp hgood.2.2).1 hid
      exact hI.pending b' hb' hgood.2.1.status hi'
    case isFalse hid => exact hI.pending b' hb' hpending hi'
  | transition hchecked htx hattempts hstate =>
    obtain ⟨a, ha, hrest⟩ := hi
    rw [hattempts] at ha hb
    exact hI.pending b hb hpending ⟨a, ha, hrest⟩
  | other hwrites hattempts hstate =>
    obtain ⟨a, ha, hrest⟩ := hi
    rw [hattempts] at ha hb
    exact hI.pending b hb hpending ⟨a, ha, hrest⟩

/-- Every step that reopens no charged invoice keeps the charged ones closed. -/
theorem ChargedClosed.move (h : s.Sound crypto φ) (hI : ChargedClosed s.world)
    (hC : WhenUpdating OpensUncharged s e) (hmove : s.Moves crypto φ e t φ') :
    ChargedClosed t.world := by
  refine ⟨fun i => hI.state_move h hmove i, hI.pending_move h hmove,
    hI.updates.move h hC hmove (fun _ _ _ => id) ?_⟩
  intro p q ph i state hlock hne hcommits hQ hopen hi
  rcases hcommits.charged hi with hi | hlock'
  · exact hQ hopen hi
  · rw [hlock] at hlock'
    exact hne (Option.some.inj hlock').symm

/-! ### The calls -/

/-- All calls for an invoice but the last have been declined, and all answers are those of
a provider. -/
structure CallsDeclined (s : System) : Prop where
  closed : ChargedClosed s.world
  reported : ∀ x ∈ s.world.charges, x.Reported
  declined : ∀ i, (s.chargesOn i).Pairwise fun x _ => x.Failed

/-- **When a call is made for an invoice, all earlier ones have been declined.** -/
theorem CallsDeclined.failed (h : s.Sound crypto φ) (hI : CallsDeclined s) {p : Pid} {c : PayCall}
    {v : Invoice} {a : PaymentAttempt} (hph : φ p = .pay c (.send v a)) {x : Charge}
    (hx : x ∈ s.chargesOn c.invoiceId) : x.Failed := by
  obtain ⟨hx, hon⟩ := List.mem_filter.mp hx
  obtain ⟨c', pt, b, hph', hmade, hb, hcases⟩ := h.charge_cases hx
  have hinvoice : c'.invoiceId = c.invoiceId := by
    rw [h.payCall?_eq_some.mpr ⟨pt, hph'⟩] at hon
    simpa using hon
  have hgood := h.forGood p
  rw [hph] at hgood
  obtain ⟨-, hmade', hfind⟩ := hgood
  have ha := (Table.find?_eq_some.mp hfind).1
  have hgood' := h.forGood x.pid
  rw [hph'] at hgood'
  change pt.progress.Holds crypto s.world x.pid c' at hgood'
  -- the attempt of the earlier call is not pending: that of the new one is
  have hother : ∀ b', s.world.db.attempts.find? b.id = some b' → b'.status ≠ .pending := by
    intro b' hfind' hpending
    obtain ⟨row, hrow, hadv⟩ := (h.forGood x.pid).row (by rw [hph']; exact hb)
    obtain rfl : row = b' := Option.some.inj (hrow.symm.trans hfind')
    have hsame : row = a := by
      refine h.pending row (Table.find?_eq_some.mp hrow).1 a ha ?_
      simp [PaymentAttempt.samePending, ← hadv.invoiceId, hmade.invoiceId, hmade'.invoiceId,
        hinvoice, hpending, hmade'.status]
    have hpid := h.owner x.pid p b a (by rw [hph']; exact hb) (by rw [hph]; rfl)
      (hadv.id.trans (congrArg _ hsame))
    have hnone : s.world.chargesOf p = [] := by
      have hgood := h.forGood p
      rw [hph] at hgood
      exact hgood.1
    have hmem : x ∈ s.world.chargesOf p := List.mem_filter.mpr ⟨hx, by simp [hpid]⟩
    rw [hnone] at hmem
    cases hmem
  rcases hcases with ⟨hg, -⟩ | ⟨http, hg, -⟩ | ⟨http, hg, hcharge⟩
  · rw [hg] at hgood'
    exact absurd hmade.status (hother b hgood'.2.2)
  · rw [hg] at hgood'
    exact absurd hmade.status (hother b hgood'.2.2)
  · rw [hg] at hgood'
    obtain ⟨-, -, update, now, ⟨outcome, houtcome, hbind⟩, hfind'⟩ := hgood'
    have hresult : x.result = some http := by rw [hcharge]; rfl
    have hstatus : update.status ≠ none := by
      intro hnone
      refine hother _ hfind' ?_
      simp [PaymentAttempt.update, hnone, hmade.status]
    rw [AttemptChange.bind_status hbind] at hstatus
    cases outcome with
    | error e => exact absurd rfl hstatus
    | ok result =>
      by_cases hs : result.Succeeded
      · rw [outcomeChange, if_pos hs] at hbind
        refine absurd ⟨_, (Table.find?_eq_some.mp hfind').1, ?_, ?_⟩
          (hI.closed.pending a ha hmade'.status)
        · exact hmade.invoiceId.trans (hinvoice.trans hmade'.invoiceId.symm)
        · simp [PaymentAttempt.update, AttemptChange.bind_status hbind, succeededChange]
      · exact ⟨http, hresult, (hI.reported x hx http hresult).failed houtcome hs⟩

/-- The outcome of a call is brought to it; the others are as they were. -/
def Charge.answer (p : Pid) (http : HttpResult) (x : Charge) : Charge :=
  if x.pid = p ∧ x.result.isNone then { x with result := some http } else x

theorem Charge.answer_pid (p : Pid) (http : HttpResult) (x : Charge) :
    (x.answer p http).pid = x.pid := by
  unfold Charge.answer
  split <;> rfl

theorem Charge.Failed.answer {x : Charge} (h : x.Failed) (p : Pid) (http : HttpResult) :
    (x.answer p http).Failed := by
  obtain ⟨http', hresult, hsays⟩ := h
  refine ⟨http', ?_, hsays⟩
  rw [Charge.answer, if_neg (by simp [hresult]), hresult]

/-- A call is made only after every earlier one on the invoice was declined. -/
theorem CallsDeclined.move (h : s.Sound crypto φ) (hI : CallsDeclined s) (hC : ReopensNoCharged s e)
    (hmove : s.Moves crypto φ e t φ') : CallsDeclined t := by
  have hclosed := hI.closed.move h hC.1 hmove
  have hfilter := hmove.chargesOn_of_charges h
  rcases h.charges_or hmove with hch | ⟨p, c, v, a, hp, hph, -, hch⟩ | ⟨p, env, rfl, hnext, hw⟩
  -- nothing is called and nothing is answered
  · refine ⟨hclosed, hch ▸ hI.reported, fun i => ?_⟩
    unfold System.chargesOn
    rw [hch, hfilter]
    exact hI.declined i
  · refine ⟨hclosed, ?_, fun i => ?_⟩
    · intro x hx
      rw [hch] at hx
      rcases List.mem_append.mp hx with hx | hx
      · exact hI.reported x hx
      · rw [List.mem_singleton.mp hx]
        rintro http hnone
        cases hnone
    · unfold System.chargesOn
      rw [hch, List.filter_append, hfilter, List.pairwise_append]
      refine ⟨hI.declined i, (List.pairwise_singleton _ _).sublist List.filter_sublist, ?_⟩
      intro x hx y hy
      obtain ⟨hy, hon⟩ := List.mem_filter.mp hy
      rw [List.mem_singleton.mp hy] at hon
      have hc := hmove.payCall? (h.payCall?_eq_some.mpr ⟨_, hph⟩)
      have hi : c.invoiceId = i := by simpa [PayCall.charge, hc] using hon
      -- the new call: all earlier ones on the invoice have failed
      exact hI.failed h hph (hi ▸ hx)
  · have hcharges : t.world.charges = s.world.charges.map (Charge.answer p env.http) := by
      rw [hw]
      rfl
    refine ⟨hclosed, ?_, fun i => ?_⟩
    · intro y hy http hhttp
      rw [hcharges] at hy
      obtain ⟨x, hx, rfl⟩ := List.mem_map.mp hy
      unfold Charge.answer at hhttp
      split at hhttp
      · rw [← Option.some.inj hhttp]
        exact hC.2.exec hnext
      · exact hI.reported x hx http hhttp
    · unfold System.chargesOn
      rw [hcharges, List.filter_map]
      -- an answer leaves each call with its invoice
      have hcomp : ((fun x : Charge => (t.payCall? x.pid).any fun c => decide (c.invoiceId = i)) ∘
          Charge.answer p env.http) =
            fun x => (t.payCall? x.pid).any fun c => decide (c.invoiceId = i) := by
        funext x
        simp only [Function.comp_apply, Charge.answer_pid]
      rw [hcomp, hfilter, List.pairwise_map]
      exact (hI.declined i).imp fun hx => hx.answer p env.http

/-- **No double charge**: in every state reached by steps in which no `UPDATE` reopens a
charged invoice, all calls of the provider for an invoice but the last have been declined. -/
theorem no_double_charge (hreach : Reaches (System.step crypto) ReopensNoCharged .init s)
    (i : Uuid) : (s.chargesOn i).Pairwise fun x _ => x.Failed := by
  have hinit : CallsDeclined .init :=
    ⟨chargedClosed_init, (fun x hx => by cases hx), fun i => List.Pairwise.nil⟩
  obtain ⟨φ, -, hI⟩ := System.Sound.reaches (I := fun s _ => CallsDeclined s) hreach
    System.sound_init hinit fun u ψ e v ψ' hu hIu hC _ hmove _ => hIu.move hu hC hmove
  exact hI.declined i

/-- The invoice is finalized; a first payment is declined, a second one succeeds. -/
def payingTwice : List Event :=
  drafting ++ [.request (.finalize 0)] ++ Event.steps 2 5 ++
    [.request (.pay 0 "tok_visa" "k1")] ++ Event.steps 3 5 ++
    [.exec 3 { http := sampleReply "failed" "ch_1" }] ++ Event.steps 3 6 ++
    [.request (.pay 0 "tok_visa" "k2")] ++ Event.steps 4 2 ++ [.exec 4 { ids := fun n => n + 1 }] ++
    Event.steps 4 2 ++ [.exec 4 { http := sampleReply "succeeded" "ch_2" }] ++ Event.steps 4 8

def paidTwice : System :=
  (runIf (System.step sampleCrypto) ReopensNoCharged .init payingTwice).get (by decide +kernel)

/-- An invoice is paid at the second attempt, the first one having failed. -/
theorem failed_paidTwice :
    (paidTwice.chargesOn 0).length = 2 ∧ (paidTwice.chargesOn 0).Pairwise fun x _ => x.Failed :=
  ⟨by decide +kernel, no_double_charge (reaches_of_runIf (Option.some_get _).symm) 0⟩

/-- Two `finalize` requests read the draft. One opens the invoice, it is paid, the other
opens it again, and it is paid once more. -/
def finalizingTwice : List Event :=
  drafting ++ [.request (.finalize 0), .request (.finalize 0)] ++ Event.steps 2 1 ++
    Event.steps 3 1 ++ Event.steps 2 4 ++ [.request (.pay 0 "tok_visa" "k1")] ++ Event.steps 4 5 ++
    [.exec 4 { http := sampleReply "succeeded" "ch_1" }] ++ Event.steps 4 8 ++ Event.steps 3 4 ++
    [.request (.pay 0 "tok_visa" "k2")] ++ Event.steps 5 2 ++ [.exec 5 { ids := fun n => n + 1 }] ++
    Event.steps 5 2 ++ [.exec 5 { http := sampleReply "succeeded" "ch_2" }] ++ Event.steps 5 8

/-- Without the condition an invoice may be charged successfully twice. -/
theorem not_no_double_charge : ¬∀ s : System,
    Reaches (System.step sampleCrypto) (WhenAnswering HttpResult.Reports) .init s →
      ∀ i, (s.chargesOn i).Pairwise fun x _ => x.Failed := by
  intro h
  have hpairwise := h
    ((runIf (System.step sampleCrypto) (WhenAnswering HttpResult.Reports) .init finalizingTwice).get
      (by decide +kernel)) (reaches_of_runIf (Option.some_get _).symm) 0
  revert hpairwise
  decide +kernel

end Runs

end TenantBilling
