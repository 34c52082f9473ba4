import TenantBilling.Properties.Contest
import TenantBilling.Properties.DurableAttempt
import TenantBilling.Properties.NoDoubleCharge
import TenantBilling.Properties.Noninterference
import TenantBilling.Properties.Prefixes
import TenantBilling.Properties.StateMachine

/-!
# Invoices at rest

Two ways in which an invoice comes to rest for good, whatever is requested afterwards.

* An attempt is pending, and the payment that has committed it is over: its process was killed
  between the two commits, or an exception left it. Nothing in the service takes such an attempt
  up again, so it stays pending, no other payment of the invoice is admitted, and the provider is
  not called for it any more (`TenantBilling.abandoned_at_rest`).
* The invoice is in a terminal state, and nobody who has dealt with it has a statement left. Then it
  stays in this state, and keeps its attempts and its calls (`TenantBilling.terminal_at_rest`).

In both cases the payments that arrive later can be told of nothing but stored attempts. What the
two share is that no payment of the invoice gets to one of the four points at which its attempts
and calls change (`TenantBilling.PayPoint.Charging`).
-/

namespace TenantBilling

open Base World

/-- The payment is about to commit its attempt or the outcome, or deals with the provider. -/
def PayPoint.Charging : PayPoint → Prop
  | reserve .. | send .. | receive .. | settle .. => True
  | _ => False

/-- A payment of the invoice is at one of these points. -/
def Phase.Charging (i : Uuid) : Phase → Prop
  | pay c pt => c.invoiceId = i ∧ pt.Charging
  | _ => False

/-- The invoice has the same attempts in both states, and the same calls. -/
structure System.SameCharges (i : Uuid) (s t : System) : Prop where
  attempts : ∀ a : PaymentAttempt, a.invoiceId = i →
    (a ∈ t.world.db.attempts ↔ a ∈ s.world.db.attempts)
  charges : t.chargesOn i = s.chargesOn i

/-- **The invoice is at rest** between the states: its attempts and calls are the same, and a
payment that has arrived in between has been told of an attempt that was there before, if of any. -/
structure System.AtRest (crypto : Crypto) (i : Uuid) (s t : System) : Prop where
  charges : s.SameCharges i t
  replays : ∀ (q : Pid) (c : PayCall) (x : Result), s.procs.length ≤ q → t.payCall? q = some c →
    c.invoiceId = i → t.returned? q = some (.ok x) → ∃ a ∈ s.world.db.attempts, a.invoiceId = i ∧
      a.idempotencyKey.text = c.idempotencyKey ∧ a.requestHash = c.requestHash crypto ∧
        x = .attempt a true

section Rest

variable {crypto : Crypto} {s t : System} {φ φ' : Pid → Phase} {e : Event} {p q : Pid} {i : Uuid}

theorem System.SameCharges.refl (i : Uuid) (s : System) : s.SameCharges i s :=
  ⟨fun _ _ => Iff.rfl, rfl⟩

theorem System.SameCharges.trans {u : System} (h : s.SameCharges i t) (h' : t.SameCharges i u) :
    s.SameCharges i u :=
  ⟨fun a ha => (h'.attempts a ha).trans (h.attempts a ha), h'.charges.trans h.charges⟩

/-! ### A step -/

/-- The update of an attempt leaves alone the rows that are told from it by what it does not
update. -/
theorem mem_attempts_update {db db' : Database} {a d : PaymentAttempt} {update : AttemptUpdate}
    {now : Timestamp} (hfind : db.attempts.find? a.id = some a)
    (h : db'.attempts = db.attempts.update a.id (·.update update now) (·.update_id update now))
    {P : PaymentAttempt → Prop} (hkeep : ∀ d : PaymentAttempt, P (d.update update now) → P d)
    (hnot : ¬P a) (hd : P d) : d ∈ db'.attempts ↔ d ∈ db.attempts := by
  have hother : ∀ d ∈ db.attempts, d.id = a.id → ¬P d := by
    intro d hd hid
    obtain rfl := Table.eq_of_key_eq hd (Table.find?_eq_some.mp hfind).1 hid
    exact hnot
  rw [h, Table.mem_update]
  constructor
  · rintro ⟨d', hd', rfl⟩
    split at hd
    case isTrue hid => exact absurd (hkeep d' hd) (hother d' hd' hid)
    case isFalse hid => rwa [if_neg hid]
  · intro hmem
    exact ⟨d, hmem, (if_neg fun hid => hother d hmem hid hd).symm⟩

/-- The calls for the invoice are made and answered by its payments. -/
theorem System.Moves.chargesOn_eq (h : s.Sound crypto φ) (hmove : s.Moves crypto φ e t φ')
    (hquiet : ∀ q, s.Alive q → ¬(φ q).Charging i) : t.chargesOn i = s.chargesOn i := by
  have hfilter := hmove.chargesOn_of_charges h i
  rcases h.charges_or hmove with hch | ⟨q, c, v, a, hq, hph, -, hch⟩ | ⟨q, env, -, hnext, hw⟩
  · rwa [← hch] at hfilter
  · have hne : c.invoiceId ≠ i := fun hi => hquiet q hq (by rw [hph]; exact ⟨hi, trivial⟩)
    have hcall := hmove.payCall? (h.payCall?_eq_some.mpr ⟨_, hph⟩)
    unfold System.chargesOn
    rw [hch, List.filter_append, hfilter, List.filter_singleton]
    simp [System.chargesOn, PayCall.charge, hcall, hne]
  · -- the call that is answered is one for another invoice
    have hq := System.alive_of_next? hnext
    have hne : ∀ x ∈ s.world.charges, x.pid = q →
        ((t.payCall? x.pid).any fun c => c.invoiceId = i) = false := by
      intro x hx hxq
      obtain ⟨c, pt, a, hph, -, -, hcase⟩ := h.charge_cases hx
      rw [hmove.payCall? (h.payCall?_eq_some.mpr ⟨pt, hph⟩)]
      obtain ⟨next, hout⟩ := h.out_pay hnext (hxq ▸ hph)
      have hcharging : pt.Charging := by
        cases pt with
        | receive v a => trivial
        | _ => cases hout
      simpa using fun hi => hquiet q hq (by rw [← hxq, hph]; exact ⟨hi, hcharging⟩)
    have hcharges : t.world.charges = s.world.charges.map (Charge.answer q env.http) := by
      rw [hw]
      rfl
    have hcomp : ((fun x : Charge => (t.payCall? x.pid).any fun c => decide (c.invoiceId = i)) ∘
        Charge.answer q env.http) = fun x => (t.payCall? x.pid).any fun c =>
          decide (c.invoiceId = i) := by
      funext x
      simp only [Function.comp_apply, Charge.answer_pid]
    unfold System.chargesOn
    rw [hcharges, List.filter_map, hcomp, hfilter]
    refine (List.map_congr_left fun x hx => ?_).trans (List.map_id _)
    have hxq : x.pid ≠ q := by
      intro hxq
      obtain ⟨hx, hon⟩ := List.mem_filter.mp hx
      obtain ⟨c, pt, -, hph, -⟩ := h.charge_cases hx
      have hcall := h.payCall?_eq_some.mpr ⟨pt, hph⟩
      have hno := hne x hx hxq
      rw [hmove.payCall? hcall] at hno
      rw [hcall] at hon
      exact absurd hon (by simpa using hno)
    rw [Charge.answer, if_neg fun hand => hxq hand.1]
    rfl

/-- **The attempts on the invoice** are committed and settled by its payments. -/
theorem System.Moves.sameCharges (h : s.Sound crypto φ) (hmove : s.Moves crypto φ e t φ')
    (hquiet : ∀ q, s.Alive q → ¬(φ q).Charging i) : s.SameCharges i t := by
  refine ⟨?_, hmove.chargesOn_eq h hquiet⟩
  rcases h.commit_or hmove with ⟨hdb, -, -⟩ | ⟨p, ph, hp, -, rfl, hcommits⟩
  · rw [hdb]
    exact fun a _ => Iff.rfl
  have hnot := hquiet p hp
  generalize φ p = pre at hcommits hnot
  cases hcommits with
  | @reserve c v a hholds hattempts hstate =>
    have hne : a.invoiceId ≠ i := fun hi =>
      hnot ⟨hholds.2.2.2.made.invoiceId.symm.trans hi, trivial⟩
    refine fun d hd => ⟨fun hmem => ?_, fun hmem => hattempts ▸ Table.mem_insert_of_mem hmem⟩
    rcases Table.of_mem_insert (hattempts ▸ hmem) with hmem | rfl
    · exact hmem
    · exact absurd hd hne
  | paid hgood houtcome hresult hbind hrest htx hattempts hstate =>
    exact fun d => mem_attempts_update hgood.2.2 hattempts (P := fun d => d.invoiceId = i)
      (fun _ => id) fun hi => hnot ⟨hgood.2.1.invoiceId.symm.trans hi, trivial⟩
  | unpaid hgood houtcome hpays hbind hrest htx hattempts hstate =>
    exact fun d => mem_attempts_update hgood.2.2 hattempts (P := fun d => d.invoiceId = i)
      (fun _ => id) fun hi => hnot ⟨hgood.2.1.invoiceId.symm.trans hi, trivial⟩
  | transition hchecked htx hattempts hstate =>
    rw [hattempts]
    exact fun a _ => Iff.rfl
  | other hwrites hattempts hstate =>
    rw [hattempts]
    exact fun a _ => Iff.rfl

/-- **The state of the invoice** is then changed by transitions only, and by its insertion. -/
theorem System.Moves.stateOf_or (h : s.Sound crypto φ) (hmove : s.Moves crypto φ e t φ')
    (hquiet : ∀ q, s.Alive q → ¬(φ q).Charging i) : t.world.db.stateOf i = s.world.db.stateOf i ∨
      (∃ p c v x, s.Alive p ∧ φ p = .transition c (.commit v x) ∧ c.invoiceId = i ∧
        t.world.db.stateOf i = some c.target) ∨
      s.world.db.stateOf i = none ∧ t.world.db.stateOf i = some .draft := by
  rcases h.commit_or hmove with ⟨hdb, -, -⟩ | ⟨p, ph, hp, -, rfl, hcommits⟩
  · rw [hdb]
    exact Or.inl rfl
  have hnot := hquiet p hp
  generalize hpre : φ p = pre at hcommits hnot
  cases hcommits with
  | reserve hholds hattempts hstate => exact Or.inl (hstate i)
  | paid hgood houtcome hresult hbind hrest htx hattempts hstate =>
    exact Or.inl ((hstate i).trans (if_neg fun hi => hnot ⟨hi.symm, trivial⟩))
  | unpaid hgood houtcome hpays hbind hrest htx hattempts hstate => exact Or.inl (hstate i)
  | @transition c v x now hchecked htx hattempts hstate =>
    by_cases hi : i = c.invoiceId
    · exact Or.inr (Or.inl ⟨p, c, v, x, hp, hpre, hi.symm, (hstate i).trans (if_pos hi)⟩)
    · exact Or.inl ((hstate i).trans (if_neg hi))
  | other hwrites hattempts hstate => exact (hstate i).imp_right Or.inr

/-! ### Payments that commit nothing -/

/-- The payment has committed nothing, and returns nothing but a stored attempt. -/
def PayPoint.Replays (crypto : Crypto) (db : Database) (c : PayCall) : PayPoint → Prop
  | lookup | lock | insert _ | undo _ | relookup | reserve .. => True
  | closing x g | done x g => g = .nothing ∧ ∀ y, x = .ok y → ∃ a ∈ db.attempts,
      a.invoiceId = c.invoiceId ∧ a.idempotencyKey.text = c.idempotencyKey ∧
        a.requestHash = c.requestHash crypto ∧ y = .attempt a true
  | _ => False

variable {c : PayCall} {pt : PayPoint}

theorem PayPoint.replays_start (db : Database) (c : PayCall) : (start c).Replays crypto db c := by
  unfold start
  split
  · exact ⟨rfl, by rintro _ ⟨⟩⟩
  · trivial

theorem PayPoint.replays_error (db : Database) (c : PayCall) (e : Exc) :
    (closing (.error e) .nothing).Replays crypto db c := ⟨rfl, by rintro _ ⟨⟩⟩

/-- What a cache check finds is returned if its body is the same. -/
theorem PayPoint.replays_stored {db : Database} (hkeyed : db.Keyed) {a : PaymentAttempt}
    (ha : db.attemptByKey c.invoiceId c.idempotencyKey = some a)
    (hhash : a.requestHash = c.requestHash crypto) :
    (closing (.ok (.attempt a true)) .nothing).Replays crypto db c := by
  obtain ⟨hmem, hi, hkey⟩ := (Database.attemptByKey_eq_some hkeyed).mp ha
  refine ⟨rfl, ?_⟩
  rintro _ ⟨⟩
  exact ⟨a, hmem, hi, hkey, hhash, rfl⟩

/-- **A payment that never gets to reserve its attempt** keeps to this. -/
theorem PayPoint.Replays.next {st : Stmt} {next : st.Resp → PayPoint} {r : st.Resp} {w' : World}
    (h : s.Sound crypto φ) (hp : s.Alive p) (hph : φ p = .pay c pt)
    (hout : pt.out crypto c = .op st next)
    (hans : s.world.Answers p st r w') (hI : pt.Replays crypto s.world.db c) (hnot : ¬pt.Charging) :
    (next r).Replays crypto w'.db c := by
  have hkeyed : s.world.db.Keyed := h.keys
  have hholds := h.alive p hp
  rw [hph] at hholds
  -- only the two commits change the tables, and their points are excluded
  have hdb : w'.db = s.world.db := by
    refine hans.effect.db ?_
    rintro rfl
    cases pt with
    | reserve => exact hnot trivial
    | settle => exact hnot trivial
    | _ => cases hout
  rw [hdb]
  cases pt with
  | lookup =>
    cases hout
    obtain ⟨⟨env, hr⟩, -⟩ := answers_select hans
    rw [World.Idle.view hholds] at hr
    cases r with
    | none => trivial
    | some a =>
      dsimp only
      split
      case isTrue => exact replays_error _ _ _
      -- the hash is the same, so the attempt returned is the stored one
      case isFalse hhash => exact replays_stored hkeyed hr.symm (not_not.mp hhash)
  | lock =>
    cases hout
    rcases r with e | _ | v
    · exact replays_error _ _ _
    · exact replays_error _ _ _
    · dsimp only
      split
      · exact replays_error _ _ _
      · trivial
  | insert v =>
    cases hout
    rcases r with e | a
    · cases e with
      | integrity => trivial
      | _ => exact replays_error _ _ _
    · trivial
  | undo errorMsg =>
    cases hout
    dsimp only
    split
    · exact replays_error _ _ _
    · trivial
  | relookup =>
    cases hout
    obtain ⟨⟨env, hr⟩, -⟩ := answers_select hans
    rw [World.Idle.view hholds] at hr
    cases r with
    | none => exact replays_error _ _ _
    | some a =>
      dsimp only
      split
      case isTrue hhash => exact replays_stored hkeyed hr.symm hhash
      case isFalse => exact replays_error _ _ _
  | reserve v a => exact absurd trivial hnot
  | closing x g =>
    cases hout
    exact hI
  | done x g => cases hout
  | _ => exact hI.elim

/-- It depends on the attempts of its invoice only. -/
theorem PayPoint.Replays.of_sameCharges (hI : pt.Replays crypto s.world.db c) (hi : c.invoiceId = i)
    (hsame : s.SameCharges i t) : pt.Replays crypto t.world.db c := by
  cases pt with
  | closing x g | done x g =>
    refine ⟨hI.1, fun y hy => ?_⟩
    obtain ⟨a, ha, hai, hrest⟩ := hI.2 y hy
    exact ⟨a, (hsame.attempts a (hai.trans hi)).mpr ha, hai, hrest⟩
  | _ => exact hI

/-! ### A run -/

/-- From the state `s` on the invoice has been at rest. -/
structure Resting (crypto : Crypto) (i : Uuid) (s u : System) (ψ : Pid → Phase) : Prop where
  charges : s.SameCharges i u
  length : s.procs.length ≤ u.procs.length
  replays : ∀ (q : Pid) (c : PayCall) (pt : PayPoint), s.procs.length ≤ q → ψ q = .pay c pt →
    c.invoiceId = i → pt.Replays crypto u.world.db c

theorem Resting.refl (h : s.Sound crypto φ) (i : Uuid) : Resting crypto i s s φ := by
  refine ⟨.refl i s, le_rfl, fun q c pt hq hph => ?_⟩
  rw [h.absent q (List.getElem?_eq_none hq)] at hph
  cases hph

theorem Resting.move {u v : System} {ψ ψ' : Pid → Phase} (hI : Resting crypto i s u ψ)
    (h : u.Sound crypto ψ) (hmove : u.Moves crypto ψ e v ψ')
    (hquiet : ∀ q, u.Alive q → ¬(ψ q).Charging i) : Resting crypto i s v ψ' := by
  have hsame := hmove.sameCharges h hquiet
  refine ⟨hI.charges.trans hsame, hI.length.trans hmove.length_le, ?_⟩
  intro q c pt' hq hph hi
  rcases hmove.pay_cases h hph with ⟨-, -, -, rfl⟩ | ⟨pt, hpt,
    rfl | ⟨st, next, r, hout, hp, -, hans, rfl⟩⟩
  · exact PayPoint.replays_start _ _
  · exact (hI.replays q c _ hq hpt hi).of_sameCharges hi hsame
  · refine PayPoint.Replays.next h hp hpt hout hans.answers (hI.replays q c pt hq hpt hi) fun hch =>
      ?_
    exact hquiet q hp (by rw [hpt]; exact ⟨hi, hch⟩)

/-- What a payment of a resting invoice returns. -/
theorem Resting.atRest {u : System} {ψ : Pid → Phase} (hI : Resting crypto i s u ψ)
    (h : u.Sound crypto ψ) : s.AtRest crypto i u := by
  refine ⟨hI.charges, fun q c x hq hc hi hx => ?_⟩
  obtain ⟨pt, hph⟩ := h.payCall?_eq_some.mp hc
  have hreplays := hI.replays q c pt hq hph hi
  obtain ⟨g, rfl⟩ := h.done_of_returned hx hph
  obtain ⟨a, ha, hai, hrest⟩ := hreplays.2 x rfl
  exact ⟨a, (hI.charges.attempts a (hai.trans hi)).mp ha, hai.trans hi, hrest⟩

/-! ### Attempts that are left behind -/

/-- **While its own payment has no statement left, a pending attempt keeps all others off**: no
payment of the invoice is about to commit an attempt or an outcome, or deals with the provider. -/
theorem System.Sound.not_charging_of_pending (h : s.Sound crypto φ) {a b : PaymentAttempt}
    (ha : (φ p).committed? = some a) (hend : s.next? p = none) (hb : b ∈ s.world.db.attempts)
    (hid : b.id = a.id) (hpending : b.status = .pending) (q : Pid) (hq : s.Alive q) :
    ¬(φ q).Charging b.invoiceId := by
  intro hch
  cases hph : φ q with
  | transition c pt =>
    rw [hph] at hch
    exact hch
  | other =>
    rw [hph] at hch
    exact hch
  | pay c pt =>
    rw [hph] at hch
    obtain ⟨hi, hch⟩ := hch
    have hholds := h.alive q hq
    have hgood := h.forGood q
    rw [hph] at hholds hgood
    -- a payment that has committed its attempt is the one that has no statement left
    have hown : ∀ d st next, pt.progress.attempt? = some d → d.invoiceId = c.invoiceId →
        d.status = .pending → s.world.db.attempts.find? d.id = some d →
          pt.out crypto c = .op st next → False := by
      intro d st next hd hdi hdp hfind hout
      have heq : d = b := by
        refine h.pending d (Table.find?_eq_some.mp hfind).1 b hb ?_
        simp [PaymentAttempt.samePending, hdi, hi, hdp, hpending]
      have hqp : q = p := h.owner q p d a (by rw [hph]; exact hd) ha (heq ▸ hid)
      have hnext := h.next?_of_out hq hph hout
      rw [hqp, hend] at hnext
      cases hnext
    cases pt with
    | reserve v d =>
      have hsame := hholds.2.2.2.noSamePending b hb
      simp [PaymentAttempt.samePending, hholds.2.2.2.made.invoiceId, hholds.2.2.2.made.status, hi,
        hpending] at hsame
    | send v d =>
      exact hown d _ _ rfl hgood.2.1.invoiceId hgood.2.1.status hgood.2.2 rfl
    | receive v d =>
      exact hown d _ _ rfl hgood.2.1.invoiceId hgood.2.1.status hgood.2.2 rfl
    | settle d http outcome endpoints =>
      exact hown d _ _ rfl hgood.2.1.invoiceId hgood.2.1.status hgood.2.2 rfl
    | _ => exact hch

/-- **An attempt that is left behind** keeps its invoice at rest from then on. -/
theorem System.Sound.left_behind {a b : PaymentAttempt} (h : s.Sound crypto φ)
    (hcommitted : (φ p).committed? = some a) (hend : s.next? p = none)
    (hb : b ∈ s.world.db.attempts) (hid : b.id = a.id) (hpending : b.status = .pending)
    (ht : Reaches (System.step crypto) Always s t) :
    s.AtRest crypto b.invoiceId t ∧ b ∈ t.world.db.attempts ∧
      (t.world.db.stateOf b.invoiceId = some .paid →
        s.world.db.stateOf b.invoiceId = some .paid) := by
  obtain ⟨ψ, hψ, hI, -, -, hstate⟩ := System.Sound.reaches
    (I := fun u ψ => Resting crypto b.invoiceId s u ψ ∧ (ψ p).committed? = some a ∧
      u.next? p = none ∧ (u.world.db.stateOf b.invoiceId = some .paid →
        s.world.db.stateOf b.invoiceId = some .paid)) ht h
    ⟨.refl h _, hcommitted, hend, id⟩ <| by
      rintro u ψ e v ψ' hu ⟨hI, hcommitted, hend, hstate⟩ - - hmove -
      have hmem := (hI.charges.attempts b rfl).mpr hb
      have hquiet := hu.not_charging_of_pending hcommitted hend hmem hid hpending
      have hlt : p < u.procs.length := by
        by_contra hlt
        rw [hu.absent _ (List.getElem?_eq_none (not_lt.mp hlt))] at hcommitted
        cases hcommitted
      obtain ⟨hend', hph⟩ := hmove.next?_eq_none hlt hend
      refine ⟨hI.move hu hmove hquiet, by rw [hph]; exact hcommitted, hend', fun hpaid => ?_⟩
      rcases hmove.stateOf_or hu hquiet with hsame | ⟨q, c, w, x, hq, hph, -, ht⟩ | ⟨-, ht⟩
      · exact hstate (hsame ▸ hpaid)
      · rw [ht] at hpaid
        exact absurd (Option.some.inj hpaid) (hu.target_ne_paid hq hph)
      · rw [ht] at hpaid
        cases hpaid
  exact ⟨hI.atRest hψ, (hI.charges.attempts b rfl).mpr hb, hstate⟩

/-- **An attempt that its payment has left behind stays pending for good.** Once the session that
has committed it has no statement left, whether it has been killed or has raised, the attempts on
the invoice and the calls for it stay as they are, and the invoice is not paid any more: whatever
is requested later, with the same key or another one. -/
theorem abandoned_at_rest {a b : PaymentAttempt} (hs : s.Reachable crypto) (hR : s.Reserved p a)
    (hend : s.next? p = none) (hb : b ∈ s.world.db.attempts) (hid : b.id = a.id)
    (hpending : b.status = .pending) (ht : Reaches (System.step crypto) Always s t) :
    s.AtRest crypto b.invoiceId t ∧ b ∈ t.world.db.attempts ∧
      (t.world.db.stateOf b.invoiceId = some .paid →
        s.world.db.stateOf b.invoiceId = some .paid) := by
  obtain ⟨φ, h, hrec⟩ := Recorded.of_reachable hs
  obtain ⟨m, hm, rfl, a', hwrite, hid'⟩ := hR
  exact h.left_behind (hrec.committed m hm a' hwrite) hend hb (hid.trans hid'.symm) hpending ht

/-- The attempt that a write inserts. -/
def Write.attempt? : Write → Option PaymentAttempt
  | .insertAttempt a => some a
  | _ => none

theorem Write.attempt?_eq_some {x : Write} {a : PaymentAttempt} :
    x.attempt? = some a ↔ x = .insertAttempt a := by
  cases x <;> simp [Write.attempt?]

/-- The insert of a second attempt on the invoice is refused. -/
def secondPending : Env where
  ids n := n + 1
  errorText := "uq_payment_attempts_one_pending_per_invoice " ++ Uuid.str 0

/-- The retry with another key is refused, and the client repeats its request with the first one. -/
def retriedAfterKill : System :=
  (run (System.step sampleCrypto) killedAfterCall
    (.exec 4 secondPending :: Event.steps 4 2 ++ [.request (.pay 0 "tok_visa" "k1")] ++
      Event.steps 5 2)).get (by decide +kernel)

theorem abandoned_retriedAfterKill : retriedAfterKill.world.db.stateOf 0 ≠ some .paid ∧
    retriedAfterKill.chargesOn 0 = killedAfterCall.chargesOn 0 := by
  have hs : killedAfterCall.Reachable sampleCrypto := reaches_of_run (Option.some_get _).symm
  have ht : Reaches (System.step sampleCrypto) Always killedAfterCall retriedAfterKill :=
    reaches_of_run (Option.some_get _).symm
  have hfound : ∃ m ∈ killedAfterCall.world.history, m.pid = 3 ∧ ∃ x ∈ m.writes, ∃ a ∈ x.attempt?,
      ∃ b ∈ killedAfterCall.world.db.attempts.rows, b.id = a.id ∧ b.invoiceId = 0 ∧
        b.status = .pending := by decide +kernel
  have hend : (killedAfterCall.next? 3).isNone = true := by decide +kernel
  have hunpaid : killedAfterCall.world.db.stateOf 0 ≠ some .paid := by decide +kernel
  generalize killedAfterCall = s at hs ht hfound hend hunpaid ⊢
  obtain ⟨m, hm, hpid, x, hx, a, ha, b, hb, hid, hi, hpending⟩ := hfound
  rw [Write.attempt?_eq_some.mp ha] at hx
  have hrest := abandoned_at_rest hs ⟨m, hm, hpid, a, hx, rfl⟩
    (Option.isNone_iff_eq_none.mp hend) hb hid hpending ht
  rw [hi] at hrest
  exact ⟨fun hpaid => hunpaid (hrest.2.2 hpaid), hrest.1.charges.charges⟩

/-! ### Terminal states -/

/-- The payment has not been admitted to its invoice. -/
def PayPoint.Outside : PayPoint → Prop
  | lookup | lock | closing .. | done .. => True
  | _ => False

def TransitionPoint.Outside : TransitionPoint → Prop
  | read | closing _ | done _ => True
  | _ => False

/-- The program does not deal with the invoice, or has not been admitted to it. -/
def Phase.Outside (i : Uuid) : Phase → Prop
  | pay c pt => c.invoiceId = i → pt.Outside
  | transition c pt => c.invoiceId = i → pt.Outside
  | other => True

theorem Job.outside_phase (job : Job) : job.phase.Outside i := by
  cases job with
  | poll => trivial
  | request business req =>
    cases req with
    | pay j token key =>
      intro _
      unfold PayPoint.start
      split <;> trivial
    | finalize | void | uncollectible => exact fun _ => trivial
    | _ => trivial

theorem assertTransitionAllowed_of_terminal {st : InvoiceState} (hst : st ∈ terminalStates)
    (target : InvoiceState) : ∃ e, assertTransitionAllowed st target = .error e := ⟨_, if_pos hst⟩

/-- **Nobody is admitted to an invoice in a terminal state.** -/
theorem Phase.Outside.next {st : InvoiceState} {ph ph' : Phase} {stmt : Stmt} {r : stmt.Resp}
    {w' : World} (hstate : s.world.db.stateOf i = some st) (hst : st ∈ terminalStates)
    (hholds : ph.Holds crypto s.world p) (hnext : ph.Next crypto stmt r ph')
    (hans : s.world.Answers p stmt r w') (hout : ph.Outside i) : ph'.Outside i := by
  have hterminal : ∀ v, s.world.db.invoices.find? i = some v → v.state ∈ terminalStates := by
    intro v hv
    rw [Database.stateOf, hv] at hstate
    rwa [Option.some.inj hstate]
  cases hnext with
  | other hper r => trivial
  | @pay c pt _ next hop r =>
    intro hi
    have hpt : pt.Outside := hout hi
    cases pt with
    | lookup =>
      cases hop
      cases r with
      | none => trivial
      | some a =>
        dsimp only
        split <;> trivial
    | lock =>
      cases hop
      rcases r with e | _ | v
      · trivial
      · trivial
      -- the row that is locked is in the terminal state
      obtain ⟨-, -, hv, -⟩ := answers_lockInvoice hans
      rw [World.Idle.view hholds, hi] at hv
      obtain ⟨e, he⟩ := assertTransitionAllowed_of_terminal (hterminal v hv) .paid
      dsimp only
      rw [he]
      trivial
    | closing x g =>
      cases hop
      trivial
    | done x g => cases hop
    | _ => exact hpt.elim
  | @transition c pt _ next hop r =>
    intro hi
    have hpt : pt.Outside := hout hi
    cases pt with
    | read =>
      cases hop
      obtain ⟨⟨env, hr⟩, -⟩ := answers_select hans
      rw [World.Idle.view hholds] at hr
      rcases r with _ | ⟨v, lineItems⟩
      · trivial
      obtain ⟨v', hfind, hv⟩ := Option.map_eq_some_iff.mp hr.symm
      obtain ⟨hfind, -⟩ := Option.filter_eq_some_iff.mp hfind
      obtain rfl : v' = v := congrArg Prod.fst hv
      obtain ⟨e, he⟩ := assertTransitionAllowed_of_terminal (hterminal v' (hi ▸ hfind)) c.target
      dsimp only
      rw [he]
      trivial
    | closing x =>
      cases hop
      trivial
    | done x => cases hop
    | _ => exact hpt.elim

/-- Everybody who has a statement left is outside. -/
def System.AllOutside (s : System) (φ : Pid → Phase) (i : Uuid) : Prop :=
  ∀ p st, s.next? p = some st → (φ p).Outside i

theorem System.AllOutside.move {st : InvoiceState} (hI : s.AllOutside φ i) (h : s.Sound crypto φ)
    (hstate : s.world.db.stateOf i = some st) (hst : st ∈ terminalStates)
    (hmove : s.Moves crypto φ e t φ') : t.AllOutside φ' i := by
  intro q stmt hq
  cases hmove with
  | start job =>
    by_cases hqn : q = s.procs.length
    · rw [hqn, Function.update_self]
      exact job.outside_phase
    · rw [Function.update_of_ne hqn]
      have hlt : q < s.procs.length := by
        obtain ⟨proc, hproc, -⟩ := System.alive_of_next? hq
        have hlen := (List.getElem?_eq_some_iff.mp hproc).1
        rw [List.length_append, List.length_singleton] at hlen
        exact lt_of_le_of_ne (Nat.lt_succ_iff.mp hlen) hqn
      exact hI q stmt (by rwa [System.next?_start hlt] at hq)
  | @kill p job prog hproc =>
    have hqp : q ≠ p := by
      rintro rfl
      obtain ⟨proc, hproc', halive⟩ := System.alive_of_next? hq
      rw [System.getElem?_replace_self hproc] at hproc'
      rw [← Option.some.inj hproc'] at halive
      cases halive
    exact hI q stmt (by rwa [System.next?_replace (Ne.symm hqp)] at hq)
  | @answer _ p job stmt' r w' k ph hproc hans hnext =>
    by_cases hqp : q = p
    · subst hqp
      rw [Function.update_self]
      have hout := hI q stmt' (System.next?_eq_some.mpr ⟨_, _, hproc⟩)
      exact hout.next hstate hst (h.alive q ⟨_, hproc, rfl⟩) hnext hans.answers
    · rw [Function.update_of_ne hqp]
      exact hI q stmt (by rwa [System.next?_replace (Ne.symm hqp)] at hq)

theorem System.AllOutside.not_charging (hI : s.AllOutside φ i) (h : s.Sound crypto φ) (q : Pid)
    (hq : s.Alive q) : ¬(φ q).Charging i := by
  intro hch
  cases hph : φ q with
  | pay c pt =>
    rw [hph] at hch
    have hout : ∀ st next, pt.out crypto c = .op st next → pt.Outside := fun st next hop => by
      have houtside := hI q st (h.next?_of_out hq hph hop)
      rw [hph] at houtside
      exact houtside hch.1
    cases pt with
    | reserve | send | receive | settle => exact hout _ _ rfl
    | _ => exact hch.2
  | _ =>
    rw [hph] at hch
    exact hch

/-- **A terminal state is for good** once nobody who has dealt with the invoice has a statement
left: the invoice keeps its state, its attempts and its calls, whatever is requested later, and a
payment that arrives later is told of a stored attempt or of an error. -/
theorem terminal_at_rest {st : InvoiceState} (hs : s.Reachable crypto)
    (hstate : s.world.db.stateOf i = some st) (hst : st ∈ terminalStates)
    (hquiet : ∀ p proc, s.procs[p]? = some proc → proc.job.Concerns i → s.next? p = none)
    (ht : Reaches (System.step crypto) Always s t) :
    s.AtRest crypto i t ∧ t.world.db.stateOf i = some st := by
  obtain ⟨φ, h⟩ := hs.sound
  have hall : s.AllOutside φ i := by
    intro p stmt hnext
    obtain ⟨proc, hproc, -⟩ := System.alive_of_next? hnext
    have hnot : ¬(φ p).Concerns i := fun hc => by
      rw [hquiet p proc hproc ((h.tracks p proc hproc).concerns.mp hc)] at hnext
      cases hnext
    cases hph : φ p with
    | other => trivial
    | pay c pt => exact fun hi => absurd (by rw [hph]; exact hi) hnot
    | transition c pt => exact fun hi => absurd (by rw [hph]; exact hi) hnot
  obtain ⟨ψ, hψ, hI, -, hstate'⟩ := System.Sound.reaches
    (I := fun u ψ => Resting crypto i s u ψ ∧ u.AllOutside ψ i ∧ u.world.db.stateOf i = some st)
    ht h ⟨.refl h i, hall, hstate⟩ <| by
      rintro u ψ e v ψ' hu ⟨hI, hall, hstate⟩ - - hmove -
      have hcharging := hall.not_charging hu
      refine ⟨hI.move hu hmove hcharging, hall.move hu hstate hst hmove, ?_⟩
      rcases hmove.stateOf_or hu hcharging with hsame | ⟨q, c, w, x, hq, hph, hi, -⟩ | ⟨hnone, -⟩
      · rw [hsame, hstate]
      · -- a transition that is about to commit has a statement left
        have houtside := hall q _ (hu.next?_of_out_transition hq hph rfl)
        rw [hph] at houtside
        exact (houtside hi).elim
      · rw [hnone] at hstate
        cases hstate
  exact ⟨hI.atRest hψ, hstate'⟩

/-- After the invoice has been voided, a payment is tried. -/
def triedAfterVoid : System :=
  (run (System.step sampleCrypto) voidedFirst
    ([.request (.pay 0 "tok_visa" "k1")] ++ Event.steps 5 3)).get (by decide +kernel)

theorem terminal_triedAfterVoid : triedAfterVoid.world.db.stateOf 0 = some .void ∧
    triedAfterVoid.chargesOn 0 = voidedFirst.chargesOn 0 := by
  have ht : Reaches (System.step sampleCrypto) Always voidedFirst triedAfterVoid :=
    reaches_of_run (Option.some_get _).symm
  have hvoid : voidedFirst.world.db.stateOf 0 = some .void := by decide +kernel
  have hall : ∀ p < 5, (voidedFirst.next? p).isNone = true := by decide +kernel
  have hlength : voidedFirst.procs.length = 5 := by decide +kernel
  have hrest := terminal_at_rest voidedFirst_reachable hvoid (by decide) (fun p proc hproc _ =>
    Option.isNone_iff_eq_none.mp (hall p (hlength ▸ (List.getElem?_eq_some_iff.mp hproc).1))) ht
  exact ⟨hrest.2, hrest.1.charges.charges⟩

end Rest

end TenantBilling
