import TenantBilling.Properties.Payable

/-!
# Payments that compete for one invoice

From some state on, nobody deals with an invoice but payments of its business
(`TenantBilling.Contest`): whoever has dealt with it before has no statement left, and who starts to
deal with it later is one of the payments. The invoice is then open until one of them has paid it,
and all that is committed for it later is committed by one of them. What the payments end with
depends on their keys: those of different keys are told in
`TenantBilling.Properties.ConcurrentPayments`, those of one key in
`TenantBilling.Properties.ConcurrentRetries`.
-/

namespace TenantBilling

open Base World

/-! ### Who deals with an invoice -/

/-- The job is a request that may change the state of the invoice, or its attempts. -/
def Job.Concerns (i : Uuid) : Job → Prop
  | .request _ (.pay j _ _) | .request _ (.finalize j) | .request _ (.void j)
  | .request _ (.uncollectible j) => j = i
  | _ => False

instance (i : Uuid) : DecidablePred (Job.Concerns i) := fun job => by
  unfold Job.Concerns
  split <;> infer_instance

def Phase.Concerns (i : Uuid) : Phase → Prop
  | pay c _ => c.invoiceId = i
  | transition c _ => c.invoiceId = i
  | other => False

section Concerns

variable {crypto : Crypto} {s t : System} {φ φ' : Pid → Phase} {e : Event} {p q : Pid} {i : Uuid}

theorem Job.concerns_phase (job : Job) : job.phase.Concerns i ↔ job.Concerns i := by
  cases job with
  | poll => exact Iff.rfl
  | request business req => cases req <;> exact Iff.rfl

theorem Phase.Tracks.concerns {ph : Phase} {proc : Proc} (h : ph.Tracks crypto proc) :
    ph.Concerns i ↔ proc.job.Concerns i := by
  cases ph with
  | pay c pt =>
    rw [h.1]
    exact Iff.rfl
  | transition c pt =>
    obtain ⟨⟨req, hjob, hreq⟩, -⟩ := h
    rw [hjob]
    cases req with
    | finalize j | void j | uncollectible j =>
      obtain ⟨rfl, -⟩ := Prod.mk.inj (Option.some.inj hreq)
      exact Iff.rfl
    | _ => cases hreq
  | other =>
    have hperipheral := h.1
    refine ⟨False.elim, fun hc => ?_⟩
    generalize proc.job = job at hperipheral hc
    cases job with
    | poll => exact hc
    | request business req => cases req <;> first | exact hc | exact hperipheral.elim

theorem Phase.Next.concerns {ph ph' : Phase} {st : Stmt} {r : st.Resp}
    (h : ph.Next crypto st r ph') : ph'.Concerns i ↔ ph.Concerns i := by
  cases h <;> exact Iff.rfl

/-! ### What the next statements are -/

theorem System.next?_start {job : Job} (h : p < s.procs.length) :
    System.next? ⟨s.world, s.procs ++ [⟨job, job.program crypto, true⟩]⟩ p = s.next? p := by
  unfold System.next?
  rw [List.getElem?_append_left h]

theorem System.next?_replace {w : World} {proc : Proc} (h : q ≠ p) :
    System.next? ⟨w, s.procs.set q proc⟩ p = s.next? p := by
  unfold System.next?
  rw [System.getElem?_replace_of_ne h]

/-- A session that has no statement left has none later. -/
theorem System.Moves.next?_eq_none (hmove : s.Moves crypto φ e t φ') (hp : p < s.procs.length)
    (h : s.next? p = none) : t.next? p = none ∧ φ' p = φ p := by
  cases hmove with
  | start job =>
    rw [System.next?_start hp, Function.update_of_ne (ne_of_lt hp)]
    exact ⟨h, rfl⟩
  | @kill q job prog hproc =>
    refine ⟨?_, rfl⟩
    by_cases hq : q = p
    · subst hq
      unfold System.next?
      rw [System.getElem?_replace_self hproc]
      cases prog <;> rfl
    · rw [System.next?_replace hq]
      exact h
  | @answer _ q job st r w' k ph hproc hans hnext =>
    have hq : q ≠ p := by
      rintro rfl
      rw [System.next?_eq_some.mpr ⟨job, k, hproc⟩] at h
      cases h
    rw [System.next?_replace hq, Function.update_of_ne (Ne.symm hq)]
    exact ⟨h, rfl⟩

/-! ### Payments and their attempts -/

/-- **A payment has just arrived**, or is where it was, or has been answered. -/
theorem System.Moves.pay_cases (h : s.Sound crypto φ) (hmove : s.Moves crypto φ e t φ')
    {c : PayCall} {pt' : PayPoint} (hph : φ' p = .pay c pt') :
    (e = .start c.job ∧ p = s.procs.length ∧ t.world = s.world ∧ pt' = PayPoint.start c) ∨
      ∃ pt, φ p = .pay c pt ∧ (pt' = pt ∨ ∃ st next r, pt.out crypto c = .op st next ∧ s.Alive p ∧
        s.next? p = some st ∧ s.Answered p st r t.world e ∧ pt' = next r) := by
  have hold : ∀ {pt}, φ p = .pay c pt → ∃ pt, φ p = .pay c pt ∧ (pt' = pt ∨
      ∃ st next r, pt.out crypto c = .op st next ∧ s.Alive p ∧ s.next? p = some st ∧
        s.Answered p st r t.world e ∧ pt' = next r) := by
    intro pt hpt
    obtain ⟨pt'', hph', hcase⟩ := hmove.point h hpt
    rw [hph] at hph'
    cases hph'
    exact ⟨pt, hpt, hcase⟩
  cases hmove with
  | start job =>
    by_cases hp : p = s.procs.length
    · rw [hp, Function.update_self] at hph
      cases job with
      | poll => cases hph
      | request business req =>
        cases req with
        | pay =>
          obtain ⟨rfl, rfl⟩ := Phase.pay.inj hph
          exact Or.inl ⟨rfl, hp, rfl, rfl⟩
        | _ => cases hph
    · have hpt := hph
      rw [Function.update_of_ne hp] at hpt
      exact Or.inr (hold hpt)
  | kill hproc => exact Or.inr (hold hph)
  | @answer _ q job st r w' k ph hproc hans hnext =>
    have hpt := hph
    by_cases hq : p = q
    · subst hq
      rw [Function.update_self] at hpt
      subst hpt
      obtain ⟨pt, hpre⟩ : ∃ pt, φ p = .pay c pt := by
        generalize φ p = pre at hnext
        cases hnext with
        | pay hout r => exact ⟨_, rfl⟩
      exact Or.inr (hold hpre)
    · rw [Function.update_of_ne hq] at hpt
      exact Or.inr (hold hpt)

theorem Progress.Holds.made {w : World} {g : Progress} {c : PayCall} {a : PaymentAttempt}
    (h : g.Holds crypto w p c) (ha : g.attempt? = some a) : c.Made crypto a := by
  cases g with
  | nothing => cases ha
  | _ =>
    cases ha
    exact h.2.1

/-- **Every attempt is one that a payment has committed**, for its invoice and under its key. -/
theorem System.Sound.inserter (h : s.Sound crypto φ) {a : PaymentAttempt}
    (ha : a ∈ s.world.db.attempts) : ∃ q c pt b, φ q = .pay c pt ∧ pt.progress.attempt? = some b ∧
      b.Follows a ∧ c.Made crypto b ∧ a.invoiceId = c.invoiceId ∧
        a.idempotencyKey.text = c.idempotencyKey := by
  obtain ⟨q, b, hb, hid⟩ := h.owned a ha
  have hgood := h.forGood q
  cases hph : φ q with
  | pay c pt =>
    rw [hph] at hb hgood
    obtain ⟨d, hd, hbd⟩ := Progress.Holds.follows hgood hb
    obtain rfl : d = a := Table.eq_of_key_eq hd ha (hbd.id.trans hid)
    have hmade : c.Made crypto b := Progress.Holds.made hgood hb
    refine ⟨q, c, pt, b, hph, hb, hbd, hmade, hbd.invoiceId.trans hmade.invoiceId, ?_⟩
    exact (congrArg Varchar.text hbd.idempotencyKey).trans hmade.fields.2.1
  | transition c pt =>
    rw [hph] at hb
    cases hb
  | other =>
    rw [hph] at hb
    cases hb

end Concerns

/-! ### The contest -/

/-- Only payments that are admitted start to deal with the invoice, and the deadlock detector
chooses none that deals with it. -/
def Confined (i : Uuid) (admits : System → PayCall → Prop) (s : System) : Event → Prop
  | .start job => job.Concerns i → ∃ c ∈ job.payCall?, admits s c
  | .abort q _ => ∀ proc ∈ s.procs[q]?, ¬proc.job.Concerns i
  | _ => True

instance (i : Uuid) (admits : System → PayCall → Prop) [∀ s, DecidablePred (admits s)]
    (s : System) : ∀ e, Decidable (Confined i admits s e)
  | .start job => inferInstanceAs (Decidable (job.Concerns i → ∃ c ∈ job.payCall?, admits s c))
  | .abort q _ => inferInstanceAs (Decidable (∀ proc ∈ s.procs[q]?, ¬proc.job.Concerns i))
  | .exec .. | .kill _ => inferInstanceAs (Decidable True)

/-- **The invoice is up for payment**: it is open and has a positive total, and whoever has dealt
with it has no statement left. -/
structure System.UpForPayment (s : System) (b i : Uuid) : Prop where
  payable : ∃ v, s.world.db.invoices.find? i = some v ∧ v.businessId = b ∧ v.state = .open ∧
    0 < v.totalCents.val
  quiet : ∀ p proc, s.procs[p]? = some proc → proc.job.Concerns i → s.next? p = none

/-- The session is one of the payments, with a key. -/
structure System.Contender (s : System) (n : ℕ) (i : Uuid) (p : Pid) (c : PayCall) : Prop where
  later : n ≤ p
  call : s.payCall? p = some c
  invoice : c.invoiceId = i
  keyed : c.idempotencyKey ≠ ""

/-- **The invoice is left to payments** of its business, which are the sessions from `n` on. -/
structure Contest (crypto : Crypto) (n : ℕ) (b i : Uuid) (s : System) (φ : Pid → Phase) : Prop where
  reachable : s.Reachable crypto
  length : n ≤ s.procs.length
  invoice : s.world.db.HasInvoice b i
  total : ∃ total, s.world.db.totalOf i = some total ∧ 0 < total.val
  /-- Whoever has dealt with the invoice before has no statement left. -/
  quiet : ∀ q, q < n → (φ q).Concerns i → s.next? q = none
  pays : ∀ q, n ≤ q → (φ q).Concerns i → ∃ c pt, φ q = .pay c pt ∧ c.business.id = b

section Contest

variable {crypto : Crypto} {n : ℕ} {b i : Uuid} {s t : System} {φ φ' : Pid → Phase} {e : Event}
  {p q : Pid} {c : PayCall} {admits : System → PayCall → Prop}

theorem Job.eq_of_payCall? {job : Job} (h : c ∈ job.payCall?) : job = c.job := by
  cases job with
  | poll => cases h
  | request business req =>
    cases req with
    | pay => cases h; rfl
    | _ => cases h

/-- A payment that starts to deal with the invoice is admitted. -/
theorem Confined.admits_of_start (hC : Confined i admits s (.start c.job)) (hi : c.invoiceId = i) :
    admits s c := by
  obtain ⟨c', heq, hc'⟩ := hC hi
  obtain rfl : c = c' := Option.some.inj heq
  exact hc'

/-- The deadlock detector leaves those alone who deal with the invoice. -/
theorem Confined.exec (hC : Confined i admits s e) (h : s.Sound crypto φ) {job : Job} {st : Stmt}
    {k : st.Resp → ServerProg (Except Exc Result)} {r : st.Resp} {w' : World}
    (hproc : s.procs[p]? = some ⟨job, .op st k, true⟩) (hp : (φ p).Concerns i)
    (hans : s.Answered p st r w' e) :
    ∃ env, e = .exec p env ∧ s.world.exec p env st = some (r, w') := by
  cases hans with
  | exec env hexec => exact ⟨env, rfl, hexec⟩
  | abort cycle _ _ => exact absurd ((h.tracks p _ hproc).concerns.mp hp) (hC _ hproc)

/-- **The contest begins** with an invoice that is up for payment. -/
theorem System.UpForPayment.contest (h : s.Sound crypto φ) (hs : s.Reachable crypto)
    (hup : s.UpForPayment b i) : Contest crypto s.procs.length b i s φ := by
  obtain ⟨v, hv, hb, -, hpos⟩ := hup.payable
  refine ⟨hs, le_rfl, ⟨v, hv, hb⟩, ⟨v.totalCents, ?_, hpos⟩, fun q hq hconcerns => ?_,
    fun q hq hconcerns => ?_⟩
  · rw [Database.totalOf, hv]
    rfl
  · obtain ⟨proc, hproc⟩ : ∃ proc, s.procs[q]? = some proc := ⟨_, List.getElem?_eq_getElem hq⟩
    exact hup.quiet q proc hproc ((h.tracks q proc hproc).concerns.mp hconcerns)
  · rw [h.absent q (List.getElem?_eq_none hq)] at hconcerns
    exact hconcerns.elim

/-- **The contest goes on** with every step. -/
theorem Contest.move (h : s.Sound crypto φ) (hI : Contest crypto n b i s φ)
    (hC : Confined i admits s e) (hadmits : ∀ c, admits s c → c.business.id = b)
    (hstep : s.step crypto e = some t) (hmove : s.Moves crypto φ e t φ') :
    Contest crypto n b i t φ' := by
  have hlength : s.procs.length ≤ t.procs.length := by
    cases hmove with
    | start job => simp
    | kill hproc => simp
    | answer hproc hans hnext => simp
  have hinvoice := hI.invoice.grows (h.grows hmove)
  obtain ⟨total, htotal, hpos⟩ := hI.total
  refine ⟨hI.reachable.step hstep, hI.length.trans hlength, hinvoice, ⟨total, ?_, hpos⟩, ?_, ?_⟩
  -- the total of an invoice that is there does not change
  · rcases hmove.db_or with ⟨hdb, -⟩ | ⟨p, -, -, -, -, -, ht⟩
    · rw [hdb]
      exact htotal
    · rw [ht]
      exact Database.totalOf_applyAll_of_some _ htotal
  · intro q hq hconcerns
    have hlt : q < s.procs.length := lt_of_lt_of_le hq hI.length
    refine (hmove.next?_eq_none hlt (hI.quiet q hq ?_)).1
    cases hmove with
    | start job => rwa [Function.update_of_ne (ne_of_lt hlt)] at hconcerns
    | kill hproc => exact hconcerns
    | @answer _ p job st r w' k ph hproc hans hnext =>
      by_cases hqp : q = p
      · subst hqp
        rw [Function.update_self] at hconcerns
        exact hnext.concerns.mp hconcerns
      · rwa [Function.update_of_ne hqp] at hconcerns
  · intro q hq hconcerns
    cases hmove with
    | start job =>
      by_cases hqn : q = s.procs.length
      · rw [hqn, Function.update_self] at hconcerns ⊢
        -- whoever starts on the invoice is admitted, and is a payment of the business
        obtain ⟨c, hjob, hc⟩ := hC ((Job.concerns_phase job).mp hconcerns)
        obtain rfl := Job.eq_of_payCall? hjob
        exact ⟨c, _, rfl, hadmits c hc⟩
      · rw [Function.update_of_ne hqn] at hconcerns ⊢
        exact hI.pays q hq hconcerns
    | kill hproc => exact hI.pays q hq hconcerns
    | @answer _ p job st r w' k ph hproc hans hnext =>
      by_cases hqp : q = p
      · subst hqp
        rw [Function.update_self] at hconcerns ⊢
        obtain ⟨c, pt, hph, hb⟩ := hI.pays q hq (hnext.concerns.mp hconcerns)
        rw [hph] at hnext
        cases hnext with
        | pay hout r => exact ⟨c, _, rfl, hb⟩
      · rw [Function.update_of_ne hqp] at hconcerns ⊢
        exact hI.pays q hq hconcerns

/-- Who has dealt with the invoice before the contest stays where it is. -/
theorem Contest.quiet_move (h : s.Sound crypto φ) (hI : Contest crypto n b i s φ)
    (hmove : s.Moves crypto φ e t φ') (hq : q < n) {pt : PayPoint} (hph : φ' q = .pay c pt)
    (hi : c.invoiceId = i) : φ q = .pay c pt := by
  have hlt := lt_of_lt_of_le hq hI.length
  rcases hmove.pay_cases h hph with ⟨-, heq, -⟩ | ⟨pt', hold, -⟩
  · exact absurd heq (ne_of_lt hlt)
  · rw [← (hmove.next?_eq_none hlt (hI.quiet q hq (by rw [hold]; exact hi))).2]
    exact hph

/-- A session that deals with the invoice and has a statement left is one of the payments. -/
theorem Contest.le_of_next? (hI : Contest crypto n b i s φ) {st : Stmt}
    (hnext : s.next? p = some st) (hconcerns : (φ p).Concerns i) : n ≤ p := by
  by_contra hp
  rw [hI.quiet p (Nat.lt_of_not_le hp) hconcerns] at hnext
  cases hnext

/-- **The invoice changes its state** only when one of the payments commits a success. -/
theorem Contest.stateOf_or (h : s.Sound crypto φ) (hI : Contest crypto n b i s φ)
    (hmove : s.Moves crypto φ e t φ') : t.world.db.stateOf i = s.world.db.stateOf i ∨
      ∃ p c a http result endpoints, n ≤ p ∧ φ p = .pay c (.settle a http (.ok result) endpoints) ∧
        c.invoiceId = i ∧ result.Succeeded ∧ s.world.db.attempts.find? a.id = some a ∧
          a.invoiceId = i ∧ t.world.db.stateOf i = some .paid := by
  rcases h.commit_or hmove with ⟨hdb, -, -⟩ | ⟨p, ph, hp, ht, rfl, hcommits⟩
  · exact Or.inl (congrArg (Database.stateOf · i) hdb)
  · generalize hpre : φ p = pre at hcommits
    cases hcommits with
    | reserve hholds hattempts hstate => exact Or.inl (hstate i)
    | unpaid hgood houtcome hpays hbind hrest htx hattempts hstate => exact Or.inl (hstate i)
    | @paid c a http result endpoints _ _ _ _ hgood houtcome hresult hbind hrest htx hattempts
        hstate =>
      by_cases hi : i = c.invoiceId
      · have hnext := h.next?_of_out hp hpre rfl
        have hle := hI.le_of_next? hnext (by rw [hpre]; exact hi.symm)
        exact Or.inr ⟨p, c, a, http, result, endpoints, hle, hpre, hi.symm, hresult, hgood.2.2,
          hgood.2.1.invoiceId.trans hi.symm, (hstate i).trans (if_pos hi)⟩
      · exact Or.inl ((hstate i).trans (if_neg hi))
    | @transition c v x now hchecked htx hattempts hstate =>
      by_cases hi : i = c.invoiceId
      · -- a transition of the invoice has no statement left, and is none of the payments
        have hnext := h.next?_of_out_transition hp hpre rfl
        have hconcerns : (φ p).Concerns i := by rw [hpre]; exact hi.symm
        obtain ⟨c', pt, hpay, -⟩ := hI.pays p (hI.le_of_next? hnext hconcerns) hconcerns
        rw [hpre] at hpay
        cases hpay
      · exact Or.inl ((hstate i).trans (if_neg hi))
    | other hwrites hattempts hstate =>
      rcases hstate i with hsame | ⟨hnone, -⟩
      · exact Or.inl hsame
      · obtain ⟨v, hv, -⟩ := hI.invoice
        rw [Database.stateOf, hv] at hnone
        cases hnone

/-- **What a step makes of the attempts on the invoice**: nothing, or one of the payments commits
its attempt while no other is pending, or commits the outcome of its call. -/
theorem Contest.attempts_or (h : s.Sound crypto φ) (hI : Contest crypto n b i s φ)
    (hmove : s.Moves crypto φ e t φ') :
    (∀ a, a.invoiceId = i → (a ∈ t.world.db.attempts ↔ a ∈ s.world.db.attempts)) ∨
      (∃ p c v a, n ≤ p ∧ φ p = .pay c (.reserve v a) ∧ c.invoiceId = i ∧ c.Made crypto a ∧
        s.world.db.stateOf i = some .open ∧
        (∀ d ∈ s.world.db.attempts, d.invoiceId = i → d.status ≠ .pending ∧
          d.idempotencyKey ≠ a.idempotencyKey) ∧
        ∀ d ∈ t.world.db.attempts, d ∈ s.world.db.attempts ∨ d = a) ∨
      ∃ p c a http outcome endpoints update now, n ≤ p ∧
        φ p = .pay c (.settle a http outcome endpoints) ∧ c.invoiceId = i ∧ c.Made crypto a ∧
        s.world.db.attempts.find? a.id = some a ∧ chargeOutcome http = some outcome ∧
        (outcomeChange outcome).bind = .ok update ∧
        (Pays outcome → t.world.db.stateOf i = some .paid) ∧ t.world.db.attempts =
          s.world.db.attempts.update a.id (·.update update now) (·.update_id update now) := by
  rcases h.commit_or hmove with ⟨hdb, -, -⟩ | ⟨p, ph, hp, ht, rfl, hcommits⟩
  · rw [hdb]
    exact Or.inl fun a _ => Iff.rfl
  · have hsettle : ∀ {c : PayCall} {a : PaymentAttempt} {http outcome endpoints update now},
        φ p = .pay c (.settle a http outcome endpoints) →
        (Progress.answered a http).Holds crypto s.world p c → chargeOutcome http = some outcome →
        (outcomeChange outcome).bind = .ok update →
        (Pays outcome → c.invoiceId = i → t.world.db.stateOf i = some .paid) → t.world.db.attempts =
          s.world.db.attempts.update a.id (·.update update now) (·.update_id update now) →
        (∀ a, a.invoiceId = i → (a ∈ t.world.db.attempts ↔ a ∈ s.world.db.attempts)) ∨
          ∃ p c a http outcome endpoints update now, n ≤ p ∧
            φ p = .pay c (.settle a http outcome endpoints) ∧ c.invoiceId = i ∧ c.Made crypto a ∧
            s.world.db.attempts.find? a.id = some a ∧ chargeOutcome http = some outcome ∧
            (outcomeChange outcome).bind = .ok update ∧
            (Pays outcome → t.world.db.stateOf i = some .paid) ∧ t.world.db.attempts =
              s.world.db.attempts.update a.id (·.update update now) (·.update_id update now) := by
      intro c a http outcome endpoints update now hpre hgood houtcome hbind hpaid hattempts
      obtain ⟨-, hmade, hfind⟩ := hgood
      by_cases hi : c.invoiceId = i
      · have hle := hI.le_of_next? (h.next?_of_out hp hpre rfl) (by rw [hpre]; exact hi)
        exact Or.inr ⟨p, c, a, http, outcome, endpoints, update, now, hle, hpre, hi, hmade, hfind,
          houtcome, hbind, fun hp => hpaid hp hi, hattempts⟩
      · -- the attempt that is updated is on another invoice
        have hne : ∀ d ∈ s.world.db.attempts, d.id = a.id → d.invoiceId ≠ i := by
          intro d hd hid
          obtain rfl := Table.eq_of_key_eq hd (Table.find?_eq_some.mp hfind).1 hid
          rw [hmade.invoiceId]
          exact hi
        refine Or.inl fun d hdi => ?_
        rw [hattempts, Table.mem_update]
        constructor
        · rintro ⟨d', hd', rfl⟩
          split at hdi
          case isTrue hid => exact absurd hdi (hne d' hd' hid)
          case isFalse hid => rwa [if_neg hid]
        · intro hd
          exact ⟨d, hd, (if_neg fun hid => hne d hd hid hdi).symm⟩
    generalize hpre : φ p = pre at hcommits
    cases hcommits with
    | @reserve c v a hholds hattempts hstate =>
      obtain ⟨-, hv, hfind, hreserving⟩ := hholds
      have hai : a.invoiceId = c.invoiceId := hreserving.made.invoiceId
      by_cases hi : c.invoiceId = i
      · have hle := hI.le_of_next? (h.next?_of_out hp hpre rfl) (by rw [hpre]; exact hi)
        refine Or.inr (Or.inl ⟨p, c, v, a, hle, hpre, hi, hreserving.made, ?_,
          fun d hd hdi => ⟨?_, ?_⟩, fun d hd => Table.of_mem_insert (hattempts ▸ hd)⟩)
        · rw [Database.stateOf, ← hi, hfind, Option.map_some, hv.isOpen]
        · have hsame := hreserving.noSamePending d hd
          simp only [PaymentAttempt.samePending, hai, hi, hdi, hreserving.made.status] at hsame
          simpa using hsame
        · have hsame := hreserving.noSameKey d hd
          simp only [PaymentAttempt.sameKey, hai, hi, hdi] at hsame
          simpa using Ne.symm (by simpa using hsame)
      · refine Or.inl fun d hdi => ⟨fun hd => ?_, fun hd => hattempts ▸ Table.mem_insert_of_mem hd⟩
        rcases Table.of_mem_insert (hattempts ▸ hd) with hd | rfl
        · exact hd
        · exact absurd (hai.symm.trans hdi) hi
    | paid hgood houtcome hresult hbind hrest htx hattempts hstate =>
      have hbind' := hbind
      rw [← if_pos hresult (t := succeededChange _) (e := failedChange _)] at hbind'
      refine (hsettle hpre hgood houtcome hbind' (fun _ hi => ?_) hattempts).imp_right Or.inr
      exact (hstate i).trans (if_pos hi.symm)
    | unpaid hgood houtcome hpays hbind hrest htx hattempts hstate =>
      exact
        (hsettle hpre hgood houtcome hbind (fun hp => absurd hp hpays) hattempts).imp_right Or.inr
    | transition hchecked htx hattempts hstate =>
      rw [hattempts]
      exact Or.inl fun a _ => Iff.rfl
    | other hwrites hattempts hstate =>
      rw [hattempts]
      exact Or.inl fun a _ => Iff.rfl

end Contest

theorem upForPayment_pricedInvoice : pricedInvoice.UpForPayment 1 0 := by
  refine ⟨?_, ?_⟩
  · obtain ⟨v, hready, hpos⟩ := ready_pricedInvoice
    exact ⟨v, hready.found, hready.business, hready.isOpen, hpos⟩
  · have hall : ∀ p < 3, (pricedInvoice.next? p).isNone = true := by decide +kernel
    intro p proc hproc _
    have hlength : pricedInvoice.procs.length = 3 := by decide +kernel
    have hlt : p < pricedInvoice.procs.length := (List.getElem?_eq_some_iff.mp hproc).1
    exact Option.isNone_iff_eq_none.mp (hall p (hlength ▸ hlt))

end TenantBilling
