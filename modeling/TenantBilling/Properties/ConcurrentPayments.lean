import TenantBilling.Properties.Contest

/-!
# Concurrent payments of one invoice

Any number of payments of one open invoice, under different keys and in any order of their steps.
The losers are stopped at three points: the invoice is found paid when it has been locked, or
another attempt is pending when the own one is inserted, and who has been stopped has inserted
nothing and has called nobody (`TenantBilling.PayPoint.Competing`). If the provider reports
success to everyone, one payment wins and the others lose (`TenantBilling.concurrent_payments`).
All of this is about payments whose texts the database stores: one with a `U+0000` in its card
token ends in neither way (`TenantBilling.not_concurrent_payments`).
-/

namespace TenantBilling

open Base World

/-- There is an attempt on the invoice. -/
def Database.Attempted (db : Database) (i : Uuid) : Prop := ∃ a ∈ db.attempts, a.invoiceId = i

/-- What raises `InvalidStateTransition`. -/
def RaisesTransition (x : Except Exc Result) : Prop :=
  ∃ fromState toState reason, x = .error (.app (.invalidStateTransition fromState toState reason))

/-- The request has been refused before it has done anything, as one without a key is. -/
def PayPoint.TurnedAway : PayPoint → Prop
  | closing _ .nothing | done _ .nothing => True
  | _ => False

/-- What is known at a point of one of the payments: who has lost has been refused for an attempt
that there is. -/
def PayPoint.Competing (db : Database) (i : Uuid) : PayPoint → Prop
  | undo errorMsg => occursIn onePendingMarker errorMsg ∧ db.Attempted i
  | relookup => False
  | closing x g | done x g =>
    match g with
    | .nothing => RaisesTransition x ∧ db.Attempted i
    | .reserved _ | .called _ => False
    | .answered .. | .settled .. => True
  | _ => True

/-- The texts of the request are no longer than their columns are wide. -/
def PayCall.Short (c : PayCall) : Prop := c.idempotencyKey.length ≤ 255 ∧ c.cardToken.length ≤ 100

instance : DecidablePred PayCall.Short := fun _ => inferInstanceAs (Decidable (_ ∧ _))

/-- Who is admitted: a payment of the business with texts that fit, under a key of its own. -/
structure Competes (fits : PayCall → Prop) (n : ℕ) (b i : Uuid) (s : System) (c : PayCall) :
    Prop where
  business : c.business.id = b
  fits : fits c
  distinct : ∀ q c', n ≤ q → s.payCall? q = some c' → c'.invoiceId = i →
    c'.idempotencyKey ≠ c.idempotencyKey

instance (fits : PayCall → Prop) [DecidablePred fits] (n : ℕ) (b i : Uuid) (s : System) :
    DecidablePred (Competes fits n b i s) := fun c =>
  decidable_of_iff (c.business.id = b ∧ fits c ∧ ∀ q < s.procs.length, n ≤ q →
      ∀ c' ∈ s.payCall? q, c'.invoiceId = i → c'.idempotencyKey ≠ c.idempotencyKey) <| by
    constructor
    · rintro ⟨hbusiness, hfits, hdistinct⟩
      refine ⟨hbusiness, hfits, fun q c' hq hc' => hdistinct q ?_ hq c' hc'⟩
      obtain ⟨proc, hproc, -⟩ := Option.bind_eq_some_iff.mp hc'
      exact (List.getElem?_eq_some_iff.mp hproc).1
    · exact fun h => ⟨h.business, h.fits, fun q _ hq c' hc' => h.distinct q c' hq hc'⟩

/-- **The payments compete for the invoice.** -/
structure Competition (crypto : Crypto) (n : ℕ) (b i : Uuid) (s : System) (φ : Pid → Phase) : Prop
    extends Contest crypto n b i s φ where
  state : s.world.db.stateOf i = some .open ∨
    s.world.db.stateOf i = some .paid ∧ s.world.db.Attempted i
  /-- Who has dealt with the invoice before has no attempt. -/
  before : ∀ q c pt, q < n → φ q = .pay c pt → c.invoiceId = i → pt.progress.attempt? = none
  points : ∀ q c pt, n ≤ q → φ q = .pay c pt → c.invoiceId = i →
    c.Fits ∧ if c.idempotencyKey = "" then pt.TurnedAway else pt.Competing s.world.db i
  distinct : ∀ p q c c' pt pt', n ≤ p → n ≤ q → φ p = .pay c pt → φ q = .pay c' pt' →
    c.invoiceId = i → c'.invoiceId = i → c.idempotencyKey = c'.idempotencyKey → p = q

section Competition

variable {crypto : Crypto} {n : ℕ} {b i : Uuid} {s t : System} {φ φ' : Pid → Phase} {e : Event}
  {p q : Pid} {c : PayCall} {pt : PayPoint} {db db' : Database}

theorem Database.Attempted.follows (h : db.Attempted i)
    (hdb : ∀ a ∈ db.attempts, ∃ d ∈ db'.attempts, a.Follows d) : db'.Attempted i := by
  obtain ⟨a, ha, hi⟩ := h
  obtain ⟨d, hd, had⟩ := hdb a ha
  exact ⟨d, hd, had.invoiceId.trans hi⟩

theorem PayPoint.Competing.imp (h : pt.Competing db i) (himp : db.Attempted i → db'.Attempted i) :
    pt.Competing db' i := by
  cases pt with
  | undo errorMsg => exact ⟨h.1, himp h.2⟩
  | closing x g =>
    cases g with
    | nothing => exact ⟨h.1, himp h.2⟩
    | _ => exact h
  | done x g =>
    cases g with
    | nothing => exact ⟨h.1, himp h.2⟩
    | _ => exact h
  | _ => exact h

theorem PayPoint.TurnedAway.next {st : Stmt} {next : st.Resp → PayPoint} (h : pt.TurnedAway)
    (hout : pt.out crypto c = .op st next) (r : st.Resp) : (next r).TurnedAway := by
  cases pt with
  | closing x g =>
    cases hout
    cases g with
    | nothing => trivial
    | _ => exact h.elim
  | done x g => cases hout
  | _ => exact h.elim

/-- **An attempt under the key of a payment is its own.** -/
theorem Competition.own (h : s.Sound crypto φ) (hI : Competition crypto n b i s φ) (hp : n ≤ p)
    (hph : φ p = .pay c pt) (hi : c.invoiceId = i) (hkey : s.world.db.HasKey i c.idempotencyKey) :
    pt.progress.attempt? ≠ none := by
  obtain ⟨a, ha, hai, hakey⟩ := hkey
  obtain ⟨q, c', pt', d, hq, hd, -, -, hinvoice, htext⟩ := h.inserter ha
  have hi' : c'.invoiceId = i := hinvoice.symm.trans hai
  have hle : n ≤ q := by
    by_contra hlt
    rw [hI.before q c' pt' (Nat.lt_of_not_le hlt) hq hi'] at hd
    cases hd
  obtain rfl := hI.distinct p q c c' pt pt' hp hle hph hq hi hi' (hakey.symm.trans htext)
  rw [hph] at hq
  cases hq
  rw [hd]
  rintro ⟨⟩

/-- The row that a payment has locked is the committed one. -/
theorem Competition.lost (hI : Competition crypto n b i s φ) {v : Invoice} {err : AppError}
    (hfind : s.world.db.invoices.find? i = some v)
    (herr : assertTransitionAllowed v.state .paid = .error err) :
    RaisesTransition (.error (.app err)) ∧ s.world.db.Attempted i := by
  obtain ⟨reason, rfl⟩ := assertTransitionAllowed_eq_error herr
  refine ⟨⟨_, _, reason, rfl⟩, ?_⟩
  have hstate : s.world.db.stateOf i = some v.state := by rw [Database.stateOf, hfind]; rfl
  rcases hI.state with hopen | ⟨-, hattempted⟩
  · rw [hopen] at hstate
    rw [← Option.some.inj hstate] at herr
    cases herr
  · exact hattempted

/-- **A statement of one of the payments.** -/
theorem PayPoint.Competing.step {st : Stmt} {next : st.Resp → PayPoint} {r : st.Resp} {w' : World}
    {env : Env} (h : s.Sound crypto φ) (hI : Competition crypto n b i s φ) (hp : n ≤ p)
    (halive : s.Alive p) (hph : φ p = .pay c pt) (hi : c.invoiceId = i)
    (hout : pt.out crypto c = .op st next) (hexec : s.world.exec p env st = some (r, w'))
    (hfits : c.Fits) (hpt : pt.Competing s.world.db i) : (next r).Competing s.world.db i := by
  have hans : s.world.Answers p st r w' := .exec env hexec
  have hkeyed : s.world.db.Keyed := h.keys
  have hholds := h.alive p halive
  rw [hph] at hholds
  cases pt with
  | lookup =>
    cases hout
    obtain ⟨⟨env', hr⟩, -⟩ := answers_select hans
    rw [World.Idle.view hholds] at hr
    rcases r with _ | a
    · trivial
    · obtain ⟨ha, hai, hakey⟩ := (Database.attemptByKey_eq_some hkeyed).mp hr.symm
      -- nobody else has used its key
      exact absurd rfl (hI.own h hp hph hi ⟨a, ha, hai.trans hi, hakey⟩)
  | lock =>
    cases hout
    obtain ⟨row?, rfl⟩ := exec_lockInvoice hexec
    have hlock := answers_lockInvoice hans
    cases row? with
    | none =>
      obtain ⟨v, hv, hb⟩ := hI.invoice
      obtain ⟨c', pt', hc', hbusiness⟩ := hI.pays p hp (by rw [hph]; exact hi)
      rw [hph] at hc'
      cases hc'
      have hview : (s.world.view p).invoices.find? c.invoiceId = some v := by
        rw [World.Idle.view hholds, hi]
        exact hv
      -- the invoice is there and the business owns it
      have hnot := hlock.2 v hview
      simp [Invoice.belongsTo, hb, hbusiness] at hnot
    | some v =>
      obtain ⟨-, -, hfind, -⟩ := hlock
      rw [World.Idle.view hholds, hi] at hfind
      dsimp only
      split
      -- the state is no longer open, so another one has got its attempt in
      case h_1 err herr => exact hI.lost hfind herr
      case h_2 => trivial
  | insert v =>
    cases hout
    obtain ⟨htx, hv, hfind⟩ := hholds
    rcases r with err | a
    · obtain ⟨errorMsg, rfl⟩ := exec_insertAttempt_integrity hexec hfits.key hfits.token
      obtain ⟨total, htotal, hpos⟩ := hI.total
      rw [Database.totalOf, ← hi, hfind] at htotal
      cases htotal
      -- of the three refusals only that for a pending attempt is possible
      cases insertRefused hexec htx.view (by rw [newAttempt, hfind]; simp) with
      | check hnot => exact absurd hpos hnot
      | key _ hkey _ => exact absurd rfl (hI.own h hp hph hi (hi ▸ hkey))
      | pending _ _ hpending htext =>
        obtain ⟨a, ha, hai, -⟩ := hpending
        exact ⟨htext, a, ha, hai.trans hi⟩
    · trivial
  | undo errorMsg =>
    cases hout
    dsimp only
    rw [if_pos hpt.1]
    exact ⟨⟨_, _, _, rfl⟩, hpt.2⟩
  | relookup => exact hpt.elim
  | closing x g => cases hout; exact hpt
  | done x g => cases hout
  | receive v a =>
    cases hout
    dsimp only
    split <;> trivial
  | record v a http outcome =>
    cases hout
    rcases r with err | _
    · trivial
    · dsimp only [PayPoint.recorded]
      split
      · trivial
      · split <;> trivial
  | relock v a http result =>
    cases hout
    rcases r with err | _ | row
    · trivial
    · trivial
    · dsimp only
      split <;> trivial
  | refetch | markPaid | listEndpoints | outbox | refresh =>
    cases hout
    dsimp only
    split <;> trivial
  | _ => cases hout; trivial

/-- **The competition goes on** with every step. -/
theorem Competition.move (h : s.Sound crypto φ) (hI : Competition crypto n b i s φ)
    (hC : Confined i (Competes PayCall.Fits n b i) s e) (hstep : s.step crypto e = some t)
    (hmove : s.Moves crypto φ e t φ') : Competition crypto n b i t φ' := by
  have hattempted : s.world.db.Attempted i → t.world.db.Attempted i :=
    fun hA => hA.follows fun a ha => h.follows hmove ha
  refine ⟨hI.toContest.move h hC (fun c hc => hc.business) hstep hmove, ?_, ?_, ?_, ?_⟩
  · rcases hI.stateOf_or h hmove with hsame | ⟨p, c, a, -, -, -, -, -, -, -, hfind, hai, hpaid⟩
    · rw [hsame]
      exact hI.state.imp_right fun ⟨hpaid, hA⟩ => ⟨hpaid, hattempted hA⟩
    · exact Or.inr ⟨hpaid, hattempted ⟨a, (Table.find?_eq_some.mp hfind).1, hai⟩⟩
  · intro q c pt hq hph hi
    exact hI.before q c pt hq (hI.quiet_move h hmove hq hph hi) hi
  -- the points of the payments, of which one has perhaps just been started
  · intro q c pt' hq hph hi
    rcases hmove.pay_cases h hph with ⟨rfl, -, -, rfl⟩ | ⟨pt, hpt, rfl | ⟨st, next, r, hout, halive,
      hnext, hans, rfl⟩⟩
    · refine ⟨(hC.admits_of_start hi).fits, ?_⟩
      unfold PayPoint.start
      split <;> trivial
    · obtain ⟨hfits, hpoint⟩ := hI.points q c _ hq hpt hi
      refine ⟨hfits, ?_⟩
      split
      case isTrue hkey => rwa [if_pos hkey] at hpoint
      case isFalse hkey =>
        rw [if_neg hkey] at hpoint
        exact hpoint.imp hattempted
    · obtain ⟨hfits, hpoint⟩ := hI.points q c _ hq hpt hi
      obtain ⟨job, k, hproc⟩ := System.next?_eq_some.mp hnext
      obtain ⟨env, rfl, hexec⟩ := hC.exec h hproc (by rw [hpt]; exact hi) hans
      refine ⟨hfits, ?_⟩
      split
      case isTrue hkey =>
        rw [if_pos hkey] at hpoint
        exact hpoint.next hout r
      case isFalse hkey =>
        rw [if_neg hkey] at hpoint
        exact (PayPoint.Competing.step h hI hq halive hpt hi hout hexec hfits hpoint).imp hattempted
  -- different sessions have different keys, by what is admitted at their start
  · intro p q c c' pt pt' hp hq hph hph' hi hi' hkey
    rcases hmove.pay_cases h hph with ⟨rfl, rfl, -⟩ | ⟨pt₀, hpt₀, -⟩
    · rcases hmove.pay_cases h hph' with ⟨-, rfl, -⟩ | ⟨pt₁, hpt₁, -⟩
      · rfl
      · have hcall := h.payCall?_eq_some.mpr ⟨pt₁, hpt₁⟩
        exact absurd hkey.symm ((hC.admits_of_start hi).distinct q c' hq hcall hi')
    · rcases hmove.pay_cases h hph' with ⟨rfl, rfl, -⟩ | ⟨pt₁, hpt₁, -⟩
      · have hcall := h.payCall?_eq_some.mpr ⟨pt₀, hpt₀⟩
        exact absurd hkey ((hC.admits_of_start hi').distinct p c hp hcall hi)
      · exact hI.distinct p q c c' pt₀ pt₁ hp hq hpt₀ hpt₁ hi hi' hkey

/-! ### If the provider reports success to everyone -/

/-- A charge request for the invoice is answered with a success whose reference fits. -/
def RepliesSuccess (i : Uuid) (s : System) : Event → Prop
  | .exec q env => ∀ c ∈ s.payCall? q, c.invoiceId = i → WhenAnswering
      (fun http => http.Replies "succeeded" ∧ http.pspRef.FitsPspRef) s (.exec q env)
  | _ => True

instance (i : Uuid) (s : System) : ∀ e, Decidable (RepliesSuccess i s e)
  | .exec q env => inferInstanceAs (Decidable (∀ c ∈ s.payCall? q, c.invoiceId = i → WhenAnswering
      (fun http => http.Replies "succeeded" ∧ http.pspRef.FitsPspRef) s (.exec q env)))
  | .start _ | .abort .. | .kill _ => inferInstanceAs (Decidable True)

/-- What a payment has been told of its call. -/
def Progress.told? : Progress → Option HttpResult
  | answered _ http | settled _ http => some http
  | _ => none

/-- A payment is told of its call when it waits for the answer. -/
theorem PayPoint.told_next {st : Stmt} {next : st.Resp → PayPoint}
    (hout : pt.out crypto c = .op st next) (hne : ∀ v a, pt ≠ .receive v a) (r : st.Resp) :
    (next r).progress.told? = pt.progress.told? := by
  cases pt with
  | receive v a => exact absurd rfl (hne v a)
  | done x g => cases hout
  | record v a http outcome =>
    cases hout
    cases r with
    | error e => rfl
    | ok u =>
      dsimp only [PayPoint.recorded]
      split
      · rfl
      · split <;> rfl
  | lookup | lock | insert v | undo errorMsg | relookup | refetch | relock | markPaid
  | listEndpoints | outbox | refresh =>
    cases hout
    dsimp only
    repeat' split
    all_goals rfl
  | _ =>
    cases hout
    rfl

/-- **The payments of which one wins**, for the provider reports success to everyone. -/
structure Winning (crypto : Crypto) (n : ℕ) (b i : Uuid) (s : System) (φ : Pid → Phase) : Prop
    extends Competition crypto n b i s φ where
  single : ∀ a ∈ s.world.db.attempts, a.invoiceId = i → ∀ d ∈ s.world.db.attempts, d.invoiceId = i →
    a.id = d.id
  pending : s.world.db.stateOf i = some .open → ∀ a ∈ s.world.db.attempts, a.invoiceId = i →
    a.status = .pending
  told : ∀ q c pt, n ≤ q → φ q = .pay c pt → c.invoiceId = i → ∀ http,
    pt.progress.told? = some http → http.Says "succeeded"
  /-- What a payment has been told it keeps, in the run that has led here. -/
  keeps : ∃ es, run (System.step crypto) .init es = some s ∧
    (∀ q, (φ q).Read (System.transcript crypto q .init es)) ∧
      ∀ q c pt, n ≤ q → φ q = .pay c pt → c.invoiceId = i → pt.Keeps crypto es s q c

theorem Winning.move (h : s.Sound crypto φ) (hI : Winning crypto n b i s φ)
    (hC : Confined i (Competes PayCall.Fits n b i) s e) (hreplies : RepliesSuccess i s e)
    (hstep : s.step crypto e = some t) (hmove : s.Moves crypto φ e t φ') :
    Winning crypto n b i t φ' := by
  have hawait : ∀ {q c pt env}, φ q = .pay c pt → c.invoiceId = i → e = .exec q env →
      s.next? q = some .awaitCharge → env.http.Replies "succeeded" ∧
        env.http.pspRef.FitsPspRef := by
    rintro q c pt env hph hi rfl hnext
    exact (hreplies c (h.payCall?_eq_some.mpr ⟨pt, hph⟩) hi).exec hnext
  have hopen : t.world.db.stateOf i = some .open → s.world.db.stateOf i = some .open := by
    intro ht
    rcases hI.stateOf_or h hmove with hsame | ⟨-, -, -, -, -, -, -, -, -, -, -, -, hpaid⟩
    · rwa [← hsame]
    · rw [hpaid] at ht
      cases ht
  have hattempts := hI.attempts_or h hmove
  refine ⟨hI.toCompetition.move h hC hstep hmove, ?_, ?_, ?_, ?_⟩
  · rcases hattempts with hsame | ⟨p, c, v, a, -, -, -, -, hopen, hnone, hinsert⟩ |
      ⟨p, c, a, http, outcome, endpoints, update, now, -, -, -, -, -, -, -, -, hupdate⟩
    · intro a ha hai d hd hdi
      exact hI.single a ((hsame a hai).mp ha) hai d ((hsame d hdi).mp hd) hdi
    · -- before the insert there is none
      have hempty : ∀ d ∈ s.world.db.attempts, d.invoiceId ≠ i :=
        fun d hd hdi => (hnone d hd hdi).1 (hI.pending hopen d hd hdi)
      have honly : ∀ d ∈ t.world.db.attempts, d.invoiceId = i → d = a := by
        intro d hd hdi
        rcases hinsert d hd with hd | rfl
        · exact absurd hdi (hempty d hd)
        · rfl
      intro d hd hdi d' hd' hdi'
      rw [honly d hd hdi, honly d' hd' hdi']
    · have hback : ∀ d ∈ t.world.db.attempts, d.invoiceId = i →
          ∃ d' ∈ s.world.db.attempts, d'.invoiceId = i ∧ d'.id = d.id := by
        intro d hd hdi
        rw [hupdate, Table.mem_update] at hd
        obtain ⟨d', hd', rfl⟩ := hd
        refine ⟨d', hd', ?_, ?_⟩
        · split at hdi <;> exact hdi
        · split <;> rfl
      intro d hd hdi d' hd' hdi'
      obtain ⟨d₀, hd₀, hi₀, hid⟩ := hback d hd hdi
      obtain ⟨d₁, hd₁, hi₁, hid'⟩ := hback d' hd' hdi'
      rw [← hid, ← hid']
      exact hI.single d₀ hd₀ hi₀ d₁ hd₁ hi₁
  · intro ht a ha hai
    rcases hattempts with hsame | ⟨p, c, v, d, -, -, -, hmade, -, -, hinsert⟩ |
      ⟨p, c, d, http, outcome, endpoints, update, now, hp, hph, hi, -, -, houtcome, -, hpaid, -⟩
    · exact hI.pending (hopen ht) a ((hsame a hai).mp ha) hai
    · rcases hinsert a ha with ha | rfl
      · exact hI.pending (hopen ht) a ha hai
      · exact hmade.status
    · obtain ⟨result, rfl, hsucceeded, -⟩ :=
        outcome_of_says (hI.told p c _ hp hph hi http rfl) houtcome
      rw [hpaid hsucceeded] at ht
      cases ht
  · intro q c pt' hq hph hi http htold
    rcases hmove.pay_cases h hph with ⟨-, -, -, rfl⟩ | ⟨pt, hpt, rfl | ⟨st, next, r, hout, halive,
      hnext, hans, rfl⟩⟩
    · unfold PayPoint.start at htold
      split at htold <;> cases htold
    · exact hI.told q c _ hq hpt hi http htold
    · by_cases hreceive : ∃ v a, pt = .receive v a
      · obtain ⟨v, a, rfl⟩ := hreceive
        cases hout
        obtain ⟨job, k, hproc⟩ := System.next?_eq_some.mp hnext
        obtain ⟨env, he, hexec⟩ := hC.exec h hproc (by rw [hpt]; exact hi) hans
        have hsays := (hawait hpt hi he hnext).1.reported
        obtain rfl : r = env.http :=
          (congrArg Prod.fst (Option.some.inj (exec_eq_some.mp hexec).2)).symm
        dsimp only at htold
        split at htold
        all_goals
          cases htold
          exact hsays
      · rw [PayPoint.told_next hout (fun v a heq => hreceive ⟨v, a, heq⟩)] at htold
        exact hI.told q c _ hq hpt hi http htold
  · obtain ⟨es, hrun, hread, hkept⟩ := hI.keeps
    refine ⟨es ++ [e], run_concat hrun hstep, System.read_move hrun hread hstep hmove,
      fun q c pt' hq hph hi => ?_⟩
    have hkeeping : Keeping crypto q es s φ := by
      refine ⟨hrun, hread, fun c' pt hpt => ?_⟩
      rcases hmove.pay_cases h hph with ⟨-, rfl, -⟩ | ⟨pt₀, hpt₀, -⟩
      · rw [h.absent _ (List.getElem?_eq_none le_rfl)] at hpt
        cases hpt
      · rw [hpt₀] at hpt
        cases hpt
        exact hkept q c _ hq hpt₀ hi
    have hkeeps : KeepsSuccess q s e := by
      cases e with
      | exec q' env =>
        rintro rfl
        split
        case h_1 hnext =>
          intro _
          rcases hmove.pay_cases h hph with ⟨⟨⟩, -⟩ | ⟨pt₀, hpt₀, -⟩
          exact (hawait hpt₀ hi rfl hnext).2
        case h_2 => trivial
      | abort q' cycle =>
        rintro rfl
        rcases hmove.pay_cases h hph with ⟨⟨⟩, -⟩ | ⟨pt₀, hpt₀, -⟩
        cases hmove with
        | answer hproc hans hnext =>
          cases hans
          refine absurd ((h.tracks _ _ hproc).concerns.mp ?_) (hC _ hproc)
          rw [hpt₀]
          exact hi
      | start job => trivial
      | kill q' => trivial
    exact (hkeeping.move h hkeeps hstep hmove).keeps c pt' hph

end Competition

/-! ### Where the payments end -/

section Ends

variable {crypto : Crypto} {n : ℕ} {b i : Uuid} {s t : System} {φ : Pid → Phase} {p : Pid}
  {c : PayCall} {pt : PayPoint} {x : Except Exc Result}

/-- The request has inserted an attempt of its own, and has called the provider for it, once. -/
def CallsOnce (w : World) (p : Pid) (c : PayCall) : Prop :=
  ∃ a ∈ w.db.attempts, a.invoiceId = c.invoiceId ∧ a.idempotencyKey.text = c.idempotencyKey ∧
    ∃ result, w.chargesOf p = [c.charge p a result]

/-- The request has raised `InvalidStateTransition`, and has neither inserted an attempt nor called
the provider. -/
structure GivesWay (w : World) (p : Pid) (c : PayCall) (x : Except Exc Result) : Prop where
  raises : RaisesTransition x
  absent : ¬w.db.HasKey c.invoiceId c.idempotencyKey
  uncalled : w.chargesOf p = []

/-- **One payment has won**, and all others have given way to it. -/
structure OneWins (s : System) (n : ℕ) (i : Uuid) : Prop where
  winner : ∃ p c a, s.Contender n i p c ∧ s.returned? p = some (.ok (.attempt a false)) ∧
    a.status = .succeeded ∧ ∀ q c', s.Contender n i q c' → q ≠ p →
      ∃ x, s.returned? q = some x ∧ RaisesTransition x
  called : ∃ x, s.chargesOn i = [x]
  paid : s.world.db.stateOf i = some .paid
  attempt : ∃! a, a ∈ s.world.db.attempts ∧ a.invoiceId = i

/-- A payment that has returned has called the provider, or has given way. -/
theorem Competition.of_returned (h : s.Sound crypto φ) (hI : Competition crypto n b i s φ)
    (hc : s.Contender n i p c) (hx : s.returned? p = some x) :
    ∃ g, φ p = .pay c (.done x g) ∧ g.Holds crypto s.world p c ∧
      ((g = .nothing ∧ s.world.db.Attempted i ∧ GivesWay s.world p c x) ∨
        ∃ a http, (g = .answered a http ∨ g = .settled a http) ∧ CallsOnce s.world p c) := by
  obtain ⟨pt, hph⟩ := h.payCall?_eq_some.mp hc.call
  obtain ⟨g, rfl⟩ := h.done_of_returned hx hph
  have hgood : g.Holds crypto s.world p c := by
    have hgood := h.forGood p
    rwa [hph] at hgood
  obtain ⟨-, hpoint⟩ := hI.points p c _ hc.later hph hc.invoice
  rw [if_neg hc.keyed] at hpoint
  have hcalls : ∀ {a http}, (g = .answered a http ∨ g = .settled a http) →
      CallsOnce s.world p c := by
    rintro a http hg
    have ha : g.attempt? = some a := by rcases hg with rfl | rfl <;> rfl
    obtain ⟨d, hd, had⟩ := hgood.follows ha
    have hmade : c.Made crypto a ∧ s.world.chargesOf p = [c.charge p a (some http)] := by
      rcases hg with rfl | rfl <;> exact ⟨hgood.2.1, hgood.1⟩
    refine ⟨d, hd, had.invoiceId.trans hmade.1.invoiceId, ?_, some http, ?_⟩
    · exact (congrArg Varchar.text had.idempotencyKey).trans hmade.1.fields.2.1
    · rw [hmade.2]
      unfold PayCall.charge
      rw [had.amountCents]
  refine ⟨g, hph, hgood, ?_⟩
  cases g with
  | nothing =>
    refine Or.inl ⟨rfl, hpoint.2, hpoint.1, fun hkey => ?_, hgood⟩
    exact hI.own h hc.later hph hc.invoice (hc.invoice ▸ hkey) rfl
  | reserved a => exact hpoint.elim
  | called a => exact hpoint.elim
  | answered a http => exact Or.inr ⟨a, http, Or.inl rfl, hcalls (Or.inl rfl)⟩
  | settled a http => exact Or.inr ⟨a, http, Or.inr rfl, hcalls (Or.inr rfl)⟩

/-- **What a payment has ended with** if the provider reports success to everyone: it has given way,
or it has returned its attempt, which has succeeded and is the only one. -/
theorem Winning.of_returned (h : s.Sound crypto φ) (hI : Winning crypto n b i s φ)
    (hc : s.Contender n i p c) (hx : s.returned? p = some x) :
    (RaisesTransition x ∧ s.world.db.Attempted i ∧ ∃ g,
      φ p = .pay c (.done x g) ∧ g.attempt? = none) ∨
      ∃ row ∈ s.world.db.attempts, x = .ok (.attempt row false) ∧ row.invoiceId = i ∧
        row.idempotencyKey.text = c.idempotencyKey ∧ row.status = .succeeded ∧
          CallsOnce s.world p c := by
  obtain ⟨g, hph, hgood, ⟨rfl, hattempted, hgives⟩ | ⟨a, http, hg, hcalls⟩⟩ :=
    hI.toCompetition.of_returned h hc hx
  · exact Or.inl ⟨hgives.raises, hattempted, .nothing, hph, rfl⟩
  · obtain ⟨es, -, -, hkeeps⟩ := hI.keeps
    have hkeeps := hkeeps p c _ hc.later hph hc.invoice
    have htold : http.Says "succeeded" := by
      refine hI.told p c _ hc.later hph hc.invoice http ?_
      rcases hg with rfl | rfl <;> rfl
    rcases hg with rfl | rfl
    · exact absurd htold hkeeps
    · obtain ⟨⟨ref, now, now', endpoints, rest, result, -, -, -, -, -, -, -, hfind⟩, row, hrow,
        rfl⟩ := hkeeps htold
      obtain rfl : row = _ := Option.some.inj (hrow.symm.trans hfind)
      have hmade : c.Made crypto a := hgood.2.1
      exact Or.inr ⟨_, (Table.find?_eq_some.mp hrow).1, rfl, hmade.invoiceId.trans hc.invoice,
        hmade.fields.2.1, rfl, hcalls⟩

/-- Who has an attempt on the invoice is one of the payments. -/
theorem Competition.contender_of_progress (h : s.Sound crypto φ) (hI : Competition crypto n b i s φ)
    {d : PaymentAttempt} (hph : φ p = .pay c pt) (hi : c.invoiceId = i)
    (hd : pt.progress.attempt? = some d) : s.Contender n i p c := by
  have hle : n ≤ p := by
    by_contra hlt
    rw [hI.before p c pt (Nat.lt_of_not_le hlt) hph hi] at hd
    cases hd
  refine ⟨hle, h.payCall?_eq_some.mpr ⟨pt, hph⟩, hi, fun hkey => ?_⟩
  -- a payment without a key has no attempt
  have hpoint := (hI.points p c pt hle hph hi).2
  rw [if_pos hkey] at hpoint
  unfold PayPoint.TurnedAway at hpoint
  split at hpoint
  case h_1 => cases hd
  case h_2 => cases hd
  case h_3 => exact hpoint

/-- An attempt on the invoice is the attempt of one of the payments. -/
theorem Competition.contender_of_attempt (h : s.Sound crypto φ) (hI : Competition crypto n b i s φ)
    {a : PaymentAttempt} (ha : a ∈ s.world.db.attempts) (hi : a.invoiceId = i) :
    ∃ q c' pt', s.Contender n i q c' ∧ φ q = .pay c' pt' ∧ pt'.progress.attempt? ≠ none ∧
      a.idempotencyKey.text = c'.idempotencyKey := by
  obtain ⟨q, c', pt', d, hq, hd, -, -, hinvoice, htext⟩ := h.inserter ha
  have hc' := hI.contender_of_progress h hq (hinvoice.symm.trans hi) hd
  refine ⟨q, c', pt', hc', hq, ?_, htext⟩
  rw [hd]
  rintro ⟨⟩

/-- Two payments under one key are one. -/
theorem Competition.contender_unique (h : s.Sound crypto φ) (hI : Competition crypto n b i s φ)
    {q : Pid} {c' : PayCall} (hc : s.Contender n i p c) (hc' : s.Contender n i q c')
    (hkey : c.idempotencyKey = c'.idempotencyKey) : p = q := by
  obtain ⟨pt, hph⟩ := h.payCall?_eq_some.mp hc.call
  obtain ⟨pt', hph'⟩ := h.payCall?_eq_some.mp hc'.call
  exact hI.distinct p q c c' pt pt' hc.later hc'.later hph hph' hc.invoice hc'.invoice hkey

/-- **One payment wins.** -/
theorem Winning.oneWins (h : s.Sound crypto φ) (hI : Winning crypto n b i s φ)
    (hsome : ∃ p c, s.Contender n i p c)
    (hall : ∀ p c, s.Contender n i p c → ∃ x, s.returned? p = some x) : OneWins s n i := by
  -- there is an attempt
  obtain ⟨a, ha, hai⟩ : s.world.db.Attempted i := by
    obtain ⟨p, c, hc⟩ := hsome
    obtain ⟨x, hx⟩ := hall p c hc
    rcases hI.of_returned h hc hx with ⟨-, hattempted, -⟩ | ⟨row, hrow, -, hi, -⟩
    · exact hattempted
    · exact ⟨row, hrow, hi⟩
  have hunique : ∀ d ∈ s.world.db.attempts, d.invoiceId = i → d = a := fun d hd hdi =>
    Table.eq_of_key_eq hd ha (hI.single d hd hdi a ha hai)
  -- the payment that has inserted it has won
  obtain ⟨p, c, pt, hc, hph, hown, hkey⟩ := hI.toCompetition.contender_of_attempt h ha hai
  obtain ⟨x, hx⟩ := hall p c hc
  rcases hI.of_returned h hc hx with ⟨-, -, g, hph', hg⟩ | ⟨row, hrow, rfl, hi, -, hstatus, hcalls⟩
  · rw [hph] at hph'
    cases hph'
    exact absurd hg hown
  obtain rfl := hunique row hrow hi
  have hstate : s.world.db.stateOf i = some .paid := by
    rcases hI.state with hopen | ⟨hpaid, -⟩
    · rw [hI.pending hopen row hrow hi] at hstatus
      cases hstatus
    · exact hpaid
  refine ⟨⟨p, c, row, hc, hx, hstatus, fun q c' hc' hne => ?_⟩, ?_, hstate,
    ⟨row, ⟨hrow, hi⟩, fun d hd => hunique d hd.1 hd.2⟩⟩
  · obtain ⟨y, hy⟩ := hall q c' hc'
    rcases hI.of_returned h hc' hy with ⟨hraises, -⟩ | ⟨row', hrow', -, hi', hkey', -⟩
    · exact ⟨y, hy, hraises⟩
    · obtain rfl := hunique row' hrow' hi'
      exact absurd (hI.toCompetition.contender_unique h hc' hc (hkey'.symm.trans hkey)) hne
  · -- every call for the invoice is the one of the winner
    have hwinner : s.chargesOn i = s.world.chargesOf p := by
      refine List.filter_congr fun y hy => Bool.eq_iff_iff.mpr ?_
      rw [Option.any_eq_true, decide_eq_true_iff]
      constructor
      · rintro ⟨c', hcall, hi'⟩
        obtain ⟨c'', pt', d, hph', hmade, hd, -⟩ := h.charge_cases hy
        obtain rfl : c'' = c' :=
          Option.some.inj ((h.payCall?_eq_some.mpr ⟨pt', hph'⟩).symm.trans hcall)
        have hc' := hI.toCompetition.contender_of_progress h hph' (of_decide_eq_true hi') hd
        have hgood := h.forGood y.pid
        rw [hph'] at hgood
        obtain ⟨d', hd', hfollows⟩ := Progress.Holds.follows hgood hd
        obtain rfl := hunique d' hd' (hfollows.invoiceId.trans (hmade.invoiceId.trans hc'.invoice))
        refine hI.toCompetition.contender_unique h hc' hc (Eq.trans ?_ hkey)
        exact hmade.fields.2.1.symm.trans (congrArg Varchar.text hfollows.idempotencyKey).symm
      · rintro rfl
        exact ⟨c, hc.call, decide_eq_true hc.invoice⟩
    obtain ⟨d, -, -, -, result, hcharges⟩ := hcalls
    exact ⟨_, hwinner.trans hcharges⟩

/-- **The competition begins** when there is no attempt on the invoice. -/
theorem System.UpForPayment.competition (h : s.Sound crypto φ) (hs : s.Reachable crypto)
    (hup : s.UpForPayment b i) (hnone : ¬s.world.db.Attempted i) :
    Competition crypto s.procs.length b i s φ := by
  have habsent : ∀ {q c pt}, s.procs.length ≤ q → φ q = .pay c pt → False := fun hq hph => by
    rw [h.absent _ (List.getElem?_eq_none hq)] at hph
    cases hph
  refine ⟨hup.contest h hs, Or.inl ?_, fun q c pt _ hph hi => ?_, fun q c pt hq hph => ?_,
    fun p q c c' pt pt' hp _ hph => ?_⟩
  · obtain ⟨v, hv, -, hopen, -⟩ := hup.payable
    rw [Database.stateOf, hv, Option.map_some, hopen]
  · rw [Option.eq_none_iff_forall_ne_some]
    rintro a ha
    have hgood := h.forGood q
    rw [hph] at hgood
    obtain ⟨d, hd, had⟩ := Progress.Holds.follows hgood ha
    have hmade : c.Made crypto a := Progress.Holds.made hgood ha
    exact hnone ⟨d, hd, had.invoiceId.trans (hmade.invoiceId.trans hi)⟩
  · exact (habsent hq hph).elim
  · exact (habsent hp hph).elim

theorem System.UpForPayment.winning (h : s.Sound crypto φ) (hs : s.Reachable crypto)
    (hup : s.UpForPayment b i) (hnone : ¬s.world.db.Attempted i) {es : List Event}
    (hrun : run (System.step crypto) .init es = some s)
    (hread : ∀ q, (φ q).Read (System.transcript crypto q .init es)) :
    Winning crypto s.procs.length b i s φ := by
  have habsent : ∀ {q c pt}, s.procs.length ≤ q → φ q = .pay c pt → False := fun hq hph => by
    rw [h.absent _ (List.getElem?_eq_none hq)] at hph
    cases hph
  exact ⟨hup.competition h hs hnone, fun a ha hi => absurd ⟨a, ha, hi⟩ hnone,
    fun _ a ha hi => absurd ⟨a, ha, hi⟩ hnone, fun q c pt hq hph => (habsent hq hph).elim,
    es, hrun, hread, fun q c pt hq hph => (habsent hq hph).elim⟩

end Ends

/-! ### Two payments of the sample invoice -/

/-- Two customers pay at the same time; the second inserts its attempt while the first one waits for
the answer of the provider. -/
def duelling : List Event :=
  [.request (.pay 0 "tok_visa" "k1"), .request (.pay 0 "tok_visa" "k2")] ++ Event.steps 3 5 ++
    Event.steps 4 2 ++ [.exec 4 { ids := fun n => n + 1, errorText :=
      "uq_payment_attempts_one_pending_per_invoice " ++ Uuid.str 0 }] ++
    [.exec 3 { http := sampleReply "succeeded" "ch_1" }] ++ Event.steps 4 2 ++ Event.steps 3 8

/-- The state after the duel. -/
def duelled : System := (runIf (System.step sampleCrypto)
  (fun u e => Confined 0 (Competes PayCall.Fits 3 1 0) u e ∧ RepliesSuccess 0 u e) pricedInvoice
    duelling).get (by decide +kernel)

/-- A card token of four characters, the last of which is `U+0000`. -/
def illegibleToken : String := String.ofList ['t', 'o', 'k', nul]

/-- One customer pays with it; the insert of the attempt is refused. -/
def payingIllegibly : List Event := [.request (.pay 0 illegibleToken "k1")] ++ Event.steps 3 4

def paidIllegibly : System := (runIf (System.step sampleCrypto)
  (Confined 0 (Competes PayCall.Short 3 1 0)) pricedInvoice payingIllegibly).get (by decide +kernel)

end TenantBilling
