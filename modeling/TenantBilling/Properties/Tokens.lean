import TenantBilling.Model.MockPsp
import TenantBilling.Properties.AtRest

/-!
# What the card tokens lead to

The service with the mock provider: every call is answered as `mock_psp/main.py` answers its
token. The documentation has a table of what a payment with each token ends with
(`TenantBilling.documented`); all attempts, and all payments that are answered by a call of their
own, bear the outcome of the table for their token (`TenantBilling.tokens_decide`), in every run.

Tokens that the mock provider does not know are answered like a provider that is out of reach.
Such a payment leaves its attempt pending, and with it the invoice is out of service for good
(`TenantBilling.unclear_tokens_block`).
-/

namespace TenantBilling

open Base World

/-- A row of the table of outcomes: the status of the response, and of the attempt its status and
its `failure_code`. -/
structure Outcome where
  http : ℕ
  status : PaymentStatus
  failureCode : Option String
deriving DecidableEq

/-- **The table of the documentation**; a token that it does not list counts as
`tok_network_error`. -/
def documented (token : String) : Outcome :=
  if token = "tok_success" then ⟨200, .succeeded, none⟩
  else if token = "tok_card_declined" then ⟨402, .failed, some "card_declined"⟩
  else if token = "tok_insufficient_funds" then ⟨402, .failed, some "insufficient_funds"⟩
  else if token = "tok_timeout" then ⟨202, .pending, some "psp_timeout"⟩
  else ⟨202, .pending, some "psp_unavailable"⟩

/-- The attempt bears the outcome. -/
structure PaymentAttempt.Bears (a : PaymentAttempt) (o : Outcome) : Prop where
  status : a.status = o.status
  http : a.status.httpStatus = o.http
  failureCode : a.failureCode.map Varchar.text = o.failureCode
  pspRef : a.pspRef.isSome ↔ o.status = .succeeded

/-- The provider is the mock one, and the service waits for so many seconds. -/
def AnswersAsMock (timeoutSeconds : ℕ) (s : System) : Event → Prop
  | .exec p env => s.next? p = some .awaitCharge → ∃ c uuid4, s.payCall? p = some c ∧
      env.http = MockPsp.answer timeoutSeconds uuid4 c.cardToken
  | _ => True

/-! ### One outcome -/

section Outcome

theorem AttemptChange.bind_eq_ok {c : AttemptChange} {u : AttemptUpdate} (h : c.bind = .ok u) :
    u.status = c.status ∧ storeIfSet 100 c.pspRef = .ok u.pspRef ∧
      storeIfSet 50 c.failureCode = .ok u.failureCode := by
  unfold AttemptChange.bind at h
  split at h
  case h_1 hpsp hfail =>
    obtain rfl := Except.ok.inj h
    exact ⟨rfl, hpsp, hfail⟩
  case h_2 => cases h
  case h_3 => cases h

/-- What is stored of a text. -/
theorem text_of_storeIfSet {n : ℕ} {text : String} {x : Option (Option (Varchar n))}
    (h : storeIfSet n (some (.str text)) = .ok x) :
    ∃ v : Varchar n, x = some (some v) ∧ v.text = text := by
  simp only [storeIfSet, Json.store] at h
  cases hv : Varchar.ofString? n text with
  | none =>
    rw [hv] at h
    cases h
  | some v =>
    rw [hv] at h
    exact ⟨v, (Except.ok.inj h).symm, Varchar.ofString?_eq_some.mp hv⟩

variable {a : PaymentAttempt} {update : AttemptUpdate} {now : Timestamp}

/-- An attempt without an outcome. -/
structure PaymentAttempt.Open (a : PaymentAttempt) : Prop where
  status : a.status = .pending
  failureCode : a.failureCode = none
  pspRef : a.pspRef = none

theorem PayCall.Made.open {crypto : Crypto} {c : PayCall} (h : c.Made crypto a) : a.Open := by
  obtain ⟨v, now, h⟩ := h
  unfold NewAttempt.row at h
  split at h
  case h_2 => cases h
  case h_1 key token hkey htoken =>
    split at h
    case isFalse => cases h
    case isTrue hpos =>
      rw [← Except.ok.inj h]
      exact ⟨rfl, rfl, rfl⟩

/-- A call without a known outcome. -/
theorem PaymentAttempt.Open.bears_unknown (ha : a.Open) {e : PspError} {code : String}
    (hcode : failureCodeFromPspError e = code) (hbind : (unknownChange e).bind = .ok update) :
    (a.update update now).Bears ⟨202, .pending, some code⟩ := by
  obtain ⟨hstatus, hpsp, hfail⟩ := AttemptChange.bind_eq_ok hbind
  obtain ⟨v, hv, htext⟩ := text_of_storeIfSet hfail
  have hpsp : update.pspRef = none := (Except.ok.inj hpsp).symm
  refine ⟨?_, ?_, ?_, ?_⟩
  · simp [PaymentAttempt.update, hstatus, unknownChange, ha.status]
  · simp [PaymentAttempt.update, hstatus, unknownChange, ha.status, PaymentStatus.httpStatus]
  · simp [PaymentAttempt.update, hv, htext, hcode]
  · simp [PaymentAttempt.update, hpsp, ha.pspRef]

theorem PaymentAttempt.Open.bears_succeeded (ha : a.Open) {status code : Json} {ref : String}
    (hbind : (succeededChange ⟨status, .str ref, code⟩).bind = .ok update) :
    (a.update update now).Bears ⟨200, .succeeded, none⟩ := by
  obtain ⟨hstatus, hpsp, hfail⟩ := AttemptChange.bind_eq_ok hbind
  obtain ⟨v, hv, -⟩ := text_of_storeIfSet hpsp
  have hfail : update.failureCode = none := (Except.ok.inj hfail).symm
  refine ⟨?_, ?_, ?_, ?_⟩
  · simp [PaymentAttempt.update, hstatus, succeededChange]
  · simp [PaymentAttempt.update, hstatus, succeededChange, PaymentStatus.httpStatus]
  · simp [PaymentAttempt.update, hfail, ha.failureCode]
  · simp [PaymentAttempt.update, hv]

theorem PaymentAttempt.Open.bears_failed (ha : a.Open) {status ref : Json} {code : String}
    (hbind : (failedChange ⟨status, ref, .str code⟩).bind = .ok update) :
    (a.update update now).Bears ⟨402, .failed, some code⟩ := by
  obtain ⟨hstatus, hpsp, hfail⟩ := AttemptChange.bind_eq_ok hbind
  obtain ⟨v, hv, htext⟩ := text_of_storeIfSet hfail
  have hpsp : update.pspRef = none := (Except.ok.inj hpsp).symm
  refine ⟨?_, ?_, ?_, ?_⟩
  · simp [PaymentAttempt.update, hstatus, failedChange]
  · simp [PaymentAttempt.update, hstatus, failedChange, PaymentStatus.httpStatus]
  · simp [PaymentAttempt.update, hv, htext]
  · simp [PaymentAttempt.update, hpsp, ha.pspRef]

/-- **The outcome of a call that the mock provider answers** is that of the table. -/
theorem PaymentAttempt.Open.bears_documented (ha : a.Open) {timeoutSeconds : ℕ}
    (hpos : 0 < timeoutSeconds) (hlt : timeoutSeconds < 30) {uuid4 token : String}
    (hsettles : Settles (MockPsp.answer timeoutSeconds uuid4 token) update) :
    (a.update update now).Bears (documented token) := by
  obtain ⟨outcome, houtcome, hbind⟩ := hsettles
  have hsoon : 100 < timeoutSeconds * 1000 := by omega
  have hlate : ¬30000 < timeoutSeconds * 1000 := by omega
  have hzero : 0 < timeoutSeconds * 1000 := by omega
  unfold MockPsp.answer MockPsp.charge at houtcome
  unfold documented
  by_cases hsuccess : token = "tok_success"
  · rw [if_pos hsuccess] at houtcome ⊢
    rw [if_pos hsoon] at houtcome
    obtain rfl := Option.some.inj houtcome
    exact ha.bears_succeeded hbind
  rw [if_neg hsuccess] at houtcome ⊢
  by_cases hfunds : token = "tok_insufficient_funds"
  · have hdeclined : token ≠ "tok_card_declined" := by
      rw [hfunds]
      decide
    rw [if_pos hfunds, if_pos hsoon] at houtcome
    rw [if_neg hdeclined, if_pos hfunds]
    obtain rfl := Option.some.inj houtcome
    exact ha.bears_failed hbind
  rw [if_neg hfunds] at houtcome ⊢
  by_cases hdeclined : token = "tok_card_declined"
  · rw [if_pos hdeclined] at houtcome ⊢
    rw [if_pos hsoon] at houtcome
    obtain rfl := Option.some.inj houtcome
    exact ha.bears_failed hbind
  rw [if_neg hdeclined] at houtcome ⊢
  by_cases htimeout : token = "tok_timeout"
  · rw [if_pos htimeout] at houtcome ⊢
    rw [if_neg hlate] at houtcome
    obtain rfl := Option.some.inj houtcome
    exact ha.bears_unknown (by decide +kernel) hbind
  rw [if_neg htimeout] at houtcome ⊢
  -- whatever the status of the error is, the call counts as one of a provider out of reach
  split at houtcome
  · rw [if_pos hzero] at houtcome
    obtain rfl := Option.some.inj houtcome
    exact ha.bears_unknown (by decide +kernel) hbind
  · rw [if_pos hzero] at houtcome
    obtain rfl := Option.some.inj houtcome
    exact ha.bears_unknown (by decide +kernel) hbind

end Outcome

/-! ### The calls and the attempts -/

section Runs

variable {crypto : Crypto} {s t : System} {φ φ' : Pid → Phase} {e : Event} {p : Pid} {c : PayCall}
  {a : PaymentAttempt} {timeoutSeconds : ℕ}

/-- Every call that has been answered has been answered by the mock provider. -/
def System.Mocked (timeoutSeconds : ℕ) (s : System) : Prop :=
  ∀ x ∈ s.world.charges, ∀ http, x.result = some http →
    ∃ uuid4, http = MockPsp.answer timeoutSeconds uuid4 x.cardToken

theorem System.Mocked.move (h : s.Sound crypto φ) (hI : s.Mocked timeoutSeconds)
    (hC : AnswersAsMock timeoutSeconds s e) (hmove : s.Moves crypto φ e t φ') :
    t.Mocked timeoutSeconds := by
  intro y hy http hhttp
  rcases h.charges_or hmove with hch | ⟨p, c, v, a, -, -, -, hch⟩ | ⟨p, env, rfl, hnext, hw⟩
  · exact hI y (hch ▸ hy) http hhttp
  · rw [hch] at hy
    rcases List.mem_append.mp hy with hy | hy
    · exact hI y hy http hhttp
    · rw [List.mem_singleton.mp hy] at hhttp
      cases hhttp
  · have hcharges : t.world.charges = s.world.charges.map (Charge.answer p env.http) := by
      rw [hw]
      rfl
    rw [hcharges] at hy
    obtain ⟨x, hx, rfl⟩ := List.mem_map.mp hy
    unfold Charge.answer at hhttp ⊢
    split at hhttp
    case isTrue hand =>
      obtain ⟨c, uuid4, hc, hanswer⟩ := hC hnext
      obtain ⟨c', pt, a, hph, -, -, hcase⟩ := h.charge_cases hx
      -- the call is the one of the payment that is answered
      have hcc : c' = c := by
        have hc' := h.payCall?_eq_some.mpr ⟨pt, hph⟩
        rw [hand.1, hc] at hc'
        exact (Option.some.inj hc').symm
      have htoken : x.cardToken = c.cardToken := by
        rw [← hcc]
        rcases hcase with ⟨-, hx⟩ | ⟨_, -, hx⟩ | ⟨_, -, hx⟩ <;> rw [hx] <;> rfl
      rw [if_pos hand]
      refine ⟨uuid4, ?_⟩
      rw [← Option.some.inj hhttp, hanswer, htoken]
    case isFalse hand =>
      rw [if_neg hand]
      exact hI x hx http hhttp

/-- The attempt of a payment, once its outcome has been committed. -/
theorem System.Mocked.bears (hpos : 0 < timeoutSeconds) (hlt : timeoutSeconds < 30)
    (hI : s.Mocked timeoutSeconds) {http : HttpResult} {update : AttemptUpdate} (now : Timestamp)
    (hgood : (Progress.settled a http).Holds crypto s.world p c) (hsettles : Settles http update) :
    (a.update update now).Bears (documented c.cardToken) := by
  obtain ⟨hcharges, hmade, -⟩ := hgood
  have hmem : c.charge p a (some http) ∈ s.world.chargesOf p := by
    rw [hcharges]
    exact List.mem_singleton_self _
  obtain ⟨uuid4, hanswer⟩ := hI _ (List.mem_filter.mp hmem).1 http rfl
  exact hmade.open.bears_documented hpos hlt (hanswer ▸ hsettles)

/-- **An attempt without an outcome**, or with the one of its token. -/
theorem System.Mocked.attempt (hpos : 0 < timeoutSeconds) (hlt : timeoutSeconds < 30)
    (h : s.Sound crypto φ) (hI : s.Mocked timeoutSeconds) (ha : a ∈ s.world.db.attempts) :
    a.Open ∨ a.Bears (documented a.cardToken.text) := by
  obtain ⟨q, b, hb, hid⟩ := h.owned a ha
  have hgood := h.forGood q
  cases hph : φ q with
  | transition c pt =>
    rw [hph] at hb
    cases hb
  | other =>
    rw [hph] at hb
    cases hb
  | pay c pt =>
    rw [hph] at hb hgood
    change pt.progress.attempt? = some b at hb
    change pt.progress.Holds crypto s.world q c at hgood
    have hopen : c.Made crypto b → s.world.db.attempts.find? b.id = some b → a.Open := by
      intro hmade hfind
      obtain rfl : b = a := Table.eq_of_key_eq (Table.find?_eq_some.mp hfind).1 ha hid
      exact hmade.open
    cases hg : pt.progress with
    | nothing =>
      rw [hg] at hb
      cases hb
    | reserved b' | called b' | answered b' http =>
      rw [hg] at hb hgood
      obtain rfl := Option.some.inj hb
      exact Or.inl (hopen hgood.2.1 hgood.2.2)
    | settled b' http =>
      rw [hg] at hb hgood
      obtain rfl := Option.some.inj hb
      obtain ⟨-, hmade, update, now, hsettles, hfind⟩ := id hgood
      obtain rfl : b'.update update now = a :=
        Table.eq_of_key_eq (Table.find?_eq_some.mp hfind).1 ha hid
      refine Or.inr ?_
      have htoken : (b'.update update now).cardToken.text = c.cardToken := hmade.fields.2.2.1
      rw [htoken]
      exact hI.bears hpos hlt now hgood hsettles

/-! ### What a payment returns -/

/-- A payment that returns an attempt of its own has committed its outcome. -/
def PayPoint.Fresh : PayPoint → Prop
  | closing x g | done x g => ∀ a, x = .ok (.attempt a false) →
      ∃ b http update now, g = .settled b http ∧ Settles http update ∧ a = b.update update now
  | _ => True

theorem PayPoint.fresh_start (c : PayCall) : (start c).Fresh := by
  unfold start
  split
  · rintro _ ⟨⟩
  · trivial

theorem PayPoint.Fresh.next {pt : PayPoint} {st : Stmt} {next : st.Resp → PayPoint} {r : st.Resp}
    {w' : World} (h : s.Sound crypto φ) (hp : s.Alive p) (hph : φ p = .pay c pt)
    (hout : pt.out crypto c = .op st next) (hans : s.world.Answers p st r w') (hI : pt.Fresh) :
    (next r).Fresh := by
  cases pt with
  | refresh a http =>
    cases hout
    have hgood := h.forGood p
    have hholds := h.alive p hp
    rw [hph] at hgood hholds
    -- the row that is refreshed is the one the payment has settled itself
    obtain ⟨-, -, update, now, hsettles, hfind⟩ := hgood
    obtain ⟨⟨env, hr⟩, -⟩ := answers_select hans
    rw [World.Idle.view hholds] at hr
    obtain rfl : r = some (a.update update now) := hr.trans hfind
    rintro b ⟨⟩
    exact ⟨a, http, update, now, rfl, hsettles, rfl⟩
  | lookup =>
    cases hout
    rcases r with _ | a
    · trivial
    -- what is found under the key is the attempt of another payment
    · dsimp only
      split <;> rintro _ ⟨⟩
  | lock =>
    cases hout
    rcases r with e | _ | v
    · rintro _ ⟨⟩
    · rintro _ ⟨⟩
    · dsimp only
      split
      · rintro _ ⟨⟩
      · trivial
  | insert v =>
    cases hout
    rcases r with e | a
    · cases e with
      | integrity => trivial
      | _ => rintro _ ⟨⟩
    · trivial
  | undo errorMsg =>
    cases hout
    dsimp only
    split
    · rintro _ ⟨⟩
    · trivial
  | relookup =>
    cases hout
    rcases r with _ | a
    · rintro _ ⟨⟩
    · dsimp only
      split <;> rintro _ ⟨⟩
  | receive v a =>
    cases hout
    dsimp only
    split
    · trivial
    · trivial
    · rintro _ ⟨⟩
  | refetch v a http outcome =>
    cases hout
    rcases r with _ | row
    · rintro _ ⟨⟩
    · trivial
  | record v a http outcome =>
    cases hout
    rcases r with e | _
    · rintro _ ⟨⟩
    · cases outcome with
      | error e => trivial
      | ok result =>
        dsimp only [recorded]
        split <;> trivial
  | relock v a http result =>
    cases hout
    rcases r with e | _ | row
    · rintro _ ⟨⟩
    · rintro _ ⟨⟩
    · dsimp only
      split
      · rintro _ ⟨⟩
      · trivial
  | markPaid a http result =>
    cases hout
    rcases r with e | _
    · rintro _ ⟨⟩
    · trivial
  | listEndpoints a http result =>
    cases hout
    dsimp only
    split <;> trivial
  | outbox a http result endpoints now =>
    cases hout
    rcases r with e | _
    · rintro _ ⟨⟩
    · trivial
  | closing x g =>
    cases hout
    exact hI
  | done x g => cases hout
  | _ =>
    cases hout
    trivial

/-- Every payment that has returned an attempt of its own has committed its outcome. -/
def System.AllFresh (φ : Pid → Phase) : Prop := ∀ p c pt, φ p = .pay c pt → pt.Fresh

theorem System.AllFresh.move (h : s.Sound crypto φ) (hI : System.AllFresh φ)
    (hmove : s.Moves crypto φ e t φ') : System.AllFresh φ' := by
  intro q c pt' hph
  rcases hmove.pay_cases h hph with ⟨-, -, -, rfl⟩ | ⟨pt, hpt,
    rfl | ⟨st, next, r, hout, hp, -, hans, rfl⟩⟩
  · exact PayPoint.fresh_start c
  · exact hI q c _ hpt
  · exact PayPoint.Fresh.next h hp hpt hout hans.answers (hI q c pt hpt)

/-- With the mock provider. -/
theorem System.Mocked.reaches (hreach :
    Reaches (System.step crypto) (AnswersAsMock timeoutSeconds) .init s) :
    ∃ φ, s.Sound crypto φ ∧ s.Mocked timeoutSeconds ∧ System.AllFresh φ :=
  System.Sound.reaches (I := fun u ψ => u.Mocked timeoutSeconds ∧ System.AllFresh ψ) hreach
    System.sound_init ⟨(fun x hx => by cases hx), fun p c pt hph => by cases hph⟩
    fun _ _ _ _ _ hu hIu hC _ hmove _ => ⟨hIu.1.move hu hC hmove, hIu.2.move hu hmove⟩

/-- The attempt that a payment of its own has returned. -/
theorem System.Mocked.returned (h : s.Sound crypto φ) (hfresh : System.AllFresh φ)
    (hc : s.payCall? p = some c) (hx : s.returned? p = some (.ok (.attempt a false))) :
    ∃ b http update now, (φ p).committed? = some b ∧
      (Progress.settled b http).Holds crypto s.world p c ∧
      Settles http update ∧ a = b.update update now := by
  obtain ⟨pt, hph⟩ := h.payCall?_eq_some.mp hc
  obtain ⟨g, rfl⟩ := h.done_of_returned hx hph
  obtain ⟨b, http, update, now, rfl, hsettles, ha⟩ := hfresh p c _ hph a rfl
  have hgood := h.forGood p
  rw [hph] at hgood
  exact ⟨b, http, update, now, by rw [hph]; rfl, hgood, hsettles, ha⟩

/-- **The card token decides the outcome**, in every run in which the provider is the mock one and
the service waits for less than 30 seconds: an attempt has no outcome yet or the documented one of
its token, and a payment that is answered by a call of its own gets the documented response. -/
theorem tokens_decide (hpos : 0 < timeoutSeconds) (hlt : timeoutSeconds < 30)
    (hreach : Reaches (System.step crypto) (AnswersAsMock timeoutSeconds) .init s) :
    (∀ a ∈ s.world.db.attempts, a.Open ∨ a.Bears (documented a.cardToken.text)) ∧
      ∀ p c a, s.payCall? p = some c → s.returned? p = some (.ok (.attempt a false)) →
        a.cardToken.text = c.cardToken ∧ a.Bears (documented c.cardToken) ∧
          ((Request.pay c.invoiceId c.cardToken c.idempotencyKey).respond
            (.ok (.attempt a false))).status = (documented c.cardToken).http := by
  obtain ⟨φ, h, hI, hfresh⟩ := System.Mocked.reaches hreach
  refine ⟨fun a ha => hI.attempt hpos hlt h ha, fun p c a hc hx => ?_⟩
  obtain ⟨b, http, update, now, -, hgood, hsettles, rfl⟩ := System.Mocked.returned h hfresh hc hx
  have hbears := hI.bears hpos hlt now hgood hsettles
  exact ⟨hgood.2.1.fields.2.2.1, hbears, hbears.http⟩

/-- Until a payment is answered, the provider has nothing to say. -/
def BeforeAnswers (s : System) : Event → Prop
  | .exec p _ => (s.next? p).all (fun
    | .awaitCharge => false
    | _ => true) = true
  | _ => True

instance (s : System) : ∀ e, Decidable (BeforeAnswers s e)
  | .exec _ _ => inferInstanceAs (Decidable (_ = true))
  | .start _ | .abort .. | .kill _ => inferInstanceAs (Decidable True)

theorem BeforeAnswers.mock {n : ℕ} (h : BeforeAnswers s e) : AnswersAsMock n s e := by
  cases e with
  | exec p env =>
    intro hnext
    simp only [BeforeAnswers, hnext] at h
    cases h
  | _ => trivial

/-- A payment with a token that the mock provider does not know has made its call. -/
def callingUnknown : System :=
  (runIf (System.step sampleCrypto) BeforeAnswers .init
    (drafting ++ [.request (.finalize 0)] ++ Event.steps 2 5 ++
      [.request (.pay 0 "tok_visa" "k1")] ++ Event.steps 3 5)).get (by decide +kernel)

/-- The mock provider has answered it. -/
def answeredUnknown : System :=
  ((callingUnknown.step sampleCrypto (.exec 3 { http := MockPsp.answer 12 "" "tok_visa" })).get
    (by decide +kernel))

/-- The payment has returned. -/
def returnedUnknown : System :=
  (runIf (System.step sampleCrypto) BeforeAnswers answeredUnknown (Event.steps 3 5)).get
    (by decide +kernel)

theorem reaches_returnedUnknown :
    Reaches (System.step sampleCrypto) (AnswersAsMock 12) .init returnedUnknown := by
  have hcalling : Reaches (System.step sampleCrypto) (AnswersAsMock 12) .init callingUnknown :=
    Reaches.mono (fun _ _ h => h.mock) (reaches_of_runIf (Option.some_get _).symm)
  have hreturned : Reaches (System.step sampleCrypto)
    (AnswersAsMock 12) answeredUnknown returnedUnknown :=
    Reaches.mono (fun _ _ h => h.mock) (reaches_of_runIf (Option.some_get _).symm)
  have hc : callingUnknown.payCall? 3 =
    some ⟨sampleBusiness, 0, "tok_visa", "k1"⟩ := by decide +kernel
  have hanswered : StepIf (System.step sampleCrypto)
    (AnswersAsMock 12) callingUnknown answeredUnknown :=
    ⟨.exec 3 { http := MockPsp.answer 12 "" "tok_visa" }, fun _ => ⟨_, "", hc, rfl⟩,
      (Option.some_get _).symm⟩
  exact (hcalling.tail hanswered).trans hreturned

theorem tokens_decide_returnedUnknown :
    ∃ a, returnedUnknown.returned? 3 = some (.ok (.attempt a false)) ∧
    a.Bears ⟨202, .pending, some "psp_unavailable"⟩ := by
  have hc : returnedUnknown.payCall? 3 =
    some ⟨sampleBusiness, 0, "tok_visa", "k1"⟩ := by decide +kernel
  have hreturned : (returnedUnknown.returnedAttempt? 3).any (fun x => !x.2) =
    true := by decide +kernel
  obtain ⟨⟨a, cached⟩, ha, hcached⟩ := (Option.any_eq_true _ _).mp hreturned
  obtain rfl : cached = false := by simpa using hcached
  have hx := System.returnedAttempt?_eq_some.mp ha
  exact ⟨a, hx, ((tokens_decide (by decide) (by decide) reaches_returnedUnknown).2 3 _ a hc hx).2.1⟩

/-! ### Tokens without a clear answer -/

theorem documented_status {token : String}
    (h : token ∉ ["tok_success", "tok_card_declined", "tok_insufficient_funds"]) :
    (documented token).status = .pending := by
  simp only [List.mem_cons, List.not_mem_nil, or_false, not_or] at h
  obtain ⟨hsuccess, hdeclined, hfunds⟩ := h
  unfold documented
  rw [if_neg hsuccess, if_neg hdeclined, if_neg hfunds]
  split <;> rfl

theorem System.next?_of_returned {x : Except Exc Result} (hx : s.returned? p = some x) :
    s.next? p = none := by
  cases hnext : s.next? p with
  | none => rfl
  | some st =>
    obtain ⟨job, k, hproc⟩ := System.next?_eq_some.mp hnext
    cases (returned?_eq_some hproc).mp hx

/-- **A token without a clear answer takes its invoice out of service.** When a payment with such
a token, a mistyped one say, has been answered with 202, no later payment of the invoice is
admitted any more, with whatever token and key: its attempts and calls stay as they are, the
attempt of the payment is pending for good, and the invoice is not paid. -/
theorem unclear_tokens_block (hpos : 0 < timeoutSeconds) (hlt : timeoutSeconds < 30)
    (hreach : Reaches (System.step crypto) (AnswersAsMock timeoutSeconds) .init s)
    (hc : s.payCall? p = some c) (hx : s.returned? p = some (.ok (.attempt a false)))
    (htoken : c.cardToken ∉ ["tok_success", "tok_card_declined", "tok_insufficient_funds"])
    (ht : Reaches (System.step crypto) Always s t) :
    s.AtRest crypto c.invoiceId t ∧
      (∃ b ∈ t.world.db.attempts, b.id = a.id ∧ b.invoiceId = c.invoiceId ∧ b.status = .pending) ∧
      (t.world.db.stateOf c.invoiceId = some .paid →
        s.world.db.stateOf c.invoiceId = some .paid) := by
  obtain ⟨φ, h, hI, hfresh⟩ := System.Mocked.reaches hreach
  obtain ⟨b, http, update, now, hcommitted, hgood, hsettles, rfl⟩ :=
    System.Mocked.returned h hfresh hc hx
  obtain ⟨-, hmade, update', now', hsettles', hfind⟩ := id hgood
  have hbears := hI.bears hpos hlt now' hgood hsettles'
  have hpending : (b.update update' now').status = .pending :=
    hbears.status.trans (documented_status htoken)
  have hi : (b.update update' now').invoiceId = c.invoiceId := hmade.invoiceId
  have hrest := h.left_behind hcommitted (System.next?_of_returned hx)
    (Table.find?_eq_some.mp hfind).1 rfl hpending ht
  rw [hi] at hrest
  exact ⟨hrest.1, ⟨_, hrest.2.1, rfl, hi, hpending⟩, hrest.2.2⟩

/-- Another payment is tried. -/
def retriedUnknown : System :=
  (run (System.step sampleCrypto) returnedUnknown
    (.request (.pay 0 "tok_visa" "k2") :: Event.steps 4 2 ++ [.exec 4 secondPending] ++
      Event.steps 4 2)).get (by decide +kernel)

theorem unclear_tokens_block_retriedUnknown : retriedUnknown.world.db.stateOf 0 ≠ some .paid ∧
    retriedUnknown.chargesOn 0 = returnedUnknown.chargesOn 0 := by
  have hc : returnedUnknown.payCall? 3 =
    some ⟨sampleBusiness, 0, "tok_visa", "k1"⟩ := by decide +kernel
  have hreturned : (returnedUnknown.returnedAttempt? 3).any (fun x => !x.2) =
    true := by decide +kernel
  obtain ⟨⟨a, cached⟩, ha, hcached⟩ := (Option.any_eq_true _ _).mp hreturned
  obtain rfl : cached = false := by simpa using hcached
  have hunpaid : returnedUnknown.world.db.stateOf 0 ≠ some .paid := by decide +kernel
  have ht : Reaches (System.step sampleCrypto) Always returnedUnknown retriedUnknown :=
    reaches_of_run (Option.some_get _).symm
  obtain ⟨hrest, -, hpaid⟩ := unclear_tokens_block (by decide)
    (by decide) reaches_returnedUnknown hc (System.returnedAttempt?_eq_some.mp ha) (by decide) ht
  exact ⟨fun h => hunpaid (hpaid h), hrest.charges.charges⟩

end Runs

end TenantBilling
