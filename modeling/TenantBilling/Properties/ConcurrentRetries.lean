import TenantBilling.Properties.Contest

/-!
# Concurrent retries of one payment

Any number of requests of one call (`TenantBilling.PayCall`): one business, invoice, card token and
key. The key is unique for the invoice, so there is one attempt at most and one call of the provider
at most, and whoever returns an attempt returns this one. What the code does not see to is that
everyone returns it: the cache check comes before the lock and is not repeated behind it, and the
refusal of the second insert is read off its text. The requests are all answered with the attempt in
the runs in which each of them finds the invoice still open when it locks it, is refused in a text
that is read right, and gets an answer of the provider that can be recorded
(`TenantBilling.concurrent_retries`).
-/

namespace TenantBilling

open Base World

/-- The outcome of a call of the provider is one that the code catches, and what it stores of it
fits. -/
def HttpResult.Recordable (http : HttpResult) : Prop :=
  ∃ outcome, chargeOutcome http = some outcome ∧ (outcomeChange outcome).bind.toBool = true

instance (http : HttpResult) : Decidable http.Recordable :=
  decidable_of_iff ((chargeOutcome http).any fun outcome => (outcomeChange outcome).bind.toBool)
    (Option.any_eq_true _ _)

/-- **What a statement of a retry must find** for the retry to be answered with the attempt: an open
invoice when it locks it, and an insert that is not refused or is refused in a text that is read
right. -/
def PayCall.Finds (c : PayCall) (db : Database) (http : HttpResult) : Stmt → Prop
  | .lockInvoice _ (some _) => db.stateOf c.invoiceId = some .open
  | .insertAttempt _ =>
    if db.HasKey c.invoiceId c.idempotencyKey then ¬occursIn onePendingMarker c.idempotencyKey
    else ¬db.OtherPending c.invoiceId c.idempotencyKey
  | .awaitCharge => http.Recordable
  | _ => True

instance (c : PayCall) (db : Database) (http : HttpResult) : DecidablePred (c.Finds db http)
  | .lockInvoice _ (some _) => inferInstanceAs (Decidable (db.stateOf c.invoiceId = some .open))
  | .insertAttempt _ => inferInstanceAs (Decidable (if db.HasKey c.invoiceId c.idempotencyKey then
      ¬occursIn onePendingMarker c.idempotencyKey
    else ¬db.OtherPending c.invoiceId c.idempotencyKey))
  | .awaitCharge => inferInstanceAs (Decidable http.Recordable)
  | .lockInvoice _ none | .select _ | .claimDeliveries .. | .insertCustomer .. | .insertInvoice _
  | .insertLineItems .. | .insertEndpoint .. | .insertDeliveries _ | .updateInvoice ..
  | .updateAttempt .. | .deactivateEndpoint _ | .updateDelivery .. | .commit | .rollback
  | .sendCharge .. | .post .. | .clock | .secret => inferInstanceAs (Decidable True)

/-- The statements of the requests of the call find what they must. -/
def PayCall.Unhindered (c : PayCall) (s : System) : Event → Prop
  | .exec q env => s.payCall? q = some c → ∀ st ∈ s.next? q, c.Finds s.world.db env.http st
  | _ => True

instance (c : PayCall) (s : System) : ∀ e, Decidable (c.Unhindered s e)
  | .exec q env => inferInstanceAs (Decidable
      (s.payCall? q = some c → ∀ st ∈ s.next? q, c.Finds s.world.db env.http st))
  | .start _ | .abort .. | .kill _ => inferInstanceAs (Decidable True)

/-- **The call can be tried any number of times**: its invoice is up for payment, it has a key, its
texts can be stored, and its key has not been used for another card token. -/
structure PayCall.Retriable (crypto : Crypto) (c : PayCall) (s : System) : Prop where
  up : s.UpForPayment c.business.id c.invoiceId
  keyed : c.idempotencyKey ≠ ""
  fits : c.Fits
  same : ∀ a ∈ s.world.db.attempts, a.invoiceId = c.invoiceId →
    a.idempotencyKey.text = c.idempotencyKey → a.requestHash = c.requestHash crypto

/-- **The retries agree**: they are all answered with one attempt, and have called the provider at
most once. -/
structure RetriesAgree (s : System) (n : ℕ) (c : PayCall) : Prop where
  answered : ∃ id, ∀ p x, s.Contender n c.invoiceId p c → s.returned? p = some x →
    ∃ a cached, x = .ok (.attempt a cached) ∧ a.id = id
  called : ((s.chargesOn c.invoiceId).filter fun x => n ≤ x.pid).length ≤ 1

/-- What is known at a point of a retry. -/
def PayPoint.Retrying (db : Database) (c : PayCall) : PayPoint → Prop
  | undo errorMsg => ¬occursIn onePendingMarker errorMsg ∧ db.HasKey c.invoiceId c.idempotencyKey
  | relookup => db.HasKey c.invoiceId c.idempotencyKey
  | refetch _ _ http _ | record _ _ http _ => http.Fits
  | closing x _ | done x _ => ∃ a cached, x = .ok (.attempt a cached)
  | _ => True

/-- **The retries go on.** -/
structure Retries (crypto : Crypto) (n : ℕ) (c : PayCall) (s : System) (φ : Pid → Phase) : Prop
    extends Contest crypto n c.business.id c.invoiceId s φ where
  /-- An attempt of before under the key is for the same card token. -/
  before : ∀ q c' pt, q < n → φ q = .pay c' pt → c'.invoiceId = c.invoiceId →
    c'.idempotencyKey = c.idempotencyKey → pt.progress.attempt? ≠ none →
      c'.requestHash crypto = c.requestHash crypto
  points : ∀ q c' pt, n ≤ q → φ q = .pay c' pt → c'.invoiceId = c.invoiceId →
    c' = c ∧ pt.Retrying s.world.db c

section Retries

variable {crypto : Crypto} {n : ℕ} {s t : System} {φ φ' : Pid → Phase} {e : Event} {p q : Pid}
  {c : PayCall} {pt : PayPoint} {db db' : Database} {x : Except Exc Result}

theorem HttpResult.Recordable.fits {http : HttpResult} (h : http.Recordable) : http.Fits := by
  obtain ⟨outcome, houtcome, hbind⟩ := h
  exact HttpResult.fits_of_toBool houtcome hbind

theorem PayPoint.Retrying.imp (h : pt.Retrying db c)
    (himp : db.HasKey c.invoiceId c.idempotencyKey → db'.HasKey c.invoiceId c.idempotencyKey) :
    pt.Retrying db' c := by
  cases pt with
  | undo errorMsg => exact ⟨h.1, himp h.2⟩
  | relookup => exact himp h
  | _ => exact h

/-- **The attempt under the key is for the card token of the call.** -/
theorem Retries.requestHash (h : s.Sound crypto φ) (hI : Retries crypto n c s φ)
    {a : PaymentAttempt} (ha : a ∈ s.world.db.attempts) (hi : a.invoiceId = c.invoiceId)
    (hkey : a.idempotencyKey.text = c.idempotencyKey) : a.requestHash = c.requestHash crypto := by
  obtain ⟨q, c', pt', d, hq, hd, hfollows, hmade, hinvoice, htext⟩ := h.inserter ha
  have hhash : a.requestHash = c'.requestHash crypto :=
    hfollows.requestHash.trans hmade.fields.2.2.2.1
  rw [hhash]
  rcases Nat.lt_or_ge q n with hlt | hle
  · refine hI.before q c' pt' hlt hq (hinvoice.symm.trans hi) (htext.symm.trans hkey) ?_
    rw [hd]
    rintro ⟨⟩
  · rw [(hI.points q c' pt' hle hq (hinvoice.symm.trans hi)).1]

/-- **A statement of a retry.** -/
theorem PayPoint.Retrying.step {st : Stmt} {next : st.Resp → PayPoint} {r : st.Resp} {w' : World}
    {env : Env} (h : s.Sound crypto φ) (hI : Retries crypto n c s φ) (hfits : c.Fits)
    (halive : s.Alive p) (hph : φ p = .pay c pt) (hout : pt.out crypto c = .op st next)
    (hexec : s.world.exec p env st = some (r, w')) (hfinds : c.Finds s.world.db env.http st)
    (hpt : pt.Retrying s.world.db c) : (next r).Retrying s.world.db c := by
  have hans : s.world.Answers p st r w' := .exec env hexec
  have hkeyed : s.world.db.Keyed := h.keys
  have hholds := h.alive p halive
  rw [hph] at hholds
  -- what is found under the key is the attempt of the call
  have hfound : ∀ {a}, s.world.db.attemptByKey c.invoiceId c.idempotencyKey = some a →
      a.requestHash = c.requestHash crypto := by
    intro a ha
    obtain ⟨hmem, hi, hkey⟩ := (Database.attemptByKey_eq_some hkeyed).mp ha
    exact hI.requestHash h hmem hi hkey
  cases pt with
  | lookup =>
    cases hout
    obtain ⟨⟨env', hr⟩, -⟩ := answers_select hans
    rw [World.Idle.view hholds] at hr
    rcases r with _ | a
    · trivial
    · dsimp only
      rw [if_neg (not_not_intro (hfound hr.symm))]
      exact ⟨a, true, rfl⟩
  | lock =>
    cases hout
    obtain ⟨row?, rfl⟩ := exec_lockInvoice hexec
    have hlock := answers_lockInvoice hans
    obtain ⟨v, hv, hb⟩ := hI.invoice
    have hview : s.world.view p = s.world.db := World.Idle.view hholds
    cases row? with
    | none =>
      have hnot := hlock.2 v (hview ▸ hv)
      simp [Invoice.belongsTo, hb] at hnot
    | some row =>
      obtain ⟨-, -, hrow, -⟩ := hlock
      rw [hview] at hrow
      have hopen : s.world.db.stateOf c.invoiceId = some .open := hfinds
      rw [Database.stateOf, hrow] at hopen
      dsimp only
      rw [assertTransitionAllowed_paid.mpr (Option.some.inj hopen)]
      trivial
  | insert v =>
    cases hout
    obtain ⟨htx, hv, hfind⟩ := hholds
    rcases r with err | a
    · obtain ⟨errorMsg, rfl⟩ := exec_insertAttempt_integrity hexec hfits.key hfits.token
      obtain ⟨total, htotal, hpos⟩ := hI.total
      rw [Database.totalOf, hfind] at htotal
      cases htotal
      have hfinds' : if s.world.db.HasKey c.invoiceId c.idempotencyKey then
          ¬occursIn onePendingMarker c.idempotencyKey
        else ¬s.world.db.OtherPending c.invoiceId c.idempotencyKey := hfinds
      cases insertRefused hexec htx.view (by rw [newAttempt, hfind]; simp) with
      | check hnot => exact absurd hpos hnot
      | key _ hkey htext =>
        have hkey : s.world.db.HasKey c.invoiceId c.idempotencyKey := hkey
        rw [if_pos hkey] at hfinds'
        exact ⟨fun hmarker => hfinds' (htext.mp hmarker), hkey⟩
      | pending _ hkey hpending _ =>
        have hkey : ¬s.world.db.HasKey c.invoiceId c.idempotencyKey := hkey
        rw [if_neg hkey] at hfinds'
        exact absurd hpending hfinds'
    · trivial
  | undo errorMsg =>
    cases hout
    dsimp only
    rw [if_neg hpt.1]
    exact hpt.2
  | relookup =>
    cases hout
    obtain ⟨⟨env', hr⟩, -⟩ := answers_select hans
    rw [World.Idle.view hholds] at hr
    obtain ⟨a, ha, hi, hkey⟩ := hpt
    have hwinner : s.world.db.attemptByKey c.invoiceId c.idempotencyKey = some a :=
      (Database.attemptByKey_eq_some hkeyed).mpr ⟨ha, hi, hkey⟩
    obtain rfl : r = some a := hr.trans hwinner
    dsimp only
    rw [if_pos (hfound hwinner)]
    exact ⟨a, true, rfl⟩
  | receive v a =>
    cases hout
    obtain rfl : env.http = r := congrArg Prod.fst (Option.some.inj (exec_eq_some.mp hexec).2)
    have hrecordable : env.http.Recordable := hfinds
    dsimp only
    split
    case h_1 => exact hrecordable.fits
    case h_2 => exact hrecordable.fits
    case h_3 error hne herror =>
      obtain ⟨outcome, houtcome, -⟩ := hrecordable
      simp_all [chargeOutcome]
  | refetch v a http outcome =>
    cases hout
    obtain rfl := h.refetched halive hph hans
    exact hpt
  | record v a http outcome =>
    cases hout
    rcases r with err | u
    · obtain ⟨update, hbind⟩ := hpt outcome hholds.2.2
      cases exec_updateAttempt hexec hbind
    · cases outcome with
      | error err => trivial
      | ok result =>
        dsimp only [PayPoint.recorded]
        split <;> trivial
  | relock v a http result =>
    cases hout
    obtain ⟨row, rfl, hcheck⟩ := h.relocked halive hph hexec
    dsimp only
    rw [hcheck]
    trivial
  | markPaid a http result =>
    cases hout
    obtain rfl := exec_updateInvoice hexec
    trivial
  | listEndpoints a http result =>
    cases hout
    dsimp only
    split <;> trivial
  | outbox a http result endpoints now =>
    cases hout
    obtain ⟨rfl, -⟩ := answers_insertDeliveries hans
    trivial
  | refresh a http =>
    cases hout
    obtain ⟨row, rfl, -⟩ := h.refreshed halive hph hans
    exact ⟨row, false, rfl⟩
  | closing x g =>
    cases hout
    exact hpt
  | done x g => cases hout
  | _ =>
    cases hout
    trivial

theorem Database.HasKey.move {i : Uuid} {key : String} (hkey : s.world.db.HasKey i key)
    (h : s.Sound crypto φ) (hmove : s.Moves crypto φ e t φ') : t.world.db.HasKey i key :=
  hkey.follows fun _ ha => h.follows hmove ha

/-- **The retries go on** with every step. -/
theorem Retries.move (h : s.Sound crypto φ) (hI : Retries crypto n c s φ)
    (hkey : c.idempotencyKey ≠ "")
    (hfits : c.Fits) (hC : Confined c.invoiceId (fun _ c' => c' = c) s e)
    (hunhindered : c.Unhindered s e)
    (hstep : s.step crypto e = some t) (hmove : s.Moves crypto φ e t φ') :
    Retries crypto n c t φ' := by
  refine ⟨hI.toContest.move h hC (fun c' hc' => by rw [hc']) hstep hmove, ?_, ?_⟩
  · intro q c' pt hq hph hi
    exact hI.before q c' pt hq (hI.quiet_move h hmove hq hph hi) hi
  · intro q c' pt' hq hph hi
    rcases hmove.pay_cases h hph with ⟨rfl, -, -, rfl⟩ | ⟨pt, hpt, rfl | ⟨st, next, r, hout, halive,
      hnext, hans, rfl⟩⟩
    · obtain rfl := hC.admits_of_start hi
      refine ⟨rfl, ?_⟩
      rw [PayPoint.start, if_neg hkey]
      trivial
    · obtain ⟨rfl, hpoint⟩ := hI.points q c' _ hq hpt hi
      exact ⟨rfl, hpoint.imp fun hk => hk.move h hmove⟩
    · obtain ⟨rfl, hpoint⟩ := hI.points q c' _ hq hpt hi
      obtain ⟨job, k, hproc⟩ := System.next?_eq_some.mp hnext
      obtain ⟨env, rfl, hexec⟩ := hC.exec h hproc (by rw [hpt]; exact hi) hans
      have hfinds := hunhindered (h.payCall?_eq_some.mpr ⟨pt, hpt⟩) st hnext
      refine ⟨rfl, PayPoint.Retrying.imp ?_ fun hk => hk.move h hmove⟩
      exact PayPoint.Retrying.step h hI hfits halive hpt hout hexec hfinds hpoint

theorem PayCall.Retriable.retries (h : s.Sound crypto φ) (hs : s.Reachable crypto)
    (hc : c.Retriable crypto s) : Retries crypto s.procs.length c s φ := by
  refine ⟨hc.up.contest h hs, fun q c' pt _ hph hi hkey hne => ?_, fun q c' pt hq hph => ?_⟩
  · obtain ⟨a, ha⟩ := Option.ne_none_iff_exists'.mp hne
    have hgood := h.forGood q
    rw [hph] at hgood
    obtain ⟨d, hd, had⟩ := Progress.Holds.follows hgood ha
    have hmade : c'.Made crypto a := Progress.Holds.made hgood ha
    have hhash : d.requestHash = c'.requestHash crypto :=
      had.requestHash.trans hmade.fields.2.2.2.1
    have htext : d.idempotencyKey.text = c'.idempotencyKey :=
      (congrArg Varchar.text had.idempotencyKey).trans hmade.fields.2.1
    exact hhash.symm.trans (hc.same d hd (had.invoiceId.trans (hmade.invoiceId.trans hi))
      (htext.trans hkey))
  · rw [h.absent q (List.getElem?_eq_none hq)] at hph
    cases hph

/-! ### What the retries end with -/

/-- A returned attempt is, but for its status, in the database. -/
theorem System.Reachable.returned_follows (hs : s.Reachable crypto) {a : PaymentAttempt}
    {cached : Bool} (hc : s.payCall? p = some c)
    (hx : s.returned? p = some (.ok (.attempt a cached))) :
    a.invoiceId = c.invoiceId ∧ a.idempotencyKey.text = c.idempotencyKey ∧
      ∃ d ∈ s.world.db.attempts, a.Follows d := by
  obtain ⟨φ, h, hreturning⟩ := System.Sound.reaches (I := Returning crypto) hs
    System.sound_init (fun p c pt hph => by cases hph)
    fun _ _ _ _ _ hu hIu _ _ hmove _ => hIu.move hu hmove
  obtain ⟨pt, hph⟩ := h.payCall?_eq_some.mp hc
  obtain ⟨g, rfl⟩ := h.done_of_returned hx hph
  obtain ⟨-, hinvoice, htext, -, -, hd⟩ := hreturning p c _ hph a cached rfl
  exact ⟨hinvoice, htext, hd⟩

/-- **There is one attempt under the key**: whoever returns an attempt returns this one. -/
theorem Retries.answered (hs : s.Reachable crypto) (h : s.Sound crypto φ)
    (hI : Retries crypto n c s φ) : ∃ id, ∀ p x, s.Contender n c.invoiceId p c →
      s.returned? p = some x → ∃ a cached, x = .ok (.attempt a cached) ∧ a.id = id := by
  have hkeyed : s.world.db.Keyed := h.keys
  have hreturns : ∀ {p x}, s.Contender n c.invoiceId p c → s.returned? p = some x →
      ∃ a cached d, x = .ok (.attempt a cached) ∧ d.id = a.id ∧
        s.world.db.attemptByKey c.invoiceId c.idempotencyKey = some d := by
    intro p x hc hx
    obtain ⟨pt, hph⟩ := h.payCall?_eq_some.mp hc.call
    obtain ⟨g, rfl⟩ := h.done_of_returned hx hph
    obtain ⟨a, cached, rfl⟩ := (hI.points p c _ hc.later hph rfl).2
    obtain ⟨hi, hkey, d, hd, had⟩ := hs.returned_follows hc.call hx
    refine ⟨a, cached, d, rfl, had.id, (Database.attemptByKey_eq_some hkeyed).mpr ⟨hd, ?_, ?_⟩⟩
    · exact had.invoiceId.trans hi
    · exact (congrArg Varchar.text had.idempotencyKey).trans hkey
  cases hfind : s.world.db.attemptByKey c.invoiceId c.idempotencyKey with
  | none =>
    refine ⟨0, fun p x hc hx => ?_⟩
    obtain ⟨a, cached, d, -, -, hd⟩ := hreturns hc hx
    rw [hfind] at hd
    cases hd
  | some d =>
    refine ⟨d.id, fun p x hc hx => ?_⟩
    obtain ⟨a, cached, d', rfl, hid, hd⟩ := hreturns hc hx
    rw [hfind] at hd
    cases hd
    exact ⟨a, cached, rfl, hid.symm⟩

/-- **The provider is called at most once**, for the attempt under the key. -/
theorem Retries.called (h : s.Sound crypto φ) (hI : Retries crypto n c s φ) :
    ((s.chargesOn c.invoiceId).filter fun x => n ≤ x.pid).length ≤ 1 := by
  have hkeyed : s.world.db.Keyed := h.keys
  -- the session of a call has committed the attempt under the key
  have hcommitted : ∀ x ∈ (s.chargesOn c.invoiceId).filter fun x => n ≤ x.pid, ∃ a d,
      (φ x.pid).committed? = some a ∧ d.id = a.id ∧
        s.world.db.attemptByKey c.invoiceId c.idempotencyKey = some d := by
    intro x hx
    obtain ⟨hx, hle⟩ := List.mem_filter.mp hx
    obtain ⟨hx, hinvoice⟩ := List.mem_filter.mp hx
    obtain ⟨c₁, hc₁, hi₁⟩ := (Option.any_eq_true _ _).mp hinvoice
    obtain ⟨c', pt, a, hph, hmade, ha, -⟩ := h.charge_cases hx
    obtain rfl := Option.some.inj (hc₁.symm.trans (h.payCall?_eq_some.mpr ⟨pt, hph⟩))
    obtain ⟨rfl, -⟩ := hI.points x.pid c₁ pt (of_decide_eq_true hle) hph (of_decide_eq_true hi₁)
    have hgood := h.forGood x.pid
    rw [hph] at hgood
    obtain ⟨d, hd, had⟩ := Progress.Holds.follows hgood ha
    refine ⟨a, d, by rw [hph]; exact ha, had.id, (Database.attemptByKey_eq_some hkeyed).mpr
      ⟨hd, had.invoiceId.trans hmade.invoiceId, ?_⟩⟩
    exact (congrArg Varchar.text had.idempotencyKey).trans hmade.fields.2.1
  generalize hcalls : (s.chargesOn c.invoiceId).filter (fun x => n ≤ x.pid) = calls at hcommitted
  cases calls with
  | nil => exact Nat.zero_le 1
  | cons x rest =>
    have hall : ∀ y ∈ x :: rest, decide (y.pid = x.pid) = true := by
      intro y hy
      obtain ⟨a, d, ha, hid, hd⟩ := hcommitted x List.mem_cons_self
      obtain ⟨b, d', hb, hid', hd'⟩ := hcommitted y hy
      obtain rfl := Option.some.inj (hd.symm.trans hd')
      exact decide_eq_true (h.owner y.pid x.pid b a hb ha (hid'.symm.trans hid))
    have hsub : List.Sublist (x :: rest) s.world.charges :=
      hcalls ▸ (List.filter_sublist).trans List.filter_sublist
    rw [← List.filter_eq_self.mpr hall]
    exact (hsub.filter _).length_le.trans (h.chargesOf_length x.pid)

end Retries

/-! ### Two requests of the sample payment -/

theorem retriable_samplePayment : samplePayment.Retriable sampleCrypto pricedInvoice := by
  have hempty : pricedInvoice.world.db.attempts.rows = [] := by decide +kernel
  refine ⟨upForPayment_pricedInvoice, by decide, by decide, fun a ha => ?_⟩
  exact absurd (hempty ▸ ha : a ∈ []) List.not_mem_nil

/-- Two requests of one call; both pass the cache check before one of them inserts the attempt. The
second is refused at its insert, and the first is told of a success. -/
def retrying : List Event :=
  [.request (.pay 0 "tok_visa" "k1"), .request (.pay 0 "tok_visa" "k1")] ++ Event.steps 4 1 ++
    Event.steps 3 5 ++ Event.steps 4 1 ++ [.exec 4 { ids := fun n => n + 1, errorText :=
      "uq_payment_attempts_invoice_idem_key " ++ Uuid.str 0 ++ " k1" }] ++ Event.steps 4 3 ++
    [.exec 3 { http := sampleReply "succeeded" "ch_1" }] ++ Event.steps 3 8

def retried : System := (runIf (System.step sampleCrypto) (fun u e =>
  Confined samplePayment.invoiceId (fun _ c' => c' = samplePayment) u e ∧
    samplePayment.Unhindered u e) pricedInvoice retrying).get (by decide +kernel)

/-- The second request has passed the cache check when the first one inserts the attempt, and locks
the invoice when the first one has paid it. -/
def retryingLate : List Event :=
  [.request (.pay 0 "tok_visa" "k1"), .request (.pay 0 "tok_visa" "k1")] ++ Event.steps 4 1 ++
    Event.steps 3 5 ++ [.exec 3 { http := sampleReply "succeeded" "ch_1" }] ++ Event.steps 3 8 ++
    Event.steps 4 2

def retriedLate : System := (runIf (System.step sampleCrypto)
  (Confined samplePayment.invoiceId fun _ c' => c' = samplePayment) pricedInvoice retryingLate).get
    (by decide +kernel)

end TenantBilling
