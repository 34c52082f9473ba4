import TenantBilling.Invariant.Calls
import TenantBilling.Properties.Conditions

/-!
# Every call has its durable record

A call of the provider is made for an attempt that has been committed before, it is made
once, and while an attempt of an invoice is pending no other call for the invoice is made
(`TenantBilling.calls_recorded`). Nothing is assumed about the steps: sessions may be
killed anywhere, and requests may be repeated with the same or other keys.

Who has committed an attempt is read off the history of commits
(`TenantBilling.System.Reserved`), so that an attempt can be said to be left behind by a
session that is gone or has made its call.
-/

namespace TenantBilling

open Base World

/-- The session has committed the attempt as a new row. -/
def System.Reserved (s : System) (p : Pid) (a : PaymentAttempt) : Prop :=
  ∃ m ∈ s.world.history, m.pid = p ∧ ∃ b, .insertAttempt b ∈ m.writes ∧ b.id = a.id

/-- The session is gone, or has made its call. -/
def System.Past (s : System) (p : Pid) : Prop := ¬s.Alive p ∨ ∃ x ∈ s.world.charges, x.pid = p

/-- **Calls and their records.** -/
structure CallsRecorded (crypto : Crypto) (s : System) : Prop where
  /-- A session about to make a call has committed a pending attempt with the values of the
  call, and holds no lock. -/
  durable : ∀ p cardToken amountCents idempotencyKey,
    s.next? p = some (.sendCharge cardToken amountCents idempotencyKey) →
      ∃ c, s.payCall? p = some c ∧ (∃ a ∈ s.world.db.attempts, a.status = .pending ∧
        a.invoiceId = c.invoiceId ∧ a.idempotencyKey.text = idempotencyKey ∧
          a.cardToken.text = cardToken ∧ a.amountCents.val = amountCents) ∧
        ∀ r, s.world.locks r ≠ some p
  /-- An attempt is given by its invoice and key, and has led to one call at most. -/
  unique : ∀ a ∈ s.world.db.attempts, ∀ b ∈ s.world.db.attempts, a.invoiceId = b.invoiceId →
    a.idempotencyKey = b.idempotencyKey → a = b
  once : ∀ i key, ((s.chargesOn i).filter fun x => x.idempotencyKey = key).length ≤ 1
  /-- One attempt of an invoice at most is pending, and one call at most is outstanding. -/
  onePending : ∀ a ∈ s.world.db.attempts, ∀ b ∈ s.world.db.attempts, a.invoiceId = b.invoiceId →
    a.status = .pending → b.status = .pending → a = b
  oneOutstanding : ∀ i, ((s.chargesOn i).filter fun x => x.result.isNone).length ≤ 1
  /-- Each attempt has been committed by a session. Once that is gone or has made its call,
  and as long as the attempt is pending, no call for the invoice is made. -/
  reserved : ∀ a ∈ s.world.db.attempts, ∃ p, s.Reserved p a
  blocks : ∀ p a, s.Reserved p a → s.Past p → ∀ t, Reaches (System.step crypto) Always s t →
    ∀ b ∈ t.world.db.attempts, b.id = a.id → b.status = .pending →
      ∀ q cardToken amountCents idempotencyKey,
        t.next? q = some (.sendCharge cardToken amountCents idempotencyKey) →
          ∀ c, t.payCall? q = some c → c.invoiceId ≠ b.invoiceId

section Sound

variable {crypto : Crypto} {s t : System} {φ φ' : Pid → Phase} {e : Event} {p q : Pid}

/-! ### One state -/

/-- **Whoever calls the provider next has a durable attempt**, and holds no lock. -/
theorem System.Sound.durable (h : s.Sound crypto φ) {cardToken idempotencyKey : String}
    {amountCents : ℤ}
    (hnext : s.next? p = some (.sendCharge cardToken amountCents idempotencyKey)) :
    ∃ c, s.payCall? p = some c ∧ (∃ a ∈ s.world.db.attempts, a.status = .pending ∧
      a.invoiceId = c.invoiceId ∧ a.idempotencyKey.text = idempotencyKey ∧
        a.cardToken.text = cardToken ∧ a.amountCents.val = amountCents) ∧
      ∀ r, s.world.locks r ≠ some p := by
  obtain ⟨c, v, a, hph, hp, rfl, rfl, rfl⟩ := h.sending hnext
  have hgood := h.forGood p
  have hholds := h.alive p hp
  rw [hph] at hgood hholds
  obtain ⟨hinvoice, hkey, htoken, -, hstatus⟩ := hgood.2.1.fields
  refine ⟨c, h.payCall?_eq_some.mpr ⟨_, hph⟩,
    ⟨a, (Table.find?_eq_some.mp hgood.2.2).1, hstatus, hinvoice, hkey, htoken, rfl⟩, fun r hr => ?_⟩
  exact List.not_mem_nil ((hholds.1.locks r).mp hr)

/-- The row of the attempt a call was made for. -/
theorem System.Sound.row_of_charge (h : s.Sound crypto φ) {i : Uuid} {x : Charge}
    (hx : x ∈ s.chargesOn i) : ∃ a row, (φ x.pid).committed? = some a ∧
      row ∈ s.world.db.attempts ∧ row.id = a.id ∧ row.invoiceId = i ∧
        row.idempotencyKey.text = x.idempotencyKey ∧ (x.result = none → row.status = .pending) := by
  obtain ⟨hx, hon⟩ := List.mem_filter.mp hx
  obtain ⟨c, pt, a, hph, hmade, ha, hcases⟩ := h.charge_cases hx
  have hinvoice : c.invoiceId = i := by
    rw [h.payCall?_eq_some.mpr ⟨pt, hph⟩] at hon
    simpa using hon
  have hcommitted : (φ x.pid).committed? = some a := by
    rw [hph]
    exact ha
  obtain ⟨row, hrow, hadv⟩ := (h.forGood x.pid).row hcommitted
  obtain ⟨hrow', hid⟩ := Table.find?_eq_some.mp hrow
  have hkey : x.idempotencyKey = c.idempotencyKey := by
    rcases hcases with ⟨-, hx⟩ | ⟨http, -, hx⟩ | ⟨http, -, hx⟩ <;> rw [hx] <;> rfl
  refine ⟨a, row, hcommitted, hrow', hid, ?_, ?_, fun hnone => ?_⟩
  · rw [← hadv.invoiceId, hmade.invoiceId, hinvoice]
  · rw [← hadv.idempotencyKey, hmade.fields.2.1, hkey]
  · rcases hcases with ⟨hg, -⟩ | ⟨http, -, hx⟩ | ⟨http, -, hx⟩
    · -- the call is outstanding, and the row is the one committed first
      have hgood := h.forGood x.pid
      rw [hph] at hgood
      change pt.progress.Holds crypto s.world x.pid c at hgood
      rw [hg] at hgood
      rw [hgood.2.2] at hrow
      rw [← Option.some.inj hrow]
      exact hmade.status
    · rw [hx] at hnone
      cases hnone
    · rw [hx] at hnone
      cases hnone

/-- Calls that are all made by one session are one call at most. -/
theorem System.Sound.length_filter_le_one (h : s.Sound crypto φ) {l : List Charge}
    (hl : l.Sublist s.world.charges) (hone : ∀ x ∈ l, ∀ y ∈ l, x.pid = y.pid) : l.length ≤ 1 := by
  cases l with
  | nil => exact Nat.zero_le 1
  | cons x l =>
    refine le_trans ?_ (h.chargesOf_length x.pid)
    have hfilter : (x :: l).filter (fun y => y.pid = x.pid) = x :: l := by
      refine List.filter_eq_self.mpr fun y hy => ?_
      simpa using hone y hy x List.mem_cons_self
    rw [← hfilter]
    exact (hl.filter _).length_le

/-- Under one key of an invoice the provider is called at most once. -/
theorem System.Sound.once (h : s.Sound crypto φ) (i : Uuid) (key : String) :
    ((s.chargesOn i).filter fun x => x.idempotencyKey = key).length ≤ 1 := by
  refine h.length_filter_le_one (List.filter_sublist.trans List.filter_sublist) fun x hx y hy => ?_
  obtain ⟨hx, hxkey⟩ := List.mem_filter.mp hx
  obtain ⟨hy, hykey⟩ := List.mem_filter.mp hy
  obtain ⟨a, row, ha, hrow, hid, hinvoice, hkey, -⟩ := h.row_of_charge hx
  obtain ⟨a', row', ha', hrow', hid', hinvoice', hkey', -⟩ := h.row_of_charge hy
  have hsame : row = row' := by
    refine h.keys row hrow row' hrow' ?_
    have htext : row.idempotencyKey.text = row'.idempotencyKey.text := by
      rw [hkey, hkey', of_decide_eq_true hxkey, of_decide_eq_true hykey]
    simp [PaymentAttempt.sameKey, hinvoice, hinvoice', Varchar.ext_iff, htext]
  exact h.owner _ _ a a' ha ha' (by rw [← hid, ← hid', hsame])

/-- At most one call for an invoice is without an answer. -/
theorem System.Sound.oneOutstanding (h : s.Sound crypto φ) (i : Uuid) :
    ((s.chargesOn i).filter fun x => x.result.isNone).length ≤ 1 := by
  refine h.length_filter_le_one (List.filter_sublist.trans List.filter_sublist) fun x hx y hy => ?_
  obtain ⟨hx, hxnone⟩ := List.mem_filter.mp hx
  obtain ⟨hy, hynone⟩ := List.mem_filter.mp hy
  obtain ⟨a, row, ha, hrow, hid, hinvoice, -, hpending⟩ := h.row_of_charge hx
  obtain ⟨a', row', ha', hrow', hid', hinvoice', -, hpending'⟩ := h.row_of_charge hy
  have hsame : row = row' := by
    refine h.pending row hrow row' hrow' ?_
    simp [PaymentAttempt.samePending, hinvoice, hinvoice',
      hpending (Option.isNone_iff_eq_none.mp hxnone),
      hpending' (Option.isNone_iff_eq_none.mp hynone)]
  exact h.owner _ _ a a' ha ha' (by rw [← hid, ← hid', hsame])

/-! ### The history -/

/-- The commits of attempts are those of the sessions. -/
structure Recorded (s : System) (φ : Pid → Phase) : Prop where
  committed : ∀ m ∈ s.world.history, ∀ a,
    .insertAttempt a ∈ m.writes → (φ m.pid).committed? = some a
  history : ∀ p a, (φ p).committed? = some a →
    ∃ m ∈ s.world.history, m.pid = p ∧ .insertAttempt a ∈ m.writes

theorem Recorded.move (h : s.Sound crypto φ) (hI : Recorded s φ) (hmove : s.Moves crypto φ e t φ') :
    Recorded t φ' := by
  rcases h.commit_or hmove with ⟨-, hhistory, hsame⟩ | ⟨p, ph, hp, ht, rfl, hcommits⟩
  · refine ⟨fun m hm a ha => ?_, fun q a ha => ?_⟩
    · rw [hsame]
      exact hI.committed m (hhistory ▸ hm) a ha
    · rw [hsame] at ha
      rw [hhistory]
      exact hI.history q a ha
  have hhistory : t.world.history = s.world.history ++ [⟨p, s.world.writesOf p⟩] := by
    rw [ht]
    rfl
  have hnew := hcommits.committed?
  refine ⟨fun m hm a ha => ?_, fun q a ha => ?_⟩
  · rw [hhistory] at hm
    rcases List.mem_append.mp hm with hm | hm
    · have hold := hI.committed m hm a ha
      by_cases hmp : m.pid = p
      · rw [hmp] at hold ⊢
        rw [Function.update_self]
        rcases hnew with heq | ⟨b, -, hnone, -⟩
        · rw [heq, hold]
        · rw [hnone] at hold
          cases hold
      · rwa [Function.update_of_ne hmp]
    · rw [List.mem_singleton.mp hm] at ha ⊢
      rw [Function.update_self]
      rcases hnew with heq | ⟨b, hwrites, -, hb⟩
      · -- a session that inserts an attempt commits it
        obtain ⟨c, v, hph, -⟩ := h.reserving ha
        rw [hph] at hcommits
        cases hcommits
        rfl
      · rw [hwrites, List.mem_singleton] at ha
        rw [hb, Write.insertAttempt.inj ha]
  · rw [hhistory]
    by_cases hqp : q = p
    · subst hqp
      rw [Function.update_self] at ha
      rcases hnew with heq | ⟨b, hwrites, -, hb⟩
      · obtain ⟨m, hm, hrest⟩ := hI.history q a (heq ▸ ha)
        exact ⟨m, List.mem_append_left _ hm, hrest⟩
      · obtain rfl := Option.some.inj (hb.symm.trans ha)
        refine ⟨⟨q, s.world.writesOf q⟩, List.mem_append_right _ (List.mem_singleton_self _), rfl,
          ?_⟩
        rw [hwrites]
        exact List.mem_singleton_self _
    · rw [Function.update_of_ne hqp] at ha
      obtain ⟨m, hm, hrest⟩ := hI.history q a ha
      exact ⟨m, List.mem_append_left _ hm, hrest⟩

/-- Every inserted attempt is the one of the payment that has committed it. -/
theorem Recorded.of_reachable (hs : s.Reachable crypto) : ∃ φ, s.Sound crypto φ ∧ Recorded s φ :=
  System.Sound.reaches hs System.sound_init ⟨(fun m hm => by cases hm), fun p a ha => by cases ha⟩
    fun _ _ _ _ _ hu hIu _ _ hmove _ => hIu.move hu hmove

/-! ### What is past stays past -/

/-- An attempt stays reserved by its session. -/
theorem System.Reserved.move (hR : s.Reserved p a) (h : s.Sound crypto φ)
    (hmove : s.Moves crypto φ e t φ') : t.Reserved p a := by
  obtain ⟨m, hm, hrest⟩ := hR
  exact ⟨m, h.mem_history hmove hm, hrest⟩

/-- The session has come to an end before its program. -/
def System.Gone (s : System) (p : Pid) : Prop :=
    ∃ proc, s.procs[p]? = some proc ∧ proc.alive = false

theorem System.Gone.not_alive (h : s.Gone p) : ¬s.Alive p := by
  obtain ⟨proc, hproc, hdead⟩ := h
  rintro ⟨proc', hproc', halive⟩
  rw [hproc] at hproc'
  rw [← Option.some.inj hproc', hdead] at halive
  cases halive

/-- A session that was killed does not come back. -/
theorem System.Gone.move (hG : s.Gone p) (hmove : s.Moves crypto φ e t φ') : t.Gone p := by
  have hne : ∀ {q}, s.Alive q → q ≠ p := by
    rintro q hq rfl
    exact hG.not_alive hq
  obtain ⟨proc, hproc, hdead⟩ := hG
  refine ⟨proc, ?_, hdead⟩
  cases hmove with
  | start job =>
    rw [List.getElem?_append_left (List.getElem?_eq_some_iff.mp hproc).1, hproc]
  | answer hq _ _ => rw [System.getElem?_replace_of_ne (hne ⟨_, hq, rfl⟩), hproc]
  | kill hq => rw [System.getElem?_replace_of_ne (hne ⟨_, hq, rfl⟩), hproc]

theorem exists_charge_move (hx : ∃ x ∈ s.world.charges, x.pid = p) (h : s.Sound crypto φ)
    (hmove : s.Moves crypto φ e t φ') : ∃ x ∈ t.world.charges, x.pid = p := by
  obtain ⟨x, hx, hpid⟩ := hx
  rcases h.charges_or hmove with hch | ⟨q, c, v, a, -, -, -, hch⟩ | ⟨q, env, -, -, hw⟩
  · exact ⟨x, hch ▸ hx, hpid⟩
  · exact ⟨x, hch ▸ List.mem_append_left _ hx, hpid⟩
  · rw [hw]
    refine ⟨_, List.mem_map_of_mem hx, ?_⟩
    split <;> exact hpid

/-- A session that has committed an attempt and is past its call stays so. -/
theorem System.Reserved.reaches {a : PaymentAttempt} (hs : s.Reachable crypto) (hR : s.Reserved p a)
    (hpast : s.Past p) (hreach : Reaches (System.step crypto) Always s t) :
    t.Reserved p a ∧ (t.Gone p ∨ ∃ x ∈ t.world.charges, x.pid = p) := by
  obtain ⟨φ, hsound, hrec⟩ := Recorded.of_reachable hs
  have hgone : s.Gone p ∨ ∃ x ∈ s.world.charges, x.pid = p := by
    rcases hpast with hdead | hcharge
    · obtain ⟨m, hm, hmp, b, hb, -⟩ := hR
      have hcommitted := hrec.committed m hm b hb
      rw [hmp] at hcommitted
      cases hproc : s.procs[p]? with
      | none =>
        rw [hsound.absent p hproc] at hcommitted
        cases hcommitted
      | some proc =>
        refine Or.inl ⟨proc, hproc, ?_⟩
        by_contra halive
        exact hdead ⟨proc, hproc, by simpa using halive⟩
    · exact Or.inr hcharge
  obtain ⟨φ', -, hI⟩ := System.Sound.reaches
    (I := fun u _ => u.Reserved p a ∧ (u.Gone p ∨ ∃ x ∈ u.world.charges, x.pid = p)) hreach hsound
    ⟨hR, hgone⟩ fun u ψ e v ψ' hu hIu _ _ hmove _ =>
      ⟨hIu.1.move hu hmove, hIu.2.imp (·.move hmove) (exists_charge_move · hu hmove)⟩
  exact hI

/-- While an attempt is pending, it is its own session that calls for the invoice, and it has
not called before. -/
theorem System.Reserved.next_ne_sendCharge {a b : PaymentAttempt} (ht : t.Reachable crypto)
    (hR : t.Reserved p a) (hpast : t.Gone p ∨ ∃ x ∈ t.world.charges, x.pid = p)
    (hb : b ∈ t.world.db.attempts) (hid : b.id = a.id) (hpending : b.status = .pending)
    {c : PayCall} {cardToken idempotencyKey : String} {amountCents : ℤ}
    (hnext : t.next? q = some (.sendCharge cardToken amountCents idempotencyKey))
    (hc : t.payCall? q = some c) : c.invoiceId ≠ b.invoiceId := by
  intro hinvoice
  obtain ⟨φ, h, hrec⟩ := Recorded.of_reachable ht
  obtain ⟨c', v, a', hph, hq, -, -, -⟩ := h.sending hnext
  obtain rfl : c' = c := by
    obtain ⟨pt, hpt⟩ := h.payCall?_eq_some.mp hc
    rw [hph] at hpt
    cases hpt
    rfl
  have hgood := h.forGood q
  rw [hph] at hgood
  obtain ⟨hnone, hmade, hfind⟩ := hgood
  have hsame : b = a' := by
    refine h.pending b hb a' (Table.find?_eq_some.mp hfind).1 ?_
    simp [PaymentAttempt.samePending, ← hinvoice, hmade.invoiceId, hpending, hmade.status]
  obtain ⟨m, hm, rfl, b', hb', hid'⟩ := hR
  have hpq : m.pid = q := h.owner _ _ b' a' (hrec.committed m hm b' hb') (by rw [hph]; rfl)
    (by rw [hid', ← hid, hsame])
  rcases hpast with hgone | ⟨x, hx, hpid⟩
  · exact (hpq ▸ hgone.not_alive) hq
  · have hmem : x ∈ t.world.chargesOf q := List.mem_filter.mpr ⟨hx, by simp [hpid, hpq]⟩
    rw [hnone] at hmem
    cases hmem

/-- **Every call of the provider is backed by a committed attempt and made at most once**, in
every state the service can get into. -/
theorem calls_recorded (hs : s.Reachable crypto) : CallsRecorded crypto s := by
  obtain ⟨φ, h, hrec⟩ := Recorded.of_reachable hs
  refine ⟨fun p cardToken amountCents idempotencyKey => h.durable, fun a ha b hb hinvoice hkey =>
    ?_, h.once, fun a ha b hb hinvoice hpa hpb => ?_, h.oneOutstanding, fun a ha => ?_, ?_⟩
  · exact h.keys a ha b hb (by simp [PaymentAttempt.sameKey, hinvoice, hkey])
  · exact h.pending a ha b hb (by simp [PaymentAttempt.samePending, hinvoice, hpa, hpb])
  · obtain ⟨p, b, hb, hid⟩ := h.owned a ha
    obtain ⟨m, hm, hmp, hwrite⟩ := hrec.history p b hb
    exact ⟨p, m, hm, hmp, b, hwrite, hid⟩
  · intro p a hR hpast t hreach b hb hid hpending q cardToken amountCents idempotencyKey hnext c hc
    obtain ⟨hR', hpast'⟩ := hR.reaches hs hpast hreach
    exact hR'.next_ne_sendCharge (hs.trans hreach) hpast' hb hid hpending hnext hc

/-- A payment that is killed after its call has been sent, and a retry with another key. -/
def killedAfterCall : System :=
  (run (System.step sampleCrypto) .init
    (drafting ++ [.request (.finalize 0)] ++ Event.steps 2 5 ++
      [.request (.pay 0 "tok_visa" "k1")] ++ Event.steps 3 5 ++ [.kill 3] ++
      [.request (.pay 0 "tok_visa" "k2")] ++ Event.steps 4 2)).get (by decide +kernel)

/-- A payment is killed after its call. -/
theorem recorded_killedAfterCall : CallsRecorded sampleCrypto killedAfterCall :=
  calls_recorded (reaches_of_run (Option.some_get _).symm)

end Sound

end TenantBilling
