import TenantBilling.Invariant.Ready
import TenantBilling.Properties.Conditions

/-!
# Deadlocks

A payment takes two things in two orders. Its first transaction locks the invoice and then
meets the unique indexes of `payment_attempts`, where it waits for a transaction that is
replacing a conflicting entry; its second one flushes the outcome to the attempt, and so
replaces the entry, and then locks the invoice. Two payments of one invoice can wait for
each other (`TenantBilling.not_no_deadlock`): one has locked the invoice and inserts, the
other has flushed its success and locks.

That is the only way. Everybody who waits for a lock of an invoice waits for somebody who
either waits for nobody or inserts, so if no payment inserts while another is about to
lock the invoice again, there is no cycle (`TenantBilling.no_deadlock`).
-/

namespace TenantBilling

open Base World

namespace System

/-- The invoice that a session is about to lock again, with its success flushed. -/
def relocking? (s : System) (p : Pid) : Option Uuid :=
  match s.next? p with
  | some (.lockInvoice i none) => some i
  | _ => none

/-- The invoice that a session has locked and is about to insert an attempt for. -/
def inserting? (s : System) (p : Pid) : Option Uuid :=
  match s.next? p with
  | some (.insertAttempt new) => some new.invoiceId
  | _ => none

/-- The session runs a payment or a transition. -/
def Payments (s : System) (p : Pid) : Prop :=
  ∃ proc, s.procs[p]? = some proc ∧ ¬proc.job.Peripheral

end System

/-- No payment locks an open invoice while another has flushed a success to an attempt of it
and is about to lock it, and no payment flushes a success while another is about to insert an
attempt of the invoice. -/
def LocksApart (s : System) : Event → Prop
  | .exec p _ =>
    match s.next? p with
    | some (.lockInvoice i (some business)) =>
      (s.world.db.invoices.find? i).any (fun v => v.businessId = business ∧ v.state = .open) →
        ∀ q < s.procs.length, s.relocking? q ≠ some i
    | some (.updateAttempt id change) =>
      change.status = some .succeeded → ∀ q < s.procs.length,
        (s.world.db.attempts.find? id).all fun a => s.inserting? q ≠ some a.invoiceId
    | _ => True
  | _ => True

instance (s : System) : ∀ e, Decidable (LocksApart s e)
  | .exec p _ => by
    unfold LocksApart
    dsimp only
    rcases s.next? p with _ | st
    · exact instDecidableTrue
    · cases st with
      | lockInvoice i business =>
        rcases business with _ | business
        · exact instDecidableTrue
        · dsimp only
          infer_instance
      | updateAttempt id change =>
        dsimp only
        infer_instance
      | _ => exact instDecidableTrue
  | .start _ | .abort .. | .kill _ => inferInstanceAs (Decidable True)

section Runs

variable {crypto : Crypto} {s t : System} {φ φ' : Pid → Phase} {e : Event} {p q : Pid} {i : Uuid}

theorem System.relocking?_eq_some :
    s.relocking? p = some i ↔ s.next? p = some (.lockInvoice i none) := by
  unfold System.relocking?
  split
  case h_1 j hnext => simp [hnext]
  case h_2 hne =>
    refine ⟨by simp, fun h => ?_⟩
    exact absurd h (hne i)

theorem System.inserting?_eq_some :
    s.inserting? p = some i ↔ ∃ new, s.next? p = some (.insertAttempt new) ∧ new.invoiceId = i := by
  unfold System.inserting?
  split
  case h_1 new hnext => simp [hnext]
  case h_2 hne =>
    refine ⟨by simp, ?_⟩
    rintro ⟨new, h, -⟩
    exact absurd h (hne new)

theorem System.Sound.phase_of_relocking (h : s.Sound crypto φ) (hp : s.relocking? p = some i) :
    s.Alive p ∧ ∃ c v a http result, φ p = .pay c (.relock v a http result) ∧ c.invoiceId = i := by
  have hnext := System.relocking?_eq_some.mp hp
  refine ⟨System.alive_of_next? hnext, ?_⟩
  cases hph : φ p with
  | other => exact (h.peripheral hnext hph).elim
  | transition c pt =>
    obtain ⟨next, hout⟩ := h.out_transition hnext hph
    cases pt <;> cases hout
  | pay c pt =>
    obtain ⟨next, hout⟩ := h.out_pay hnext hph
    cases pt <;> cases hout
    exact ⟨c, _, _, _, _, rfl, rfl⟩

theorem System.Sound.phase_of_inserting (h : s.Sound crypto φ) (hp : s.inserting? p = some i) :
    s.Alive p ∧ ∃ c v, φ p = .pay c (.insert v) ∧ c.invoiceId = i := by
  obtain ⟨new, hnext, hi⟩ := System.inserting?_eq_some.mp hp
  refine ⟨System.alive_of_next? hnext, ?_⟩
  cases hph : φ p with
  | other => exact (h.peripheral hnext hph).elim
  | transition c pt =>
    obtain ⟨next, hout⟩ := h.out_transition hnext hph
    cases pt <;> cases hout
  | pay c pt =>
    obtain ⟨next, hout⟩ := h.out_pay hnext hph
    cases pt <;> cases hout
    exact ⟨c, _, rfl, hi⟩

/-! ### Who waits for whom -/

/-- How far a session is from having to wait. -/
def Phase.waitRank : Phase → ℕ
  | .pay _ .lock | .pay _ (.relock ..) => 2
  | .pay _ (.insert _) => 1
  | .transition _ (.update _) => 2
  | _ => 0

/-- Whoever has locked an invoice is a payment or a transition, and waits for at most one
insert. -/
theorem System.Sound.waitRank_of_lock (h : s.Sound crypto φ)
    (hlock : s.world.locks ⟨.invoices, i⟩ = some q) : φ q ≠ .other ∧ (φ q).waitRank ≤ 1 := by
  have hq : s.Alive q := by
    by_contra hdead
    exact List.not_mem_nil (((h.idle q hdead).locks _).mp hlock)
  have hholds := h.alive q hq
  have hidle : ∀ {ws}, ¬s.world.HasTx q [] ws :=
    fun htx => List.not_mem_nil ((htx.locks _).mp hlock)
  cases hph : φ q with
  | other =>
    rw [hph] at hholds
    exact absurd rfl (hholds.locks _ hlock).1
  | transition c pt =>
    refine ⟨by simp, ?_⟩
    rw [hph] at hholds
    cases pt with
    | update v => exact absurd hholds.1 hidle
    | _ => exact Nat.zero_le 1
  | pay c pt =>
    refine ⟨by simp, ?_⟩
    rw [hph] at hholds
    cases pt with
    | lock => exact absurd hholds hidle
    | relock v a http result =>
      obtain ⟨-, -, -, update, now, -, htx⟩ := hholds
      cases List.mem_singleton.mp ((htx.locks _).mp hlock)
    | insert v => exact le_rfl
    | _ => exact Nat.zero_le 1

/-- **Whom an insert waits for** waits for nobody, if it is not about to lock the invoice. -/
theorem System.Sound.waitRank_of_touched (h : s.Sound crypto φ) {c : PayCall} (hne : q ≠ p)
    (hp : s.world.locks c.invoiceRef = some p) {x : Write} (hx : x ∈ s.world.writesOf q)
    {b : PaymentAttempt} (hb : b ∈ s.world.touchedAttempts x) (hinvoice : b.invoiceId = c.invoiceId)
    (hrelock : s.relocking? q ≠ some c.invoiceId) : φ q ≠ .other ∧ (φ q).waitRank = 0 := by
  obtain ⟨c', pt, a, http, hq, hph, hg, hi⟩ := h.touched hne hp hx hb hinvoice
  rw [hph]
  refine ⟨by simp, ?_⟩
  cases pt with
  | lock => cases hg
  | insert v => cases hg
  | relock v a' http' result =>
    refine absurd (System.relocking?_eq_some.mpr (h.next?_of_out hq hph rfl)) ?_
    rwa [hi]
  | _ => rfl

/-- No payment inserts while another is about to lock the invoice again. -/
def Apart (s : System) : Prop := ∀ p q i, s.inserting? p = some i → s.relocking? q ≠ some i

/-- **Along every wait of a payment or transition the rank goes down.** -/
theorem System.Sound.waitRank_lt (h : s.Sound crypto φ) (hapart : Apart s) (hp : φ p ≠ .other)
    (hwaits : s.Waits p q) : φ q ≠ .other ∧ (φ q).waitRank < (φ p).waitRank := by
  obtain ⟨st, hnext, hq⟩ := System.mem_blockers.mp hwaits
  have halive := System.alive_of_next? hnext
  have hholds := h.alive p halive
  cases hph : φ p with
  | other => exact absurd hph hp
  | transition c pt =>
    obtain ⟨next, hout⟩ := h.out_transition hnext hph
    cases pt with
    | update v =>
      cases hout
      obtain ⟨hother, hrank⟩ := h.waitRank_of_lock (mem_lockWaits.mp hq).1
      exact ⟨hother, Nat.lt_succ_of_le hrank⟩
    | _ => cases hout <;> cases hq
  | pay c pt =>
    rw [hph] at hholds
    obtain ⟨next, hout⟩ := h.out_pay hnext hph
    have hlock : ∀ {businessId}, q ∈ s.world.blockers p (.lockInvoice c.invoiceId businessId) →
        φ q ≠ .other ∧ (φ q).waitRank < 2 := by
      intro businessId hq
      simp only [World.blockers] at hq
      split at hq
      case h_2 => cases hq
      case h_1 =>
        split at hq
        case isFalse => cases hq
        case isTrue =>
          obtain ⟨hother, hrank⟩ := h.waitRank_of_lock (mem_lockWaits.mp hq).1
          exact ⟨hother, Nat.lt_succ_of_le hrank⟩
    cases pt with
    | lock =>
      cases hout
      exact hlock hq
    | relock v a http result =>
      cases hout
      exact hlock hq
    | insert v =>
      cases hout
      obtain ⟨hne, x, hx, b, hb, hinvoice⟩ := touched_of_mem_blockers hq
      have hp := (hholds.1.locks _).mpr (List.mem_singleton_self c.invoiceRef)
      have hinserting : s.inserting? p = some c.invoiceId :=
        System.inserting?_eq_some.mpr ⟨_, hnext, rfl⟩
      obtain ⟨hother, hrank⟩ :=
        h.waitRank_of_touched hne hp hx hb hinvoice (hapart p q _ hinserting)
      exact ⟨hother, by rw [hrank]; exact Nat.zero_lt_one⟩
    | record v a http outcome =>
      -- nobody else writes the attempt
      cases hout
      obtain ⟨hq, hne⟩ := mem_lockWaits.mp hq
      obtain ⟨a', ha', hid⟩ := h.committed?_of_lock hq
      exact absurd (h.owner q p a' a ha' (by rw [hph]; rfl) hid) hne
    | markPaid a http result =>
      -- the session has locked the invoice itself
      cases hout
      obtain ⟨-, -, update, now, -, htx⟩ := hholds
      have hp := (htx.locks c.invoiceRef).mpr List.mem_cons_self
      obtain ⟨hq, hne⟩ := mem_lockWaits.mp hq
      exact absurd (Option.some.inj (hq.symm.trans hp)) hne
    | _ => cases hout <;> cases hq

/-! ### Runs -/

/-- No payment inserts while another is about to lock the invoice again, by phases. -/
def PhasesApart (s : System) (φ : Pid → Phase) : Prop :=
  ∀ p q c c' v v' a http result, s.Alive p → s.Alive q → φ p = .pay c (.insert v) →
    φ q = .pay c' (.relock v' a http result) → c.invoiceId ≠ c'.invoiceId

theorem PhasesApart.apart (h : s.Sound crypto φ) (hI : PhasesApart s φ) : Apart s := by
  intro p q i hp hq
  obtain ⟨halive, c, v, hph, rfl⟩ := h.phase_of_inserting hp
  obtain ⟨halive', c', v', a, http, result, hqh, hi⟩ := h.phase_of_relocking hq
  exact hI p q c c' v v' a http result halive halive' hph hqh hi.symm

theorem lt_length_of_alive (hp : s.Alive p) : p < s.procs.length := by
  obtain ⟨proc, hproc, -⟩ := hp
  exact (List.getElem?_eq_some_iff.mp hproc).1

/-- The insert comes after the lock. -/
theorem PayPoint.eq_lock {c : PayCall} {pt : PayPoint} {st : Stmt} {next : st.Resp → PayPoint}
    {r : st.Resp} {v : Invoice} (hout : pt.out crypto c = .op st next) (hr : next r = .insert v) :
    pt = .lock := by
  cases pt <;> cases hout <;> try rfl
  all_goals
    exfalso
    revert hr
    try dsimp only [PayPoint.recorded]
    repeat' split
    all_goals
      intro hr
      cases hr

/-- The second lock comes after the flush of a success. -/
theorem PayPoint.eq_record {c : PayCall} {pt : PayPoint} {st : Stmt} {next : st.Resp → PayPoint}
    {r : st.Resp} {v : Invoice} {a : PaymentAttempt} {http : HttpResult} {result : PspChargeResult}
    (hout : pt.out crypto c = .op st next) (hr : next r = .relock v a http result) :
    pt = .record v a http (.ok result) := by
  cases pt <;> cases hout
  all_goals
    revert hr
    try dsimp only [PayPoint.recorded]
    repeat' split
    all_goals
      intro hr
      cases hr
  rfl

/-- A payment that is about to insert has just locked the open invoice. -/
theorem PhasesApart.lock (h : s.Sound crypto φ) (hC : LocksApart s e) {st : Stmt} {r : st.Resp}
    {w' : World} {c c' : PayCall} {v v' : Invoice} {a : PaymentAttempt} {http : HttpResult}
    {result : PspChargeResult} (hnext? : s.next? p = some st) (hans : s.Answered p st r w' e)
    (hnext : (φ p).Next crypto st r (.pay c (.insert v))) (hq : s.Alive q)
    (hqh : φ q = .pay c' (.relock v' a http result)) : c.invoiceId ≠ c'.invoiceId := by
  intro hi
  have hholds := h.alive p (System.alive_of_next? hnext?)
  generalize hph : φ p = ph at hnext
  rw [hph] at hholds
  generalize hto : Phase.pay c (.insert v) = ph' at hnext
  cases hnext with
  | transition => cases hto
  | other => cases hto
  | pay hout r =>
    obtain ⟨rfl, hr⟩ := Phase.pay.inj hto
    obtain rfl := PayPoint.eq_lock hout hr.symm
    cases hout
    have hlock := answers_lockInvoice hans.answers
    rcases r with e | _ | row
    · cases hr
    · cases hr
    obtain ⟨-, -, hrow, hbelongs⟩ := hlock
    dsimp only at hr
    split at hr
    case h_1 => cases hr
    case h_2 hcheck =>
      cases hr
      cases hans with
      | abort cycle _ hfail => cases hfail
      | exec env hexec =>
        simp only [LocksApart, hnext?] at hC
        refine hC ?_ q (lt_length_of_alive hq) ?_
        · rw [World.Idle.view hholds] at hrow
          have hbusiness : v.businessId =
            c.business.id := by simpa [Invoice.belongsTo] using hbelongs
          simp [hrow, hbusiness, assertTransitionAllowed_paid.mp hcheck]
        · rw [hi]
          exact System.relocking?_eq_some.mpr (h.next?_of_out hq hqh rfl)

/-- A payment that is about to lock the invoice again has just flushed its success. -/
theorem PhasesApart.record (h : s.Sound crypto φ) (hC : LocksApart s e) {st : Stmt} {r : st.Resp}
    {w' : World} {c c' : PayCall} {v v' : Invoice} {a : PaymentAttempt} {http : HttpResult}
    {result : PspChargeResult} (hnext? : s.next? p = some st) (hans : s.Answered p st r w' e)
    (hnext : (φ p).Next crypto st r (.pay c' (.relock v' a http result))) (hq : s.Alive q)
    (hqh : φ q = .pay c (.insert v)) : c.invoiceId ≠ c'.invoiceId := by
  intro hi
  have hgood := h.forGood p
  generalize hph : φ p = ph at hnext
  rw [hph] at hgood
  generalize hto : Phase.pay c' (.relock v' a http result) = ph' at hnext
  cases hnext with
  | transition => cases hto
  | other => cases hto
  | pay hout r =>
    obtain ⟨rfl, hr⟩ := Phase.pay.inj hto
    obtain rfl := PayPoint.eq_record hout hr.symm
    cases hout
    obtain ⟨-, hmade, hfind⟩ := hgood
    rcases r with e | _
    · cases hr
    have hsucceeded : (outcomeChange (.ok result)).status = some .succeeded := by
      dsimp only [PayPoint.recorded] at hr
      split at hr
      case isFalse => cases hr
      case isTrue hs =>
        rw [outcomeChange, if_pos hs]
        rfl
    cases hans with
    | abort cycle _ hfail => cases hfail
    | exec env hexec =>
      simp only [LocksApart, hnext?] at hC
      have hall := hC hsucceeded q (lt_length_of_alive hq)
      rw [hfind, Option.all_some, decide_eq_true_eq, hmade.invoiceId, ← hi] at hall
      exact hall (System.inserting?_eq_some.mpr ⟨_, h.next?_of_out hq hqh rfl, rfl⟩)

theorem PhasesApart.move (h : s.Sound crypto φ) (hI : PhasesApart s φ) (hC : LocksApart s e)
    (hmove : s.Moves crypto φ e t φ') : PhasesApart t φ' := by
  intro p q c c' v v' a http result hp hq hph hqh
  cases hmove with
  | start job =>
    have hold : ∀ {x}, (Function.update φ s.procs.length job.phase x ≠ job.phase) →
        System.Alive ⟨s.world, s.procs ++ [⟨job, job.program crypto, true⟩]⟩ x →
          s.Alive x ∧ Function.update φ s.procs.length job.phase x = φ x := by
      rintro x hne ⟨proc, hproc, halive⟩
      rcases System.getElem?_start hproc with ⟨hx, hproc⟩ | ⟨rfl, -⟩
      · exact ⟨⟨proc, hproc, halive⟩, Function.update_of_ne hx _ _⟩
      · exact absurd (Function.update_self _ _ _) hne
    -- a session that has just been started is at neither of the two points
    have hinsert : job.phase ≠ .pay c (.insert v) := by
      intro hjob
      rcases Job.phase_eq_pay hjob with hpt | ⟨x, hpt⟩ <;> cases hpt
    have hrelock : job.phase ≠ .pay c' (.relock v' a http result) := by
      intro hjob
      rcases Job.phase_eq_pay hjob with hpt | ⟨x, hpt⟩ <;> cases hpt
    obtain ⟨hp, hpeq⟩ := hold (by rw [hph]; exact hinsert.symm) hp
    obtain ⟨hq, hqeq⟩ := hold (by rw [hqh]; exact hrelock.symm) hq
    rw [hpeq] at hph
    rw [hqeq] at hqh
    exact hI p q c c' v v' a http result hp hq hph hqh
  | @kill p' job prog hproc =>
    have hold : ∀ {x}, System.Alive ⟨s.world.release p', s.procs.set p' ⟨job, prog, false⟩⟩ x →
      s.Alive x := by
      rintro x ⟨proc, hx, halive⟩
      rcases System.getElem?_replace hproc hx with ⟨-, hx⟩ | ⟨-, rfl⟩
      · exact ⟨proc, hx, halive⟩
      · cases halive
    exact hI p q c c' v v' a http result (hold hp) (hold hq) hph hqh
  | @answer _ p' job st r w' k ph hproc hans hnext =>
    have hnext? := System.next?_eq_some.mpr ⟨job, k, hproc⟩
    have hold : ∀ {x}, System.Alive ⟨w', s.procs.set p' ⟨job, k r, true⟩⟩ x → s.Alive x := by
      rintro x ⟨proc, hx, halive⟩
      rcases System.getElem?_replace hproc hx with ⟨-, hx⟩ | ⟨rfl, -⟩
      · exact ⟨proc, hx, halive⟩
      · exact ⟨_, hproc, rfl⟩
    by_cases hpp : p = p'
    · subst hpp
      rw [Function.update_self] at hph
      subst hph
      have hqp : q ≠ p := by
        rintro rfl
        rw [Function.update_self] at hqh
        cases hqh
      rw [Function.update_of_ne hqp] at hqh
      -- the session has just locked the invoice
      exact PhasesApart.lock h hC hnext? hans hnext (hold hq) hqh
    · rw [Function.update_of_ne hpp] at hph
      by_cases hqp : q = p'
      · subst hqp
        rw [Function.update_self] at hqh
        subst hqh
        -- the session has just written the outcome of its call
        exact PhasesApart.record h hC hnext? hans hnext (hold hp) hph
      · rw [Function.update_of_ne hqp] at hqh
        exact hI p q c c' v v' a http result (hold hp) (hold hq) hph hqh

/-- A session of a payment or a transition is at one of its points. -/
theorem System.Sound.ne_other (h : s.Sound crypto φ) (hp : s.Payments p) : φ p ≠ .other := by
  obtain ⟨proc, hproc, hper⟩ := hp
  intro hph
  have htracks := h.tracks p proc hproc
  rw [hph] at htracks
  exact hper htracks.1

/-- **Payments do not deadlock** in runs in which no payment inserts its attempt while another
one of the invoice is about to lock it again: no session of a payment or a transition is on
a cycle of waits. -/
theorem no_deadlock (hreach : Reaches (System.step crypto) LocksApart .init s)
    (hp : s.Payments p) : ¬Relation.TransGen s.Waits p p := by
  obtain ⟨φ, h, hI⟩ := System.Sound.reaches (I := PhasesApart) hreach System.sound_init
    (fun p q c c' v v' a http result hp => by
      obtain ⟨proc, hproc, -⟩ := hp
      cases hproc)
    fun u ψ e v ψ' hu hIu hC _ hmove _ => hIu.move hu hC hmove
  have hapart := hI.apart h
  have hfalls : ∀ q, Relation.TransGen s.Waits p q →
      φ q ≠ .other ∧ (φ q).waitRank < (φ p).waitRank := by
    intro q hq
    induction hq with
    | single hpq => exact h.waitRank_lt hapart (h.ne_other hp) hpq
    | tail _ hqr ih =>
      obtain ⟨hother, hlt⟩ := h.waitRank_lt hapart ih.1 hqr
      exact ⟨hother, hlt.trans ih.2⟩
  exact fun hcycle => lt_irrefl _ (hfalls p hcycle).2

/-- Two payments of the open invoice, one after the other; the second one waits for the
lock of the first. -/
def payingBehind : System :=
  (runIf (System.step sampleCrypto) LocksApart .init
    (drafting ++ [.request (.finalize 0)] ++ Event.steps 2 5 ++
      [.request (.pay 0 "tok_visa" "k1"), .request (.pay 0 "tok_visa" "k2")] ++ Event.steps 3 2 ++
      Event.steps 4 1)).get (by decide +kernel)

theorem no_deadlock_payingBehind :
    payingBehind.Waits 4 3 ∧ ¬Relation.TransGen payingBehind.Waits 4 4 :=
  ⟨by decide +kernel, no_deadlock (reaches_of_runIf (Option.some_get _).symm)
    ⟨payingBehind.procs.get ⟨4, by decide +kernel⟩, List.getElem?_eq_getElem _, by decide +kernel⟩⟩

/-- The first payment has flushed its success when the second one locks the invoice. -/
def payingAcross : System :=
  (run (System.step sampleCrypto) .init
    (drafting ++ [.request (.finalize 0)] ++ Event.steps 2 5 ++
      [.request (.pay 0 "tok_visa" "k1"), .request (.pay 0 "tok_visa" "k2")] ++ Event.steps 3 5 ++
      [.exec 3 { http := sampleReply "succeeded" "ch_1" }] ++ Event.steps 3 2 ++
      Event.steps 4 2)).get (by decide +kernel)

/-- Without the condition two payments of one invoice may wait for each other: the first one
has flushed its success, the second one has locked the invoice. -/
theorem not_no_deadlock : ¬∀ s : System, s.Reachable sampleCrypto →
    ∀ p, s.Payments p → ¬Relation.TransGen s.Waits p p := by
  intro h
  refine h payingAcross (reaches_of_run (Option.some_get _).symm) 3
    ⟨payingAcross.procs.get ⟨3, by decide +kernel⟩,
      List.getElem?_eq_getElem _, by decide +kernel⟩ ?_
  exact IsCycle.transGen (l := [4]) (by decide +kernel)

end Runs

end TenantBilling
