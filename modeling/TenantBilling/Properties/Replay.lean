import TenantBilling.Invariant.Each
import TenantBilling.Invariant.Ready
import TenantBilling.Properties.DurableAttempt
import TenantBilling.Properties.Noninterference
import TenantBilling.Properties.PaidIffCharged
import TenantBilling.World.JsonText

/-!
# Replays

What a payment returns is looked up before the invoice is looked at, so a repeated request is
answered by its attempt alone. That is the same answer every time because a committed attempt
hardly changes.

* An attempt keeps its request, and once it is settled all its columns
  (`TenantBilling.PaymentAttempt.Follows`).
* It is settled by the session that has inserted it (`TenantBilling.Authored`).
* A payment returns an attempt of its own invoice, key and body
  (`TenantBilling.PayPoint.Returns`), and one that finds a settled attempt ends at the cache
  check (`TenantBilling.PayPoint.Replaying`).
-/

namespace TenantBilling

open Base World

/-- The same attempt at a later time. -/
structure PaymentAttempt.Follows (a b : PaymentAttempt) : Prop where
  id : b.id = a.id
  invoiceId : b.invoiceId = a.invoiceId
  idempotencyKey : b.idempotencyKey = a.idempotencyKey
  requestHash : b.requestHash = a.requestHash
  cardToken : b.cardToken = a.cardToken
  amountCents : b.amountCents = a.amountCents
  settled : a.status ≠ .pending → b = a

/-- **What happens to the attempts** between two states. -/
structure AttemptsSettle (s t : System) : Prop where
  follows : ∀ a ∈ s.world.db.attempts, ∃ b ∈ t.world.db.attempts, a.Follows b
  /-- An attempt is changed by the one session that has inserted it. -/
  author : ∀ m ∈ t.world.history, ∀ id update now, .updateAttempt id update now ∈ m.writes →
    ∀ a ∈ t.world.db.attempts, a.id = id → ∀ p, t.Reserved p a ↔ p = m.pid

/-- The session answers its request with the result: it does not call the provider, and it
returns, after two statements at most, none of which has to wait. -/
structure Replays (crypto : Crypto) (s : System) (p : Pid) (x : Except Exc Result) : Prop where
  charges : s.world.chargesOf p = []
  returned : ∀ y, s.returned? p = some y → y = x
  returns : s.Alive p → ∀ envs, ∃ n ≤ 2, ∃ t,
    run (System.step crypto) s (alone p n envs) = some t ∧ t.returned? p = some x

/-- A payment that returns an attempt returns a row of its invoice, key and body, and if it is not a
replay, this is an attempt of its own. -/
def PayPoint.Returns (crypto : Crypto) (w : World) (c : PayCall) : PayPoint → Prop
  | closing x g | done x g => ∀ a cached, x = .ok (.attempt a cached) →
      c.idempotencyKey ≠ "" ∧ a.invoiceId = c.invoiceId ∧
        a.idempotencyKey.text = c.idempotencyKey ∧ a.requestHash = c.requestHash crypto ∧
          (cached = false → a.cardToken.text = c.cardToken ∧ ∃ d, g.attempt? = some d) ∧
            ∃ b ∈ w.db.attempts, a.Follows b
  | _ => c.idempotencyKey ≠ ""

/-- The payment is at the cache check, or has passed it with the result. -/
def PayPoint.Replaying (x : Except Exc Result) (pt : PayPoint) : Prop :=
  pt = .lookup ∨ pt = .closing x .nothing ∨ pt = .done x .nothing

section Replay

variable {crypto : Crypto} {s t u v : System} {φ φ' : Pid → Phase} {e : Event} {p : Pid}
  {a b : PaymentAttempt} {c : PayCall}

/-! ### Attempts -/

theorem PaymentAttempt.Follows.refl (a : PaymentAttempt) : a.Follows a :=
  ⟨rfl, rfl, rfl, rfl, rfl, rfl, fun _ => rfl⟩

theorem PaymentAttempt.Follows.trans {d : PaymentAttempt} (h : a.Follows b) (h' : b.Follows d) :
    a.Follows d := by
  refine ⟨h'.id.trans h.id, h'.invoiceId.trans h.invoiceId,
    h'.idempotencyKey.trans h.idempotencyKey, h'.requestHash.trans h.requestHash,
    h'.cardToken.trans h.cardToken, h'.amountCents.trans h.amountCents, fun hsettled => ?_⟩
  obtain rfl := h.settled hsettled
  exact h'.settled hsettled

theorem PaymentAttempt.follows_update (hpending : a.status = .pending) (update : AttemptUpdate)
    (now : Timestamp) : a.Follows (a.update update now) :=
  ⟨rfl, rfl, rfl, rfl, rfl, rfl, fun hsettled => absurd hpending hsettled⟩

/-- The row of the attempt that a payment has committed. -/
theorem Progress.Holds.follows {w : World} {g : Progress} (h : g.Holds crypto w p c)
    (ha : g.attempt? = some a) : ∃ b ∈ w.db.attempts, a.Follows b := by
  have hrow : w.db.attempts.find? a.id = some a → ∃ b ∈ w.db.attempts, a.Follows b :=
    fun hfind => ⟨a, (Table.find?_eq_some.mp hfind).1, .refl a⟩
  cases g with
  | nothing => cases ha
  | settled a' http =>
    obtain rfl := Option.some.inj ha
    obtain ⟨-, hmade, update, now, -, hfind⟩ := h
    exact ⟨_, (Table.find?_eq_some.mp hfind).1,
      PaymentAttempt.follows_update hmade.status update now⟩
  | _ =>
    obtain rfl := Option.some.inj ha
    exact hrow h.2.2

/-- An update of a pending row. -/
theorem follows_mem_update {db db' : Database} {update : AttemptUpdate} {now : Timestamp}
    (hfind : db.attempts.find? a.id = some a) (hpending : a.status = .pending)
    (h : db'.attempts = db.attempts.update a.id (·.update update now) (·.update_id update now))
    (hb : b ∈ db.attempts) : ∃ d ∈ db'.attempts, b.Follows d := by
  by_cases hid : b.id = a.id
  · obtain rfl : b = a := Table.eq_of_key_eq hb (Table.find?_eq_some.mp hfind).1 hid
    refine ⟨b.update update now, ?_, PaymentAttempt.follows_update hpending update now⟩
    rw [h]
    exact Table.mem_update.mpr ⟨b, hb, (if_pos rfl).symm⟩
  · refine ⟨b, ?_, .refl b⟩
    rw [h]
    exact Table.mem_update.mpr ⟨b, hb, (if_neg hid).symm⟩

/-- **A commit settles pending attempts only**, and leaves the others alone. -/
theorem Commits.follows {w : World} {db' : Database} {ph ph' : Phase}
    (h : Commits crypto w p db' ph ph') (hb : b ∈ w.db.attempts) :
    ∃ d ∈ db'.attempts, b.Follows d := by
  cases h with
  | reserve _ hattempts _ => exact ⟨b, hattempts ▸ Table.mem_insert_of_mem hb, .refl b⟩
  | paid hgood _ _ _ _ _ hattempts _ =>
    exact follows_mem_update hgood.2.2 hgood.2.1.status hattempts hb
  | unpaid hgood _ _ _ _ _ hattempts _ =>
    exact follows_mem_update hgood.2.2 hgood.2.1.status hattempts hb
  | transition _ _ hattempts _ => exact ⟨b, hattempts ▸ hb, .refl b⟩
  | other _ hattempts _ => exact ⟨b, hattempts ▸ hb, .refl b⟩

theorem System.Sound.follows (h : s.Sound crypto φ) (hmove : s.Moves crypto φ e t φ')
    (hb : b ∈ s.world.db.attempts) : ∃ d ∈ t.world.db.attempts, b.Follows d := by
  rcases h.commit_or hmove with ⟨hdb, -, -⟩ | ⟨q, ph, -, -, -, hcommits⟩
  · exact ⟨b, hdb ▸ hb, .refl b⟩
  · exact hcommits.follows hb

theorem System.Reachable.follows (hs : s.Reachable crypto)
    (hreach : Reaches (System.step crypto) Always s t) (ha : a ∈ s.world.db.attempts) :
    ∃ b ∈ t.world.db.attempts, a.Follows b := by
  obtain ⟨φ, h, -⟩ := Recorded.of_reachable hs
  obtain ⟨ψ, -, hfollows⟩ := System.Sound.reaches
    (I := fun u _ => ∃ b ∈ u.world.db.attempts, a.Follows b) hreach h ⟨a, ha, .refl a⟩ <| by
      rintro u ψ e v ψ' hu ⟨b, hb, hab⟩ - - hmove -
      obtain ⟨d, hd, hbd⟩ := hu.follows hmove hb
      exact ⟨d, hd, hab.trans hbd⟩
  exact hfollows

/-! ### Authors -/

/-- A committed update of an attempt is that of the session that has committed the attempt. -/
def Authored (s : System) (φ : Pid → Phase) : Prop :=
  ∀ m ∈ s.world.history, ∀ id update now, .updateAttempt id update now ∈ m.writes →
    ∃ a, (φ m.pid).committed? = some a ∧ a.id = id

theorem Authored.move (h : s.Sound crypto φ) (hI : Authored s φ) (hmove : s.Moves crypto φ e t φ') :
    Authored t φ' := by
  intro m hm id update now hx
  rcases h.commit_or hmove with ⟨-, hhistory, hsame⟩ | ⟨p, ph, hp, ht, rfl, hcommits⟩
  · rw [hsame]
    exact hI m (hhistory ▸ hm) id update now hx
  · have hold : ∃ a, (φ m.pid).committed? = some a ∧ a.id = id := by
      rw [ht, history_commit] at hm
      rcases List.mem_append.mp hm with hm | hm
      · exact hI m hm id update now hx
      · rw [List.mem_singleton.mp hm] at hx ⊢
        exact (h.mayWrite p _ hx).2
    by_cases hmp : m.pid = p
    · rw [hmp] at hold ⊢
      rw [Function.update_self]
      rcases hcommits.committed? with heq | ⟨b, -, hnone, -⟩
      · rwa [heq]
      · obtain ⟨a, ha, -⟩ := hold
        rw [hnone] at ha
        cases ha
    · rwa [Function.update_of_ne hmp]

theorem Authored.reserved_iff (h : s.Sound crypto φ) (hrec : Recorded s φ) (hI : Authored s φ)
    {m : Commit} (hm : m ∈ s.world.history) {update : AttemptUpdate} {now : Timestamp}
    (hx : .updateAttempt a.id update now ∈ m.writes) : s.Reserved p a ↔ p = m.pid := by
  obtain ⟨b, hb, hid⟩ := hI m hm _ _ _ hx
  constructor
  · rintro ⟨m', hm', rfl, b', hb', hid'⟩
    exact h.owner _ _ b' b (hrec.committed m' hm' b' hb') hb (hid'.trans hid.symm)
  · rintro rfl
    obtain ⟨m', hm', hpid, hinsert⟩ := hrec.history _ b hb
    exact ⟨m', hm', hpid, b, hinsert, hid⟩

/-! ### What a payment returns -/

theorem PayPoint.Returns.mono {w w' : World} {pt : PayPoint}
    (hdb : ∀ b ∈ w.db.attempts, ∃ d ∈ w'.db.attempts, b.Follows d) (h : pt.Returns crypto w c) :
    pt.Returns crypto w' c := by
  have hresult : ∀ {x : Except Exc Result} {g : Progress},
    (PayPoint.closing x g).Returns crypto w c →
      (PayPoint.closing x g).Returns crypto w' c := by
    intro x g h a cached hx
    obtain ⟨hkey, hinvoice, htext, hhash, hown, b, hb, hab⟩ := h a cached hx
    obtain ⟨d, hd, hbd⟩ := hdb b hb
    exact ⟨hkey, hinvoice, htext, hhash, hown, d, hd, hab.trans hbd⟩
  cases pt with
  | closing x g => exact hresult h
  | done x g => exact hresult h
  | _ => exact h

theorem PayPoint.returns_start (w : World) (c : PayCall) :
    (PayPoint.start c).Returns crypto w c := by
  unfold PayPoint.start
  split
  case isTrue => rintro a cached ⟨⟩
  case isFalse h => exact h

/-- **A payment returns a row of its invoice, key and body**: one that a lookup has found for
them, or its own. -/
theorem PayPoint.Returns.step {w w' : World} {pt : PayPoint} {st : Stmt} {next : st.Resp → PayPoint}
    {r : st.Resp} (hkeyed : w.db.Keyed) (hholds : pt.Holds crypto w p c)
    (hgood : pt.progress.Holds crypto w p c) (hout : pt.out crypto c = .op st next)
    (hans : w.Answers p st r w') (h : pt.Returns crypto w c) : (next r).Returns crypto w c := by
  have hraise : ∀ (err : Exc) (g : Progress), (closing (.error err) g).Returns crypto w c := by
    rintro err g a cached ⟨⟩
  have hfound : ∀ {g : Progress} {a : PaymentAttempt}, c.idempotencyKey ≠ "" →
      w.db.attemptByKey c.invoiceId c.idempotencyKey = some a →
        a.requestHash = c.requestHash crypto →
        (closing (.ok (.attempt a true)) g).Returns crypto w c := by
    rintro g a hkey ha hhash _ _ ⟨⟩
    obtain ⟨hmem, hinvoice, htext⟩ := (Database.attemptByKey_eq_some hkeyed).mp ha
    exact ⟨hkey, hinvoice, htext, hhash, (by rintro ⟨⟩), a, hmem, .refl a⟩
  cases pt with
  | lookup =>
    cases hout
    obtain ⟨⟨env, hr⟩, -⟩ := answers_select hans
    rcases r with _ | a
    · exact h
    · dsimp only
      split
      case isTrue => exact hraise _ _
      case isFalse hhash =>
        rw [World.Idle.view hholds] at hr
        exact hfound h hr.symm (not_not.mp hhash)
  | lock =>
    cases hout
    rcases r with err | _ | v
    · exact hraise _ _
    · exact hraise _ _
    · dsimp only
      split
      · exact hraise _ _
      · exact h
  | insert v =>
    cases hout
    rcases r with err | a
    · cases err with
      | integrity text => exact h
      | _ => exact hraise _ _
    · exact h
  | undo text =>
    cases hout
    dsimp only
    split
    · exact hraise _ _
    · exact h
  | relookup =>
    cases hout
    obtain ⟨⟨env, hr⟩, -⟩ := answers_select hans
    rcases r with _ | winner
    · exact hraise _ _
    · dsimp only
      split
      case isTrue hhash =>
        rw [World.Idle.view hholds] at hr
        exact hfound h hr.symm hhash
      case isFalse => exact hraise _ _
  | receive v a =>
    cases hout
    dsimp only
    split
    · exact h
    · exact h
    · exact hraise _ _
  | refetch v a http outcome =>
    cases hout
    rcases r with _ | row
    · exact hraise _ _
    · exact h
  | record v a http outcome =>
    cases hout
    rcases r with err | _
    · exact hraise _ _
    · dsimp only
      unfold recorded
      split
      · exact h
      · split <;> exact h
  | relock v a http result =>
    cases hout
    rcases r with err | _ | row
    · exact hraise _ _
    · exact hraise _ _
    · dsimp only
      split
      · exact hraise _ _
      · exact h
  | markPaid a http result =>
    cases hout
    rcases r with err | _
    · exact hraise _ _
    · exact h
  | listEndpoints a http result =>
    cases hout
    dsimp only
    split <;> exact h
  | outbox a http result endpoints now =>
    cases hout
    rcases r with err | _
    · exact hraise _ _
    · exact h
  | refresh a http =>
    cases hout
    obtain ⟨⟨env, hr⟩, -⟩ := answers_select hans
    rcases r with _ | row
    · exact hraise _ _
    · -- the row is the attempt that the session has committed, with its outcome
      obtain ⟨-, hmade, update, now, -, hfind⟩ := hgood
      rw [World.Idle.view hholds] at hr
      have hrow : row = a.update update now := Option.some.inj (Eq.trans hr hfind)
      subst hrow
      rintro _ _ ⟨⟩
      obtain ⟨hinvoice, hkey, htoken, hhash, -⟩ := hmade.fields
      exact ⟨h, hinvoice, hkey, hhash, fun _ => ⟨htoken, a, rfl⟩, _,
        (Table.find?_eq_some.mp hfind).1, .refl _⟩
  | closing x g => cases hout; exact h
  | done x g => cases hout
  | _ => cases hout; exact h

/-- What the phases of payments return. -/
def Returning (crypto : Crypto) (s : System) (φ : Pid → Phase) : Prop :=
  ∀ p c pt, φ p = .pay c pt → pt.Returns crypto s.world c

theorem Returning.move (h : s.Sound crypto φ) (hI : Returning crypto s φ)
    (hmove : s.Moves crypto φ e t φ') : Returning crypto t φ' := by
  have hmono : ∀ {c : PayCall} {pt : PayPoint}, pt.Returns crypto s.world c →
      pt.Returns crypto t.world c := PayPoint.Returns.mono fun b hb => h.follows hmove hb
  refine hmove.phases (Q := fun w p ph => ∀ c pt, ph = .pay c pt → pt.Returns crypto w c) hI
    ?_ ?_ ?_ ?_
  · intro job ht c pt hph
    cases job with
    | poll => cases hph
    | request business req =>
      cases req <;> cases hph
      exact PayPoint.returns_start _ _
  · intro p st r ph hp hans hnext hold c pt hph'
    generalize hph : φ p = ph₀ at hnext
    cases hnext with
    | @pay _ pt₀ _ next hout r =>
      cases hph'
      have hholds := h.alive p hp
      have hgood := h.forGood p
      rw [hph] at hholds hgood
      exact hmono ((hold _ _ hph).step h.keys hholds hgood hout hans.answers)
    | _ => cases hph'
  · intro p ht hold c pt hph
    exact hmono (hold c pt hph)
  · intro q hne hf hold c pt hph
    exact hmono (hold c pt hph)

/-! ### Replays -/

/-- The answer of a payment that finds an attempt under its key. -/
def PayCall.replayOf (crypto : Crypto) (c : PayCall) (a : PaymentAttempt) : Except Exc Result :=
  if a.requestHash = c.requestHash crypto then .ok (.attempt a true)
  else .error (.app .idempotencyConflict)

/-- The statements that are left of a replay. -/
def PayPoint.replaySteps : PayPoint → ℕ
  | lookup => 2
  | closing _ _ => 1
  | _ => 0

/-- The session finds a settled attempt under its key, or has found it. -/
structure ReplaysAt (crypto : Crypto) (s : System) (φ : Pid → Phase) (p : Pid) (c : PayCall)
    (a : PaymentAttempt) (pt : PayPoint) : Prop where
  mem : a ∈ s.world.db.attempts
  settled : a.status ≠ .pending
  invoiceId : a.invoiceId = c.invoiceId
  idempotencyKey : a.idempotencyKey.text = c.idempotencyKey
  phase : φ p = .pay c pt
  replaying : pt.Replaying (c.replayOf crypto a)

/-- The cache check finds the attempt. -/
theorem ReplaysAt.next {w' : World} {pt : PayPoint} {st : Stmt} {next : st.Resp → PayPoint}
    {r : st.Resp} (hI : ReplaysAt crypto s φ p c a pt) (h : s.Sound crypto φ) (hp : s.Alive p)
    (hout : pt.out crypto c = .op st next) (hans : s.world.Answers p st r w') :
    (next r).Replaying (c.replayOf crypto a) ∧ (next r).replaySteps + 1 = pt.replaySteps := by
  have hholds := h.alive p hp
  rw [hI.phase] at hholds
  rcases hI.replaying with rfl | rfl | rfl
  · cases hout
    obtain ⟨⟨env, hr⟩, -⟩ := answers_select hans
    rw [World.Idle.view hholds] at hr
    have hfound : r = some a := hr.trans
      ((Database.attemptByKey_eq_some h.keys).mpr ⟨hI.mem, hI.invoiceId, hI.idempotencyKey⟩)
    subst hfound
    have hclosing : (if a.requestHash ≠ c.requestHash crypto then
        PayPoint.closing (.error (.app .idempotencyConflict)) .nothing
      else .closing (.ok (.attempt a true)) .nothing) =
        .closing (c.replayOf crypto a) .nothing := by
      unfold PayCall.replayOf
      by_cases hhash : a.requestHash = c.requestHash crypto
      · rw [if_neg (not_not.mpr hhash), if_pos hhash]
      · rw [if_pos hhash, if_neg hhash]
    exact ⟨Or.inr (Or.inl hclosing), congrArg (fun pt => PayPoint.replaySteps pt + 1) hclosing⟩
  · cases hout
    exact ⟨Or.inr (Or.inr rfl), rfl⟩
  · cases hout

theorem ReplaysAt.move (h : s.Sound crypto φ) {pt : PayPoint} (hI : ReplaysAt crypto s φ p c a pt)
    (hmove : s.Moves crypto φ e t φ') : ∃ pt', ReplaysAt crypto t φ' p c a pt' := by
  obtain ⟨b, hb, hab⟩ := h.follows hmove hI.mem
  obtain rfl := hab.settled hI.settled
  obtain ⟨pt', hph, rfl | ⟨st, next, r, hout, hp, -, hans, rfl⟩⟩ := hmove.point h hI.phase
  · exact ⟨pt', hb, hI.settled, hI.invoiceId, hI.idempotencyKey, hph, hI.replaying⟩
  · exact ⟨next r, hb, hI.settled, hI.invoiceId, hI.idempotencyKey, hph,
      (hI.next h hp hout hans.answers).1⟩

/-- **A replay returns**, whatever the others have locked. -/
theorem ReplaysAt.returns {pt : PayPoint} {n : ℕ} (hn : pt.replaySteps = n) (h : s.Sound crypto φ)
    (hI : ReplaysAt crypto s φ p c a pt) (hp : s.Alive p) (envs : ℕ → Env) :
    ∃ t, run (System.step crypto) s (alone p n envs) = some t ∧
      t.returned? p = some (c.replayOf crypto a) := by
  induction n generalizing s φ pt envs with
  | zero =>
    rcases hI.replaying with rfl | rfl | rfl
    · cases hn
    · cases hn
    · exact ⟨s, rfl, h.returned_of_done hp hI.phase⟩
  | succ n ih =>
    have hdone : ∀ x g, pt ≠ .done x g := by
      rintro x g rfl
      cases hn
    obtain ⟨st, next, hout, hnext⟩ := h.exists_next? hp hI.phase hdone
    obtain ⟨r, w', hexec⟩ : ∃ r w', s.world.exec p (envs 0) st = some (r, w') := by
      rcases hI.replaying with rfl | rfl | rfl <;> cases hout <;> exact ⟨_, _, rfl⟩
    obtain ⟨t, ph, hstep, rfl, hnext', hsound, halive⟩ := h.exec hnext hexec
    obtain ⟨job, k, hproc⟩ := System.next?_eq_some.mp hnext
    have hans : s.Answered p st r t.world (.exec p (envs 0)) := .exec _ hexec
    have hdb : a ∈ t.world.db.attempts := by
      obtain ⟨b, hb, hab⟩ := h.follows (.answer hproc hans hnext') hI.mem
      exact hab.settled hI.settled ▸ hb
    rw [hI.phase] at hnext'
    cases hnext' with
    | pay hout' r =>
      obtain ⟨-, rfl⟩ := Node.op.inj (hout.symm.trans hout')
      obtain ⟨hreplaying, hsteps⟩ := hI.next h hp hout hans.answers
      obtain ⟨v, hrun, hx⟩ := ih (Nat.succ.inj (hsteps.trans hn)) hsound
        ⟨hdb, hI.settled, hI.invoiceId, hI.idempotencyKey, Function.update_self .., hreplaying⟩
        (halive p hp) fun k => envs (k + 1)
      refine ⟨v, ?_, hx⟩
      rw [alone, run, hstep]
      exact hrun

theorem ReplaysAt.replays {pt : PayPoint} (h : s.Sound crypto φ)
    (hI : ReplaysAt crypto s φ p c a pt) : Replays crypto s p (c.replayOf crypto a) := by
  refine ⟨?_, fun y hy => ?_, fun hp envs => ?_⟩
  · have hgood := h.forGood p
    rw [hI.phase] at hgood
    rcases hI.replaying with rfl | rfl | rfl <;> exact hgood
  · obtain ⟨g, rfl⟩ := h.done_of_returned hy hI.phase
    rcases hI.replaying with hpt | hpt | hpt <;> cases hpt
    rfl
  · obtain ⟨t, hrun, ht⟩ := hI.returns rfl h hp envs
    refine ⟨pt.replaySteps, ?_, t, hrun, ht⟩
    cases pt <;> simp [PayPoint.replaySteps]

/-- A payment that arrives when its attempt is settled is a replay. -/
theorem System.Sound.replaysAt (h : s.Sound crypto φ) (ha : a ∈ s.world.db.attempts)
    (hsettled : a.status ≠ .pending) (hinvoice : a.invoiceId = c.invoiceId)
    (hkey : a.idempotencyKey.text = c.idempotencyKey) (hne : c.idempotencyKey ≠ "")
    (hstart : s.step crypto (.start
      (.request c.business (.pay c.invoiceId c.cardToken c.idempotencyKey))) = some t)
    (hreach : Reaches (System.step crypto) Always t u) :
    Replays crypto u s.procs.length (c.replayOf crypto a) := by
  obtain ⟨φ', hmove⟩ := System.moves_of_step h.tracks hstart
  have hlookup : φ' s.procs.length = .pay c .lookup := by
    cases hmove with
    | start job =>
      rw [Function.update_self]
      simp only [Job.phase, PayPoint.start, if_neg hne]
    | answer _ hans _ => cases hans
  have hdb : t.world = s.world := by
    cases hmove with
    | start job => rfl
    | answer _ hans _ => cases hans
  obtain ⟨ψ, hsound, pt, hI⟩ := System.Sound.reaches
    (I := fun u ψ => ∃ pt, ReplaysAt crypto u ψ s.procs.length c a pt) hreach (h.move hmove)
    ⟨.lookup, hdb ▸ ha, hsettled, hinvoice, hkey, hlookup, Or.inl rfl⟩
    fun _ _ _ _ _ hv hIv _ _ hmove _ => by
      obtain ⟨pt, hI⟩ := hIv
      exact hI.move hv hmove
  exact hI.replays hsound

theorem HexDigest.eq_of_text {d d' : HexDigest} (h : d.text = d'.text) : d = d' := by
  obtain ⟨text, hlength, hhex⟩ := d
  obtain ⟨text', hlength', hhex'⟩ := d'
  obtain rfl : text = text' := h
  rfl

/-- The hashes of two bodies tell their card tokens apart, if the hash function does. -/
theorem requestHash_ne {token token' : String} (hne : token ≠ token')
    (hcollision : crypto.sha256 (requestBody token) = crypto.sha256 (requestBody token') →
      requestBody token = requestBody token') :
    hashRequestBody crypto token ≠ hashRequestBody crypto token' := by
  intro h
  have htext : (crypto.sha256 (requestBody token)).text =
    (crypto.sha256 (requestBody token')).text := congrArg Varchar.text h
  exact hne (requestBody_injective (hcollision (HexDigest.eq_of_text htext)))

/-- The payment of the invoice has succeeded. -/
def paidAlone : System := (run (System.step sampleCrypto) .init payingAlone).get (by decide +kernel)

/-- The payment is repeated. -/
def repeating : System :=
  (paidAlone.step sampleCrypto (.request (.pay 0 "tok_visa" "k1"))).get (by decide +kernel)

end Replay

end TenantBilling
