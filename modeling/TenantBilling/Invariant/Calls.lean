import TenantBilling.Invariant.Commits

/-!
# The calls of the payment provider

Which session has made a call, and what the call has led to, is told by the phase of the
session (`TenantBilling.System.Sound.charge_cases`). The list of all calls changes in two
ways only: a payment that has committed its attempt sends one, or is told the outcome of
the one it has sent (`TenantBilling.System.Sound.charges_or`).
-/

namespace TenantBilling

open Base World

/-- The payment that a job is. -/
def Job.payCall? : Job → Option PayCall
  | request business (.pay invoiceId cardToken idempotencyKey) =>
    some ⟨business, invoiceId, cardToken, idempotencyKey⟩
  | _ => none

namespace System

/-- The payment that a session runs. -/
def payCall? (s : System) (p : Pid) : Option PayCall := s.procs[p]?.bind (·.job.payCall?)

/-- The calls of the provider for an invoice, in the order in which they were sent. -/
def chargesOn (s : System) (i : Uuid) : List Charge :=
  s.world.charges.filter fun x => (s.payCall? x.pid).any fun c => c.invoiceId = i

section Calls

variable {crypto : Crypto} {s t : System} {φ φ' : Pid → Phase} {e : Event} {p q : Pid}

theorem Sound.payCall?_eq_some (h : s.Sound crypto φ) {c : PayCall} :
    s.payCall? p = some c ↔ ∃ pt, φ p = .pay c pt := by
  unfold payCall?
  constructor
  · intro hc
    obtain ⟨proc, hproc, hjob⟩ := Option.bind_eq_some_iff.mp hc
    have htracks := h.tracks p proc hproc
    cases hph : φ p with
    | pay c' pt =>
      rw [hph] at htracks
      rw [htracks.1] at hjob
      obtain rfl := Option.some.inj hjob
      exact ⟨pt, rfl⟩
    | transition c' pt =>
      rw [hph] at htracks
      obtain ⟨⟨req, hreq, htrans⟩, -⟩ := htracks
      rw [hreq] at hjob
      cases req with
      | pay => cases htrans
      | _ => cases hjob
    | other =>
      rw [hph] at htracks
      have hper := htracks.1
      generalize proc.job = job at hjob hper
      cases job with
      | poll => cases hjob
      | request business req =>
        cases req with
        | pay => exact hper.elim
        | _ => cases hjob
  · rintro ⟨pt, hph⟩
    cases hproc : s.procs[p]? with
    | none =>
      rw [h.absent p hproc] at hph
      cases hph
    | some proc =>
      have htracks := h.tracks p proc hproc
      rw [hph] at htracks
      rw [Option.bind_some, htracks.1]
      rfl

/-- A session that runs a payment. -/
theorem payCall?_eq_some {c : PayCall} : s.payCall? p = some c ↔
    s.procs[p]?.map Proc.job =
      some (.request c.business (.pay c.invoiceId c.cardToken c.idempotencyKey)) := by
  unfold payCall?
  cases s.procs[p]? with
  | none => simp
  | some proc =>
    rw [Option.bind_some, Option.map_some, Option.some.injEq]
    constructor
    · intro h
      cases hjob : proc.job with
      | poll => rw [hjob] at h; cases h
      | request business req =>
        rw [hjob] at h
        cases req <;> cases h
        rfl
    · intro h
      rw [h]
      rfl

theorem Moves.payCall? (hmove : s.Moves crypto φ e t φ') {c : PayCall}
    (hc : s.payCall? p = some c) : t.payCall? p = some c := by
  obtain ⟨proc, hproc, hjob⟩ := Option.bind_eq_some_iff.mp hc
  have hset : ∀ {q : Pid} {job prog prog'} {alive alive' : Bool},
      s.procs[q]? = some ⟨job, prog, alive⟩ →
      ((s.procs.set q ⟨job, prog', alive'⟩)[p]?).bind (·.job.payCall?) = some c := by
    intro q job prog prog' alive alive' hq
    by_cases hqp : q = p
    · subst hqp
      rw [hproc] at hq
      obtain rfl := Option.some.inj hq
      rw [getElem?_replace_self hproc]
      exact hjob
    · rw [getElem?_replace_of_ne hqp, hproc]
      exact hjob
  unfold System.payCall?
  cases hmove with
  | start job =>
    rw [List.getElem?_append_left (List.getElem?_eq_some_iff.mp hproc).1, hproc]
    exact hjob
  | answer hq _ _ => exact hset hq
  | kill hq => exact hset hq

/-- **A payment stays where it is, or its statement is answered.** -/
theorem Moves.point (h : s.Sound crypto φ) (hmove : s.Moves crypto φ e t φ') {c : PayCall}
    {pt : PayPoint} (hph : φ p = .pay c pt) : ∃ pt', φ' p = .pay c pt' ∧
      (pt' = pt ∨ ∃ st next r, pt.out crypto c = .op st next ∧ s.Alive p ∧ s.next? p = some st ∧
        s.Answered p st r t.world e ∧ pt' = next r) := by
  cases hmove with
  | start job =>
    refine ⟨pt, ?_, Or.inl rfl⟩
    rw [Function.update_of_ne, hph]
    -- a payment is that of a process which is there
    rintro rfl
    rw [h.absent _ (List.getElem?_eq_none le_rfl)] at hph
    cases hph
  | kill hproc => exact ⟨pt, hph, Or.inl rfl⟩
  | @answer _ q _ st r _ _ _ hproc hans hnext =>
    by_cases hq : p = q
    · subst hq
      rw [Function.update_self]
      rw [hph] at hnext
      cases hnext with
      | pay hout =>
        exact ⟨_, rfl, Or.inr
      ⟨st, _, r, hout, ⟨_, hproc, rfl⟩, next?_eq_some.mpr ⟨_, _, hproc⟩, hans, rfl⟩⟩
    · rw [Function.update_of_ne hq]
      exact ⟨pt, hph, Or.inl rfl⟩

/-- The statement of a payment is executed. -/
theorem Moves.point_exec {env : Env} (hmove : s.Moves crypto φ (.exec p env) t φ') {c : PayCall}
    {pt : PayPoint} (hph : φ p = .pay c pt) : ∃ st next r, pt.out crypto c = .op st next ∧
      s.world.exec p env st = some (r, t.world) ∧ φ' p = .pay c (next r) := by
  cases hmove with
  | @answer _ q _ st r _ _ _ hproc hans hnext =>
    cases hans with
    | exec env hexec =>
      rw [Function.update_self]
      rw [hph] at hnext
      cases hnext with
      | pay hout => exact ⟨st, _, r, hout, hexec, rfl⟩

/-- A payment has just arrived, or was one before. -/
theorem Moves.pay_or (hmove : s.Moves crypto φ e t φ') {c : PayCall} {pt : PayPoint}
    (hph : φ' p = .pay c pt) : t.world = s.world ∧ pt = PayPoint.start c ∨ ∃ pt₀,
      φ p = .pay c pt₀ := by
  cases hmove with
  | start job =>
    by_cases hp : p = s.procs.length
    · rw [hp, Function.update_self] at hph
      cases job with
      | poll => cases hph
      | request business req =>
        cases req with
        | pay =>
          obtain ⟨rfl, rfl⟩ := Phase.pay.inj hph
          exact Or.inl ⟨rfl, rfl⟩
        | _ => cases hph
    · rw [Function.update_of_ne hp] at hph
      exact Or.inr ⟨pt, hph⟩
  | kill hproc => exact Or.inr ⟨pt, hph⟩
  | @answer _ q _ _ _ _ _ ph hproc hans hnext =>
    by_cases hq : p = q
    · subst hq
      rw [Function.update_self] at hph
      subst hph
      generalize φ p = ph₀ at hnext
      cases hnext with
      | pay hout r => exact Or.inr ⟨_, rfl⟩
    · rw [Function.update_of_ne hq] at hph
      exact Or.inr ⟨pt, hph⟩

/-- **Every call was made by a payment for its attempt**; the stage the payment is at tells
what is known of the outcome. -/
theorem Sound.charge_cases (h : s.Sound crypto φ) {x : Charge} (hx : x ∈ s.world.charges) :
    ∃ c pt a, φ x.pid = .pay c pt ∧ c.Made crypto a ∧ pt.progress.attempt? = some a ∧
      ((pt.progress = .called a ∧ x = c.charge x.pid a none) ∨
        (∃ http, pt.progress = .answered a http ∧ x = c.charge x.pid a (some http)) ∨
        ∃ http, pt.progress = .settled a http ∧ x = c.charge x.pid a (some http)) := by
  have hmem : x ∈ s.world.chargesOf x.pid := List.mem_filter.mpr ⟨hx, by simp⟩
  have hgood := h.forGood x.pid
  cases hph : φ x.pid with
  | transition c pt =>
    rw [hph] at hgood
    rw [show s.world.chargesOf x.pid = [] from hgood] at hmem
    cases hmem
  | other =>
    rw [hph] at hgood
    rw [show s.world.chargesOf x.pid = [] from hgood] at hmem
    cases hmem
  | pay c pt =>
    rw [hph] at hgood
    change pt.progress.Holds crypto s.world x.pid c at hgood
    cases hg : pt.progress with
    | nothing =>
      rw [hg] at hgood
      rw [show s.world.chargesOf x.pid = [] from hgood] at hmem
      cases hmem
    | reserved a =>
      rw [hg] at hgood
      rw [hgood.1] at hmem
      cases hmem
    | called a =>
      rw [hg] at hgood
      rw [hgood.1] at hmem
      exact ⟨c, pt, a, rfl, hgood.2.1, by rw [hg]; rfl, Or.inl ⟨hg, List.mem_singleton.mp hmem⟩⟩
    | answered a http =>
      rw [hg] at hgood
      rw [hgood.1] at hmem
      exact ⟨c, pt, a, rfl, hgood.2.1, by rw [hg]; rfl,
        Or.inr (Or.inl ⟨http, hg, List.mem_singleton.mp hmem⟩)⟩
    | settled a http =>
      rw [hg] at hgood
      rw [hgood.1] at hmem
      exact ⟨c, pt, a, rfl, hgood.2.1, by rw [hg]; rfl,
        Or.inr (Or.inr ⟨http, hg, List.mem_singleton.mp hmem⟩)⟩

/-- A session makes at most one call. -/
theorem Sound.chargesOf_length (h : s.Sound crypto φ) (p : Pid) :
    (s.world.chargesOf p).length ≤ 1 := by
  have hgood := h.forGood p
  cases hph : φ p with
  | transition c pt =>
    rw [hph] at hgood
    rw [show s.world.chargesOf p = [] from hgood]
    exact Nat.zero_le 1
  | other =>
    rw [hph] at hgood
    rw [show s.world.chargesOf p = [] from hgood]
    exact Nat.zero_le 1
  | pay c pt =>
    rw [hph] at hgood
    change pt.progress.Holds crypto s.world p c at hgood
    cases hg : pt.progress with
    | nothing =>
      rw [hg] at hgood
      rw [show s.world.chargesOf p = [] from hgood]
      exact Nat.zero_le 1
    | reserved a =>
      rw [hg] at hgood
      rw [hgood.1]
      exact Nat.zero_le 1
    | called a => rw [hg] at hgood; rw [hgood.1]; exact le_rfl
    | answered a http => rw [hg] at hgood; rw [hgood.1]; exact le_rfl
    | settled a http => rw [hg] at hgood; rw [hgood.1]; exact le_rfl

/-- The call is about to be made. -/
theorem Sound.sending (h : s.Sound crypto φ) {cardToken idempotencyKey : String} {amountCents : ℤ}
    (hnext : s.next? p = some (.sendCharge cardToken amountCents idempotencyKey)) :
    ∃ c v a, φ p = .pay c (.send v a) ∧ s.Alive p ∧ cardToken = c.cardToken ∧
      amountCents = a.amountCents.val ∧ idempotencyKey = c.idempotencyKey := by
  obtain ⟨job, k, hproc⟩ := next?_eq_some.mp hnext
  have htracks := h.tracks p _ hproc
  cases hph : φ p with
  | other =>
    rw [hph] at htracks
    exact htracks.2.1.elim
  | transition c pt =>
    rw [hph] at htracks
    obtain ⟨-, next, hout, -⟩ := htracks
    cases pt <;> cases hout
  | pay c pt =>
    rw [hph] at htracks
    obtain ⟨-, next, hout, -⟩ := htracks
    cases pt <;> cases hout
    exact ⟨c, _, _, rfl, ⟨_, hproc, rfl⟩, rfl, rfl, rfl⟩

/-- **A move leaves the calls alone, sends one, or brings the outcome of one.** -/
theorem Sound.charges_or (h : s.Sound crypto φ) (hmove : s.Moves crypto φ e t φ') :
    t.world.charges = s.world.charges ∨
      (∃ p c v a, s.Alive p ∧ φ p = .pay c (.send v a) ∧ t.world.db = s.world.db ∧
        t.world.charges = s.world.charges ++ [c.charge p a none]) ∨
      ∃ p env, e = .exec p env ∧ s.next? p = some .awaitCharge ∧
        t.world = s.world.recordCharge p env.http := by
  cases hmove with
  | start job => exact Or.inl rfl
  | kill hproc => exact Or.inl rfl
  | @answer _ p _ st r w' k ph hproc hans hnext =>
    by_cases hst : st.IsCharge
    · have htracks := h.tracks p _ hproc
      have hnext? := next?_eq_some.mpr ⟨_, _, hproc⟩
      cases st <;> first | exact hst.elim | skip
      case sendCharge cardToken amountCents idempotencyKey =>
        obtain ⟨c, v, a, hph, hp, rfl, rfl, rfl⟩ := h.sending hnext?
        obtain rfl := answers_sendCharge hans.answers
        exact Or.inr (Or.inl ⟨p, c, v, a, hp, hph, rfl, rfl⟩)
      case awaitCharge =>
        cases hans with
        | exec env hexec =>
          obtain ⟨rfl, rfl⟩ := Prod.mk.inj (Option.some.inj (exec_eq_some.mp hexec).2)
          exact Or.inr (Or.inr ⟨p, env, rfl, hnext?, rfl⟩)
        | abort cycle hcycle hfail => cases hfail
    · exact Or.inl (hans.answers.effect.charges hst)

/-- A call with an outcome stays as it is. -/
theorem Sound.mem_charges (h : s.Sound crypto φ) (hmove : s.Moves crypto φ e t φ') {x : Charge}
    {http : HttpResult} (hx : x ∈ s.world.charges) (hresult : x.result = some http) :
    x ∈ t.world.charges := by
  rcases h.charges_or hmove with ht | ⟨p, c, v, a, -, -, -, ht⟩ | ⟨p, env, -, -, ht⟩
  · rwa [ht]
  · rw [ht]
    exact List.mem_append_left _ hx
  · rw [ht]
    exact List.mem_map.mpr ⟨x, hx, if_neg (by simp [hresult])⟩

/-- Which invoice a call was for does not change. -/
theorem Moves.chargesOn_of_charges (h : s.Sound crypto φ) (hmove : s.Moves crypto φ e t φ')
    (i : Uuid) : s.world.charges.filter (fun x => (t.payCall? x.pid).any fun c => c.invoiceId = i) =
      s.chargesOn i := by
  refine List.filter_congr fun x hx => ?_
  obtain ⟨c, pt, -, hph, -⟩ := h.charge_cases hx
  have hc := h.payCall?_eq_some.mpr ⟨pt, hph⟩
  rw [hc, hmove.payCall? hc]

end Calls

end System

end TenantBilling
