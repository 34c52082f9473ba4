import TenantBilling.Invariant.Reads
import TenantBilling.Invariant.Ready
import TenantBilling.Properties.Conditions

/-!
# A received success is kept

A payment that is told of a successful charge has to record it: the attempt, the invoice
and the outbox rows in one transaction. It does, unless one of two things happens to that
transaction: the `psp_ref` of the response cannot be stored, or the deadlock
detector aborts it. Both end in an exception that leaves the attempt pending
(`TenantBilling.not_success_kept`); without them the success is kept, with outbox rows for just the
endpoints that the transaction has read (`TenantBilling.success_kept`).
-/

namespace TenantBilling

open Base World

/-- The `psp_ref` of a response. -/
def HttpResult.pspRef : HttpResult → Json
  | .response _ (some (.obj fields)) => Json.get fields "psp_ref"
  | _ => .null

/-- The value is null, or a text that the column `psp_ref` stores. -/
def Json.FitsPspRef : Json → Prop
  | .null => True
  | .str s => Varchar.Stores 100 s
  | _ => False

instance : DecidablePred Json.FitsPspRef := fun j => by
  unfold Json.FitsPspRef
  split <;> infer_instance

/-- The value is a text or null. -/
def Json.OptionalText : Json → Prop
  | .null | .str _ => True
  | _ => False

instance : DecidablePred Json.OptionalText := fun j => by
  unfold Json.OptionalText
  split <;> infer_instance

/-- A success that a session is told of comes with a `psp_ref` that fits, and once it has been
told of one the deadlock detector does not choose it. -/
def KeepsSuccess (p : Pid) (s : System) : Event → Prop
  | .exec q env =>
    q = p → match s.next? q with
      | some .awaitCharge => env.http.Says "succeeded" → env.http.pspRef.FitsPspRef
      | _ => True
  | .abort q _ => q = p → ∀ x ∈ s.world.charges, x.pid = p → x.result = none
  | _ => True

instance (p : Pid) (s : System) : ∀ e, Decidable (KeepsSuccess p s e)
  | .exec q env => inferInstanceAs (Decidable (q = p → WhenAnswering
      (fun http => http.Says "succeeded" → http.pspRef.FitsPspRef) s (.exec q env)))
  | .abort q _ => by
    unfold KeepsSuccess
    exact decidable_of_iff (q = p → ∀ x ∈ s.world.charges, x.pid = p → x.result.isNone)
      (by simp [Option.isNone_iff_eq_none])
  | .start _ | .kill _ => inferInstanceAs (Decidable True)

section Kept

variable (crypto : Crypto)

/-- The endpoints are those that were active, of the business, at some moment of the run. -/
def Listed (s : System) (c : PayCall) (endpoints : List WebhookEndpoint) : Prop :=
  ∃ u : System, u.Reachable crypto ∧ Reaches (System.step crypto) Always u s ∧ ∃ env : Env,
    endpoints = inServerOrder env.rank WebhookEndpoint.id
      (u.world.db.activeEndpointsOf c.business.id)

/-- **In the run, the session has committed the writes**, in a transaction that has read the
endpoints as those of the business that are active. -/
def CommitsHavingRead (es : List Event) (p : Pid) (b : Uuid) (endpoints : List WebhookEndpoint)
    (ws : List Write) : Prop :=
  ∃ es₁ env es₂ u, es = es₁ ++ .exec p env :: es₂ ∧ run (System.step crypto) .init es₁ = some u ∧
    u.next? p = some .commit ∧ u.world.writesOf p = ws ∧
      endpointsRead? b (System.transcript crypto p .init es₁) = some endpoints

/-- **The success of an attempt has been recorded**: one transaction of the session has made the
attempt succeeded, with the `psp_ref`, and the invoice paid, and has inserted the outbox
rows for the active endpoints of the business, which it has read; the row of the attempt is what it
wrote. -/
def Recording (es : List Event) (s : System) (p : Pid) (c : PayCall) (a : PaymentAttempt)
    (pspRef : Json) : Prop :=
  ∃ ref now now' endpoints rest result,
    pspRef.store 100 = .ok ref ∧ Listed crypto s c endpoints ∧
      c.Outbox a (.ok result) endpoints rest ∧ result.Succeeded ∧ result.pspRef = pspRef ∧
        CommitsHavingRead crypto es p c.business.id endpoints
          ([.updateAttempt a.id ⟨some .succeeded, some ref, none⟩ now,
            .updateInvoice c.invoiceId .paid now'] ++ rest) ∧
        (⟨p, [.updateAttempt a.id ⟨some .succeeded, some ref, none⟩ now,
          .updateInvoice c.invoiceId .paid now'] ++ rest⟩ : Commit) ∈ s.world.history ∧
          s.world.db.attempts.find? a.id =
            some (a.update ⟨some .succeeded, some ref, none⟩ now)

end Kept

section Steps

variable {crypto : Crypto} {s t : System} {φ φ' : Pid → Phase} {e : Event} {p q : Pid} {c : PayCall}
  {es es' : List Event}

theorem CommitsHavingRead.extend {b : Uuid} {endpoints : List WebhookEndpoint} {ws : List Write}
    (h : CommitsHavingRead crypto es p b endpoints ws) (hes : es <+: es') :
    CommitsHavingRead crypto es' p b endpoints ws := by
  obtain ⟨es₁, env, es₂, u, rfl, hu⟩ := h
  obtain ⟨es₃, rfl⟩ := hes
  exact ⟨es₁, env, es₂ ++ es₃, u, by simp, hu⟩

theorem Listed.reaches {endpoints : List WebhookEndpoint} (h : Listed crypto s c endpoints)
    (hreach : Reaches (System.step crypto) Always s t) : Listed crypto t c endpoints := by
  obtain ⟨u, hu, hus, henv⟩ := h
  exact ⟨u, hu, hus.trans hreach, henv⟩

theorem HttpResult.Says.outcome {http : HttpResult} (h : http.Says "succeeded") :
    ∃ result, chargeResult http = .ok result ∧ result.Succeeded ∧ result.pspRef = http.pspRef := by
  unfold HttpResult.Says at h
  split at h
  case h_2 => exact h.elim
  case h_1 code fields =>
    obtain ⟨hcode, hstatus⟩ := h
    cases hlookup : fields.lookup "status" with
    | none =>
      rw [hlookup] at hstatus
      cases hstatus
    | some st =>
      rw [hlookup] at hstatus
      simp only [chargeResult, if_neg (Nat.not_le.mpr hcode), hlookup]
      exact ⟨_, rfl, hstatus, rfl⟩

/-- The success is flushed if its `psp_ref` can be stored. -/
theorem bind_succeededChange (result : PspChargeResult) (h : result.pspRef.FitsPspRef) :
    ∃ ref, result.pspRef.store 100 = .ok ref ∧
      (succeededChange result).bind = .ok ⟨some .succeeded, some ref, none⟩ := by
  have hstore : ∃ ref, result.pspRef.store 100 = .ok ref := by
    generalize result.pspRef = j at h
    unfold Json.FitsPspRef at h
    split at h
    case h_1 => exact ⟨none, rfl⟩
    case h_2 s =>
      unfold Json.store Varchar.ofString?
      simp only [dif_pos h]
      exact ⟨_, rfl⟩
    case h_3 => exact h.elim
  obtain ⟨ref, href⟩ := hstore
  refine ⟨ref, href, ?_⟩
  simp [AttemptChange.bind, succeededChange, storeIfSet, href, Except.map]

variable (crypto) in
/-- What is known at a point of a payment that has been told of a success. -/
def PayPoint.Keeps (es : List Event) (s : System) (p : Pid) (c : PayCall) : PayPoint → Prop
  | refetch _ _ http _ | record _ _ http _ | relock _ _ http _ | markPaid _ http _
  | listEndpoints _ http _ => http.Says "succeeded" → http.pspRef.FitsPspRef
  | readClock _ http _ endpoints | outbox _ http _ endpoints _ | settle _ http _ endpoints =>
    http.Says "succeeded" → http.pspRef.FitsPspRef ∧ Listed crypto s c endpoints
  | refresh a http => http.Says "succeeded" → Recording crypto es s p c a http.pspRef
  | closing x (.settled a http) | done x (.settled a http) =>
    http.Says "succeeded" → Recording crypto es s p c a http.pspRef ∧
      ∃ row, s.world.db.attempts.find? a.id = some row ∧ x = .ok (.attempt row false)
  | closing _ (.answered _ http) | done _ (.answered _ http) => ¬http.Says "succeeded"
  | _ => True

/-- The others change nothing of it. -/
theorem PayPoint.Keeps.congr {pt : PayPoint} (h : pt.Keeps crypto es s p c) (hes : es <+: es')
    (hlisted : ∀ endpoints, Listed crypto s c endpoints → Listed crypto t c endpoints)
    (hhistory : ∀ m ∈ s.world.history, m ∈ t.world.history)
    (hattempt : ∀ a, pt.progress.attempt? = some a →
      t.world.db.attempts.find? a.id = s.world.db.attempts.find? a.id) :
        pt.Keeps crypto es' t p c := by
  have hrecording : ∀ {a pspRef}, pt.progress.attempt? = some a →
    Recording crypto es s p c a pspRef →
      Recording crypto es' t p c a pspRef := by
    rintro a pspRef ha ⟨ref, now, now', endpoints, rest, result, href, hl, hout, hs, hp, hc, hm,
      hfind⟩
    exact ⟨ref, now, now', endpoints, rest, result, href, hlisted _ hl, hout, hs, hp, hc.extend hes,
      hhistory _ hm, (hattempt a ha).trans hfind⟩
  cases pt with
  | readClock a http result endpoints => exact fun hs => ⟨(h hs).1, hlisted _ (h hs).2⟩
  | outbox a http result endpoints now => exact fun hs => ⟨(h hs).1, hlisted _ (h hs).2⟩
  | settle a http outcome endpoints => exact fun hs => ⟨(h hs).1, hlisted _ (h hs).2⟩
  | refresh a http => exact fun hs => hrecording rfl (h hs)
  | closing x g =>
    cases g with
    | settled a http =>
      intro hs
      obtain ⟨hrec, row, hrow, hx⟩ := h hs
      exact ⟨hrecording rfl hrec, row, (hattempt a rfl).trans hrow, hx⟩
    | _ => exact h
  | done x g =>
    cases g with
    | settled a http =>
      intro hs
      obtain ⟨hrec, row, hrow, hx⟩ := h hs
      exact ⟨hrecording rfl hrec, row, (hattempt a rfl).trans hrow, hx⟩
    | _ => exact h
  | _ => exact h

/-- Once a session has been told of a success, the deadlock detector leaves it alone. -/
theorem System.Sound.exec_of_answered (h : s.Sound crypto φ) (hC : KeepsSuccess p s e) {st : Stmt}
    {r : st.Resp} {w' : World} {pt : PayPoint} {a : PaymentAttempt} {http : HttpResult}
    (hph : φ p = .pay c pt) (hg : pt.progress = .answered a http) (hans : s.Answered p st r w' e) :
    ∃ env, s.world.exec p env st = some (r, w') := by
  cases hans with
  | exec env hexec => exact ⟨env, hexec⟩
  | abort cycle _ _ =>
    have hgood := h.forGood p
    rw [hph] at hgood
    change pt.progress.Holds crypto s.world p c at hgood
    rw [hg] at hgood
    have hmem : c.charge p a (some http) ∈ s.world.chargesOf p := by
      rw [hgood.1]
      exact List.mem_singleton_self _
    have hnone := hC rfl _ (List.mem_filter.mp hmem).1 rfl
    cases hnone

/-- The attempt that is fetched again is the committed one. -/
theorem System.Sound.refetched (h : s.Sound crypto φ) (hp : s.Alive p) {v : Invoice}
    {a : PaymentAttempt} {http : HttpResult} {outcome : Except PspError PspChargeResult}
    (hph : φ p = .pay c (.refetch v a http outcome)) {r : Option PaymentAttempt} {w' : World}
    (hans : s.world.Answers p (.select (.attemptById a.id)) r w') : r = some a := by
  have hholds := h.alive p hp
  have hgood := h.forGood p
  rw [hph] at hholds hgood
  obtain ⟨⟨env, hr⟩, -⟩ := answers_select hans
  rw [hr, hholds.1.view]
  exact hgood.2.2

/-- When the invoice has been locked again, its state as the session has loaded it is open. -/
theorem System.Sound.relocked (h : s.Sound crypto φ) (hp : s.Alive p) {v : Invoice}
    {a : PaymentAttempt} {http : HttpResult} {result : PspChargeResult}
    (hph : φ p = .pay c (.relock v a http result)) {r : Except DbError (Option Invoice)}
    {w' : World}
    {env : Env} (hexec : s.world.exec p env (.lockInvoice c.invoiceId none) = some (r, w')) :
    ∃ row, r = .ok (some row) ∧ assertTransitionAllowed (row.stateOrLoaded v) .paid = .ok () := by
  have hholds := h.alive p hp
  have hgood := h.forGood p
  rw [hph] at hholds hgood
  obtain ⟨hv, -, -, update, now, -, htx⟩ := hholds
  have hlock := answers_lockInvoice (.exec env hexec)
  obtain ⟨row?, rfl⟩ := exec_lockInvoice hexec
  cases row? with
  | none =>
    obtain ⟨-, hnone⟩ := hlock
    have hex := h.invoice a (Table.find?_eq_some.mp hgood.2.2).1
    rw [hgood.2.1.invoiceId] at hex
    obtain ⟨row, hrow⟩ := Option.ne_none_iff_exists'.mp hex
    cases hnone row ((find?_view_of_attempt htx _).trans hrow)
  | some row =>
    obtain ⟨-, -, hrow, -⟩ := hlock
    have hid : v.id = row.id := hv.id.trans (Table.find?_eq_some.mp hrow).2.symm
    exact ⟨row, rfl, assertTransitionAllowed_paid.mpr ((if_pos hid).trans hv.isOpen)⟩

/-- The attempt is there when it is read for the response. -/
theorem System.Sound.refreshed (h : s.Sound crypto φ) (hp : s.Alive p) {a : PaymentAttempt}
    {http : HttpResult} (hph : φ p = .pay c (.refresh a http)) {r : Option PaymentAttempt}
    {w' : World} (hans : s.world.Answers p (.select (.attemptById a.id)) r w') :
    ∃ row, r = some row ∧ s.world.db.attempts.find? a.id = some row := by
  have hholds := h.alive p hp
  have hgood := h.forGood p
  rw [hph] at hholds hgood
  obtain ⟨⟨env, hr⟩, -⟩ := answers_select hans
  obtain ⟨-, -, update, now, -, hfind⟩ := hgood
  rw [World.Idle.view hholds] at hr
  exact ⟨_, hr.trans hfind, hfind⟩

theorem outcome_of_says {http : HttpResult} {outcome : Except PspError PspChargeResult}
    (hs : http.Says "succeeded") (houtcome : chargeOutcome http = some outcome) :
    ∃ result, outcome = .ok result ∧ result.Succeeded ∧ result.pspRef = http.pspRef := by
  obtain ⟨result, hresult, hsucceeded, href⟩ := hs.outcome
  simp only [chargeOutcome, hresult, Option.some.injEq] at houtcome
  exact ⟨result, houtcome.symm, hsucceeded, href⟩

/-- The second commit of a payment that has been told of a success. -/
theorem PayPoint.Keeps.settle {a : PaymentAttempt} {http : HttpResult}
    {outcome : Except PspError PspChargeResult} {endpoints : List WebhookEndpoint}
    (hk : (PayPoint.settle a http outcome endpoints).Keeps crypto es s p c)
    (hread : (PayPoint.settle a http outcome endpoints).Read c.business.id
      (System.transcript crypto p .init es))
    (hrun : run (System.step crypto) .init es = some s) (hnext : s.next? p = some .commit)
    (env : Env) (hholds : (PayPoint.settle a http outcome endpoints).Holds crypto s.world p c)
    (hgood : (Progress.answered a http).Holds crypto s.world p c)
    (ht : t.world = s.world.commit p) (hreach : Reaches (System.step crypto) Always s t) :
    (PayPoint.refresh a http).Keeps crypto (es ++ [.exec p env]) t p c := by
  intro hs
  obtain ⟨hfits, hlisted⟩ := hk hs
  obtain ⟨rest, hrest, houtcome, update, now, hbind, hcase⟩ := hholds
  obtain ⟨result, rfl, hsucceeded, href⟩ := outcome_of_says hs houtcome
  obtain ⟨ref, hstore, hbind'⟩ := bind_succeededChange result (href ▸ hfits)
  rw [outcomeChange, if_pos hsucceeded, hbind'] at hbind
  obtain rfl := Except.ok.inj hbind
  rcases hcase with ⟨-, now', htx⟩ | ⟨hpays, -⟩
  · refine ⟨ref, now, now', endpoints, rest, result, href ▸ hstore, hlisted.reaches hreach, hrest,
      hsucceeded, href, ⟨es, env, [], s, rfl, hrun, hnext, htx.writes, hread⟩, ?_, ?_⟩
    · rw [ht, history_commit, htx.writes]
      exact List.mem_append_right _ (List.mem_singleton_self _)
    · have hattempts : (s.world.commit p).db.attempts = s.world.db.attempts.update a.id
          (·.update ⟨some .succeeded, some ref, none⟩ now) (·.update_id _ now) := by
        rw [db_commit, htx.view]
        exact applyAll_attempts_of_peripheral hrest.peripheral
      rw [ht, hattempts, Table.find?_update_self, hgood.2.2]
      rfl
  · exact absurd hsucceeded hpays

theorem PayPoint.Keeps.step {pt : PayPoint} {st : Stmt} {next : st.Resp → PayPoint} {r : st.Resp}
    (h : s.Sound crypto φ) (hp : s.Alive p) (hph : φ p = .pay c pt) (hk : pt.Keeps crypto es s p c)
    (hread : pt.Read c.business.id (System.transcript crypto p .init es))
    (hrun : run (System.step crypto) .init es = some s) (hC : KeepsSuccess p s e)
    (hnext? : s.next? p = some st) (hout : pt.out crypto c = .op st next)
    (hans : s.Answered p st r t.world e) (hreach : Reaches (System.step crypto) Always s t) :
    (next r).Keeps crypto (es ++ [e]) t p c := by
  have hholds := h.alive p hp
  have hgood := h.forGood p
  rw [hph] at hholds hgood
  have hkeep : st ≠ .commit → pt.Keeps crypto (es ++ [e]) t p c := by
    intro hst
    have heffect := hans.answers.effect
    refine hk.congr (List.prefix_append _ _) (fun _ hl => hl.reaches hreach)
      (fun m hm => ?_) fun a _ => ?_
    · rw [heffect.history hst]
      exact hm
    · rw [heffect.db hst]
  cases pt with
  | lookup =>
    cases hout
    rcases r with _ | a
    · trivial
    · dsimp only
      split <;> trivial
  | lock =>
    cases hout
    rcases r with e | _ | v
    · trivial
    · trivial
    · dsimp only
      split <;> trivial
  | insert v =>
    cases hout
    rcases r with e | a
    · cases e <;> trivial
    · trivial
  | undo errorMsg =>
    cases hout
    dsimp only
    split <;> trivial
  | relookup =>
    cases hout
    rcases r with _ | a
    · trivial
    · dsimp only
      split <;> trivial
  | reserve v a =>
    cases hout
    trivial
  | send v a =>
    cases hout
    trivial
  | receive v a =>
    cases hout
    cases hans with
    | abort cycle _ hfail => cases hfail
    | exec env hexec =>
      obtain rfl : env.http = r := congrArg Prod.fst (Option.some.inj (exec_eq_some.mp hexec).2)
      -- here the condition speaks of the reply: it fits the column if it says success
      have hfits : env.http.Says "succeeded" → env.http.pspRef.FitsPspRef := by
        have hC' := hC rfl
        simp only [hnext?] at hC'
        exact hC'
      dsimp only
      split
      case h_1 => exact hfits
      case h_2 => exact hfits
      case h_3 hne =>
        intro hword
        obtain ⟨result, hresult, -⟩ := hword.outcome
        simp_all
  | refetch v a http outcome =>
    cases hout
    obtain rfl := h.refetched hp hph hans.answers
    exact hk
  | record v a http outcome =>
    cases hout
    obtain ⟨env, hexec⟩ := h.exec_of_answered hC hph rfl hans
    rcases r with e | _
    · intro hword
      obtain ⟨result, rfl, hsucceeded, href⟩ := outcome_of_says hword hholds.2.2
      -- the reference fits, so the UPDATE cannot be refused
      obtain ⟨ref, -, hbind⟩ := bind_succeededChange result (href ▸ hk hword)
      rw [outcomeChange, if_pos hsucceeded] at hexec
      cases exec_updateAttempt hexec hbind
    · cases outcome with
      | error e =>
        intro hword
        obtain ⟨result, heq, -⟩ := outcome_of_says hword hholds.2.2
        cases heq
      | ok result =>
        dsimp only [PayPoint.recorded]
        split <;> exact hk
  | relock v a http result =>
    cases hout
    obtain ⟨env, hexec⟩ := h.exec_of_answered hC hph rfl hans
    obtain ⟨row, rfl, hcheck⟩ := h.relocked hp hph hexec
    dsimp only
    rw [hcheck]
    exact hk
  | markPaid a http result =>
    cases hout
    obtain ⟨env, hexec⟩ := h.exec_of_answered hC hph rfl hans
    obtain rfl := exec_updateInvoice hexec
    exact hk
  | listEndpoints a http result =>
    cases hout
    obtain ⟨⟨env, hr⟩, -⟩ := answers_select hans.answers
    -- what the select has returned were the active endpoints at this moment
    have hlisted : Listed crypto t c r := by
      refine ⟨s, reaches_of_run hrun, hreach, env, hr.trans ?_⟩
      change inServerOrder env.rank WebhookEndpoint.id ((s.world.view p).activeEndpointsOf _) = _
      unfold Database.activeEndpointsOf
      rw [hholds.endpoints_view]
    rcases r with _ | ⟨e, es⟩
    · exact fun hword => ⟨hk hword, hlisted⟩
    · exact fun hword => ⟨hk hword, hlisted⟩
  | readClock a http result endpoints =>
    cases hout
    exact hkeep (by simp)
  | outbox a http result endpoints now =>
    cases hout
    obtain ⟨rfl, -⟩ := answers_insertDeliveries hans.answers
    exact hkeep (by simp)
  | settle a http outcome endpoints =>
    cases hout
    have hcommit := answers_commit hans.answers
    cases hans with
    | abort cycle _ hfail => cases hfail
    | exec env _ => exact hk.settle hread hrun hnext? env hholds hgood hcommit hreach
  | refresh a http =>
    cases hout
    obtain ⟨row, rfl, hrow⟩ := h.refreshed hp hph hans.answers
    have hrefresh := hkeep (by simp)
    obtain ⟨-, hw⟩ := answers_select hans.answers
    exact fun hword => ⟨hrefresh hword, row, hw ▸ hrow, rfl⟩
  | closing x g =>
    cases hout
    cases g <;> exact hkeep (by simp)
  | done x g => cases hout

/-- What a session keeps for its point is kept by all steps that the condition admits. -/
structure Keeping (crypto : Crypto) (p : Pid) (es : List Event) (s : System) (φ : Pid → Phase) :
    Prop where
  ran : run (System.step crypto) .init es = some s
  read : ∀ q, (φ q).Read (System.transcript crypto q .init es)
  keeps : ∀ c pt, φ p = .pay c pt → pt.Keeps crypto es s p c

theorem Keeping.move (h : s.Sound crypto φ) (hI : Keeping crypto p es s φ) (hC : KeepsSuccess p s e)
    (hstep : s.step crypto e = some t) (hmove : s.Moves crypto φ e t φ') :
    Keeping crypto p (es ++ [e]) t φ' := by
  obtain ⟨hrun, hread, hk⟩ := hI
  have hreach : Reaches (System.step crypto) Always s t := .single ⟨e, trivial, hstep⟩
  refine ⟨run_concat hrun hstep, System.read_move hrun hread hstep hmove, fun c pt hph => ?_⟩
  have hcongr : ∀ {pt}, φ p = .pay c pt →
      (∀ a, (φ p).committed? = some a →
        t.world.db.attempts.find? a.id = s.world.db.attempts.find? a.id) →
          pt.Keeps crypto (es ++ [e]) t p c := by
    intro pt hph hattempt
    refine (hk c pt hph).congr (List.prefix_append _ _) (fun _ hl => hl.reaches hreach)
      (fun m hm => h.mem_history hmove hm) ?_
    intro a ha
    exact hattempt a (by rw [hph]; exact ha)
  cases hmove with
  | start job =>
    by_cases hp : p = s.procs.length
    · rw [hp, Function.update_self] at hph
      rcases Job.phase_eq_pay hph with rfl | ⟨x, rfl⟩ <;> trivial
    · rw [Function.update_of_ne hp] at hph
      exact hcongr hph fun _ _ => rfl
  | kill hproc => exact hcongr hph fun _ _ => rfl
  | @answer _ p' job st r w' k ph hproc hans hnext =>
    by_cases hp : p = p'
    · subst hp
      rw [Function.update_self] at hph
      subst hph
      have hread := hread p
      generalize hfrom : φ p = ph at hnext hread
      cases hnext with
      | pay hout r =>
        exact PayPoint.Keeps.step h ⟨_, hproc, rfl⟩ hfrom (hk c _ hfrom) hread hrun hC
          (System.next?_eq_some.mpr ⟨job, k, hproc⟩) hout hans hreach
    · rw [Function.update_of_ne hp] at hph
      exact hcongr hph fun a ha => h.find?_attempt_answer hans.answers (Ne.symm hp) ha

/-- A payment that has been told the outcome of its call can be brought to its end. -/
theorem System.Sound.finish (h : s.Sound crypto φ) (hp : s.Alive p) {pt : PayPoint}
    (hph : φ p = .pay c pt) (hremaining : pt.remaining ≤ 10) :
    ∃ t, Reaches (System.step crypto) (Drives p) s t ∧
      ∃ ψ x g, t.Sound crypto ψ ∧ t.Alive p ∧ ψ p = .pay c (.done x g) := by
  refine Reaches.exists_of_rank (n := pt.remaining)
    (I := fun u n => n ≤ 10 ∧ ∃ ψ pt, u.Sound crypto ψ ∧ u.Alive p ∧ ψ p = .pay c pt ∧
      pt.remaining = n) ⟨hremaining, φ, pt, h, hp, hph, rfl⟩ ?_
  rintro u n ⟨hn, ψ, pt, hu, hpu, hpt, rfl⟩
  by_cases hdone : ∃ x g, pt = .done x g
  · obtain ⟨x, g, rfl⟩ := hdone
    exact Or.inl ⟨ψ, x, g, hu, hpu, hpt⟩
  have hne : ∀ x g, pt ≠ .done x g := fun x g heq => hdone ⟨x, g, heq⟩
  -- first the lock is made free, if it is needed
  obtain ⟨v, huv, χ, hv, hpv, hχ, hfree⟩ : ∃ v, Reaches (System.step crypto) (Drives p) u v ∧
      ∃ χ, v.Sound crypto χ ∧ v.Alive p ∧ χ p = ψ p ∧
        ((∃ w a http result, pt = .relock w a http result) →
          v.world.lockWaits p c.invoiceRef = []) := by
    by_cases hrelock : ∃ w a http result, pt = .relock w a http result
    · obtain ⟨w, a, http, result, rfl⟩ := hrelock
      obtain ⟨v, huv, χ, hv, hpv, hχ, hfree⟩ := hu.unlock hpu hpt
      exact ⟨v, huv, χ, hv, hpv, hχ, fun _ => hfree⟩
    · exact ⟨u, .refl, ψ, hu, hpu, rfl, fun h => absurd h hrelock⟩
  obtain ⟨st, next, hout, hnext⟩ := hv.exists_next? hpv (hχ.trans hpt) hne
  obtain ⟨hawait, env, r, w', hexec⟩ := hv.exists_exec hpv (hχ.trans hpt) hn hout fun hst => by
    refine hfree ?_
    subst hst
    cases pt with
    | relock w a http result => exact ⟨w, a, http, result, rfl⟩
    | _ => cases hout
  obtain ⟨t, ph, hstep, -, hph', ht, halive⟩ := hv.exec hnext hexec
  have hlt := PayPoint.remaining_next hout r
  obtain rfl : ph = .pay c (next r) := by
    rw [hχ.trans hpt] at hph'
    cases hph' with
    | pay hout' r =>
      rw [hout] at hout'
      cases hout'
      rfl
  refine Or.inr ⟨t, _, hlt, huv.tail ⟨_, ?_, hstep⟩, ?_, _, _, ht, halive p hpv, ?_, rfl⟩
  · rw [Drives, hnext]
    exact fun heq => hawait (Option.some.inj heq)
  · exact hlt.le.trans hn
  · rw [Function.update_self]

theorem Drives.keepsSuccess (h : Drives p s e) : KeepsSuccess p s e := by
  cases e with
  | exec q env =>
    rintro rfl
    split
    case h_1 hnext => exact absurd hnext h
    case h_2 => trivial
  | abort q cycle => exact fun hq => absurd hq h
  | start job => exact h.elim
  | kill q => exact h.elim

end Steps

/-! ### Runs -/

section Runs

variable {crypto : Crypto} {p : Pid} {es : List Event} {s : System} {φ : Pid → Phase}

/-- **The success has been kept**: the request has returned the attempt of its call, and the attempt
has been recorded. -/
def SuccessKept (crypto : Crypto) (es : List Event) (s : System) (p : Pid) (c : PayCall)
    (pspRef : Json) (x : Except Exc Result) : Prop :=
  ∃ a row, x = .ok (.attempt row false) ∧ a.invoiceId = c.invoiceId ∧
    a.idempotencyKey.text = c.idempotencyKey ∧ s.world.db.attempts.find? a.id = some row ∧
      Recording crypto es s p c a pspRef

/-- The point of a payment that has been told of a success. -/
theorem System.Sound.told (h : s.Sound crypto φ) {x : Charge} (hx : x ∈ s.world.charges)
    {http : HttpResult} (hresult : x.result = some http) :
    ∃ c pt a, φ x.pid = .pay c pt ∧ c.Made crypto a ∧
      (pt.progress = .answered a http ∨ pt.progress = .settled a http) := by
  obtain ⟨c, pt, a, hph, hmade, -, ⟨-, hcall⟩ | ⟨http', hg, hcall⟩ | ⟨http', hg, hcall⟩⟩ :=
    h.charge_cases hx
  · rw [hcall] at hresult
    cases hresult
  · rw [hcall] at hresult
    obtain rfl : http' = http := Option.some.inj hresult
    exact ⟨c, pt, a, hph, hmade, Or.inl hg⟩
  · rw [hcall] at hresult
    obtain rfl : http' = http := Option.some.inj hresult
    exact ⟨c, pt, a, hph, hmade, Or.inr hg⟩

theorem PayPoint.remaining_of_told {pt : PayPoint} {a : PaymentAttempt} {http : HttpResult}
    (h : pt.progress = .answered a http ∨ pt.progress = .settled a http) : pt.remaining ≤ 10 := by
  cases pt with
  | lookup | lock | insert | undo | relookup | reserve | send | receive =>
    rcases h with h | h <;> cases h
  | _ => simp [PayPoint.remaining]

theorem Keeping.init : Keeping crypto p [] .init fun _ => .other :=
  ⟨rfl, fun _ => trivial, fun _ _ h => by cases h⟩

/-- What a payment that has been told of a success has returned, if it has. -/
theorem Keeping.of_returned (h : s.Sound crypto φ) (hI : Keeping crypto p es s φ) {c : PayCall}
    {pt : PayPoint} {a : PaymentAttempt} {http : HttpResult} (hph : φ p = .pay c pt)
    (hmade : c.Made crypto a) (hg : pt.progress = .answered a http ∨ pt.progress = .settled a http)
    (hword : http.Says "succeeded") {x : Except Exc Result} (hx : s.returned? p = some x) :
    SuccessKept crypto es s p c http.pspRef x := by
  obtain ⟨g, rfl⟩ := h.done_of_returned hx hph
  have hk := hI.keeps c _ hph
  rcases hg with hg | hg
  · obtain rfl : g = .answered a http := hg
    exact absurd hword hk
  · obtain rfl : g = .settled a http := hg
    obtain ⟨hrec, row, hrow, rfl⟩ := hk hword
    exact ⟨a, row, rfl, hmade.invoiceId, hmade.fields.2.1, hrow, hrec⟩

/-- **A received success is not lost**, in every run whose steps meet the condition: if the request
has returned, its success has been kept, and if it has not, it can be brought to its end, by
going on with it and with whoever is in its way. -/
theorem success_kept
    (hreach :
      Reaches (record (System.step crypto)) (fun x => KeepsSuccess p x.2) ([], .init) (es, s))
    (hp : s.Alive p) {x : Charge} (hx : x ∈ s.world.charges) (hpid : x.pid = p) {http : HttpResult}
    (hresult : x.result = some http) (hword : http.Says "succeeded") :
    ∃ c, s.payCall? p = some c ∧
      (∀ y, s.returned? p = some y → SuccessKept crypto es s p c http.pspRef y) ∧
      ∃ es' t y, Reaches (record (System.step crypto)) (fun x => Drives p x.2) (es, s) (es', t) ∧
        t.returned? p = some y ∧ SuccessKept crypto es' t p c http.pspRef y := by
  subst hpid
  obtain ⟨-, φ, h, hI⟩ := hreach.recorded
    (I := fun es u => ∃ φ, u.Sound crypto φ ∧ Keeping crypto x.pid es u φ)
    ⟨_, System.sound_init, Keeping.init⟩ <| by
      rintro es u e v - ⟨φ, hu, hIu⟩ hC hstep
      obtain ⟨φ', hmove⟩ := System.moves_of_step hu.tracks hstep
      exact ⟨φ', hu.move hmove, hIu.move hu hC hstep hmove⟩
  obtain ⟨c, pt, a, hph, hmade, hg⟩ := h.told hx hresult
  refine ⟨c, h.payCall?_eq_some.mpr ⟨pt, hph⟩, fun y hy => hI.of_returned h hph hmade hg hword hy,
    ?_⟩
  obtain ⟨t, hdrives, χ, y, g, ht, hpt, hdone⟩ := h.finish hp hph (PayPoint.remaining_of_told hg)
  have hy := ht.returned_of_done hpt hdone
  -- the drive meets the condition, and at its end the session has been told of the success
  obtain ⟨es', hdrives⟩ := hdrives.exists_record es
  obtain ⟨ψ, ht', hI', hx'⟩ := hdrives.invariant
    (I := fun y => ∃ ψ, y.2.Sound crypto ψ ∧ Keeping crypto x.pid y.1 y.2 ψ ∧ x ∈ y.2.world.charges)
    ⟨φ, h, hI, hx⟩ <| by
      rintro ⟨fs, u⟩ e ⟨fs', v⟩ ⟨ψ, hu, hIu, hxu⟩ hd hv
      obtain ⟨hstep, rfl⟩ := record_eq_some hv
      obtain ⟨ψ', hmove⟩ := System.moves_of_step hu.tracks hstep
      exact ⟨ψ', hu.move hmove, hIu.move hu hd.keepsSuccess hstep hmove,
        hu.mem_charges hmove hxu hresult⟩
  obtain ⟨c', pt', a', hph', hmade', hg'⟩ := ht'.told hx' hresult
  obtain rfl : c' = c := Option.some.inj ((ht'.payCall?_eq_some.mpr ⟨pt', hph'⟩).symm.trans
    (ht.payCall?_eq_some.mpr ⟨_, hdone⟩))
  exact ⟨es', t, y, hdrives, hy, hI'.of_returned ht' hph' hmade' hg' hword hy⟩

/-- The invoice is finalized, a payment of it is told of a success, with a `psp_ref` of so many
characters, and executes so many more statements. -/
def toldOfSuccess (length more : ℕ) : List Event :=
  drafting ++ [.request (.finalize 0)] ++ Event.steps 2 5 ++
    [.request (.pay 0 "tok_visa" "k1")] ++ Event.steps 3 5 ++
    [.exec 3 { http := sampleReply "succeeded" (String.ofList (List.replicate length 'x')) }] ++
    Event.steps 3 more

theorem success_kept_toldOfSuccess :
    ∃ (es : List Event) (s : System) (c : PayCall) (http : HttpResult),
      run (System.step sampleCrypto) .init es = some s ∧ s.payCall? 3 = some c ∧
        http.Says "succeeded" ∧
          ∃ es' t y, Reaches (record (System.step sampleCrypto)) (fun x => Drives 3 x.2) (es, s)
            (es', t) ∧
            t.returned? 3 = some y ∧ SuccessKept sampleCrypto es' t 3 c http.pspRef y := by
  obtain ⟨⟨es, s⟩, hrun, htold⟩ := (Option.any_eq_true _ _).mp (by decide +kernel :
    (runIf (record (System.step sampleCrypto)) (fun x => KeepsSuccess 3 x.2) ([], .init)
      (toldOfSuccess 100 1)).any (fun y => y.2.Alive 3 ∧ ∃ x ∈ y.2.world.charges, x.pid = 3 ∧
        x.result.any (HttpResult.Says "succeeded" ·) = true) = true)
  have hreach := reaches_of_runIf hrun
  obtain ⟨hp, x, hx, hpid, htold⟩ := of_decide_eq_true htold
  obtain ⟨http, hresult, hword⟩ := (Option.any_eq_true _ _).mp htold
  have hword := of_decide_eq_true hword
  obtain ⟨c, hc, -, hend⟩ := success_kept hreach hp hx hpid hresult hword
  exact ⟨es, s, c, http, hreach.run_recorded, hc, hword, hend⟩

/-- With a `psp_ref` that is too long, the customer has been charged and the request ends with an
exception. -/
theorem not_success_kept : ¬∀ es s, run (System.step sampleCrypto) .init es = some s → ∀ p,
    s.Alive p →
    ∀ x ∈ s.world.charges, x.pid = p → ∀ http, x.result = some http → http.Says "succeeded" →
      http.pspRef.OptionalText →
        ∀ y, s.returned? p = some y → ∃ c, SuccessKept sampleCrypto es s p c http.pspRef y := by
  intro h
  obtain ⟨s, hrun, htold⟩ := (Option.any_eq_true _ _).mp (by decide +kernel :
    (run (System.step sampleCrypto) .init (toldOfSuccess 101 3)).any (fun s => s.Alive 3 ∧
      (∃ x ∈ s.world.charges, x.pid = 3 ∧ x.result.any (fun http =>
        HttpResult.Says "succeeded" http ∧ http.pspRef.OptionalText) = true) ∧
      (s.returned? 3).any (fun y => y.toBool = false) = true) = true)
  obtain ⟨hp, ⟨x, hx, hpid, htold⟩, hraised⟩ := of_decide_eq_true htold
  obtain ⟨http, hresult, htold⟩ := (Option.any_eq_true _ _).mp htold
  obtain ⟨hword, htext⟩ := of_decide_eq_true htold
  obtain ⟨y, hy, herror⟩ := (Option.any_eq_true _ _).mp hraised
  obtain ⟨c, a, row, rfl, -⟩ := h _ s hrun 3 hp x hx hpid http hresult hword htext y hy
  cases of_decide_eq_true herror

end Runs

end TenantBilling
