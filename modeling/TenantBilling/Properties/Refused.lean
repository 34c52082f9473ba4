import TenantBilling.Invariant.Each
import TenantBilling.Points.Refusals
import TenantBilling.Properties.DurableAttempt

/-!
# Refused requests change nothing

A request can raise after it has written: an invoice without its line items, an attempt that
meets another, a success whose invoice is no longer open. The committed database is what the
committed transactions have written (`TenantBilling.System.Reachable.db_eq`), so that a
request has changed nothing when none of them is its own.

* A request that has raised a domain exception has committed nothing
  (`TenantBilling.Refusing`). For payments this rests on the identity map: the state that is
  checked after the charge is the one loaded before it, so the check cannot fail.
* A request that is answered with an error of the driver before its first commit does not
  commit any more.
* Whatever a request returns, its transaction is over by then.
-/

namespace TenantBilling

open Base World

/-- The request is refused: a domain exception, or one that the router raises itself. -/
def Exc.Refusal : Exc → Prop
  | .app _ | .http .. => True
  | _ => False

/-- A payment that ends with a refusal has done nothing. -/
def PayPoint.Blameless : PayPoint → Prop
  | closing x g | done x g => ∀ e, x = .error e → e.Refusal → g = .nothing
  | _ => True

/-- A request that has committed or is refused has gone one of its two ways. -/
structure Refusing (s : System) (φ : Pid → Phase) : Prop where
  /-- A program returns after a rollback only, and its transaction is over then. -/
  closes : ∀ p proc, s.procs[p]? = some proc →
    proc.prog.Along Closes ∧ ∀ x, proc.prog = .ret x → s.world.Idle p
  orderly : ∀ p proc, s.procs[p]? = some proc → ∀ business req,
    proc.job = .request business req → (∀ i token key, req ≠ .pay i token key) →
      proc.prog.Along Orderly ∧ (s.world.Committed p → Unrefused proc.prog)
  pay : ∀ p c pt, φ p = .pay c pt → pt.Blameless ∧ (s.world.Committed p → pt.progress ≠ .nothing)
  started : ∀ m ∈ s.world.history, m.pid < s.procs.length

/-- The request has changed nothing for good, and holds no lock. -/
structure ChangesNothing (w : World) (p : Pid) : Prop where
  history : ∀ m ∈ w.history, m.pid ≠ p
  idle : w.Idle p

/-- The next statement of the session is answered with an error of the driver. -/
def System.Fails (s : System) (p : Pid) : Event → Prop
  | .exec q env => q = p ∧ ∃ st, s.next? p = some st ∧ ∃ x, s.world.exec p env st = some x ∧
      st.error? x.1 ≠ none
  | .abort q _ => q = p
  | _ => False

section Steps

variable {crypto : Crypto} {s t : System} {φ φ' : Pid → Phase} {e : Event} {p : Pid} {w w' : World}
  {c : PayCall}

theorem chargeResult_not_refusal {http : HttpResult} {err : Exc}
    (h : chargeResult http = .error err) : ¬err.Refusal := by
  unfold chargeResult at h
  split at h
  case h_4 status body =>
    split at h
    · cases h
      exact id
    · split at h
      · cases h
        exact id
      · split at h
        · cases h
          exact id
        · cases h
      · cases h
        exact id
  all_goals
    cases h
    exact id

/-- **The check after the charge passes**: the invoice was open when it was loaded. -/
theorem PayPoint.Blameless.step {pt : PayPoint} {st : Stmt} {next : st.Resp → PayPoint}
    {r : st.Resp} (hholds : pt.Holds crypto w p c) (hout : pt.out crypto c = .op st next)
    (hans : w.Answers p st r w') (h : pt.Blameless) : (next r).Blameless := by
  have hdb : ∀ (err : DbError) (g : Progress), (closing (.error (.db err)) g).Blameless := by
    rintro err g _ ⟨⟩ hrefusal
    exact hrefusal.elim
  have hok : ∀ (y : Result) (g : Progress), (closing (.ok y) g).Blameless := by
    rintro y g _ ⟨⟩
  have hpython : ∀ (name : String) (g : Progress),
    (closing (.error (.python name)) g).Blameless := by
    rintro name g _ ⟨⟩ hrefusal
    exact hrefusal.elim
  -- before the first commit every error is admitted
  have hnothing : ∀ x, (closing x .nothing).Blameless := fun _ _ _ _ => rfl
  cases pt with
  | lookup =>
    cases hout
    rcases r with _ | a
    · trivial
    · dsimp only
      split <;> exact hnothing _
  | lock =>
    cases hout
    rcases r with err | _ | v
    · exact hdb _ _
    · exact hnothing _
    · dsimp only
      split
      · exact hnothing _
      · trivial
  | insert v =>
    cases hout
    rcases r with err | a
    · cases err with
      | integrity text => trivial
      | _ => exact hdb _ _
    · trivial
  | undo text =>
    cases hout
    dsimp only
    split
    · exact hnothing _
    · trivial
  | relookup =>
    cases hout
    rcases r with _ | winner
    · exact hnothing _
    · dsimp only
      split <;> exact hnothing _
  | receive v a =>
    cases hout
    dsimp only
    split
    · trivial
    · trivial
    case h_3 err hne hresult =>
      rintro _ ⟨⟩ hrefusal
      exact absurd hrefusal (chargeResult_not_refusal hresult)
  | refetch v a http outcome =>
    cases hout
    rcases r with _ | row
    · exact hpython _ _
    · trivial
  | record v a http outcome =>
    cases hout
    rcases r with err | _
    · exact hdb _ _
    · unfold recorded
      split
      · trivial
      · split <;> trivial
  | relock v a http result =>
    cases hout
    have hlock := answers_lockInvoice hans
    rcases r with err | _ | row
    · exact hdb _ _
    · exact hpython _ _
    -- the row that is locked again keeps the state it was loaded with
    · have hloaded : row.stateOrLoaded v = .open := by
        have hid : v.id = row.id := hholds.1.id.trans (Table.find?_eq_some.mp hlock.2.2.1).2.symm
        rw [Invoice.stateOrLoaded, if_pos hid, hholds.1.isOpen]
      dsimp only
      rw [hloaded]
      trivial
  | markPaid a http result =>
    cases hout
    rcases r with err | _
    · exact hdb _ _
    · trivial
  | listEndpoints a http result =>
    cases hout
    dsimp only
    split <;> trivial
  | outbox a http result endpoints now =>
    cases hout
    rcases r with err | _
    · exact hdb _ _
    · trivial
  | refresh a http =>
    cases hout
    rcases r with _ | row
    · exact hpython _ _
    · exact hok _ _
  | closing x g => cases hout; exact h
  | done x g => cases hout
  | _ => cases hout; trivial

theorem Progress.attempt?_eq_none {g : Progress} : g.attempt? = none ↔ g = .nothing := by
  cases g <;> simp [Progress.attempt?]

/-- What a payment has done for good is not undone. -/
theorem PayPoint.progress_next {pt : PayPoint} {st : Stmt} {next : st.Resp → PayPoint}
    (hout : pt.out crypto c = .op st next) (r : st.Resp) (h : pt.progress ≠ .nothing) :
    (next r).progress ≠ .nothing := by
  intro hnothing
  refine h ?_
  cases pt with
  | reserve v a => rfl
  | receive v a =>
    cases hout
    dsimp only at hnothing
    split at hnothing <;> cases hnothing
  | refetch v a http outcome =>
    cases hout
    rcases r with _ | row <;> cases hnothing
  | record v a http outcome =>
    cases hout
    rcases r with err | _
    · cases hnothing
    · unfold recorded at hnothing
      split at hnothing
      · cases hnothing
      · split at hnothing <;> cases hnothing
  | relock v a http result =>
    cases hout
    rcases r with err | _ | row
    · cases hnothing
    · cases hnothing
    · dsimp only at hnothing
      split at hnothing <;> cases hnothing
  | markPaid a http result | outbox a http result endpoints now =>
    cases hout
    rcases r with err | _ <;> cases hnothing
  | listEndpoints a http result =>
    cases hout
    dsimp only at hnothing
    split at hnothing <;> cases hnothing
  | refresh a http =>
    cases hout
    rcases r with _ | row <;> cases hnothing
  | closing x g => cases hout; exact hnothing
  | done x g => cases hout
  | send v a | readClock a http result endpoints | settle a http outcome endpoints =>
    cases hout
    cases hnothing
  | _ => rfl

/-- A commit of a payment is one it does not forget. -/
theorem PayPoint.progress_commit {pt : PayPoint} {next : Stmt.commit.Resp → PayPoint}
    (hout : pt.out crypto c = .op .commit next) (r : Stmt.commit.Resp) :
    (next r).progress ≠ .nothing := by
  cases pt <;> cases hout <;> exact fun h => by cases h

theorem Refusing.init : Refusing .init fun _ => .other := by
  refine ⟨fun p proc h => ?_, fun p proc h => ?_, fun p c pt h => ?_, fun m h => ?_⟩
  all_goals cases h

theorem Refusing.move (h : s.Sound crypto φ) (hI : Refusing s φ) (hmove : s.Moves crypto φ e t φ') :
    Refusing t φ' := by
  have hnew : ¬s.world.Committed s.procs.length := by
    rintro ⟨m, hm, hpid⟩
    exact absurd (hI.started m hm) (hpid ▸ Nat.lt_irrefl _)
  have hothers : ∀ q, (∀ p st r, s.Answered p st r t.world e → p ≠ q) → t.world.Committed q →
      s.world.Committed q := by
    intro q hne hq
    rcases hmove.committed hq with hq | ⟨r, hans⟩
    · exact hq
    · exact absurd rfl (hne q _ r hans)
  refine ⟨?_, ?_, ?_, ?_⟩
  · refine hmove.each (Q := fun w p proc => proc.prog.Along Closes ∧ ∀ x,
      proc.prog = .ret x → w.Idle p) hI.closes (fun job _ => ?_) ?_ ?_ ?_
    · exact ⟨closes_program crypto job, fun x hx => absurd hx (program_ne_ret crypto job x)⟩
    · rintro p job st k r hproc hans ⟨halong, -⟩
      refine ⟨halong.next r, fun x hx => ?_⟩
      obtain rfl := (halong r).1 x hx
      rw [answers_rollback hans.answers]
      exact idle_release s.world p
    · rintro p job prog ht ⟨halong, -⟩
      exact ⟨halong, fun _ _ => ht ▸ idle_release s.world p⟩
    · rintro q proc - hf ⟨halong, hidle⟩
      exact ⟨halong, fun x hx => (hidle x hx).frame hf⟩
  · refine hmove.each (Q := fun w p proc => ∀ business req, proc.job = .request business req →
      (∀ i token key, req ≠ .pay i token key) →
        proc.prog.Along Orderly ∧ (w.Committed p → Unrefused proc.prog))
      hI.orderly (fun job ht => ?_) ?_ ?_ ?_
    · rintro business req rfl hreq
      exact ⟨orderly_request crypto business hreq, fun hq => absurd (ht ▸ hq) hnew⟩
    · rintro p job st k r hproc hans hold business req hjob hreq
      obtain ⟨halong, hcommitted⟩ := hold business req hjob hreq
      refine ⟨halong.next r, fun hq => ?_⟩
      rcases hans.committed hq with hq | ⟨-, hst⟩
      · exact (hcommitted hq).next r
      · exact (halong r).1.2 hst
    · rintro p job prog ht hold business req hjob hreq
      rw [ht]
      exact hold business req hjob hreq
    · rintro q proc hne - hold business req hjob hreq
      obtain ⟨halong, hcommitted⟩ := hold business req hjob hreq
      exact ⟨halong, fun hq => hcommitted (hothers q hne hq)⟩
  · refine hmove.phases (Q := fun w p ph => ∀ c pt, ph = .pay c pt →
      pt.Blameless ∧ (w.Committed p → pt.progress ≠ .nothing)) hI.pay ?_ ?_ ?_ ?_
    · rintro job ht c pt hph
      refine ⟨?_, fun hq => absurd (ht ▸ hq) hnew⟩
      rcases Job.phase_eq_pay hph with rfl | ⟨x, rfl⟩
      · trivial
      · exact fun _ _ _ => rfl
    · rintro p st r ph hp hans hnext hold c pt rfl
      generalize hph : φ p = ph at hnext
      cases hnext with
      | @pay _ pt₀ _ next hout r =>
        obtain ⟨hblameless, hcommitted⟩ := hold c pt₀ hph
        have hholds := h.alive p hp
        rw [hph] at hholds
        refine ⟨hblameless.step hholds hout hans.answers, fun hq => ?_⟩
        rcases hans.committed hq with hq | ⟨-, rfl⟩
        · exact PayPoint.progress_next hout r (hcommitted hq)
        · exact PayPoint.progress_commit hout r
    · rintro p ht hold c pt hph
      rw [ht]
      exact hold c pt hph
    · rintro q hne - hold c pt hph
      obtain ⟨hblameless, hcommitted⟩ := hold c pt hph
      exact ⟨hblameless, fun hq => hcommitted (hothers q hne hq)⟩
  · -- a commit is that of a session which is there
    intro m hm
    cases hmove with
    | start job => exact (hI.started m hm).trans (by simp)
    | kill hproc =>
      rw [List.length_set]
      exact hI.started m hm
    | answer hproc hans hnext =>
      rw [List.length_set]
      rcases hans.committed ⟨m, hm, rfl⟩ with ⟨m', hm', hpid⟩ | ⟨hpid, -⟩
      · exact hpid ▸ hI.started m' hm'
      · exact hpid ▸ (List.getElem?_eq_some_iff.mp hproc).1

theorem Refusing.of_reachable (hs : s.Reachable crypto) :
    ∃ φ, s.Sound crypto φ ∧ Refusing s φ ∧ Recorded s φ :=
  System.Sound.reaches (I := fun s φ => Refusing s φ ∧ Recorded s φ) hs System.sound_init
    ⟨.init, (fun m hm => by cases hm), fun p a ha => by cases ha⟩
    fun _ _ _ _ _ hu hIu _ _ hmove _ => ⟨hIu.1.move hu hmove, hIu.2.move hu hmove⟩

/-! ### The committed database -/

theorem Database.applyAll_append (db : Database) (ws ws' : List Write) :
    db.applyAll (ws ++ ws') = (db.applyAll ws).applyAll ws' :=
  List.foldl_append

/-- **The committed database is what the committed transactions have written.** -/
theorem System.Reachable.db_eq (hs : s.Reachable crypto) :
    s.world.db = Database.empty.applyAll (s.world.history.flatMap Commit.writes) := by
  obtain ⟨φ, -, hdb⟩ := System.Sound.reaches
    (I := fun u _ => u.world.db = Database.empty.applyAll (u.world.history.flatMap Commit.writes))
    hs System.sound_init rfl fun u ψ e v ψ' hu hIu _ _ hmove _ => by
      rcases hu.commit_or hmove with ⟨hdb, hhistory, -⟩ | ⟨p, ph, -, hv, -, -⟩
      · rw [hdb, hhistory]
        exact hIu
      · rw [hv, history_commit, List.flatMap_append, Database.applyAll_append, ← hIu]
        simp [World.view]
  exact hdb

/-! ### Refused requests -/

/-- What a session that runs a payment has returned with a refusal. -/
theorem Refusing.pay_returned (h : s.Sound crypto φ) (hI : Refusing s φ) {err : Exc}
    (hx : s.returned? p = some (.error err)) (hrefusal : err.Refusal) (hc : s.payCall? p = some c) :
    ∃ g, φ p = .pay c (.done (.error err) g) ∧ g = .nothing := by
  obtain ⟨pt, hph⟩ := h.payCall?_eq_some.mp hc
  obtain ⟨g, rfl⟩ := h.done_of_returned hx hph
  exact ⟨g, hph, (hI.pay p c _ hph).1 err rfl hrefusal⟩

theorem Refusing.changesNothing (h : s.Sound crypto φ) (hI : Refusing s φ) {business : Business}
    {req : Request} {prog : ServerProg (Except Exc Result)} {alive : Bool}
    (hproc : s.procs[p]? = some ⟨.request business req, prog, alive⟩) {err : AppError}
    (hx : s.returned? p = some (.error (.app err))) : ChangesNothing s.world p := by
  obtain rfl : prog = .ret (.error (.app err)) := by
    rw [System.returned?, hproc] at hx
    cases prog <;> cases hx
    rfl
  refine ⟨fun m hm hpid => ?_, (hI.closes p _ hproc).2 _ rfl⟩
  by_cases hreq : ∃ i token key, req = .pay i token key
  · obtain ⟨i, token, key, rfl⟩ := hreq
    have hc : s.payCall? p = some ⟨business, i, token, key⟩ := by
      simp [System.payCall?, hproc, Job.payCall?]
    obtain ⟨g, hph, rfl⟩ := hI.pay_returned h hx trivial hc
    exact (hI.pay p _ _ hph).2 ⟨m, hm, hpid⟩ rfl
  · push Not at hreq
    exact ((hI.orderly p _ hproc business req rfl hreq).2 ⟨m, hm, hpid⟩) err rfl

/-- **An error before the first commit** leaves a program that does not commit. -/
theorem Refusing.quiet (h : s.Sound crypto φ) (hI : Refusing s φ) (hrec : Recorded s φ)
    {business : Business}
    {req : Request} {st : Stmt} {k : st.Resp → ServerProg (Except Exc Result)} {r : st.Resp}
    (hproc : s.procs[p]? = some ⟨.request business req, .op st k, true⟩)
    (herror : st.error? r ≠ none) (hq : ∀ m ∈ s.world.history, m.pid ≠ p) : Quiet (k r) := by
  by_cases hreq : ∃ i token key, req = .pay i token key
  · obtain ⟨i, token, key, rfl⟩ := hreq
    have hc : s.payCall? p = some ⟨business, i, token, key⟩ := by
      simp [System.payCall?, hproc, Job.payCall?]
    obtain ⟨pt, hph⟩ := h.payCall?_eq_some.mp hc
    have htracks := h.tracks p _ hproc
    rw [hph] at htracks
    obtain ⟨-, next, hout, hk⟩ := htracks
    refine quiet_pay hout ?_ herror (hk r)
    cases ha : pt.progress.attempt? with
    | none => exact Progress.attempt?_eq_none.mp ha
    | some a =>
      obtain ⟨m, hm, hpid, -⟩ := hrec.history p a (by rw [hph]; exact ha)
      exact absurd hpid (hq m hm)
  · push Not at hreq
    exact ((hI.orderly p _ hproc business req rfl hreq).1 r).1.1 herror

/-- A program that does not commit is one that never has, in whatever follows. -/
theorem quiet_reaches (hs : s.Reachable crypto)
    (hquiet : ∀ proc, s.procs[p]? = some proc → Quiet proc.prog)
    (hq : p < s.procs.length) (hnone : ∀ m ∈ s.world.history, m.pid ≠ p)
    (hreach : Reaches (System.step crypto) Always s t) : ∀ m ∈ t.world.history, m.pid ≠ p := by
  obtain ⟨φ, hsound⟩ := hs.sound
  have hinit : (∀ q proc, s.procs[q]? = some proc → q = p → Quiet proc.prog) ∧
      p < s.procs.length ∧ ¬s.world.Committed p := by
    refine ⟨fun q proc hproc hqp => hquiet proc (hqp ▸ hproc), hq, ?_⟩
    rintro ⟨m, hm, hpid⟩
    exact hnone m hm hpid
  obtain ⟨-, -, -, -, hinv⟩ := System.Sound.reaches
    (I := fun u _ => (∀ q proc, u.procs[q]? = some proc → q = p → Quiet proc.prog) ∧
      p < u.procs.length ∧ ¬u.world.Committed p)
    hreach hsound hinit fun u ψ e v ψ' hu hI _ _ hmove _ => by
      obtain ⟨hquiet, hlt, hnone⟩ := hI
      refine ⟨?_, ?_, fun hc => ?_⟩
      · refine hmove.each (Q := fun _ q proc => q = p → Quiet proc.prog) hquiet ?_ ?_ ?_ ?_
        · rintro job - rfl
          exact absurd hlt (Nat.lt_irrefl _)
        · rintro q job st k r - - hold hqp
          exact (hold hqp).next r
        · exact fun q job prog _ hold hqp => hold hqp
        · exact fun q proc _ _ hold hqp => hold hqp
      · cases hmove with
        | start job => exact hlt.trans (by simp)
        | kill hproc => simpa using hlt
        | answer hproc hans hnext => simpa using hlt
      · cases hmove with
        | start job => exact hnone hc
        | kill hproc => exact hnone hc
        | answer hproc hans hnext =>
          rcases hans.committed hc with hc | ⟨rfl, rfl⟩
          · exact hnone hc
          · exact (hquiet p _ hproc rfl).1 rfl
  exact fun m hm hpid => hinv ⟨m, hm, hpid⟩

theorem fail_error {err : DbError} {st : Stmt} {x : st.Resp × World}
    (h : w.fail p err st = some x) : st.error? x.1 ≠ none := by
  cases st <;> cases h <;> exact fun h => by cases h

/-- A failing step answers the session's statement with an error. -/
theorem System.Fails.answered (hfails : s.Fails p e) (hmove : s.Moves crypto φ e t φ') :
    ∃ job st k r, s.procs[p]? = some ⟨job, .op st k, true⟩ ∧ st.error? r ≠ none ∧
      t.procs[p]? = some ⟨job, k r, true⟩ ∧ t.world.history = s.world.history := by
  cases hmove with
  | start job => exact hfails.elim
  | kill hproc => exact hfails.elim
  | @answer _ q job st r w' k ph hproc hans hnext =>
    have hhistory : st.error? r ≠ none → w'.history = s.world.history := by
      intro herror
      refine hans.answers.effect.history ?_
      rintro rfl
      exact herror rfl
    cases hans with
    | exec env hexec =>
      obtain ⟨rfl, st', hst', x, hx, herror⟩ := hfails
      obtain ⟨job', k', hproc'⟩ := next?_eq_some.mp hst'
      rw [hproc] at hproc'
      obtain ⟨rfl, hop, -⟩ := Proc.mk.inj (Option.some.inj hproc')
      obtain ⟨rfl, -⟩ := Prog.op.inj hop
      rw [hexec] at hx
      obtain rfl := Option.some.inj hx
      exact ⟨job, st, k, r, hproc, herror, getElem?_replace_self hproc, hhistory herror⟩
    | abort cycle hcycle hfail =>
      obtain rfl : q = p := hfails
      have herror := fail_error hfail
      exact ⟨job, st, k, r, hproc, herror, getElem?_replace_self hproc, hhistory herror⟩

/-- A response of these statuses is one to a refusal. -/
theorem refusal_of_status {i : Uuid} {token key : String} {x : Except Exc Result}
    (h : ((Request.pay i token key).respond x).status ∈ [404, 409, 422]) :
    ∃ err, x = .error err ∧ err.Refusal := by
  rcases x with err | y
  · cases err with
    | app err => exact ⟨_, rfl, trivial⟩
    | http status detail => exact ⟨_, rfl, trivial⟩
    | _ => exact absurd h (by simp [Request.respond, internalServerError])
  · cases y with
    | attempt a cached =>
      refine absurd h ?_
      cases ha : a.status <;> simp [Request.respond, Result.response, PaymentStatus.httpStatus, ha]
    | _ => exact absurd h (by simp [Request.respond, Result.response, Request.successStatus])

/-- **Refused requests change nothing**: the committed database is what the committed
transactions have written; a request that has raised a domain exception is the author of none
of them and holds no lock; neither is one that is answered with an error of the driver before
its first commit, then or later; and a payment that is answered 404, 409 or 422 has not called
the provider. -/
theorem refused_changes_nothing (hs : s.Reachable crypto) {business : Business} {req : Request}
    (hjob : s.procs[p]?.map Proc.job = some (.request business req)) :
    s.world.db = Database.empty.applyAll (s.world.history.flatMap Commit.writes) ∧
      (∀ err, s.returned? p = some (.error (.app err)) → ChangesNothing s.world p) ∧
      (∀ e t u, s.Fails p e → s.step crypto e = some t → (∀ m ∈ s.world.history, m.pid ≠ p) →
        Reaches (System.step crypto) Always t u → (∀ m ∈ u.world.history, m.pid ≠ p) ∧
          ∀ x, u.returned? p = some x → ChangesNothing u.world p) ∧
      ∀ i token key x, req = .pay i token key → s.returned? p = some x →
        (req.respond x).status ∈ [404, 409, 422] → s.world.chargesOf p = [] := by
  obtain ⟨φ, h, hI, hrec⟩ := Refusing.of_reachable hs
  obtain ⟨⟨job, prog, alive⟩, hproc, rfl⟩ := Option.map_eq_some_iff.mp hjob
  refine ⟨hs.db_eq, fun err hx => hI.changesNothing h hproc hx, ?_, ?_⟩
  · intro e t u hfails hstep hnone hreach
    obtain ⟨φ', hmove⟩ := System.moves_of_step h.tracks hstep
    obtain ⟨job, st, k, r, hproc', herror, ht, hhistory⟩ := hfails.answered hmove
    obtain ⟨rfl, rfl, rfl⟩ := Proc.mk.inj (Option.some.inj (hproc.symm.trans hproc'))
    have hquiet := hI.quiet h hrec hproc herror hnone
    have htr : t.Reachable crypto := hs.tail ⟨e, trivial, hstep⟩
    have hu := quiet_reaches htr
      (fun proc hp => by rw [← Option.some.inj (ht.symm.trans hp)]; exact hquiet)
      (List.getElem?_eq_some_iff.mp ht).1 (hhistory ▸ hnone) hreach
    refine ⟨hu, fun x hx => ⟨hu, ?_⟩⟩
    obtain ⟨ψ, -, hIu, -⟩ := Refusing.of_reachable (htr.trans hreach)
    unfold System.returned? at hx
    split at hx
    case h_1 job y alive hproc => exact (hIu.closes p _ hproc).2 y rfl
    case h_2 => cases hx
  · rintro i token key x rfl hx hstatus
    obtain ⟨err, rfl, hrefusal⟩ := refusal_of_status hstatus
    have hc : s.payCall? p = some ⟨business, i, token, key⟩ := by
      simp [System.payCall?, hproc, Job.payCall?]
    obtain ⟨g, hph, rfl⟩ := hI.pay_returned h hx hrefusal hc
    have hgood := h.forGood p
    rw [hph] at hgood
    exact hgood

/-- A payment of a draft is refused. -/
def payingDraft : System :=
  (run (System.step sampleCrypto) .init
    (drafting ++ [.request (.pay 0 "tok_visa" "k1")] ++ Event.steps 2 3)).get (by decide +kernel)

theorem payingDraft_reachable : payingDraft.Reachable sampleCrypto :=
  reaches_of_run (Option.some_get _).symm

theorem refused_payingDraft :
    ChangesNothing payingDraft.world 2 ∧ payingDraft.world.chargesOf 2 = [] := by
  have hjob := System.payCall?_eq_some.mp (by decide +kernel :
    payingDraft.payCall? 2 = some ⟨sampleBusiness, 0, "tok_visa", "k1"⟩)
  have hx := System.raised?_eq_some.mp (by decide +kernel :
    payingDraft.raised? 2 = some (.app (.invalidStateTransition "draft" "paid" none)))
  obtain ⟨-, hnothing, -, hcharges⟩ := refused_changes_nothing payingDraft_reachable hjob
  exact ⟨hnothing _ hx, hcharges _ _ _ _ rfl hx (by decide)⟩

end Steps

end TenantBilling
