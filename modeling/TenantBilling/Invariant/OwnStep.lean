import TenantBilling.Invariant.Phases

/-!
# The session that steps

What the answer to its next statement makes of the session that issued it: each point
hands what holds there over to the next (`TenantBilling.PayPoint.Holds.step`,
`TenantBilling.TransitionPoint.Holds.step`, `TenantBilling.World.Aside.step`).
-/

namespace TenantBilling

open Base World

section Payments

variable {crypto : Crypto} {w w' : World} {p : Pid} {c : PayCall}

/-! ### What a payment has done for good -/

/-- What a session has been told stays so while its calls and its attempt do. -/
theorem Progress.Holds.congr {g : Progress} (h : g.Holds crypto w p c)
    (hcharges : w'.chargesOf p = w.chargesOf p)
    (hattempt : ∀ a, g.attempt? = some a → w'.db.attempts.find? a.id = w.db.attempts.find? a.id) :
    g.Holds crypto w' p c := by
  cases g with
  | nothing => exact hcharges.trans h
  | reserved a => exact ⟨hcharges.trans h.1, h.2.1, (hattempt a rfl).trans h.2.2⟩
  | called a => exact ⟨hcharges.trans h.1, h.2.1, (hattempt a rfl).trans h.2.2⟩
  | answered a http => exact ⟨hcharges.trans h.1, h.2.1, (hattempt a rfl).trans h.2.2⟩
  | settled a http =>
    obtain ⟨hc, hmade, update, now, hsettles, hfind⟩ := h
    exact ⟨hcharges.trans hc, hmade, update, now, hsettles, (hattempt a rfl).trans hfind⟩

/-- A statement that neither commits nor calls the provider changes nothing for good. -/
theorem Progress.Holds.effect {g : Progress} {st : Stmt} (h : g.Holds crypto w p c)
    (heffect : Effect w p st w') (hcommit : st ≠ .commit) (hcharge : ¬st.IsCharge) :
    g.Holds crypto w' p c := by
  refine h.congr ?_ fun a _ => ?_
  · unfold chargesOf
    rw [heffect.charges hcharge]
  · rw [heffect.db hcommit]

/-- A call is noted as the last of its session. -/
theorem chargesOf_send {c : Charge} (hpid : c.pid = p) :
    ({ w with charges := w.charges ++ [c] } : World).chargesOf p = w.chargesOf p ++ [c] := by
  simp [chargesOf, hpid]

/-- The answer is noted with the call of the session. -/
theorem chargesOf_receive {a : PaymentAttempt} {http : HttpResult}
    (h : w.chargesOf p = [c.charge p a none]) :
    (w.recordCharge p http).chargesOf p = [c.charge p a (some http)] := by
  unfold chargesOf recordCharge at *
  rw [List.filter_map]
  have hcomp : ((fun c : Charge => decide (c.pid = p)) ∘ fun c : Charge =>
      if c.pid = p ∧ c.result.isNone then { c with result := some http } else c) =
        fun c => decide (c.pid = p) := by
    funext c
    simp only [Function.comp_apply]
    split <;> rfl
  rw [hcomp, h]
  simp [PayCall.charge]

/-! ### The values of an attempt -/

/-- An attempt carries what its request has sent. -/
theorem PayCall.Made.fields {a : PaymentAttempt} (h : c.Made crypto a) :
    a.invoiceId = c.invoiceId ∧ a.idempotencyKey.text = c.idempotencyKey ∧
      a.cardToken.text = c.cardToken ∧ a.requestHash = c.requestHash crypto ∧
        a.status = .pending := by
  obtain ⟨v, now, h⟩ := h
  unfold NewAttempt.row at h
  split at h
  case h_2 => cases h
  case h_1 key token hkey htoken =>
    split at h
    case isFalse => cases h
    case isTrue hpos =>
      rw [← Except.ok.inj h]
      exact ⟨rfl, Varchar.ofString?_eq_some.mp hkey, Varchar.ofString?_eq_some.mp htoken, rfl, rfl⟩

theorem PayCall.Made.invoiceId {a : PaymentAttempt} (h : c.Made crypto a) :
    a.invoiceId = c.invoiceId :=
  h.fields.1

theorem PayCall.Made.status {a : PaymentAttempt} (h : c.Made crypto a) : a.status = .pending :=
  h.fields.2.2.2.2

/-! ### The commits -/

/-- The first commit makes the attempt a row. -/
theorem find?_reserve {a : PaymentAttempt} {rs : List RowRef} (hcons : w.Consistent)
    (htx : w.HasTx p rs [.insertAttempt a]) :
    (w.commit p).db.attempts.find? a.id = some a := by
  rw [db_commit, htx.view]
  have hfree : w.db.attempts.Free a.id := by
    have hmem : (p, Write.insertAttempt a) ∈ w.inflight := by
      rw [← mem_writesOf, htx.writes]
      exact List.mem_singleton_self _
    have hrow := hcons.fresh _ _ hmem ⟨.attempts, a.id⟩ (List.mem_singleton_self _)
    exact Database.lacks_iff.mpr hrow
  exact Table.find?_key ((Table.mem_insert hfree).mpr (Or.inr rfl))

/-- A write that is neither an insert nor an update of an attempt. -/
theorem apply_attempts_of_peripheral {db : Database} {x : Write} (h : x.Peripheral) :
    (db.apply x).attempts = db.attempts := by
  cases x <;> first | rfl | exact h.elim

/-- Outbox rows are neither invoices nor attempts. -/
theorem PayCall.Outbox.peripheral {a : PaymentAttempt} {outcome : Except PspError PspChargeResult}
    {endpoints : List WebhookEndpoint} {rest : List Write} (h : c.Outbox a outcome endpoints rest) :
    ∀ x ∈ rest, x.Peripheral := by
  rcases h with ⟨-, rfl⟩ | ⟨-, result, now, env, -, rfl⟩
  · simp
  · intro x hx
    rw [List.mem_singleton.mp hx]
    trivial

theorem applyAll_attempts_of_peripheral {db : Database} {ws : List Write}
    (h : ∀ x ∈ ws, x.Peripheral) : (db.applyAll ws).attempts = db.attempts := by
  induction ws generalizing db with
  | nil => rfl
  | cons x ws ih =>
    rw [Database.applyAll_cons, ih fun y hy => h y (List.mem_cons_of_mem _ hy)]
    exact apply_attempts_of_peripheral (h x List.mem_cons_self)

/-- The attempts after the second commit. -/
theorem attempts_settle {a : PaymentAttempt} {http : HttpResult}
    {outcome : Except PspError PspChargeResult} {rest : List Write}
    (hrest : ∀ x ∈ rest, x.Peripheral) (h : Settling w p c a http outcome rest) :
    ∃ update now, Settles http update ∧
      (w.commit p).db.attempts =
        w.db.attempts.update a.id (·.update update now) (·.update_id update now) := by
  obtain ⟨hout, update, now, hbind, ⟨-, now', htx⟩ | ⟨-, htx⟩⟩ := h
  · refine ⟨update, now, ⟨outcome, hout, hbind⟩, ?_⟩
    rw [db_commit, htx.view]
    exact applyAll_attempts_of_peripheral hrest
  · refine ⟨update, now, ⟨outcome, hout, hbind⟩, ?_⟩
    rw [db_commit, htx.view]
    exact applyAll_attempts_of_peripheral hrest

/-! ### One step of a payment -/

/-- What a point hands over: what holds of the session at the next point, and what is known
for good there. -/
def PayPoint.HandsOver (crypto : Crypto) (w' : World) (p : Pid) (c : PayCall) (pt : PayPoint) :
    Prop :=
  pt.Holds crypto w' p c ∧ pt.progress.Holds crypto w' p c

/-- A session that has done nothing is at the start of its payment. -/
theorem handsOver_start (hidle : w.Idle p) (hcharges : w.chargesOf p = []) :
    (PayPoint.start c).HandsOver crypto w p c := by
  unfold PayPoint.start
  split
  · refine ⟨⟨hidle.writes, fun r hr => ?_⟩, hcharges⟩
    exact absurd ((hidle.locks r).mp hr) List.not_mem_nil
  · exact ⟨hidle, hcharges⟩

/-- A route that raises or returns outside a transaction. -/
theorem holds_closing (hidle : w.Idle p) (x : Except Exc Result) (g : Progress) :
    (PayPoint.closing x g).Holds crypto w p c := by
  refine ⟨hidle.writes, fun r hr => ?_⟩
  exact absurd ((hidle.locks r).mp hr) List.not_mem_nil

theorem find?_view_of_attempt {rs : List RowRef} {id : Uuid} {update : AttemptUpdate}
    {now : Timestamp} (htx : w.HasTx p rs [.updateAttempt id update now]) (i : Uuid) :
    (w.view p).invoices.find? i = w.db.invoices.find? i := by
  rw [htx.view]
  rfl

/-- **A payment hands on what holds at its points**, through each of its own statements. -/
theorem PayPoint.HandsOver.step {pt : PayPoint} {st : Stmt} {next : st.Resp → PayPoint}
    {r : st.Resp}
    (hcons : w.Consistent) (hexist : ∀ a ∈ w.db.attempts, w.db.invoices.find? a.invoiceId ≠ none)
    (h : pt.HandsOver crypto w p c) (hout : pt.out crypto c = .op st next)
    (hans : w.Answers p st r w') : (next r).HandsOver crypto w' p c := by
  obtain ⟨hpt, hg⟩ := h
  have hkeep : st ≠ .commit → ¬st.IsCharge → pt.progress.Holds crypto w' p c := fun h1 h2 =>
    hg.effect hans.effect h1 h2
  cases pt with
  | lookup =>
    cases hout
    obtain ⟨-, rfl⟩ := answers_select hans
    rcases r with _ | a
    · exact ⟨hpt, hg⟩
    · dsimp only
      split
      · exact ⟨holds_closing hpt _ _, hg⟩
      · exact ⟨holds_closing hpt _ _, hg⟩
  | lock =>
    cases hout
    have hlock := answers_lockInvoice hans
    have hg := hkeep (by simp) (by simp [Stmt.IsCharge])
    rcases r with e | _ | v
    · obtain rfl := hlock
      exact ⟨holds_closing (idle_release w p) _ _, hg⟩
    · obtain ⟨rfl, -⟩ := hlock
      exact ⟨holds_closing hpt _ _, hg⟩
    · obtain ⟨rfl, -, hv, hb⟩ := hlock
      have htx : (w.lock p c.invoiceRef).HasTx p [c.invoiceRef] [] := hpt.lock _
      dsimp only
      cases hcheck : assertTransitionAllowed v.state .paid with
      | error e => exact ⟨⟨htx.writes, fun r hr => List.mem_singleton.mp ((htx.locks r).mp hr)⟩, hg⟩
      | ok u =>
        rw [hpt.view] at hv
        refine ⟨⟨htx, ⟨?_, ?_, assertTransitionAllowed_paid.mp hcheck⟩, hv⟩, hg⟩
        · exact (Table.find?_eq_some.mp hv).2
        · simpa [Invoice.belongsTo] using hb
  | insert v =>
    cases hout
    have hins := answers_insertAttempt hans
    have hg := hkeep (by simp) (by simp [Stmt.IsCharge])
    obtain ⟨htx, hv, hfind⟩ := hpt
    rcases r with e | a
    · obtain rfl := hins
      have hclosing : ∀ e : DbError, (PayPoint.closing (.error (.db e)) .nothing).HandsOver crypto
          (w.release p) p c := fun e => ⟨holds_closing (idle_release w p) _ _, hg⟩
      cases e with
      | integrity errorMsg => exact ⟨idle_release w p, hg⟩
      | _ => exact hclosing _
    · obtain ⟨rfl, ha⟩ := hins
      obtain ⟨now, hrow⟩ := ha.row
      have hview : w.view p = w.db := htx.view
      refine ⟨⟨htx.write _, hv, hfind, ⟨v, now, hrow⟩, ?_, ?_⟩, hg⟩
      · exact fun b hb => ha.noSameKey b (hview ▸ hb)
      · exact fun b hb => ha.noSamePending b (hview ▸ hb)
  | undo errorMsg =>
    cases hout
    obtain rfl := answers_rollback hans
    have hg := hkeep (by simp) (by simp [Stmt.IsCharge])
    dsimp only
    split
    · exact ⟨holds_closing (idle_release w p) _ _, hg⟩
    · exact ⟨idle_release w p, hg⟩
  | relookup =>
    cases hout
    obtain ⟨-, rfl⟩ := answers_select hans
    rcases r with _ | a
    · exact ⟨holds_closing hpt _ _, hg⟩
    · dsimp only
      split
      · exact ⟨holds_closing hpt _ _, hg⟩
      · exact ⟨holds_closing hpt _ _, hg⟩
  | reserve v a =>
    cases hout
    obtain rfl := answers_commit hans
    obtain ⟨htx, hv, hfind, hres⟩ := hpt
    exact ⟨⟨idle_commit w p, hv⟩, hg, hres.made, find?_reserve hcons htx⟩
  | send v a =>
    cases hout
    obtain rfl := answers_sendCharge hans
    obtain ⟨hc, hmade, hfind⟩ := hg
    refine ⟨⟨⟨hpt.1.writes, hpt.1.locks⟩, hpt.2⟩, ?_, hmade, hfind⟩
    rw [chargesOf_send rfl, hc]
    rfl
  | receive v a =>
    cases hout
    obtain rfl := answers_awaitCharge hans
    obtain ⟨hc, hmade, hfind⟩ := hg
    have hidle : (w.recordCharge p r).Idle p := ⟨hpt.1.writes, hpt.1.locks⟩
    have hg : (Progress.answered a r).Holds crypto (w.recordCharge p r) p c :=
      ⟨chargesOf_receive hc, hmade, hfind⟩
    have hok : ∀ outcome, chargeOutcome r = some outcome →
        (PayPoint.refetch v a r outcome).HandsOver crypto (w.recordCharge p r) p c :=
      fun outcome h => ⟨⟨hidle, hpt.2, h⟩, hg⟩
    dsimp only
    cases hres : chargeResult r with
    | ok result => exact hok _ (by simp [chargeOutcome, hres])
    | error e =>
      cases e with
      | psp e => exact hok _ (by simp [chargeOutcome, hres])
      | _ => exact ⟨holds_closing hidle _ _, hg⟩
  | refetch v a http outcome =>
    cases hout
    obtain ⟨⟨env, hr⟩, rfl⟩ := answers_select hans
    obtain ⟨hidle, hv, houtcome⟩ := hpt
    have hrow : r = some a := by
      rw [hr, hidle.view]
      exact hg.2.2
    subst hrow
    have hloaded : a.orLoaded a = a := if_pos rfl
    dsimp only
    rw [hloaded]
    exact ⟨⟨hidle, hv, houtcome⟩, hg⟩
  | record v a http outcome =>
    cases hout
    have hupd := answers_updateAttempt hans
    have hg := hkeep (by simp) (by simp [Stmt.IsCharge])
    obtain ⟨hidle, hv, houtcome⟩ := hpt
    rcases r with e | _
    · obtain rfl := hupd
      exact ⟨holds_closing (idle_release w p) _ _, hg⟩
    · obtain ⟨-, update, now, hbind, rfl⟩ := hupd
      have htx := (hidle.lock a.ref).write (.updateAttempt a.id update now)
      refine ⟨?_, ?_⟩
      · cases outcome with
        | error e =>
          exact ⟨[], Or.inl ⟨rfl, rfl⟩, houtcome, update, now, hbind, Or.inr ⟨id, htx⟩⟩
        | ok result =>
          dsimp only [PayPoint.recorded]
          split
          case isTrue hs =>
            rw [outcomeChange, if_pos hs] at hbind
            exact ⟨hv, houtcome, hs, update, now, hbind, htx⟩
          case isFalse hs => exact ⟨houtcome, update, now, hbind, Or.inr ⟨hs, htx⟩⟩
      · cases outcome with
        | error e => exact hg
        | ok result =>
          dsimp only [PayPoint.recorded]
          split
          · exact hg
          · exact hg
  | relock v a http result =>
    cases hout
    have hlock := answers_lockInvoice hans
    have hg := hkeep (by simp) (by simp [Stmt.IsCharge])
    obtain ⟨hv, houtcome, hs, update, now, hbind, htx⟩ := hpt
    rcases r with e | _ | row
    · obtain rfl := hlock
      exact ⟨holds_closing (idle_release w p) _ _, hg⟩
    · -- the invoice of the attempt is still there
      obtain ⟨rfl, hnone⟩ := hlock
      have hex := hexist a (Table.find?_eq_some.mp hg.2.2).1
      rw [hg.2.1.invoiceId] at hex
      obtain ⟨row, hrow⟩ := Option.ne_none_iff_exists'.mp hex
      have hbelongs := hnone row ((find?_view_of_attempt htx _).trans hrow)
      cases hbelongs
    · -- the object still says that it is open
      obtain ⟨rfl, -, hrow, -⟩ := hlock
      have hid : v.id = row.id := hv.id.trans (Table.find?_eq_some.mp hrow).2.symm
      have hstate : row.stateOrLoaded v = .open := (if_pos hid).trans hv.isOpen
      have hcheck : assertTransitionAllowed (row.stateOrLoaded v) .paid = .ok () :=
        assertTransitionAllowed_paid.mpr hstate
      dsimp only
      rw [hcheck]
      exact ⟨⟨houtcome, hs, update, now, hbind, htx.lock c.invoiceRef⟩, hg⟩
  | markPaid a http result =>
    cases hout
    have hupd := answers_updateInvoice hans
    have hg := hkeep (by simp) (by simp [Stmt.IsCharge])
    obtain ⟨houtcome, hs, update, now, hbind, htx⟩ := hpt
    rcases r with e | _
    · obtain rfl := hupd
      exact ⟨holds_closing (idle_release w p) _ _, hg⟩
    · obtain ⟨-, now', rfl⟩ := hupd
      have hlocks : ∀ r, r ∈ [c.invoiceRef, c.invoiceRef, a.ref] ↔
        r ∈ [c.invoiceRef, a.ref] := by simp
      have htx' :=
        ((htx.lock c.invoiceRef).write (.updateInvoice c.invoiceId .paid now')).congr hlocks
      have hbind' : (outcomeChange (.ok result)).bind = .ok update := by
        rw [outcomeChange, if_pos hs]
        exact hbind
      exact ⟨⟨houtcome, update, now, hbind', Or.inl ⟨hs, now', htx'⟩⟩, hg⟩
  | listEndpoints a http result =>
    cases hout
    obtain ⟨-, rfl⟩ := answers_select hans
    rcases r with _ | ⟨e, es⟩
    · exact ⟨⟨[], Or.inl ⟨rfl, rfl⟩, hpt⟩, hg⟩
    · exact ⟨⟨by simp, hpt⟩, hg⟩
  | readClock a http result endpoints =>
    cases hout
    obtain rfl := answers_clock hans
    exact ⟨hpt, hg⟩
  | outbox a http result endpoints now =>
    cases hout
    obtain ⟨rfl, env, rfl⟩ := answers_insertDeliveries hans
    have hg := hkeep (by simp) (by simp [Stmt.IsCharge])
    obtain ⟨hne, houtcome, update, now', hbind, hcase⟩ := hpt
    refine ⟨⟨_, Or.inr ⟨hne, result, now, env, rfl, rfl⟩, houtcome, update, now', hbind, ?_⟩, hg⟩
    rcases hcase with ⟨hs, now'', htx⟩ | ⟨hs, htx⟩
    · exact Or.inl ⟨hs, now'', htx.write _⟩
    · exact Or.inr ⟨hs, htx.write _⟩
  | settle a http outcome endpoints =>
    cases hout
    obtain rfl := answers_commit hans
    obtain ⟨hc, hmade, hfind⟩ := hg
    obtain ⟨rest, hrest, hsettling⟩ := hpt
    obtain ⟨update, now, hsettles, hattempts⟩ := attempts_settle hrest.peripheral hsettling
    refine ⟨idle_commit w p, hc, hmade, update, now, hsettles, ?_⟩
    rw [hattempts, Table.find?_update_self, hfind]
    rfl
  | refresh a http =>
    cases hout
    obtain ⟨-, rfl⟩ := answers_select hans
    rcases r with _ | row
    · exact ⟨holds_closing hpt _ _, hg⟩
    · exact ⟨holds_closing hpt _ _, hg⟩
  | closing x g =>
    cases hout
    obtain rfl := answers_rollback hans
    exact ⟨idle_release w p, hkeep (by simp) (by simp [Stmt.IsCharge])⟩
  | done x g => cases hout

end Payments

/-! ### One step of a transition -/

section Transitions

variable {w w' : World} {p : Pid} {c : TransitionCall}

/-- A transition hands on what holds at its points. -/
theorem TransitionPoint.Holds.step {pt : TransitionPoint} {st : Stmt}
    {next : st.Resp → TransitionPoint} {r : st.Resp} (hpt : pt.Holds w p c)
    (hout : pt.out c = .op st next) (hans : w.Answers p st r w') : (next r).Holds w' p c := by
  cases pt with
  | read =>
    cases hout
    obtain ⟨⟨env, hr⟩, rfl⟩ := answers_select hans
    rw [World.Idle.view hpt] at hr
    rcases r with _ | ⟨v, lineItems⟩
    · exact hpt
    dsimp only
    cases hcheck : assertTransitionAllowed v.state c.target with
    | error e => exact hpt
    | ok u =>
      obtain ⟨v', hfind, hv⟩ := Option.map_eq_some_iff.mp hr.symm
      obtain ⟨hfind, hb⟩ := Option.filter_eq_some_iff.mp hfind
      obtain rfl : v' = v := congrArg Prod.fst hv
      refine ⟨hpt, (Table.find?_eq_some.mp hfind).2, ?_, assertTransitionAllowed_eq_ok.mp hcheck,
        ?_⟩
      · simpa [Invoice.belongsTo] using hb
      · rw [hfind]; simp
  | update v =>
    cases hout
    have hupd := answers_updateInvoice hans
    obtain ⟨hidle, hc⟩ := hpt
    rcases r with e | _
    · obtain rfl := hupd
      exact idle_release w p
    · obtain ⟨-, now, rfl⟩ := hupd
      refine ⟨⟨hc.id, hc.business, hc.allowed, hc.exist⟩, now, ?_⟩
      rw [← hc.id]
      exact (hidle.lock _).write _
  | reselect v =>
    cases hout
    obtain ⟨⟨env, hr⟩, rfl⟩ := answers_select hans
    obtain ⟨hc, now, htx⟩ := hpt
    rcases r with _ | ⟨row, lineItems⟩
    · -- the row that has been updated is still there
      obtain ⟨v', hv'⟩ := Option.ne_none_iff_exists'.mp hc.exist
      have hview : (w'.view p).invoices.find? v.id = some (v'.update c.target now) := by
        rw [htx.view, hc.id, Database.applyAll_cons, Database.applyAll_nil,
          Database.find?_apply_updateInvoice, if_pos rfl, hv']
        rfl
      simp [Database.eval, hview, Invoice.belongsTo, Option.filter] at hr
    · exact ⟨hc, now, htx⟩
  | commit v x =>
    cases hout
    obtain rfl := answers_commit hans
    exact idle_commit w p
  | closing x =>
    cases hout
    obtain rfl := answers_rollback hans
    exact idle_release w p
  | done x => cases hout

/-- A transition never calls the provider. -/
theorem TransitionPoint.not_isCharge {pt : TransitionPoint} {st : Stmt}
    {next : st.Resp → TransitionPoint} (hout : pt.out c = .op st next) : ¬st.IsCharge := by
  cases pt <;> cases hout <;> exact id

end Transitions

/-! ### One step of any other program -/

section Others

variable {w w' : World} {p : Pid} {st : Stmt}

theorem Stmt.Peripheral.not_isCharge (h : st.Peripheral) : ¬st.IsCharge := by
  cases st <;> first | exact id | exact fun _ => h

theorem Stmt.Peripheral.writes (h : st.Peripheral) {x : Write} (hx : st.Writes x) :
    x.Peripheral := by
  cases x with
  | insertInvoice row =>
    cases st <;> try exact hx.elim
    case insertInvoice new =>
      obtain ⟨id, now, hrow⟩ := hx
      unfold NewInvoice.row at hrow
      split at hrow
      case h_2 => cases hrow
      case h_1 =>
        split at hrow
        case isFalse => cases hrow
        case isTrue =>
          rw [← Except.ok.inj hrow]
          exact h
  | insertAttempt row => cases st <;> first | exact hx.elim | exact h
  | updateInvoice id state now => cases st <;> first | exact hx.elim | exact h
  | updateAttempt id update now => cases st <;> first | exact hx.elim | exact h
  | _ => trivial

theorem Stmt.Peripheral.locks (h : st.Peripheral) {r : RowRef} (hr : st.Locks r) :
    r.table ≠ .invoices ∧ r.table ≠ .attempts := by
  cases st <;> try exact hr.elim
  case lockInvoice => exact h.elim
  case updateInvoice => exact h.elim
  case updateAttempt => exact h.elim
  case claimDeliveries =>
    rw [show r.table = _ from hr]
    exact ⟨by simp, by simp⟩
  all_goals
    rw [show r = _ from hr]
    exact ⟨by simp, by simp⟩

/-- A session that keeps off the invoices and attempts goes on doing so. -/
theorem World.Aside.step (h : w.Aside p) (hst : st.Peripheral) {r : st.Resp}
    (hans : w.Answers p st r w') : w'.Aside p := by
  refine ⟨fun x hx => ?_, fun r hr => ?_⟩
  · rcases hans.effect.writes x hx with hx | hx
    · exact h.writes x hx
    · exact hst.writes hx
  · rcases hans.effect.locks r hr with hr | hr
    · exact h.locks r hr
    · exact hst.locks hr

end Others

end TenantBilling
