import TenantBilling.World.Rows

/-!
# Answers

What a session learns from the answer to a statement, one lemma for each statement of
the payments and transitions. A statement is answered by the server that executes it, or
by the deadlock detector that makes it fail (`TenantBilling.World.Answers`); an answer
that is an error has always ended the transaction.
-/

namespace TenantBilling

open Base

namespace World

/-- The answer to a statement, and the world after it. -/
inductive Answers (w : World) (p : Pid) (st : Stmt) (r : st.Resp) (w' : World) : Prop where
  | exec (env : Env) (h : w.exec p env st = some (r, w'))
  | fail (e : DbError) (h : w.fail p e st = some (r, w'))

variable {w w' : World} {p : Pid}

/-- A statement is executed when nobody blocks it. -/
theorem exec_eq_some {env : Env} {st : Stmt} {x : st.Resp × World} :
    w.exec p env st = some x ↔ w.blockers p st = [] ∧ w.perform p env st = some x := by
  unfold exec
  split
  case isTrue h => simp [h]
  case isFalse h => simp [h]

/-- A statement that is made to fail ends the transaction, and that is all it does. -/
theorem acts_of_fail {e : DbError} {st : Stmt} {r : st.Resp} (h : w.fail p e st = some (r, w')) :
    w' = w.release p := by
  cases st
  case lockInvoice => exact (Prod.mk.inj (Option.some.inj h)).2.symm
  case insertCustomer => exact (Prod.mk.inj (Option.some.inj h)).2.symm
  case insertAttempt => exact (Prod.mk.inj (Option.some.inj h)).2.symm
  case updateInvoice => exact (Prod.mk.inj (Option.some.inj h)).2.symm
  case updateAttempt => exact (Prod.mk.inj (Option.some.inj h)).2.symm
  case deactivateEndpoint => exact (Prod.mk.inj (Option.some.inj h)).2.symm
  case updateDelivery => exact (Prod.mk.inj (Option.some.inj h)).2.symm
  all_goals cases h

/-- An answered statement is made of acts of its session. -/
theorem Answers.acts {st : Stmt} {r : st.Resp} (h : Answers w p st r w') : Acts p st w w' := by
  cases h with
  | exec env h =>
    obtain ⟨hwait, h⟩ := exec_eq_some.mp h
    exact acts_of_perform hwait h
  | fail e h =>
    rw [acts_of_fail h]
    exact .single .release

/-- A query is answered from what the session sees, in some order of the rows, and changes
nothing. -/
theorem answers_select {q : Query} {r : q.Result} (h : Answers w p (.select q) r w') :
    (∃ env : Env, r = (w.view p).eval env.rank q) ∧ w' = w := by
  cases h with
  | exec env h =>
    obtain ⟨hr, hw⟩ := Prod.mk.inj (Option.some.inj (exec_eq_some.mp h).2)
    exact ⟨⟨env, hr.symm⟩, hw.symm⟩
  | fail e h => cases h

theorem answers_clock {now : Timestamp} (h : Answers w p .clock now w') : w' = w := by
  cases h with
  | exec env h => exact (Prod.mk.inj (Option.some.inj (exec_eq_some.mp h).2)).2.symm
  | fail e h => cases h

/-- A commit puts the writes of its session into the committed tables. -/
theorem answers_commit {u : Unit} (h : Answers w p .commit u w') : w' = w.commit p := by
  cases h with
  | exec env h => exact (Prod.mk.inj (Option.some.inj (exec_eq_some.mp h).2)).2.symm
  | fail e h => cases h

theorem answers_rollback {u : Unit} (h : Answers w p .rollback u w') : w' = w.release p := by
  cases h with
  | exec env h => exact (Prod.mk.inj (Option.some.inj (exec_eq_some.mp h).2)).2.symm
  | fail e h => cases h

/-- The provider has been called, and the call has no result yet. -/
theorem answers_sendCharge {cardToken idempotencyKey : String} {amountCents : ℤ} {u : Unit}
    (h : Answers w p (.sendCharge cardToken amountCents idempotencyKey) u w') :
    w' = { w with
      charges := w.charges ++ [⟨p, cardToken, amountCents, idempotencyKey, none⟩] } := by
  cases h with
  | exec env h => exact (Prod.mk.inj (Option.some.inj (exec_eq_some.mp h).2)).2.symm
  | fail e h => cases h

/-- The result that the session is told is the one that is recorded. -/
theorem answers_awaitCharge {http : HttpResult} (h : Answers w p .awaitCharge http w') :
    w' = w.recordCharge p http := by
  cases h with
  | exec env h =>
    obtain ⟨hr, hw⟩ := Prod.mk.inj (Option.some.inj (exec_eq_some.mp h).2)
    exact hr ▸ hw.symm
  | fail e h => cases h

/-- What the answer to a `FOR UPDATE` tells. -/
def LockAnswer (w : World) (p : Pid) (id : Uuid) (businessId : Option Uuid) (w' : World) :
    Except DbError (Option Invoice) → Prop
  | .error _ => w' = w.release p
  | .ok none => w' = w ∧ ∀ v, (w.view p).invoices.find? id = some v → v.belongsTo businessId = false
  | .ok (some v) => w' = w.lock p ⟨.invoices, id⟩ ∧ w.lockWaits p ⟨.invoices, id⟩ = [] ∧
      (w.view p).invoices.find? id = some v ∧ v.belongsTo businessId = true

/-- **The answer to a `FOR UPDATE`**: the row as the session sees it, now locked by it. -/
theorem answers_lockInvoice {id : Uuid} {businessId : Option Uuid}
    {r : Except DbError (Option Invoice)} (h : Answers w p (.lockInvoice id businessId) r w') :
    LockAnswer w p id businessId w' r := by
  cases h with
  | exec env h =>
    obtain ⟨hwait, h⟩ := exec_eq_some.mp h
    dsimp only [blockers] at hwait
    simp only [perform, lockInvoice] at h
    cases hv : (w.view p).invoices.find? id with
    | none =>
      rw [hv] at h
      obtain ⟨rfl, rfl⟩ := Prod.mk.inj (Option.some.inj h)
      refine ⟨rfl, fun v' hv' => ?_⟩
      rw [hv] at hv'
      cases hv'
    | some v =>
      rw [hv] at hwait h
      dsimp only at hwait h
      by_cases hb : v.belongsTo businessId = true
      · rw [if_pos hb] at hwait h
        obtain ⟨rfl, rfl⟩ := Prod.mk.inj (Option.some.inj h)
        exact ⟨rfl, hwait, hv, hb⟩
      · rw [if_neg hb] at h
        obtain ⟨rfl, rfl⟩ := Prod.mk.inj (Option.some.inj h)
        refine ⟨rfl, fun v' hv' => ?_⟩
        rw [hv] at hv'
        rw [← Option.some.inj hv']
        simpa using hb
  | fail e h =>
    obtain ⟨rfl, rfl⟩ := Prod.mk.inj (Option.some.inj h)
    rfl

/-- What the answer to the insert of an attempt tells. -/
def InsertAnswer (w : World) (p : Pid) (new : NewAttempt) (w' : World) :
    Except DbError PaymentAttempt → Prop
  | .error _ => w' = w.release p
  | .ok a => w' = w.write p (.insertAttempt a) ∧ Inserted w p new a

/-- **The answer to the insert of an attempt**: the new row, or the end of the transaction. -/
theorem answers_insertAttempt {new : NewAttempt} {r : Except DbError PaymentAttempt}
    (h : Answers w p (.insertAttempt new) r w') : InsertAnswer w p new w' r := by
  cases h with
  | exec env h =>
    rcases insertAttempt_eq_some (exec_eq_some.mp h).2 with ⟨e, hx⟩ | ⟨a, hx, ha⟩
    · obtain ⟨rfl, rfl⟩ := Prod.mk.inj hx
      rfl
    · obtain ⟨rfl, rfl⟩ := Prod.mk.inj hx
      exact ⟨rfl, ha⟩
  | fail e h =>
    obtain ⟨rfl, rfl⟩ := Prod.mk.inj (Option.some.inj h)
    rfl

/-- What the answer to an update of an attempt tells. -/
def UpdateAttemptAnswer (w : World) (p : Pid) (id : Uuid) (change : AttemptChange) (w' : World) :
    Except DbError Unit → Prop
  | .error _ => w' = w.release p
  | .ok () => w.lockWaits p ⟨.attempts, id⟩ = [] ∧ ∃ update now, change.bind = .ok update ∧
      w' = (w.lock p ⟨.attempts, id⟩).write p (.updateAttempt id update now)

/-- An attempt is updated by who can lock it, and to values that its columns store. -/
theorem answers_updateAttempt {id : Uuid} {change : AttemptChange} {r : Except DbError Unit}
    (h : Answers w p (.updateAttempt id change) r w') :
    UpdateAttemptAnswer w p id change w' r := by
  cases h with
  | exec env h =>
    obtain ⟨hwait, h⟩ := exec_eq_some.mp h
    cases hb : change.bind with
    | ok update =>
      simp only [perform, hb] at h
      obtain ⟨rfl, rfl⟩ := Prod.mk.inj (Option.some.inj h)
      exact ⟨hwait, update, env.now, hb, rfl⟩
    | error e =>
      simp only [perform, hb] at h
      obtain ⟨rfl, rfl⟩ := Prod.mk.inj (Option.some.inj h)
      rfl
  | fail e h =>
    obtain ⟨rfl, rfl⟩ := Prod.mk.inj (Option.some.inj h)
    rfl

/-- What the answer to an update of an invoice tells. -/
def UpdateInvoiceAnswer (w : World) (p : Pid) (id : Uuid) (state : InvoiceState) (w' : World) :
    Except DbError Unit → Prop
  | .error _ => w' = w.release p
  | .ok () => w.lockWaits p ⟨.invoices, id⟩ = [] ∧
      ∃ now, w' = (w.lock p ⟨.invoices, id⟩).write p (.updateInvoice id state now)

/-- The state of an invoice is set by who can lock it, whatever the state was. -/
theorem answers_updateInvoice {id : Uuid} {state : InvoiceState} {r : Except DbError Unit}
    (h : Answers w p (.updateInvoice id state) r w') :
    UpdateInvoiceAnswer w p id state w' r := by
  cases h with
  | exec env h =>
    obtain ⟨hwait, h⟩ := exec_eq_some.mp h
    obtain ⟨rfl, rfl⟩ := Prod.mk.inj (Option.some.inj h)
    exact ⟨hwait, env.now, rfl⟩
  | fail e h =>
    obtain ⟨rfl, rfl⟩ := Prod.mk.inj (Option.some.inj h)
    rfl

/-- The outbox rows of an event are inserted under new ids. -/
theorem answers_insertDeliveries {new : List NewDelivery} {r : Except DbError Unit}
    (h : Answers w p (.insertDeliveries new) r w') :
    r = .ok () ∧ ∃ env : Env, w' = w.write p (.insertDeliveries (deliveryRows env new)) := by
  cases h with
  | exec env h =>
    have h' := (exec_eq_some.mp h).2
    unfold perform insertDeliveries at h'
    dsimp only at h'
    split at h'
    case isTrue =>
      obtain ⟨rfl, rfl⟩ := Prod.mk.inj (Option.some.inj h')
      exact ⟨rfl, env, rfl⟩
    case isFalse => cases h'
  | fail e h => cases h

/-- What the answer to the insert of an invoice tells. -/
def InsertInvoiceAnswer (w : World) (p : Pid) (new : NewInvoice) (w' : World) :
    Except DbError Invoice → Prop
  | .error _ => w' = w.release p
  | .ok v => w' = w.write p (.insertInvoice v) ∧ ∃ now, new.row v.id now = .ok v

theorem NewInvoice.row_id {new : NewInvoice} {id : Uuid} {now : Timestamp} {v : Invoice}
    (h : new.row id now = .ok v) : v.id = id := by
  unfold NewInvoice.row at h
  split at h
  · split at h
    · rw [← Except.ok.inj h]
    · cases h
  · cases h

theorem answers_insertInvoice {new : NewInvoice} {r : Except DbError Invoice}
    (h : Answers w p (.insertInvoice new) r w') : InsertInvoiceAnswer w p new w' r := by
  cases h with
  | exec env h =>
    have h' := (exec_eq_some.mp h).2
    simp only [perform, insertInvoice] at h'
    split at h'
    case h_1 =>
      obtain ⟨err, hx⟩ := reject_eq_some h'
      obtain ⟨rfl, rfl⟩ := Prod.mk.inj hx
      rfl
    case h_2 v hv =>
      split at h'
      case isTrue =>
        obtain ⟨rfl, rfl⟩ := Prod.mk.inj (Option.some.inj h')
        exact ⟨rfl, env.now, NewInvoice.row_id hv ▸ hv⟩
      case isFalse => cases h'
  | fail e h => cases h

/-- What the answer to the insert of line items tells. -/
def InsertLineItemsAnswer (w : World) (p : Pid) (invoiceId : Uuid) (new : List NewLineItem)
    (w' : World) : Except DbError Unit → Prop
  | .error _ => w' = w.release p
  | .ok () => ∃ (ids : ℕ → Uuid) (now : Timestamp) (rows : List InvoiceLineItem),
      buildRows (fun n id => n.row invoiceId id now) ids 0 new = .ok rows ∧
        w' = w.write p (.insertLineItems rows)

/-- The line items are inserted all together, or the transaction has ended. -/
theorem answers_insertLineItems {invoiceId : Uuid} {new : List NewLineItem}
    {r : Except DbError Unit} (h : Answers w p (.insertLineItems invoiceId new) r w') :
    InsertLineItemsAnswer w p invoiceId new w' r := by
  cases h with
  | exec env h =>
    have h' := (exec_eq_some.mp h).2
    simp only [perform, insertLineItems] at h'
    split at h'
    case h_1 =>
      obtain ⟨err, hx⟩ := reject_eq_some h'
      obtain ⟨rfl, rfl⟩ := Prod.mk.inj hx
      rfl
    case h_2 rows hrows =>
      split at h'
      case isTrue =>
        obtain ⟨rfl, rfl⟩ := Prod.mk.inj (Option.some.inj h')
        exact ⟨env.ids, env.now, rows, hrows, rfl⟩
      case isFalse => cases h'
  | fail e h => cases h

/-- What the answer to the deactivation of an endpoint tells. -/
def DeactivateAnswer (w : World) (p : Pid) (id : Uuid) (w' : World) : Except DbError Unit → Prop
  | .error _ => w' = w.release p
  | .ok () => w' = (w.lock p ⟨.endpoints, id⟩).write p (.deactivateEndpoint id)

theorem answers_deactivateEndpoint {id : Uuid} {r : Except DbError Unit}
    (h : Answers w p (.deactivateEndpoint id) r w') : DeactivateAnswer w p id w' r := by
  cases h with
  | exec env h =>
    obtain ⟨rfl, rfl⟩ := Prod.mk.inj (Option.some.inj (exec_eq_some.mp h).2)
    rfl
  | fail e h =>
    obtain ⟨rfl, rfl⟩ := Prod.mk.inj (Option.some.inj h)
    rfl

/-! ### Executed statements that do not fail -/

/-- Only the deadlock detector makes a `FOR UPDATE` fail. -/
theorem exec_lockInvoice {env : Env} {id : Uuid} {businessId : Option Uuid}
    {r : Except DbError (Option Invoice)}
    (h : w.exec p env (.lockInvoice id businessId) = some (r, w')) :
    ∃ x, r = .ok x := by
  have hr := congrArg Prod.fst (Option.some.inj (exec_eq_some.mp h).2)
  rw [← show _ = r from hr]
  unfold lockInvoice
  split
  · split <;> exact ⟨_, rfl⟩
  · exact ⟨_, rfl⟩

theorem exec_updateInvoice {env : Env} {id : Uuid} {state : InvoiceState} {r : Except DbError Unit}
    (h : w.exec p env (.updateInvoice id state) = some (r, w')) : r = .ok () :=
  (congrArg Prod.fst (Option.some.inj (exec_eq_some.mp h).2)).symm

/-- An update of an attempt that is executed fails for a text that is not stored only. -/
theorem exec_updateAttempt {env : Env} {id : Uuid} {change : AttemptChange} {update : AttemptUpdate}
    {r : Except DbError Unit} (h : w.exec p env (.updateAttempt id change) = some (r, w'))
    (hbind : change.bind = .ok update) : r = .ok () := by
  have h' := (exec_eq_some.mp h).2
  simp only [perform, hbind] at h'
  exact (congrArg Prod.fst (Option.some.inj h')).symm

/-- **What a statement can do**, all told. -/
structure Effect (w : World) (p : Pid) (st : Stmt) (w' : World) : Prop where
  writes : ∀ x ∈ w'.writesOf p, x ∈ w.writesOf p ∨ st.Writes x
  locks : ∀ r, w'.locks r = some p → w.locks r = some p ∨ st.Locks r
  charges : ¬st.IsCharge → w'.charges = w.charges
  db : st ≠ .commit → w'.db = w.db
  history : st ≠ .commit → w'.history = w.history

theorem Effect.refl (w : World) (p : Pid) (st : Stmt) : Effect w p st w :=
  ⟨fun _ => Or.inl, fun _ => Or.inl, fun _ => rfl, fun _ => rfl, fun _ => rfl⟩

theorem Effect.trans {w'' : World} {st : Stmt} (h : Effect w p st w') (h' : Effect w' p st w'') :
    Effect w p st w'' := by
  refine ⟨?_, ?_, fun hst => (h'.charges hst).trans (h.charges hst),
    fun hst => (h'.db hst).trans (h.db hst), fun hst => (h'.history hst).trans (h.history hst)⟩
  · intro x hx
    rcases h'.writes x hx with hx | hx
    · exact h.writes x hx
    · exact Or.inr hx
  · intro r hr
    rcases h'.locks r hr with hr | hr
    · exact h.locks r hr
    · exact Or.inr hr

/-- Each elementary act has the effects that its statement may have. -/
theorem Act.effect {st : Stmt} (h : Act p st w w') : Effect w p st w' := by
  have hrelease : ∀ w : World, (∀ x ∈ (w.release p).writesOf p, x ∈ w.writesOf p ∨ st.Writes x) ∧
      ∀ r, (w.release p).locks r = some p → w.locks r = some p ∨ st.Locks r := by
    intro w
    refine ⟨fun x hx => ?_, fun r hr => absurd hr (locks_release_self w p r)⟩
    rw [writesOf_release, if_pos rfl] at hx
    cases hx
  cases h with
  | write x hst _ _ _ =>
    refine ⟨fun y hy => ?_, fun _ => Or.inl, fun _ => rfl, fun _ => rfl, fun _ => rfl⟩
    rw [writesOf_write, if_pos rfl] at hy
    rcases List.mem_append.mp hy with hy | hy
    · exact Or.inl hy
    · exact Or.inr (List.mem_singleton.mp hy ▸ hst)
  | lock r hst _ =>
    refine ⟨fun _ => Or.inl, fun r' hr' => ?_, fun _ => rfl, fun _ => rfl, fun _ => rfl⟩
    rw [locks_lock] at hr'
    split at hr'
    case isTrue heq => exact Or.inr (heq ▸ hst)
    case isFalse => exact Or.inl hr'
  | release => exact ⟨(hrelease w).1, (hrelease w).2, fun _ => rfl, fun _ => rfl, fun _ => rfl⟩
  | commit hst =>
    have hcommit := hrelease { w with db := w.view p, history := w.history ++ [⟨p, w.writesOf p⟩] }
    exact ⟨hcommit.1, hcommit.2, fun _ => rfl, fun hne => absurd hst hne, fun hne => absurd hst hne⟩
  | send c hst _ =>
    exact ⟨fun _ => Or.inl, fun _ => Or.inl, fun hne => absurd hst hne, fun _ => rfl, fun _ => rfl⟩
  | receive result hst =>
    exact ⟨fun _ => Or.inl, fun _ => Or.inl, fun hne => absurd hst hne, fun _ => rfl, fun _ => rfl⟩
  | post x => exact ⟨fun _ => Or.inl, fun _ => Or.inl, fun _ => rfl, fun _ => rfl, fun _ => rfl⟩

theorem Acts.effect {st : Stmt} (h : Acts p st w w') : Effect w p st w' := by
  induction h with
  | refl => exact .refl w p st
  | tail _ hact ih => exact ih.trans hact.effect

/-- **No answer does more than its statement may do.** -/
theorem Answers.effect {st : Stmt} {r : st.Resp} (h : Answers w p st r w') : Effect w p st w' :=
  h.acts.effect

end World

end TenantBilling
