import TenantBilling.Model.System

/-!
# The points of a transition

The points of `finalize`, `void` and `uncollectible`, which share their program and
differ in the target. As for payments (`TenantBilling.tracks_pay`), the program is
unfolded once, in `TenantBilling.tracks_transition`.
-/

namespace TenantBilling

open Base

/-- The arguments of a transition request. -/
structure TransitionCall where
  business : Business
  invoiceId : Uuid
  target : InvoiceState

/-- The state of an object made of a row when the session has loaded an invoice and
assigned its state. -/
def Invoice.orAssigned (row v : Invoice) (target : InvoiceState) : Invoice :=
  if v.id = row.id then { row with state := target } else row

/-- The places a transition can be at. -/
inductive TransitionPoint where
  /-- The invoice is read, without a lock. -/
  | read
  /-- The check has passed; the new state is flushed. -/
  | update (v : Invoice)
  /-- The invoice is read again. -/
  | reselect (v : Invoice)
  | commit (v : Invoice) (x : Invoice × List InvoiceLineItem)
  /-- The route has returned or raised; the session is closed. -/
  | closing (x : Except Exc Result)
  | done (x : Except Exc Result)

variable (c : TransitionCall)

namespace TransitionPoint

/-- The statement issued at a point, and the next point for each answer. -/
def out : TransitionPoint → Node Stmt Stmt.Resp (Except Exc Result) TransitionPoint
  | read => .op (.select (.invoice c.invoiceId (some c.business.id))) fun
    | some (v, _) =>
      match assertTransitionAllowed v.state c.target with
      | .error e => closing (.error (.app e))
      | .ok () => update v
    | none => closing (.error (.app (.notFound "Invoice" none)))
  | update v => .op (.updateInvoice v.id c.target) fun
    | .error e => closing (.error (.db e))
    | .ok () => reselect v
  | reselect v => .op (.select (.invoice v.id none)) fun
    | some (row, lineItems) => commit v (row.orAssigned v c.target, lineItems)
    | none => closing (.error (.python "NoResultFound"))
  | commit _ x => .op .commit fun _ => closing (.ok (.invoice x))
  | closing x => .op .rollback fun _ => done x
  | done x => .ret x

end TransitionPoint

/-! ### The program and its points -/

section Tracks

open Prog Orm

theorem tracks_transition_closing (x : Except Exc Result) :
    Tracks (TransitionPoint.out c) (.closing x) (.op .rollback fun _ => .ret x) :=
  Tracks.intro rfl fun _ => rfl

theorem loadInvoice_assigned (row v : Invoice) (target : InvoiceState) :
    ∃ invoices, loadInvoice row ⟨[{ v with state := target }], [], []⟩ =
      .ret (.ok (row.orAssigned v target), ⟨invoices, [], []⟩) := by
  unfold loadInvoice Invoice.orAssigned
  by_cases h : v.id = row.id
  · exact ⟨[{ v with state := target }], by simp [h]⟩
  · exact ⟨[{ v with state := target }, row], by simp [h]⟩

/-- **The program of a transition is the machine of its points.** -/
theorem tracks_transition :
    Tracks (TransitionPoint.out c) .read
      (getDb (transition c.business c.invoiceId c.target)) := by
  refine Tracks.intro rfl ?_
  rintro (_ | ⟨v, lineItems⟩)
  · exact tracks_transition_closing ..
  change Tracks _ (match assertTransitionAllowed v.state c.target with
      | .error e => TransitionPoint.closing (.error (.app e))
      | .ok () => TransitionPoint.update v)
    (Prog.bind (Prog.bind (Prog.bind (ofApp (assertTransitionAllowed v.state c.target) _) _) _) _)
  cases assertTransitionAllowed v.state c.target with
  | error e => exact tracks_transition_closing ..
  | ok u =>
    refine Tracks.intro rfl ?_
    rintro (e | _)
    · exact tracks_transition_closing ..
    refine Tracks.intro rfl ?_
    rintro (_ | ⟨row, lineItems⟩)
    · exact tracks_transition_closing ..
    obtain ⟨invoices, hload⟩ := loadInvoice_assigned row v c.target
    change Tracks _ _ (Prog.bind (Prog.bind (Prog.bind (Prog.bind
      (loadInvoice row ⟨[if v.id = v.id then { v with state := c.target } else v], [], []⟩)
        _) _) _) _)
    rw [if_pos rfl, hload]
    exact Tracks.intro rfl fun _ => tracks_transition_closing ..

end Tracks

end TenantBilling
