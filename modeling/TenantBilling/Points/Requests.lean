import TenantBilling.Points.Create
import TenantBilling.Points.Peripheral
import TenantBilling.Points.Transition

/-!
# Requests leave the deliveries alone

Only the webhook worker claims deliveries, posts them and updates them: no request issues such a
statement (`TenantBilling.leaves_request`). For the requests with points this is read off
their points.
-/

namespace TenantBilling

open Base Orm

/-- A statement of the webhook worker. -/
def Stmt.Delivers : Stmt → Prop
  | claimDeliveries .. => True
  | updateDelivery .. => True
  | post .. => True
  | _ => False

/-- A statement that leaves the deliveries to the worker. -/
def Stmt.Leaves (st : Stmt) : Prop := ¬st.Delivers

instance : Stmt.Plain Stmt.Leaves := ⟨id, id, id, id⟩

/-- A machine that issues no statement of the worker. -/
theorem leaves_of_tracks {P : Type} {out : P → Node Stmt Stmt.Resp (Except Exc Result) P} {pt : P}
    {prog : ServerProg (Except Exc Result)} (h : Prog.Tracks out pt prog)
    (hout : ∀ pt st next, out pt = .op st next → st.Leaves) :
    Prog.Keeps (only Stmt.Leaves) (fun _ _ => True) () prog :=
  h.keeps (C := fun _ => True) trivial
    (fun pt st next _ hpt => ⟨fun _ _ => hout pt st next hpt, fun _ => trivial⟩)
    fun _ _ _ _ _ _ => trivial

/-- **No request issues a statement of the worker.** -/
theorem leaves_request (crypto : Crypto) (business : Business) (req : Request) :
    Prog.Keeps (only Stmt.Leaves) (fun _ _ => True) ()
      (Job.program crypto (.request business req)) := by
  have htransition : ∀ (c : TransitionCall) (pt : TransitionPoint) st next,
      pt.out c = .op st next → st.Leaves := by
    intro c pt st next hout
    cases pt <;> cases hout <;> exact id
  cases req with
  | pay invoiceId cardToken idempotencyKey =>
    refine leaves_of_tracks (tracks_pay crypto ⟨business, invoiceId, cardToken, idempotencyKey⟩) ?_
    intro pt st next hout
    cases pt <;> cases hout <;> exact id
  | createInvoice payload =>
    refine leaves_of_tracks (tracks_create crypto ⟨business, payload⟩) ?_
    intro pt st next hout
    cases pt <;> cases hout <;> exact id
  | deactivateEndpoint endpointId =>
    refine leaves_of_tracks (tracks_deactivate crypto ⟨business, endpointId⟩) ?_
    intro pt st next hout
    cases pt <;> cases hout <;> exact id
  | finalize invoiceId =>
    exact leaves_of_tracks (tracks_transition ⟨business, invoiceId, .open⟩) (htransition _)
  | void invoiceId =>
    exact leaves_of_tracks (tracks_transition ⟨business, invoiceId, .void⟩) (htransition _)
  | uncollectible invoiceId =>
    exact leaves_of_tracks (tracks_transition ⟨business, invoiceId, .uncollectible⟩) (htransition _)
  | _ => exact Only.getDb (only_route (fun _ _ => id) crypto trivial (fun _ _ => id) fun _ _ => id)

end TenantBilling
