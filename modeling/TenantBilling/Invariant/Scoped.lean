import TenantBilling.Invariant.Tenants
import TenantBilling.World.Agree

/-!
# Every statement of a request is about rows of its business

What a session knows of the owners of the rows it goes by makes each of its statements one
about rows of its business (`TenantBilling.System.Owned.scoped`): it asks for the business,
or it names a row that the session has found to be one of it. There is one exception, the
lookup of an attempt by its idempotency key, which is the first statement of a payment and
comes before anything is known of the invoice.
-/

namespace TenantBilling

open Base World

section Scoped

variable {crypto : Crypto} {s : System} {φ : Pid → Phase} {p : Pid} {st : Stmt}

theorem view_grows (w : World) (p : Pid) : w.db.Grows (w.view p) :=
  Database.grows_applyAll w.db (w.writesOf p)

/-- The invoice that a request has inserted is one of its business. -/
theorem CreateCall.Creating.hasInvoice {w : World} {c : CreateCall} {v : Invoice}
    {rest : List Write} (h : c.Creating w p v rest) (hcons : w.Consistent) :
    (w.view p).HasInvoice c.business.id v.id := by
  obtain ⟨hmade, -, rows, -, hwrites⟩ := h
  refine Database.HasInvoiceIn.applyAll (Or.inr ⟨v, ?_, rfl, (newInvoice_row hmade).1⟩)
    (hcons.fits p)
  rw [hwrites]
  simp

theorem CreatePoint.Holds.scoped {w : World} {c : CreateCall} {pt : CreatePoint}
    {next : st.Resp → CreatePoint} (h : pt.Holds w p c) (hcons : w.Consistent)
    (hout : pt.out c = .op st next) : st.Scoped (w.view p) c.business.id := by
  cases pt with
  | reselect v endpoints =>
    cases hout
    obtain ⟨-, rest, -, hcreating⟩ := h
    exact hcreating.hasInvoice hcons
  | readCustomer | listEndpoints =>
    cases hout
    rfl
  | done => cases hout
  | _ =>
    cases hout
    trivial

theorem DeactivatePoint.scoped {db : Database} {c : DeactivateCall} {pt : DeactivatePoint}
    {next : st.Resp → DeactivatePoint} (hout : pt.out c = .op st next) :
    st.Scoped db c.business.id := by
  cases pt with
  | read =>
    cases hout
    rfl
  | done => cases hout
  | _ =>
    cases hout
    trivial

theorem TransitionPoint.Owned.scoped {w : World} {c : TransitionCall} {pt : TransitionPoint}
    {next : st.Resp → TransitionPoint} (h : pt.Owned w.db c) (hholds : pt.Holds w p c)
    (hout : pt.out c = .op st next) :
    st.Scoped (w.view p) c.business.id := by
  cases pt with
  | reselect v =>
    cases hout
    change (w.view p).HasInvoice c.business.id v.id
    rw [hholds.1.id]
    exact Database.HasInvoice.grows h (view_grows w p)
  | read =>
    cases hout
    rfl
  | done => cases hout
  | _ =>
    cases hout
    trivial

/-- A payment of an invoice of its business. -/
theorem PayPoint.scoped {w : World} {c : PayCall} {pt : PayPoint} {next : st.Resp → PayPoint}
    (hattempt : ∀ a, pt.progress.attempt? = some a → w.db.Owns c.business.id a.ref)
    (hinvoice : w.db.HasInvoice c.business.id c.invoiceId) (hout : pt.out crypto c = .op st next) :
    st.Scoped (w.view p) c.business.id := by
  have hi := hinvoice.grows (view_grows w p)
  cases pt with
  | lookup | insert | relookup | relock =>
    cases hout
    exact hi
  | refetch v a http outcome =>
    cases hout
    exact (hattempt a rfl).grows (view_grows w p)
  | refresh a http =>
    cases hout
    exact (hattempt a rfl).grows (view_grows w p)
  | lock | listEndpoints =>
    cases hout
    rfl
  | done => cases hout
  | _ =>
    cases hout
    trivial

theorem Stmt.Registers.scoped {db : Database} {b : Uuid} (h : st.Registers (some b)) :
    st.Scoped db b := by
  cases st with
  | select q =>
    have hq : q.Of b := h b rfl
    cases q with
    | invoice id businessId =>
      cases businessId with
      | none => cases hq
      | some businessId => exact hq
    | attemptByKey => exact hq.elim
    | attemptById => exact hq.elim
    | _ => exact hq
  | lockInvoice id businessId => exact h.elim
  | claimDeliveries => cases h
  | insertCustomer => exact Option.some.inj h
  | insertAttempt => exact h.elim
  | _ => trivial

/-- **Every statement of a request is about rows of its business**, if what it pays, where it pays
anything, is an invoice of it. -/
theorem System.Owned.scoped (h : s.Sound crypto φ) (ho : s.Owned φ) {business : Business}
    {req : Request} {k : st.Resp → ServerProg (Except Exc Result)}
    (hproc : s.procs[p]? = some ⟨.request business req, .op st k, true⟩)
    (hpay : ∀ i token key, req = .pay i token key → s.world.db.HasInvoice business.id i) :
    st.Scoped (s.world.view p) business.id := by
  have htracks := h.tracks p _ hproc
  have howned := ho.phases p
  cases hph : φ p with
  | pay c pt =>
    rw [hph] at htracks howned
    obtain ⟨hjob, next, hout, -⟩ := htracks
    obtain ⟨rfl, rfl⟩ := Job.request.inj hjob
    exact PayPoint.scoped (fun a ha => ho.attempt h hph ha) (hpay _ _ _ rfl) hout
  | transition c pt =>
    have hholds := h.alive p ⟨_, hproc, rfl⟩
    rw [hph] at htracks howned hholds
    obtain ⟨⟨req', hjob, -⟩, next, hout, -⟩ := htracks
    obtain ⟨rfl, rfl⟩ := Job.request.inj hjob
    exact TransitionPoint.Owned.scoped howned hholds hout
  | other =>
    rw [hph] at htracks
    cases ho.sides p _ hproc rfl with
    | phase hnot => exact absurd htracks.1 hnot
    | create htracks hholds =>
      obtain ⟨next, hout, -⟩ := htracks
      exact hholds.scoped h.consistent hout
    | deactivate htracks hholds =>
      obtain ⟨next, hout, -⟩ := htracks
      exact DeactivatePoint.scoped hout
    | registers hreq hprog hwrites => exact hprog.1.scoped

end Scoped

end TenantBilling
