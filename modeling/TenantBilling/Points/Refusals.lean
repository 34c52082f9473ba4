import TenantBilling.Points.Create
import TenantBilling.Points.Peripheral
import TenantBilling.Points.Transition

/-!
# What an error leaves of a program

Three facts about the programs of the requests, said of all that is left of them after an
answer (`Base.Prog.Along`).

* Every program ends its transaction before it returns (`TenantBilling.closes_program`).
* A request other than a payment that has been answered with an error of the driver does not
  commit any more, and one that has committed raises no domain exception any more
  (`TenantBilling.orderly_request`).
* A payment that has been answered with an error before its first commit does not commit any
  more (`TenantBilling.quiet_pay`).
-/

namespace TenantBilling

open Base Orm

/-- The error of the driver in an answer. -/
def Stmt.error? : (st : Stmt) → st.Resp → Option DbError
  | .lockInvoice .., .error e => some e
  | .insertCustomer .., .error e => some e
  | .insertInvoice .., .error e => some e
  | .insertLineItems .., .error e => some e
  | .insertAttempt .., .error e => some e
  | .insertEndpoint .., .error e => some e
  | .insertDeliveries .., .error e => some e
  | .updateInvoice .., .error e => some e
  | .updateAttempt .., .error e => some e
  | .deactivateEndpoint .., .error e => some e
  | .updateDelivery .., .error e => some e
  | _, _ => none

/-- A program that does not commit. -/
abbrev Quiet {α : Type} (prog : ServerProg α) : Prop :=
  prog.Keeps (only (· ≠ .commit)) (fun _ _ => True) ()

/-- A program that raises no domain exception. -/
abbrev Unrefused (prog : ServerProg (Except Exc Result)) : Prop :=
  prog.Keeps (only fun _ => True) (fun _ x => ∀ e, x ≠ .error (.app e)) ()

/-- An error leaves a program that does not commit, and a commit one that raises no domain
exception. -/
def Orderly (st : Stmt) (r : st.Resp) (rest : ServerProg (Except Exc Result)) : Prop :=
  (st.error? r ≠ none → Quiet rest) ∧ (st = .commit → Unrefused rest)

/-- Nothing is returned but after a rollback. -/
def Closes {α : Type} (st : Stmt) (_ : st.Resp) (rest : ServerProg α) : Prop :=
  ∀ x, rest = .ret x → st = .rollback

/-! ### The end of a transaction -/

theorem closes_getDb {α : Type} (m : Orm α) : Prog.Along Closes (getDb m) := by
  refine Prog.Along.bind (Prog.along_of_forall fun st r rest => ?_) fun x => ?_
  · -- the rollback is still to come
    rintro y hy
    cases rest <;> cases hy
  · exact fun _ => ⟨fun _ _ => rfl, trivial⟩

theorem closes_program (crypto : Crypto) (job : Job) : Prog.Along Closes (job.program crypto) := by
  cases job with
  | request business req => exact closes_getDb _
  | poll => exact closes_getDb _

/-- No program returns at once. -/
theorem program_ne_ret (crypto : Crypto) (job : Job) (x : Except Exc Result) :
    job.program crypto ≠ .ret x := by
  have hgetDb : ∀ m : Orm Result, getDb m ≠ .ret x := by
    intro m hm
    unfold getDb at hm
    cases hprog : m {} <;> rw [hprog] at hm <;> cases hm
  cases job with
  | request business req => exact hgetDb _
  | poll => exact hgetDb _

/-! ### Requests other than payments -/

section Machines

variable {P : Type} {out : P → Node Stmt Stmt.Resp (Except Exc Result) P}
  {closing done : Except Exc Result → P}

/-- A machine whose last points roll back and return. -/
structure Ends (out : P → Node Stmt Stmt.Resp (Except Exc Result) P)
    (closing done : Except Exc Result → P) : Prop where
  closing : ∀ x, out (closing x) = .op .rollback fun _ => done x
  done : ∀ x, out (done x) = .ret x

theorem Ends.keeps (h : Ends out closing done) {A : Stmt → Prop} (hrollback : A .rollback)
    {Q : Unit → Except Exc Result → Prop} {x : Except Exc Result} (hx : Q () x)
    {prog : ServerProg (Except Exc Result)} (htracks : Prog.Tracks out (closing x) prog) :
    prog.Keeps (only A) Q () := by
  refine htracks.keeps (C := fun pt => pt = closing x ∨ pt = done x) (Or.inl rfl) ?_ ?_
  · rintro pt st next (rfl | rfl) hout
    · rw [h.closing] at hout
      cases hout
      exact ⟨fun _ _ => hrollback, fun _ => Or.inr rfl⟩
    · rw [h.done] at hout
      cases hout
  · rintro pt y (rfl | rfl) hout κ -
    · rw [h.closing] at hout
      cases hout
    · rw [h.done] at hout
      cases hout
      exact hx

/-- A machine that closes on an error, and whose commit is followed by the end of a
result. -/
theorem Ends.orderly (h : Ends out closing done) {pt : P} {prog : ServerProg (Except Exc Result)}
    (htracks : Prog.Tracks out pt prog)
    (herror : ∀ pt st next r, out pt = .op st next → st.error? r ≠ none → ∃ x, next r = closing x)
    (hcommit : ∀ pt next r, out pt = .op .commit next → ∃ y, next r = closing (.ok y)) :
    prog.Along Orderly := by
  refine htracks.along fun pt st next r rest hout hrest => ⟨fun hr => ?_, fun hst => ?_⟩
  · obtain ⟨x, hx⟩ := herror pt st next r hout hr
    exact h.keeps (by simp) trivial (hx ▸ hrest)
  · subst hst
    obtain ⟨y, hy⟩ := hcommit pt next r hout
    exact h.keeps trivial (by simp) (hy ▸ hrest)

end Machines

/-- A program that does not commit. -/
theorem Quiet.orderly {prog : ServerProg (Except Exc Result)} (h : Quiet prog) :
    prog.Along Orderly := by
  induction prog with
  | ret x => trivial
  | op st k ih => exact fun r => ⟨⟨fun _ => h.next r, fun hst => absurd hst h.1⟩, ih r (h.next r)⟩

/-- The session is closed with a result. -/
theorem orderly_closing {x : Except Exc Result} :
    Prog.Along Orderly (.op .rollback fun _ => .ret x : ServerProg (Except Exc Result)) :=
  Quiet.orderly ⟨by simp, fun _ => trivial⟩

theorem quiet_closing {x : Except Exc Result} :
    Quiet (.op .rollback fun _ => .ret x : ServerProg (Except Exc Result)) :=
  ⟨by simp, fun _ => trivial⟩

/-- What is left of a program when its statement is raised or its result committed. -/
theorem orderly_insert {st : Stmt} {k : st.Resp → ServerProg (Except Exc Result)}
    (h : ∀ r, Prog.Along Orderly (k r) ∧ (st.error? r ≠ none → Quiet (k r))) (hst : st ≠ .commit) :
    Prog.Along Orderly (.op st k) :=
  fun r => ⟨⟨(h r).2, fun hc => absurd hc hst⟩, (h r).1⟩

theorem orderly_commit {y : Result} :
    Prog.Along Orderly (.op .commit fun _ => .op .rollback fun _ => .ret (.ok y) :
      ServerProg (Except Exc Result)) :=
  fun _ => ⟨⟨fun h => absurd rfl h, fun _ => ⟨trivial, fun _ => by simp⟩⟩, orderly_closing⟩

section Requests

variable (crypto : Crypto) (business : Business)

theorem orderly_createCustomer (name email : String) :
    Prog.Along Orderly (getDb (route crypto business (.createCustomer name email))) := by
  refine orderly_insert ?_ (by simp)
  rintro (e | customer)
  · cases e with
    | integrity text =>
      have hquiet : Quiet (.op .rollback fun _ => .op .rollback fun _ =>
        .ret (.error (.app (.conflict
          ("A customer with email '" ++ email ++ "' already exists")))) :
            ServerProg (Except Exc Result)) :=
        ⟨by simp, fun _ => quiet_closing⟩
      exact ⟨hquiet.orderly, fun _ => hquiet⟩
    | _ => exact ⟨orderly_closing, fun _ => quiet_closing⟩
  · exact ⟨orderly_commit, fun h => absurd rfl h⟩

theorem orderly_createEndpoint (url : String) :
    Prog.Along Orderly (getDb (route crypto business (.createEndpoint url))) := by
  refine orderly_insert (fun secret => ⟨?_, fun h => absurd rfl h⟩) (by simp)
  refine orderly_insert ?_ (by simp)
  rintro (e | endpoint)
  · exact ⟨orderly_closing, fun _ => quiet_closing⟩
  · exact ⟨orderly_commit, fun h => absurd rfl h⟩

theorem ends_transition (c : TransitionCall) :
    Ends (TransitionPoint.out c) TransitionPoint.closing TransitionPoint.done :=
  ⟨fun _ => rfl, fun _ => rfl⟩

theorem orderly_transition (c : TransitionCall) :
    Prog.Along Orderly (getDb (transition c.business c.invoiceId c.target)) := by
  refine (ends_transition c).orderly (tracks_transition c) ?_ ?_
  · rintro pt st next r hout hr
    cases pt with
    | update v =>
      cases hout
      rcases r with e | _
      · exact ⟨_, rfl⟩
      · exact absurd rfl hr
    | done x => cases hout
    | _ => cases hout; exact absurd rfl hr
  · rintro pt next r hout
    cases pt <;> cases hout
    exact ⟨_, rfl⟩

theorem orderly_createInvoice (payload : InvoiceCreate) :
    Prog.Along Orderly (getDb (route crypto business (.createInvoice payload))) := by
  have hends : Ends (CreatePoint.out ⟨business, payload⟩) CreatePoint.closing CreatePoint.done :=
    ⟨fun _ => rfl, fun _ => rfl⟩
  refine hends.orderly (tracks_create crypto ⟨business, payload⟩) ?_ ?_
  · rintro pt st next r hout hr
    cases pt with
    | insert | insertItems v | outbox v endpoints now =>
      cases hout
      rcases r with e | _
      · exact ⟨_, rfl⟩
      · exact absurd rfl hr
    | done x => cases hout
    | _ => cases hout; exact absurd rfl hr
  · rintro pt next r hout
    cases pt <;> cases hout
    exact ⟨_, rfl⟩

theorem orderly_deactivateEndpoint (endpointId : Uuid) :
    Prog.Along Orderly (getDb (route crypto business (.deactivateEndpoint endpointId))) := by
  have hends : Ends (DeactivatePoint.out ⟨business, endpointId⟩) DeactivatePoint.closing
      DeactivatePoint.done :=
    ⟨fun _ => rfl, fun _ => rfl⟩
  refine hends.orderly (tracks_deactivate crypto ⟨business, endpointId⟩) ?_ ?_
  · rintro pt st next r hout hr
    cases pt with
    | update e =>
      cases hout
      rcases r with err | _
      · exact ⟨_, rfl⟩
      · exact absurd rfl hr
    | done x => cases hout
    | _ => cases hout; exact absurd rfl hr
  · rintro pt next r hout
    cases pt <;> cases hout
    exact ⟨_, rfl⟩

/-- A request that only reads. -/
theorem orderly_read {m : Orm Result} (h : Only (· ≠ .commit) m) : Prog.Along Orderly (getDb m) :=
  Quiet.orderly (keeps_getDb h fun _ _ => by simp)

/-- **A request other than a payment does not commit after an error**, and raises no domain
exception after a commit. -/
theorem orderly_request {req : Request} (h : ∀ i token key, req ≠ .pay i token key) :
    Prog.Along Orderly (Job.program crypto (.request business req)) := by
  have hselect : ∀ q : Query, q.Of business.id → Stmt.select q ≠ .commit := by simp
  cases req with
  | createCustomer name email => exact orderly_createCustomer crypto business name email
  | listCustomers skip limit =>
    exact orderly_read (.bind (only_listCustomers hselect _ _) fun _ => .pure _)
  | getCustomer customerId =>
    exact orderly_read (.bind (only_getCustomer hselect _) fun _ => .pure _)
  | createInvoice payload => exact orderly_createInvoice crypto business payload
  | listInvoices state skip limit =>
    refine orderly_read ?_
    change Only _ (if state = "" then _ else _)
    split
    · exact .bind (only_listInvoices hselect _ _ _) fun _ => .pure _
    · cases InvoiceState.ofValue? state with
      | none => exact .raise _
      | some st => exact .bind (only_listInvoices hselect _ _ _) fun _ => .pure _
  | getInvoice invoiceId => exact orderly_read (.bind (only_getInvoice hselect _) fun _ => .pure _)
  | finalize invoiceId => exact orderly_transition ⟨business, invoiceId, .open⟩
  | void invoiceId => exact orderly_transition ⟨business, invoiceId, .void⟩
  | uncollectible invoiceId => exact orderly_transition ⟨business, invoiceId, .uncollectible⟩
  | pay i token key => exact absurd rfl (h i token key)
  | createEndpoint url => exact orderly_createEndpoint crypto business url
  | listEndpoints => exact orderly_read (.bind (.select (hselect _ rfl)) fun _ => .pure _)
  | deactivateEndpoint endpointId => exact orderly_deactivateEndpoint crypto business endpointId

end Requests

/-! ### Payments -/

section Payments

variable {crypto : Crypto} {c : PayCall}

/-- The points at which a payment has been refused before its first commit, or has ended. -/
def PayPoint.Refused : PayPoint → Prop
  | undo _ | relookup | closing .. | done .. => True
  | _ => False

theorem PayPoint.Refused.quiet {pt : PayPoint} (h : pt.Refused)
    {prog : ServerProg (Except Exc Result)}
    (htracks : Prog.Tracks (PayPoint.out crypto c) pt prog) :
    Quiet prog := by
  refine htracks.keeps (C := PayPoint.Refused) h ?_ fun _ _ _ _ _ _ => trivial
  rintro pt st next hpt hout
  cases pt with
  | undo text =>
    cases hout
    refine ⟨fun _ _ => by simp, fun _ => ?_⟩
    dsimp only
    split <;> trivial
  | relookup =>
    cases hout
    refine ⟨fun _ _ => by simp, ?_⟩
    rintro (_ | winner)
    · trivial
    · dsimp only
      split <;> trivial
  | closing x g => cases hout; exact ⟨fun _ _ => by simp, fun _ => trivial⟩
  | done x g => cases hout
  | _ => exact hpt.elim

/-- **A payment does not commit after an error before its first commit.** -/
theorem quiet_pay {pt : PayPoint} {st : Stmt} {next : st.Resp → PayPoint} {r : st.Resp}
    {rest : ServerProg (Except Exc Result)} (hout : pt.out crypto c = .op st next)
    (hnothing : pt.progress = .nothing) (hr : st.error? r ≠ none)
    (hrest : Prog.Tracks (PayPoint.out crypto c) (next r) rest) : Quiet rest := by
  refine PayPoint.Refused.quiet ?_ hrest
  cases pt with
  | lookup => cases hout; exact absurd rfl hr
  | lock =>
    cases hout
    rcases r with e | v
    · trivial
    · exact absurd rfl hr
  | insert v =>
    cases hout
    rcases r with e | a
    · cases e <;> trivial
    · exact absurd rfl hr
  | undo text => cases hout; exact absurd rfl hr
  | relookup => cases hout; exact absurd rfl hr
  | reserve v a => cases hout; exact absurd rfl hr
  | closing x g => cases hout; exact absurd rfl hr
  | done x g => cases hout
  | _ => cases hnothing

end Payments

end TenantBilling
