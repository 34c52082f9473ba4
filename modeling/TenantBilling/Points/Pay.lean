import TenantBilling.Model.System

/-!
# The points of a payment

`TenantBilling.payInvoice` is a program without loops, and everything that is proved
about its interleavings is said of the places it can be at. This file names them:
`TenantBilling.PayPoint` lists the points, each with the objects its session holds
there, and `TenantBilling.PayPoint.out` is the statement issued at a point and the next
point for each answer. `TenantBilling.tracks_pay` says that this machine is the
program: it is the only place where the program itself is unfolded.

Beside what the code holds, the later points carry a record of what the payment has
done for good (`TenantBilling.Progress`): which attempt it has committed, whether the
provider has been called and what came back. No statement depends on it.
-/

namespace TenantBilling

open Base

/-- The arguments of a `pay` request. -/
structure PayCall where
  business : Business
  invoiceId : Uuid
  cardToken : String
  idempotencyKey : String
deriving DecidableEq

/-- What a payment has done for good. -/
inductive Progress where
  /-- It has committed no attempt. -/
  | nothing
  /-- It has committed a pending attempt. -/
  | reserved (a : PaymentAttempt)
  /-- It has sent the charge request for the attempt. -/
  | called (a : PaymentAttempt)
  /-- It has been told the outcome of the request. -/
  | answered (a : PaymentAttempt) (http : HttpResult)
  /-- It has committed the outcome. -/
  | settled (a : PaymentAttempt) (http : HttpResult)

/-- What `process_payment` resolves the outcome of a charge request to; other
exceptions are not caught. -/
def chargeOutcome (http : HttpResult) : Option (Except PspError PspChargeResult) :=
  match chargeResult http with
  | .ok result => some (.ok result)
  | .error (.psp e) => some (.error e)
  | .error _ => none

/-- The result says that the charge has succeeded. -/
def PspChargeResult.Succeeded (result : PspChargeResult) : Prop :=
  result.status.eqStr "succeeded" = true

instance (result : PspChargeResult) : Decidable result.Succeeded :=
  inferInstanceAs (Decidable (_ = _))

/-- The change of the attempt that persists an outcome. -/
def outcomeChange : Except PspError PspChargeResult → AttemptChange
  | .error e => unknownChange e
  | .ok result => if result.Succeeded then succeededChange result else failedChange result

/-- The event of a result. -/
def resultEvent (result : PspChargeResult) : EventType :=
  if result.Succeeded then .invoicePaid else .invoicePaymentFailed

/-- The payload of the event of a result. -/
def resultPayload (invoiceId : Uuid) (a : PaymentAttempt) (result : PspChargeResult) : Payload :=
  if result.Succeeded then paidPayload invoiceId a result else failedPayload invoiceId a result

/-- The object a session with a loaded attempt makes of a row. -/
def PaymentAttempt.orLoaded (row a : PaymentAttempt) : PaymentAttempt :=
  if a.id = row.id then a else row

/-- The state that a session with a loaded invoice sees in a row. -/
def Invoice.stateOrLoaded (row v : Invoice) : InvoiceState :=
  if v.id = row.id then v.state else row.state

/-- Another attempt is in progress: what a payment raises that meets one. -/
def otherInProgress : Exc :=
  .app (.invalidStateTransition "open" "paid"
    (some "another payment attempt is already in progress for this invoice"))

/-- The places a payment can be at. -/
inductive PayPoint where
  /-- Step 1: the cache check. -/
  | lookup
  /-- Step 2: the invoice is about to be locked. -/
  | lock
  /-- The invoice is locked and open. -/
  | insert (v : Invoice)
  /-- The insert was refused. -/
  | undo (errorMsg : String)
  /-- The winner of the race is looked up. -/
  | relookup
  /-- The first commit. -/
  | reserve (v : Invoice) (a : PaymentAttempt)
  /-- Step 3: the charge request is about to be sent. -/
  | send (v : Invoice) (a : PaymentAttempt)
  | receive (v : Invoice) (a : PaymentAttempt)
  /-- Step 4: the attempt is fetched again. -/
  | refetch (v : Invoice) (a : PaymentAttempt) (http : HttpResult)
      (outcome : Except PspError PspChargeResult)
  /-- The outcome is flushed to the attempt. -/
  | record (v : Invoice) (a : PaymentAttempt) (http : HttpResult)
      (outcome : Except PspError PspChargeResult)
  /-- The invoice is about to be locked again. -/
  | relock (v : Invoice) (a : PaymentAttempt) (http : HttpResult) (result : PspChargeResult)
  /-- The invoice is flushed as paid. -/
  | markPaid (a : PaymentAttempt) (http : HttpResult) (result : PspChargeResult)
  /-- The endpoints of the event are listed. -/
  | listEndpoints (a : PaymentAttempt) (http : HttpResult) (result : PspChargeResult)
  | readClock (a : PaymentAttempt) (http : HttpResult) (result : PspChargeResult)
      (endpoints : List WebhookEndpoint)
  /-- The outbox rows are inserted. -/
  | outbox (a : PaymentAttempt) (http : HttpResult) (result : PspChargeResult)
      (endpoints : List WebhookEndpoint) (now : Timestamp)
  /-- The second commit. -/
  | settle (a : PaymentAttempt) (http : HttpResult) (outcome : Except PspError PspChargeResult)
      (endpoints : List WebhookEndpoint)
  | refresh (a : PaymentAttempt) (http : HttpResult)
  /-- The route has returned or raised; the session is closed. -/
  | closing (x : Except Exc Result) (progress : Progress)
  | done (x : Except Exc Result) (progress : Progress)

variable (crypto : Crypto) (c : PayCall)

/-- The hash of a call's body. -/
def PayCall.requestHash : Varchar 64 := hashRequestBody crypto c.cardToken

namespace PayPoint

/-- Where a payment begins. -/
def start : PayPoint :=
  if c.idempotencyKey = "" then
    closing (.error (.http 422 "Idempotency-Key header is required")) .nothing
  else lookup

/-- After the outcome has been flushed to the attempt. -/
def recorded (v : Invoice) (a : PaymentAttempt) (http : HttpResult) :
    Except PspError PspChargeResult → PayPoint
  | .error e => settle a http (.error e) []
  | .ok result => if result.Succeeded then relock v a http result else listEndpoints a http result

/-- **The statement issued at a point, and the next point for each answer.** -/
def out : PayPoint → Node Stmt Stmt.Resp (Except Exc Result) PayPoint
  | lookup => .op (.select (.attemptByKey c.invoiceId c.idempotencyKey)) fun
    | some a =>
      if a.requestHash ≠ c.requestHash crypto then
        closing (.error (.app .idempotencyConflict)) .nothing
      else closing (.ok (.attempt a true)) .nothing
    | none => lock
  | lock => .op (.lockInvoice c.invoiceId (some c.business.id)) fun
    | .error e => closing (.error (.db e)) .nothing
    | .ok none =>
      closing (.error (.app (.notFound ("Invoice " ++ Uuid.str c.invoiceId ++ " not found") none)))
        .nothing
    | .ok (some v) =>
      match assertTransitionAllowed v.state .paid with
      | .error e => closing (.error (.app e)) .nothing
      | .ok () => insert v
  | insert v => .op (.insertAttempt
      (newAttempt crypto v c.invoiceId c.cardToken c.idempotencyKey)) fun
    | .error (.integrity errorMsg) => undo errorMsg
    | .error e => closing (.error (.db e)) .nothing
    | .ok a => reserve v a
  | undo errorMsg => .op .rollback fun _ =>
    if occursIn onePendingMarker errorMsg then closing (.error otherInProgress) .nothing
    else relookup
  | relookup => .op (.select (.attemptByKey c.invoiceId c.idempotencyKey)) fun
    | some winner =>
      if winner.requestHash = c.requestHash crypto then closing
        (.ok (.attempt winner true)) .nothing
      else closing (.error (.app .idempotencyConflict)) .nothing
    | none => closing (.error (.app .idempotencyConflict)) .nothing
  | reserve v a => .op .commit fun _ => send v a
  | send v a => .op (.sendCharge c.cardToken a.amountCents.val c.idempotencyKey) fun _ =>
    receive v a
  | receive v a => .op .awaitCharge fun http =>
    match chargeResult http with
    | .ok result => refetch v a http (.ok result)
    | .error (.psp e) => refetch v a http (.error e)
    | .error e => closing (.error e) (.answered a http)
  | refetch v a http outcome => .op (.select (.attemptById a.id)) fun
    | some row => record v (row.orLoaded a) http outcome
    | none => closing (.error (.python "NoResultFound")) (.answered a http)
  | record v a http outcome => .op (.updateAttempt a.id (outcomeChange outcome)) fun
    | .error e => closing (.error (.db e)) (.answered a http)
    | .ok () => recorded v a http outcome
  | relock v a http result => .op (.lockInvoice c.invoiceId none) fun
    | .error e => closing (.error (.db e)) (.answered a http)
    | .ok none => closing (.error (.python "NoResultFound")) (.answered a http)
    | .ok (some row) =>
      match assertTransitionAllowed (row.stateOrLoaded v) .paid with
      | .error e => closing (.error (.app e)) (.answered a http)
      | .ok () => markPaid a http result
  | markPaid a http result => .op (.updateInvoice c.invoiceId .paid) fun
    | .error e => closing (.error (.db e)) (.answered a http)
    | .ok () => listEndpoints a http result
  | listEndpoints a http result => .op (.select (.activeEndpoints c.business.id)) fun endpoints =>
    if List.isEmpty endpoints then settle a http (.ok result) endpoints
    else readClock a http result endpoints
  | readClock a http result endpoints => .op .clock fun now => outbox a http result endpoints now
  | outbox a http result endpoints now => .op (.insertDeliveries (endpoints.map
      (newDelivery (resultEvent result) (resultPayload c.invoiceId a result) now))) fun
    | .error e => closing (.error (.db e)) (.answered a http)
    | .ok () => settle a http (.ok result) endpoints
  | settle a http _ _ => .op .commit fun _ => refresh a http
  | refresh a http => .op (.select (.attemptById a.id)) fun
    | some row => closing (.ok (.attempt row false)) (.settled a http)
    | none => closing (.error (.python "NoResultFound")) (.settled a http)
  | closing x g => .op .rollback fun _ => done x g
  | done x _ => .ret x

/-- What the payment has done for good at a point. -/
def progress : PayPoint → Progress
  | lookup | lock | insert _ | undo _ | relookup | reserve _ _ => .nothing
  | send _ a => .reserved a
  | receive _ a => .called a
  | refetch _ a http _ | record _ a http _ | relock _ a http _ | markPaid a http _
  | listEndpoints a http _ | readClock a http _ _ | outbox a http _ _ _ | settle a http _ _ =>
    .answered a http
  | refresh a http => .settled a http
  | closing _ g => g
  | done _ g => g

end PayPoint

/-! ### The program and its points -/

namespace Orm

/-- What is left of the route when a part of `process_payment` is left. -/
def payTail (m : Orm (PaymentAttempt × Bool)) (σ : Session) : ServerProg (Except Exc Result) :=
  (andThen m (fun x => pure (.attempt x.1 x.2)) σ).bind fun x => .op .rollback fun _ => .ret x.1

/-- The identity map hands out the invoice it has, with the state it has loaded. -/
theorem loadInvoice_eq (row v : Invoice) (attempts : List PaymentAttempt) :
    ∃ invoices, loadInvoice row ⟨[v], attempts, []⟩ =
      .ret (.ok { row with state := row.stateOrLoaded v }, ⟨invoices, attempts, []⟩) := by
  unfold loadInvoice Invoice.stateOrLoaded
  by_cases h : v.id = row.id
  · exact ⟨[v], by simp [h]⟩
  · exact ⟨[v, row], by simp [h]⟩

/-- The identity map hands out the attempt it has. -/
theorem loadAttempt_eq (row a : PaymentAttempt) (invoices : List Invoice) :
    ∃ attempts, loadAttempt row ⟨invoices, [a], []⟩ =
      .ret (.ok (row.orLoaded a), ⟨invoices, attempts, []⟩) := by
  unfold loadAttempt PaymentAttempt.orLoaded
  by_cases h : a.id = row.id
  · exact ⟨[a], by simp [h]⟩
  · exact ⟨[a, row], by simp [h]⟩

end Orm

section Tracks

open Prog Orm

theorem tracks_closing (x : Except Exc Result) (g : Progress) :
    Tracks (PayPoint.out crypto c) (.closing x g) (.op .rollback fun _ => .ret x) :=
  Tracks.intro rfl fun _ => rfl

/-- From the commit of the outcome on, `process_payment` is at its points. -/
theorem tracks_settle (a : PaymentAttempt) (http : HttpResult)
    (outcome : Except PspError PspChargeResult) (endpoints : List WebhookEndpoint)
    (invoices : List Invoice) (attempts : List PaymentAttempt) :
    Tracks (PayPoint.out crypto c) (.settle a http outcome endpoints)
      (payTail (commitAndRefresh a) ⟨invoices, attempts, []⟩) := by
  refine Tracks.intro rfl fun _ => Tracks.intro rfl ?_
  rintro (_ | row)
  · exact tracks_closing ..
  · exact tracks_closing ..

theorem tracks_listEndpoints (a : PaymentAttempt) (http : HttpResult) (result : PspChargeResult)
    (invoices : List Invoice) (attempts : List PaymentAttempt) :
    Tracks (PayPoint.out crypto c) (.listEndpoints a http result)
      (payTail (do
        enqueueEvent c.business.id (resultEvent result) (resultPayload c.invoiceId a result)
        commitAndRefresh a) ⟨invoices, attempts, []⟩) := by
  refine Tracks.intro rfl ?_
  rintro (_ | ⟨e, es⟩)
  · exact tracks_settle ..
  · refine Tracks.intro rfl fun now => Tracks.intro rfl ?_
    rintro (e | _)
    · exact tracks_closing ..
    · exact tracks_settle ..

/-- From the second lock of the invoice on, `process_payment` is at its points. -/
theorem tracks_relock (v : Invoice) (a : PaymentAttempt) (http : HttpResult)
    (result : PspChargeResult) (hresult : result.Succeeded) (attempts : List PaymentAttempt) :
    Tracks (PayPoint.out crypto c) (.relock v a http result)
      (payTail (do
        payInvoiceRow c.business c.invoiceId a result
        commitAndRefresh a) ⟨[v], attempts, []⟩) := by
  refine Tracks.intro rfl ?_
  rintro (e | _ | row)
  · exact tracks_closing ..
  · exact tracks_closing ..
  obtain ⟨invoices, hload⟩ := loadInvoice_eq row v attempts
  -- what is left begins by making the object of the row
  change Tracks _ _ (Prog.bind (Prog.bind (Prog.bind (Prog.bind (Prog.bind
    (loadInvoice row ⟨[v], attempts, []⟩) _) _) _) _) _)
  rw [hload]
  change Tracks _ (match assertTransitionAllowed (row.stateOrLoaded v) .paid with
      | .error e => PayPoint.closing (.error (.app e)) (.answered a http)
      | .ok () => PayPoint.markPaid a http result)
    (Prog.bind (Prog.bind (Prog.bind (Prog.bind
      (ofApp (assertTransitionAllowed (row.stateOrLoaded v) .paid) _) _) _) _) _)
  cases assertTransitionAllowed (row.stateOrLoaded v) .paid with
  | error e => exact tracks_closing ..
  | ok u =>
    refine Tracks.intro rfl ?_
    rintro (e | _)
    · exact tracks_closing ..
    · have htail := tracks_listEndpoints crypto c a http result
        (invoices.map fun v => if v.id = c.invoiceId then { v with state := .paid } else v) attempts
      rw [resultEvent, if_pos hresult, resultPayload, if_pos hresult] at htail
      exact htail

/-- The outcome is flushed to the attempt, by whatever names the change. -/
theorem tracks_record {v : Invoice} {a : PaymentAttempt} {http : HttpResult}
    {outcome : Except PspError PspChargeResult} {change : AttemptChange}
    {k : Except DbError Unit → ServerProg (Except Exc Result)}
    (hchange : outcomeChange outcome = change)
    (herror : ∀ e, k (.error e) = .op .rollback fun _ => .ret (.error (.db e)))
    (hok : Tracks (PayPoint.out crypto c) (PayPoint.recorded v a http outcome) (k (.ok ()))) :
    Tracks (PayPoint.out crypto c) (.record v a http outcome)
      (.op (.updateAttempt a.id change) k) := by
  subst hchange
  refine Tracks.intro rfl ?_
  rintro (e | _)
  · rw [herror]
    exact tracks_closing ..
  · exact hok

/-- From the update of the attempt on, `process_payment` is at its points, whatever the outcome. -/
theorem tracks_persist (v : Invoice) (a : PaymentAttempt) (http : HttpResult)
    (outcome : Except PspError PspChargeResult) (attempts : List PaymentAttempt) :
    Tracks (PayPoint.out crypto c) (.record v a http outcome)
      (payTail (match outcome with
        | .error e => do
          touch (.attempt a.id (unknownChange e))
          commitAndRefresh a
        | .ok result =>
          if result.status.eqStr "succeeded" then do
            touch (.attempt a.id (succeededChange result))
            payInvoiceRow c.business c.invoiceId a result
            commitAndRefresh a
          else do
            touch (.attempt a.id (failedChange result))
            enqueueEvent c.business.id .invoicePaymentFailed (failedPayload c.invoiceId a result)
            commitAndRefresh a) ⟨[v], attempts, []⟩) := by
  match outcome with
  | .error e => exact tracks_record crypto c rfl (fun _ => rfl) (tracks_settle ..)
  | .ok result =>
    by_cases h : result.Succeeded
    · dsimp only
      rw [if_pos (show result.status.eqStr "succeeded" = true from h)]
      refine tracks_record crypto c (if_pos h) (fun _ => rfl) ?_
      rw [PayPoint.recorded, if_pos h]
      exact tracks_relock crypto c v a http result h attempts
    · dsimp only
      rw [if_neg (show ¬result.status.eqStr "succeeded" = true from h)]
      refine tracks_record crypto c (if_neg h) (fun _ => rfl) ?_
      have htail := tracks_listEndpoints crypto c a http result [v] attempts
      rw [resultEvent, if_neg h, resultPayload, if_neg h] at htail
      rw [PayPoint.recorded, if_neg h]
      exact htail

theorem tracks_refetch (v : Invoice) (a : PaymentAttempt) (http : HttpResult)
    (outcome : Except PspError PspChargeResult) :
    Tracks (PayPoint.out crypto c) (.refetch v a http outcome)
      (payTail (TenantBilling.settle c.business c.invoiceId a outcome) ⟨[v], [a], []⟩) := by
  refine Tracks.intro rfl ?_
  rintro (_ | row)
  · exact tracks_closing ..
  obtain ⟨attempts, hload⟩ := loadAttempt_eq row a [v]
  change Tracks _ _ (Prog.bind (Prog.bind (Prog.bind (Prog.bind
    (loadAttempt row ⟨[v], [a], []⟩) _) _) _) _)
  rw [hload]
  exact tracks_persist crypto c v (row.orLoaded a) http outcome attempts

/-- From the call of the provider on, `process_payment` is at its points. -/
theorem tracks_send (v : Invoice) (a : PaymentAttempt) :
    Tracks (PayPoint.out crypto c) (.send v a)
      (payTail (chargeAndSettle c.business c.invoiceId c.cardToken c.idempotencyKey a)
        ⟨[v], [a], []⟩) := by
  refine Tracks.intro rfl fun _ => Tracks.intro rfl fun (http : HttpResult) => ?_
  change Tracks _ (match chargeResult http with
      | .ok result => PayPoint.refetch v a http (.ok result)
      | .error (.psp e) => PayPoint.refetch v a http (.error e)
      | .error e => PayPoint.closing (.error e) (.answered a http))
    (Prog.bind (Prog.bind (Prog.bind (Prog.bind
      (Orm.ofExc (chargeResult http) _) _) _) _) _)
  match chargeResult http with
  | .ok result => exact tracks_refetch ..
  | .error (.psp e) => exact tracks_refetch ..
  | .error (.app e) => exact tracks_closing ..
  | .error (.db e) => exact tracks_closing ..
  | .error (.http status detail) => exact tracks_closing ..
  | .error (.python className) => exact tracks_closing ..

theorem tracks_relookup :
    Tracks (PayPoint.out crypto c) .relookup
      (payTail (do
        match ← findAttempt c.invoiceId c.idempotencyKey with
        | some winner =>
          if winner.requestHash = hashRequestBody crypto c.cardToken then pure (winner, true)
          else raise (.app .idempotencyConflict)
        | none => raise (.app .idempotencyConflict)) ⟨[], [], []⟩) := by
  refine Tracks.intro rfl ?_
  rintro (_ | winner)
  · exact tracks_closing ..
  change Tracks _ (if winner.requestHash = hashRequestBody crypto c.cardToken then
      PayPoint.closing (.ok (.attempt winner true)) .nothing
    else PayPoint.closing (.error (.app .idempotencyConflict)) .nothing)
    (payTail (if winner.requestHash = hashRequestBody crypto c.cardToken then pure (winner, true)
      else raise (.app .idempotencyConflict)) ⟨[], [winner], []⟩)
  split
  · exact tracks_closing ..
  · exact tracks_closing ..

/-- From a refused insert on, `process_payment` is at its points. -/
theorem tracks_undo (errorMsg : String) (σ : Session) :
    Tracks (PayPoint.out crypto c) (.undo errorMsg)
      (payTail (duplicateAttempt c.invoiceId c.idempotencyKey (hashRequestBody crypto c.cardToken)
        errorMsg) σ) := by
  refine Tracks.intro rfl fun _ => ?_
  change Tracks _ (if occursIn onePendingMarker errorMsg then
      PayPoint.closing (.error otherInProgress) .nothing else PayPoint.relookup)
    (payTail (if occursIn onePendingMarker errorMsg then _ else _) _)
  split
  · exact tracks_closing ..
  · exact tracks_relookup crypto c

/-- From the lock of the invoice on, `process_payment` is at its points. -/
theorem tracks_lock :
    Tracks (PayPoint.out crypto c) .lock
      (payTail (TenantBilling.reserve crypto c.business c.invoiceId c.cardToken c.idempotencyKey)
        ⟨[], [], []⟩) := by
  refine Tracks.intro rfl ?_
  rintro (e | _ | v)
  · exact tracks_closing ..
  · exact tracks_closing ..
  change Tracks _ (match assertTransitionAllowed v.state .paid with
      | .error e => PayPoint.closing (.error (.app e)) .nothing
      | .ok () => PayPoint.insert v)
    (Prog.bind (Prog.bind (Prog.bind
      (ofApp (assertTransitionAllowed v.state .paid) _) _) _) _)
  cases assertTransitionAllowed v.state .paid with
  | error e => exact tracks_closing ..
  | ok u =>
    refine Tracks.intro rfl ?_
    rintro ((_ | _ | _ | _ | errorMsg | _) | a)
    · exact tracks_closing ..
    · exact tracks_closing ..
    · exact tracks_closing ..
    · exact tracks_closing ..
    · exact tracks_undo ..
    · exact tracks_closing ..
    · exact Tracks.intro rfl fun _ => tracks_send crypto c v a

/-- **The program of a payment is the machine of its points.** -/
theorem tracks_pay :
    Tracks (PayPoint.out crypto c) (PayPoint.start c)
      (getDb (payInvoice crypto c.business c.invoiceId c.cardToken c.idempotencyKey)) := by
  unfold PayPoint.start payInvoice
  split
  · exact tracks_closing ..
  refine Tracks.intro rfl ?_
  rintro (_ | a)
  · exact tracks_lock crypto c
  change Tracks _ (if a.requestHash ≠ hashRequestBody crypto c.cardToken then
      PayPoint.closing (.error (.app .idempotencyConflict)) .nothing
    else PayPoint.closing (.ok (.attempt a true)) .nothing)
    (payTail (if a.requestHash ≠ hashRequestBody crypto c.cardToken then
      raise (.app .idempotencyConflict) else pure (a, true)) ⟨[], [a], []⟩)
  split
  · exact tracks_closing ..
  · exact tracks_closing ..

end Tracks

end TenantBilling
