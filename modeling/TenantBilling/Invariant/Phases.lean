import TenantBilling.Points.Pay
import TenantBilling.Points.Transition
import TenantBilling.Points.Peripheral
import TenantBilling.World.Answers

/-!
# What holds at each point

For every point of a payment or a transition, what its session has written and locked
and what it knows of the committed rows (`TenantBilling.PayPoint.Holds`,
`TenantBilling.TransitionPoint.Holds`), and for every stage of a payment what the world
knows of it for good (`TenantBilling.Progress.Holds`). The second survives the end of
the process, the first does not.

Collected over all sessions this is the invariant of the system,
`TenantBilling.System.Sound`. Besides the sessions' own facts it has four that relate
rows: each committed attempt has been inserted by one payment, no two attempts have one
entry in a unique index, and each is on an invoice that exists.
-/

namespace TenantBilling

open Base

/-! ### Transactions -/

namespace World

/-- The locks and the uncommitted writes of a session. -/
structure HasTx (w : World) (p : Pid) (rs : List RowRef) (ws : List Write) : Prop where
  writes : w.writesOf p = ws
  locks : ∀ r, w.locks r = some p ↔ r ∈ rs

/-- The session has written and locked nothing. -/
abbrev Idle (w : World) (p : Pid) : Prop := w.HasTx p [] []

variable {w w' : World} {p : Pid} {rs : List RowRef} {ws : List Write}

/-- The others leave a transaction as it is. -/
theorem HasTx.frame (h : w.HasTx p rs ws) (hf : Frame p w w') : w'.HasTx p rs ws :=
  ⟨hf.writes.trans h.writes, fun r => (hf.locks r).trans (h.locks r)⟩

theorem idle_release (w : World) (p : Pid) : (w.release p).Idle p :=
  ⟨by rw [writesOf_release, if_pos rfl],
    fun r => ⟨fun h => absurd h (locks_release_self w p r), by rintro ⟨⟩⟩⟩

theorem idle_commit (w : World) (p : Pid) : (w.commit p).Idle p :=
  idle_release { w with db := w.view p, history := w.history ++ [⟨p, w.writesOf p⟩] } p

/-- A lock is added to those of the transaction. -/
theorem HasTx.lock (h : w.HasTx p rs ws) (r : RowRef) : (w.lock p r).HasTx p (r :: rs) ws := by
  refine ⟨h.writes, fun r' => ?_⟩
  rw [locks_lock, List.mem_cons, ← h.locks r']
  split
  case isTrue heq => simp [heq]
  case isFalse hne => simp [hne]

/-- A write is added to those of the transaction. -/
theorem HasTx.write (h : w.HasTx p rs ws) (x : Write) : (w.write p x).HasTx p rs (ws ++ [x]) :=
  ⟨by rw [writesOf_write, if_pos rfl, h.writes], h.locks⟩

/-- The order in which the locks are listed does not matter, nor does listing one twice. -/
theorem HasTx.congr {rs' : List RowRef} (h : w.HasTx p rs ws) (hrs : ∀ r, r ∈ rs ↔ r ∈ rs') :
    w.HasTx p rs' ws :=
  ⟨h.writes, fun r => (h.locks r).trans (hrs r)⟩

/-- A transaction sees the database with its own writes. -/
theorem HasTx.view (h : w.HasTx p rs ws) : w.view p = w.db.applyAll ws := by
  rw [World.view, h.writes]

theorem Idle.view (h : w.Idle p) : w.view p = w.db := HasTx.view h

end World

/-! ### Payments -/

section Payments

variable (crypto : Crypto)

namespace PayCall

variable (c : PayCall)

/-- The row of the invoice. -/
def invoiceRef : RowRef := ⟨.invoices, c.invoiceId⟩

/-- The attempt is one that the call inserts. -/
def Made (a : PaymentAttempt) : Prop :=
  ∃ (v : Invoice) (now : Timestamp),
    (newAttempt crypto v c.invoiceId c.cardToken c.idempotencyKey).row a.id now = .ok a

/-- The call of the provider for an attempt. -/
def charge (p : Pid) (a : PaymentAttempt) (result : Option HttpResult) : Charge :=
  ⟨p, c.cardToken, a.amountCents.val, c.idempotencyKey, result⟩

/-- The invoice as the call has loaded it. -/
structure Loaded (v : Invoice) : Prop where
  id : v.id = c.invoiceId
  business : v.businessId = c.business.id
  isOpen : v.state = .open

end PayCall

/-- The row of an attempt. -/
def PaymentAttempt.ref (a : PaymentAttempt) : RowRef := ⟨.attempts, a.id⟩

/-- The update that persists the outcome of a charge request. -/
def Settles (http : HttpResult) (update : AttemptUpdate) : Prop :=
  ∃ outcome, chargeOutcome http = some outcome ∧ (outcomeChange outcome).bind = .ok update

/-- The attempt that a payment has committed. -/
def Progress.attempt? : Progress → Option PaymentAttempt
  | nothing => none
  | reserved a => some a
  | called a => some a
  | answered a _ => some a
  | settled a _ => some a

/-- What the world knows for good of a payment. -/
def Progress.Holds (w : World) (p : Pid) (c : PayCall) : Progress → Prop
  | nothing => w.chargesOf p = []
  | reserved a =>
    w.chargesOf p = [] ∧ c.Made crypto a ∧ w.db.attempts.find? a.id = some a
  | called a =>
    w.chargesOf p = [c.charge p a none] ∧ c.Made crypto a ∧ w.db.attempts.find? a.id = some a
  | answered a http =>
    w.chargesOf p = [c.charge p a (some http)] ∧ c.Made crypto a ∧
      w.db.attempts.find? a.id = some a
  | settled a http =>
    w.chargesOf p = [c.charge p a (some http)] ∧ c.Made crypto a ∧
      ∃ update now, Settles http update ∧ w.db.attempts.find? a.id = some (a.update update now)

/-- The outcome makes the invoice paid. -/
def Pays : Except PspError PspChargeResult → Prop
  | .ok result => result.Succeeded
  | .error _ => False

/-- The transaction that persists an outcome, once the invoice has been updated where it
is to be; `rest` are the outbox rows. -/
def Settling (w : World) (p : Pid) (c : PayCall) (a : PaymentAttempt) (http : HttpResult)
    (outcome : Except PspError PspChargeResult) (rest : List Write) : Prop :=
  chargeOutcome http = some outcome ∧
    ∃ update now, (outcomeChange outcome).bind = .ok update ∧
      ((Pays outcome ∧ ∃ now', w.HasTx p [c.invoiceRef, a.ref]
          ([.updateAttempt a.id update now, .updateInvoice c.invoiceId .paid now'] ++ rest)) ∨
        (¬Pays outcome ∧ w.HasTx p [a.ref] ([.updateAttempt a.id update now] ++ rest)))

/-- The outbox rows of a payment event. -/
def PayCall.Outbox (c : PayCall) (a : PaymentAttempt) (outcome : Except PspError PspChargeResult)
    (endpoints : List WebhookEndpoint) (rest : List Write) : Prop :=
  endpoints = [] ∧ rest = [] ∨
    endpoints ≠ [] ∧ ∃ result now env, outcome = .ok result ∧
      rest = [.insertDeliveries (deliveryRows env (endpoints.map
        (newDelivery (resultEvent result) (resultPayload c.invoiceId a result) now)))]

/-- The attempt is about to be committed, and will meet no other in a unique index. -/
structure Reserving (w : World) (c : PayCall) (a : PaymentAttempt) : Prop where
  made : c.Made crypto a
  noSameKey : ∀ b ∈ w.db.attempts, a.sameKey b = false
  noSamePending : ∀ b ∈ w.db.attempts, a.samePending b = false

/-- What holds of the session at a point of a payment. -/
def PayPoint.Holds (w : World) (p : Pid) (c : PayCall) : PayPoint → Prop
  | lookup | lock | undo _ | relookup | refresh _ _ | done _ _ => w.Idle p
  | insert v => w.HasTx p [c.invoiceRef] [] ∧ c.Loaded v ∧ w.db.invoices.find? c.invoiceId = some v
  | reserve v a =>
    w.HasTx p [c.invoiceRef] [.insertAttempt a] ∧ c.Loaded v ∧
      w.db.invoices.find? c.invoiceId = some v ∧ Reserving crypto w c a
  | send v _ | receive v _ => w.Idle p ∧ c.Loaded v
  | refetch v _ http outcome | record v _ http outcome =>
    w.Idle p ∧ c.Loaded v ∧ chargeOutcome http = some outcome
  | relock v a http result =>
    c.Loaded v ∧ chargeOutcome http = some (.ok result) ∧ result.Succeeded ∧
      ∃ update now, (succeededChange result).bind = .ok update ∧
        w.HasTx p [a.ref] [.updateAttempt a.id update now]
  | markPaid a http result =>
    chargeOutcome http = some (.ok result) ∧ result.Succeeded ∧
      ∃ update now, (succeededChange result).bind = .ok update ∧
        w.HasTx p [c.invoiceRef, a.ref] [.updateAttempt a.id update now]
  | listEndpoints a http result => Settling w p c a http (.ok result) []
  | readClock a http result endpoints | outbox a http result endpoints _ =>
    endpoints ≠ [] ∧ Settling w p c a http (.ok result) []
  | settle a http outcome endpoints =>
    ∃ rest, c.Outbox a outcome endpoints rest ∧ Settling w p c a http outcome rest
  | closing _ _ => w.writesOf p = [] ∧ ∀ r, w.locks r = some p → r = c.invoiceRef

end Payments

/-! ### Transitions -/

/-- A transition request. -/
def Request.transition? : Request → Option (Uuid × InvoiceState)
  | finalize invoiceId => some (invoiceId, .open)
  | void invoiceId => some (invoiceId, .void)
  | uncollectible invoiceId => some (invoiceId, .uncollectible)
  | _ => none

/-- What a transition has read and checked. -/
structure TransitionCall.Checked (w : World) (c : TransitionCall) (v : Invoice) : Prop where
  id : v.id = c.invoiceId
  business : v.businessId = c.business.id
  allowed : c.target ∈ allowedTransitions v.state
  exist : w.db.invoices.find? c.invoiceId ≠ none

/-- What holds of the session at a point of a transition. -/
def TransitionPoint.Holds (w : World) (p : Pid) (c : TransitionCall) : TransitionPoint → Prop
  | read | closing _ | done _ => w.Idle p
  | update v => w.Idle p ∧ c.Checked w v
  | reselect v | commit v _ =>
    c.Checked w v ∧
      ∃ now, w.HasTx p [⟨.invoices, c.invoiceId⟩] [.updateInvoice c.invoiceId c.target now]

/-! ### The other programs -/

/-- A write that neither changes an invoice nor touches an attempt; an inserted invoice is a
draft. -/
def Write.Peripheral : Write → Prop
  | insertInvoice row => row.state = .draft
  | insertAttempt _ => False
  | updateInvoice .. => False
  | updateAttempt .. => False
  | _ => True

/-- What holds of the session of any other program. -/
structure World.Aside (w : World) (p : Pid) : Prop where
  writes : ∀ x ∈ w.writesOf p, x.Peripheral
  locks : ∀ r, w.locks r = some p → r.table ≠ .invoices ∧ r.table ≠ .attempts

/-! ### The system -/

/-- Where the program of a session is. -/
inductive Phase where
  | pay (c : PayCall) (pt : PayPoint)
  | transition (c : TransitionCall) (pt : TransitionPoint)
  | other

namespace Phase

variable (crypto : Crypto)

/-- The program of the process is at the phase. -/
def Tracks (proc : Proc) : Phase → Prop
  | pay c pt =>
    proc.job = .request c.business (.pay c.invoiceId c.cardToken c.idempotencyKey) ∧
      Prog.Tracks (PayPoint.out crypto c) pt proc.prog
  | transition c pt =>
    (∃ req, proc.job = .request c.business req ∧ req.transition? = some (c.invoiceId, c.target)) ∧
      Prog.Tracks (TransitionPoint.out c) pt proc.prog
  | other => proc.job.Peripheral ∧ Prog.Keeps peripheral (fun _ _ => True) () proc.prog

/-- What holds of a session that is alive. -/
def Holds (w : World) (p : Pid) : Phase → Prop
  | pay c pt => pt.Holds crypto w p c
  | transition c pt => pt.Holds w p c
  | other => w.Aside p

/-- What holds of a session for good. -/
def HoldsForGood (w : World) (p : Pid) : Phase → Prop
  | pay c pt => pt.progress.Holds crypto w p c
  | _ => w.chargesOf p = []

/-- The attempt the session has committed. -/
def committed? : Phase → Option PaymentAttempt
  | pay _ pt => pt.progress.attempt?
  | _ => none

end Phase

namespace System

/-- The process of a session is running. -/
def Alive (s : System) (p : Pid) : Prop := ∃ proc, s.procs[p]? = some proc ∧ proc.alive = true

instance (s : System) (p : Pid) : Decidable (s.Alive p) :=
  decidable_of_iff (s.procs[p]?.any (·.alive)) (Option.any_eq_true _ _)

variable (crypto : Crypto)

/-- **The invariant of the system**, for the phases of its sessions. -/
structure Sound (s : System) (φ : Pid → Phase) : Prop where
  tracks : ∀ p proc, s.procs[p]? = some proc → (φ p).Tracks crypto proc
  absent : ∀ p, s.procs[p]? = none → φ p = .other
  alive : ∀ p, s.Alive p → (φ p).Holds crypto s.world p
  idle : ∀ p, ¬s.Alive p → s.world.Idle p
  forGood : ∀ p, (φ p).HoldsForGood crypto s.world p
  consistent : s.world.Consistent
  /-- No two payments have committed one attempt. -/
  owner : ∀ p q a b, (φ p).committed? = some a → (φ q).committed? = some b → a.id = b.id → p = q
  /-- Every committed attempt has been committed by a payment. -/
  owned : ∀ a ∈ s.world.db.attempts, ∃ p b, (φ p).committed? = some b ∧ b.id = a.id
  keys : ∀ a ∈ s.world.db.attempts, ∀ b ∈ s.world.db.attempts, a.sameKey b = true → a = b
  pending : ∀ a ∈ s.world.db.attempts, ∀ b ∈ s.world.db.attempts, a.samePending b = true → a = b
  invoice : ∀ a ∈ s.world.db.attempts, s.world.db.invoices.find? a.invoiceId ≠ none

end System

end TenantBilling
