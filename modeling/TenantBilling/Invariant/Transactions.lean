import TenantBilling.Invariant.Tenants

/-!
# What the transactions write

The committed transactions, all tables considered (`TenantBilling.Transacts`): a payment
reserves its attempt or settles it, a transition changes the state of its invoice, an invoice
is created with its line items, an endpoint is deactivated, and the rest registers customers
and endpoints or, for the worker, keeps account of deliveries. What is said of rows that
several programs write, deliveries above all, is proved along these.
-/

namespace TenantBilling

open Base World

section Transactions

variable (crypto : Crypto) (w : World) (p : Pid)

/-- **What a session has written when it commits.** -/
inductive Transacts : List Write → Prop where
  | reserve {c : PayCall} {v : Invoice} {a : PaymentAttempt}
    (hholds : (PayPoint.reserve v a).Holds crypto w p c) : Transacts [.insertAttempt a]
  | settle {c : PayCall} {a : PaymentAttempt} {http : HttpResult}
    {outcome : Except PspError PspChargeResult} {endpoints : List WebhookEndpoint}
    {update : AttemptUpdate} {now : Timestamp} {marks rest : List Write}
    (hgood : (Progress.answered a http).Holds crypto w p c)
    (houtcome : chargeOutcome http = some outcome)
    (hbind : (outcomeChange outcome).bind = .ok update)
    (hmarks : Pays outcome ∧ (∃ now', marks = [.updateInvoice c.invoiceId .paid now']) ∨
      ¬Pays outcome ∧ marks = [])
    (hrest : c.Outbox a outcome endpoints rest) :
    Transacts (.updateAttempt a.id update now :: (marks ++ rest))
  | transition (i : Uuid) (state : InvoiceState) (now : Timestamp) :
    Transacts [.updateInvoice i state now]
  | create {c : CreateCall} {v : Invoice} {endpoints : List WebhookEndpoint}
    {rows : List InvoiceLineItem} {rest : List Write} (hmade : c.Made v) (hitems : c.Items v rows)
    (hrest : v.Outbox endpoints rest) :
    Transacts (.insertInvoice v :: .insertLineItems rows :: rest)
  | deactivate (i : Uuid) : Transacts [.deactivateEndpoint i]
  | registers {b : Option Uuid} {ws : List Write} (h : ∀ x ∈ ws, x.Registers b) : Transacts ws

end Transactions

section Commits

variable {crypto : Crypto} {s t : System} {φ φ' : Pid → Phase} {e : Event} {p : Pid}

namespace System

/-- **Every session that commits has written one of these.** -/
theorem Owned.transacts (h : s.Sound crypto φ) (ho : s.Owned φ) {job : Job}
    {k : Stmt.commit.Resp → ServerProg (Except Exc Result)}
    (hproc : s.procs[p]? = some ⟨job, .op .commit k, true⟩) :
    Transacts crypto s.world p (s.world.writesOf p) := by
  have hp : s.Alive p := ⟨_, hproc, rfl⟩
  have htracks := h.tracks p _ hproc
  have hholds := h.alive p hp
  have hgood := h.forGood p
  cases hph : φ p with
  | pay c pt =>
    rw [hph] at htracks hholds hgood
    obtain ⟨-, next, hout, -⟩ := htracks
    cases pt with
    | reserve v a =>
      rw [hholds.1.writes]
      exact .reserve hholds
    | settle a http outcome endpoints =>
      obtain ⟨rest, hrest, houtcome, update, now, hbind, hcase⟩ := hholds
      rcases hcase with ⟨hpays, now', htx⟩ | ⟨hpays, htx⟩
      · rw [htx.writes]
        exact .settle hgood houtcome hbind (Or.inl ⟨hpays, now', rfl⟩) hrest
      · rw [htx.writes]
        rw [← List.nil_append rest]
        exact .settle hgood houtcome hbind (Or.inr ⟨hpays, rfl⟩) hrest
    | _ => cases hout
  | transition c pt =>
    rw [hph] at htracks hholds
    obtain ⟨-, next, hout, -⟩ := htracks
    cases pt with
    | commit v x =>
      obtain ⟨-, now, htx⟩ := hholds
      rw [htx.writes]
      exact .transition ..
    | _ => cases hout
  | other =>
    rw [hph] at htracks
    cases ho.sides p _ hproc rfl with
    | phase hnot => exact absurd htracks.1 hnot
    | @create c pt _ _ htracks hholds =>
      obtain ⟨next, hout, -⟩ := htracks
      cases pt with
      | commit v endpoints x =>
        obtain ⟨-, rest, hrest, hmade, -, rows, hitems, hwrites⟩ := hholds
        rw [hwrites]
        exact .create hmade hitems hrest
      | _ => cases hout
    | @deactivate c pt _ _ htracks hholds =>
      obtain ⟨next, hout, -⟩ := htracks
      cases pt with
      | commit e =>
        rw [hholds.1]
        split
        · exact .deactivate e.id
        -- the endpoint was inactive already, and nothing has been written
        · exact .registers (b := none) fun x hx => by cases hx
      | _ => cases hout
    | registers _ _ hwrites => exact .registers hwrites
    | poll _ hwrites => exact .registers hwrites

/-- **A move leaves the committed rows alone, or commits one of these.** -/
theorem Owned.transacts_or (h : s.Sound crypto φ) (ho : s.Owned φ)
    (hmove : s.Moves crypto φ e t φ') :
    (t.world.db = s.world.db ∧ t.world.history = s.world.history) ∨
      ∃ p, t.world = s.world.commit p ∧ t.world.db = s.world.db.applyAll (s.world.writesOf p) ∧
        Transacts crypto s.world p (s.world.writesOf p) := by
  cases hmove with
  | start job => exact Or.inl ⟨rfl, rfl⟩
  | kill hproc => exact Or.inl ⟨rfl, rfl⟩
  | @answer _ p _ st _ _ _ ph hproc hans hnext =>
    by_cases hst : st = .commit
    · subst hst
      obtain rfl := answers_commit hans.answers
      exact Or.inr ⟨p, rfl, rfl, ho.transacts h hproc⟩
    · have heffect := hans.answers.effect
      exact Or.inl ⟨heffect.db hst, heffect.history hst⟩

end System

end Commits

end TenantBilling
