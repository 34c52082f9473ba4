import TenantBilling.Properties.Conditions

/-!
# Paid invoices and successful charges

An invoice is to be paid exactly if one of its attempts has succeeded. A payment writes
the two rows in one transaction, under the lock of the invoice, and so keeps to it. A
transition does not: it reads the invoice without a lock and later overwrites whatever
state it finds (`TenantBilling.not_paid_iff_charged`). In runs in which no transition
finds a paid invoice when it writes, the two agree
(`TenantBilling.paid_iff_charged`).
-/

namespace TenantBilling

open Base World

/-- An `UPDATE` to another state than paid does not find the invoice paid. -/
def LeavesPaid (db : Database) (i : Uuid) (state : InvoiceState) : Prop :=
  state ≠ .paid → db.stateOf i ≠ some .paid

instance (db : Database) (i : Uuid) (state : InvoiceState) : Decidable (LeavesPaid db i state) :=
  inferInstanceAs (Decidable (_ → _))

section Runs

variable {crypto : Crypto} {s t : System} {φ φ' : Pid → Phase} {e : Event}

/-- Paid invoices are charged invoices, and none of the former is about to be overwritten. -/
structure PaidCharged (w : World) : Prop where
  iff : ∀ i, w.db.stateOf i = some .paid ↔ w.db.Charged i
  pending : WhilePending LeavesPaid w

theorem PaidCharged.move (h : s.Sound crypto φ) (hI : PaidCharged s.world)
    (hC : WhenUpdating LeavesPaid s e) (hmove : s.Moves crypto φ e t φ') :
    PaidCharged t.world := by
  refine ⟨?_, hI.pending.move h hC hmove (fun _ _ _ => id) ?_⟩
  · rcases h.commit_or hmove with ⟨hdb, -, -⟩ | ⟨p, ph, hp, -, -, hcommits⟩
    · rw [hdb]
      exact hI.iff
    intro i
    generalize hph : φ p = ph' at hcommits
    cases hcommits with
    | reserve hholds hattempts hstate =>
      rw [hstate, charged_insert hholds.2.2.2.made.status hattempts]
      exact hI.iff i
    | paid hgood houtcome hresult hbind hrest htx hattempts hstate =>
      rw [hstate, charged_update hgood.2.2 hgood.2.1.status hattempts, hgood.2.1.invoiceId, ←
        hI.iff i, AttemptChange.bind_status hbind]
      split
      case isTrue hi => simp [hi, succeededChange]
      case isFalse hi => simp [hi]
    | unpaid hgood houtcome hpays hbind hrest htx hattempts hstate =>
      rw [hstate, charged_update hgood.2.2 hgood.2.1.status hattempts, hI.iff i]
      simp [not_succeeded_of_not_pays hpays hbind]
    | @transition c v x now hchecked htx hattempts hstate =>
      have htarget := h.target_ne_paid hp hph
      have hmem : .updateInvoice c.invoiceId c.target now ∈ s.world.writesOf p := by
        rw [htx.writes]
        exact List.mem_singleton_self _
      have hcharged : t.world.db.Charged i ↔ s.world.db.Charged i := by
        unfold Database.Charged
        rw [hattempts]
      rw [hcharged, ← hI.iff i, hstate]
      split
      case isTrue hi =>
        -- the invoice was not paid when it was overwritten, and is not now
        have hbefore := hI.pending p _ _ _ hmem htarget
        rw [hi]
        simp [hbefore, htarget]
      case isFalse => exact Iff.rfl
    | other hwrites hattempts hstate =>
      have hcharged : t.world.db.Charged i ↔ s.world.db.Charged i := by
        unfold Database.Charged
        rw [hattempts]
      rw [hcharged, ← hI.iff i]
      rcases hstate i with hi | ⟨hnone, hdraft⟩
      · rw [hi]
      · simp [hnone, hdraft]
  · intro p q ph i state hlock hne hcommits hQ hstate
    rcases hcommits.stateOf_of_lock hlock hne with hi | ⟨-, hdraft⟩
    · rw [hi]
      exact hQ hstate
    · rw [hdraft]
      simp

/-- **Payment records and invoice states agree** in every state reached by steps in which no
`UPDATE` to another state finds the invoice paid. -/
theorem paid_iff_charged (hreach : Reaches (System.step crypto) (WhenUpdating LeavesPaid) .init s)
    (i : Uuid) : s.world.db.stateOf i = some .paid ↔ s.world.db.Charged i := by
  have hinit : PaidCharged World.init := by
    refine ⟨fun i => ⟨by rintro ⟨⟩, ?_⟩, fun p i state now h => by cases h⟩
    rintro ⟨a, ha, -⟩
    exact absurd ha (Table.not_mem_empty a)
  obtain ⟨φ, -, hI⟩ := System.Sound.reaches (I := fun s _ => PaidCharged s.world) hreach
    System.sound_init hinit fun u ψ e v ψ' hu hIu hC _ hmove _ => hIu.move hu hC hmove
  exact hI.iff i

/-- The invoice is finalized and paid. -/
def payingAlone : List Event :=
  drafting ++ [.request (.finalize 0)] ++ Event.steps 2 5 ++
    [.request (.pay 0 "tok_visa" "k1")] ++ Event.steps 3 5 ++
    [.exec 3 { http := sampleReply "succeeded" "ch_1" }] ++ Event.steps 3 8

theorem charged_payingAlone :
    ((runIf (System.step sampleCrypto) (WhenUpdating LeavesPaid) .init payingAlone).get
      (by decide +kernel)).world.db.Charged 0 :=
  (paid_iff_charged (reaches_of_runIf (Option.some_get _).symm) 0).mp (by decide +kernel)

/-- A `void` request reads the open invoice, and writes it after it has been paid. -/
def voidingPaid : List Event :=
  drafting ++ [.request (.finalize 0)] ++ Event.steps 2 5 ++ [.request (.void 0)] ++
    Event.steps 3 1 ++ [.request (.pay 0 "tok_visa" "k1")] ++ Event.steps 4 5 ++
    [.exec 4 { http := sampleReply "succeeded" "ch_1" }] ++ Event.steps 4 8 ++ Event.steps 3 4

/-- Without the condition a charged invoice may end up void. -/
theorem not_paid_iff_charged : ¬∀ s : System, s.Reachable sampleCrypto →
    ∀ i, s.world.db.stateOf i = some .paid ↔ s.world.db.Charged i := by
  intro h
  have hvoid := h ((run (System.step sampleCrypto) .init voidingPaid).get (by decide +kernel))
    (reaches_of_run (Option.some_get _).symm) 0
  revert hvoid
  decide +kernel

end Runs

end TenantBilling
