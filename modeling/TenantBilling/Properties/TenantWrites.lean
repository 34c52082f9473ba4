import TenantBilling.Invariant.Tenants
import TenantBilling.Properties.Conditions

/-!
# A request writes rows of its business only

No foreign key and no constraint says whose a row is to be. It follows from the checks of the
service functions, and for the second transaction of a payment from what the first one has
checked (`TenantBilling.tenant_isolation`).
-/

namespace TenantBilling

open Base World

/-- The session runs a request authenticated as the business. -/
def System.Serves (s : System) (p : Pid) (b : Business) : Prop :=
  ∃ (proc : Proc) (req : Request), s.procs[p]? = some proc ∧ proc.job = .request b req

/-- The session whose event it is. -/
def Event.pid? : Event → Option Pid
  | start _ => none
  | exec p _ | abort p _ | kill p => some p

/-- **The businesses are isolated**: what a request changes is of its business. -/
structure System.TenantIsolated (crypto : Crypto) (s : System) : Prop where
  /-- Of what a request has not committed yet, everything is of its business. -/
  uncommitted : ∀ p b, s.Serves p b → ∀ r, (s.world.view p).row r ≠ s.world.db.row r →
    (s.world.view p).Owns b.id r ∧ (s.world.db.row r ≠ none → s.world.db.Owns b.id r)
  /-- Every committed row that a step of a request inserts or changes is of its business. -/
  committed : ∀ e t p b, s.step crypto e = some t → e.pid? = some p → s.Serves p b →
    ∀ r, t.world.db.row r ≠ s.world.db.row r →
      t.world.db.Owns b.id r ∧ (s.world.db.row r ≠ none → s.world.db.Owns b.id r)
  /-- An invoice is for a customer of its business, and a delivery is to an endpoint of the
  business whose invoice the payload names. -/
  linked : s.world.db.Linked

section Runs

variable {crypto : Crypto} {s t : System} {φ φ' : Pid → Phase} {e : Event} {p : Pid}

/-- A move changes the committed rows to what its session sees, or not at all. -/
theorem System.Moves.db_view (hmove : s.Moves crypto φ e t φ') (hpid : e.pid? = some p) :
    t.world.db = s.world.db ∨ t.world.db = s.world.view p := by
  cases hmove with
  | start job => cases hpid
  | kill hproc => exact Or.inl rfl
  | @answer _ p' job st r w' k ph hproc hans hnext =>
    obtain rfl : p' = p := by
      cases hans with
      | exec => exact Option.some.inj hpid
      | abort => exact Option.some.inj hpid
    by_cases hst : st = .commit
    · subst hst
      rw [answers_commit hans.answers]
      exact Or.inr rfl
    · exact Or.inl (hans.answers.effect.db hst)

/-- **Tenant isolation.** In every state that can be reached, the businesses are isolated. -/
theorem tenant_isolation (hreach : s.Reachable crypto) : s.TenantIsolated crypto := by
  obtain ⟨φ, h, ho⟩ := hreach.owned
  have huncommitted : ∀ p b, s.Serves p b → ∀ r, (s.world.view p).row r ≠ s.world.db.row r →
      (s.world.view p).Owns b.id r ∧ (s.world.db.row r ≠ none → s.world.db.Owns b.id r) := by
    rintro p b ⟨proc, req, hproc, hjob⟩ r hrow
    exact Database.Admits.owns (h.consistent.fits p) (ho.admits h hproc hjob) hrow
  refine ⟨huncommitted, fun e t p b hstep hpid hserves r hrow => ?_, ho.linked⟩
  obtain ⟨φ', hmove⟩ := System.moves_of_step h.tracks hstep
  rcases hmove.db_view hpid with hdb | hdb
  · rw [hdb] at hrow
    exact absurd rfl hrow
  · rw [hdb] at hrow ⊢
    exact huncommitted p b hserves r hrow

theorem tenant_isolation_drafting :
    ((run (System.step sampleCrypto) .init drafting).get (by decide +kernel)).TenantIsolated
      sampleCrypto :=
  tenant_isolation (reaches_of_run (Option.some_get _).symm)

end Runs

end TenantBilling
