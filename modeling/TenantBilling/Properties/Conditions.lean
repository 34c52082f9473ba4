import TenantBilling.Invariant.Commits

/-!
# Conditions on runs

The results about runs are of the form: in every run all of whose steps meet a condition,
something holds of every state reached. Most conditions are about the moment at which
the server executes an `UPDATE` of the state of an invoice, which in this service
carries no condition on the old state (`TenantBilling.WhenUpdating`).

The file ends with a service to try the conditions on: one business, its customer, and
an invoice that is a draft.
-/

namespace TenantBilling

open Base World

/-- What the server finds in the committed database when it executes an `UPDATE` of the
state of an invoice. -/
def WhenUpdating (P : Database → Uuid → InvoiceState → Prop) (s : System) : Event → Prop
  | .exec p _ =>
    match s.next? p with
    | some (.updateInvoice i state) => P s.world.db i state
    | _ => True
  | _ => True

instance (P : Database → Uuid → InvoiceState → Prop) [∀ db i state, Decidable (P db i state)]
    (s : System) : ∀ e, Decidable (WhenUpdating P s e)
  | .exec p _ => by
    unfold WhenUpdating
    dsimp only
    split <;> infer_instance
  | .start _ | .abort .. | .kill _ => inferInstanceAs (Decidable True)

/-- What a condition on updates says of the one that is executed. -/
theorem WhenUpdating.exec {P : Database → Uuid → InvoiceState → Prop} {s : System} {p : Pid}
    {env : Env} {i : Uuid} {state : InvoiceState} (h : WhenUpdating P s (.exec p env))
    (hnext : s.next? p = some (.updateInvoice i state)) : P s.world.db i state := by
  simp only [WhenUpdating, hnext] at h
  exact h

/-- What the payment provider answers. -/
def WhenAnswering (P : HttpResult → Prop) (s : System) : Event → Prop
  | .exec p env =>
    match s.next? p with
    | some .awaitCharge => P env.http
    | _ => True
  | _ => True

instance (P : HttpResult → Prop) [DecidablePred P] (s : System) :
    ∀ e, Decidable (WhenAnswering P s e)
  | .exec p _ => by
    unfold WhenAnswering
    dsimp only
    split <;> infer_instance
  | .start _ | .abort .. | .kill _ => inferInstanceAs (Decidable True)

/-- What a condition on answers says of the one that is given. -/
theorem WhenAnswering.exec {P : HttpResult → Prop} {s : System} {p : Pid} {env : Env}
    (h : WhenAnswering P s (.exec p env)) (hnext : s.next? p = some .awaitCharge) : P env.http := by
  simp only [WhenAnswering, hnext] at h
  exact h

/-- The response to a charge request that is not an error has the status. -/
def HttpResult.Says (status : String) : HttpResult → Prop
  | .response code (some (.obj fields)) =>
    code < 400 ∧ (fields.lookup "status").any (·.eqStr status)
  | _ => False

instance (status : String) : DecidablePred (HttpResult.Says status) := fun http => by
  unfold HttpResult.Says
  split <;> infer_instance

/-- The provider reports a status only if it is `succeeded` or `failed`. -/
def HttpResult.Reports (http : HttpResult) : Prop :=
  ∀ result, chargeOutcome http = some (.ok result) → http.Says "succeeded" ∨ http.Says "failed"

instance (http : HttpResult) : Decidable http.Reports :=
  match h : chargeOutcome http with
  | some (.ok result) =>
    decidable_of_iff (http.Says "succeeded" ∨ http.Says "failed")
      ⟨fun hsays _ _ => hsays, fun hreports => hreports result h⟩
  | some (.error _) => .isTrue fun result hr => by rw [h] at hr; cases hr
  | none => .isTrue fun result hr => by rw [h] at hr; cases hr

/-- A result that is no success is a decline. -/
theorem HttpResult.Reports.failed {http : HttpResult} {result : PspChargeResult}
    (h : http.Reports) (houtcome : chargeOutcome http = some (.ok result))
    (hresult : ¬result.Succeeded) : http.Says "failed" := by
  rcases h result houtcome with hsays | hsays
  · unfold HttpResult.Says at hsays
    split at hsays
    case h_2 => exact hsays.elim
    case h_1 code fields =>
      obtain ⟨hcode, hstatus⟩ := hsays
      cases hlookup : fields.lookup "status" with
      | none =>
        rw [hlookup] at hstatus
        cases hstatus
      | some st =>
        rw [hlookup] at hstatus
        simp only [chargeOutcome, chargeResult, if_neg (Nat.not_le.mpr hcode), hlookup] at houtcome
        rw [← Except.ok.inj (Option.some.inj houtcome)] at hresult
        exact absurd hstatus hresult
  · exact hsays

/-! ### What a request returns -/

/-- What the program of a session has returned. -/
def System.returned? (s : System) (p : Pid) : Option (Except Exc Result) :=
  match s.procs[p]? with
  | some ⟨_, .ret x, _⟩ => some x
  | _ => none

/-- The exception that the program of a session has ended with. -/
def System.raised? (s : System) (p : Pid) : Option Exc :=
  match s.returned? p with
  | some (.error e) => some e
  | _ => none

theorem System.raised?_eq_some {s : System} {p : Pid} {e : Exc} :
    s.raised? p = some e ↔ s.returned? p = some (.error e) := by
  unfold raised?
  split
  case h_1 e' h => simp [h]
  case h_2 h => simpa using h e

/-- The attempt that the program of a session has returned, and whether it is a replayed one. -/
def System.returnedAttempt? (s : System) (p : Pid) : Option (PaymentAttempt × Bool) :=
  match s.returned? p with
  | some (.ok (.attempt a cached)) => some (a, cached)
  | _ => none

theorem System.returnedAttempt?_eq_some {s : System} {p : Pid} {a : PaymentAttempt}
    {cached : Bool} :
    s.returnedAttempt? p = some (a, cached) ↔ s.returned? p = some (.ok (.attempt a cached)) := by
  unfold returnedAttempt?
  split
  case h_1 a' cached' h => simp [h]
  case h_2 h => simpa using h a cached

section Returned

variable {crypto : Crypto} {s : System} {φ : Pid → Phase} {p : Pid} {c : PayCall}

/-- A payment that has returned is done. -/
theorem System.Sound.done_of_returned (h : s.Sound crypto φ) {x : Except Exc Result} {pt : PayPoint}
    (hx : s.returned? p = some x) (hph : φ p = .pay c pt) : ∃ g, pt = .done x g := by
  unfold System.returned? at hx
  split at hx
  case h_2 => cases hx
  case h_1 job y alive hproc =>
    obtain rfl := Option.some.inj hx
    have htracks := h.tracks p _ hproc
    rw [hph] at htracks
    have hout : pt.out crypto c = .ret y := htracks.2
    cases pt <;> cases hout
    exact ⟨_, rfl⟩

/-- A payment that is done has returned. -/
theorem System.Sound.returned_of_done (h : s.Sound crypto φ) (hp : s.Alive p)
    {x : Except Exc Result}
    {g : Progress} (hph : φ p = .pay c (.done x g)) : s.returned? p = some x := by
  obtain ⟨⟨job, prog, alive⟩, hproc, -⟩ := hp
  have htracks := h.tracks p _ hproc
  rw [hph] at htracks
  cases prog with
  | op st k =>
    obtain ⟨-, next, hout, -⟩ := htracks
    cases hout
  | ret y =>
    have hout : (PayPoint.done x g).out crypto c = .ret y := htracks.2
    cases hout
    simp [System.returned?, hproc]

end Returned

/-! ### Invariants of the uncommitted changes of state -/

section Pending

variable {crypto : Crypto} {s t : System} {φ φ' : Pid → Phase} {e : Event} {p q : Pid}

/-- Something holds of all uncommitted changes of an invoice's state. -/
def WhilePending (Q : Database → Uuid → InvoiceState → Prop) (w : World) : Prop :=
  ∀ p i state now, .updateInvoice i state now ∈ w.writesOf p → Q w.db i state

/-- Nobody changes the state of an invoice that another session has locked. -/
theorem Commits.stateOf_of_lock {w : World} {db' : Database} {ph ph' : Phase} {i : Uuid}
    (h : Commits crypto w p db' ph ph') (hlock : w.locks ⟨.invoices, i⟩ = some q) (hne : p ≠ q) :
    db'.stateOf i = w.db.stateOf i ∨ w.db.stateOf i = none ∧ db'.stateOf i = some .draft := by
  have hother : ∀ {rs ws}, w.HasTx p rs ws → ∀ j, ⟨.invoices, j⟩ ∈ rs → i ≠ j := by
    rintro rs ws htx j hj rfl
    have hp := (htx.locks _).mpr hj
    rw [hlock] at hp
    exact hne (Option.some.inj hp).symm
  cases h with
  | reserve _ _ hstate => exact Or.inl (hstate i)
  | unpaid _ _ _ _ _ _ _ hstate => exact Or.inl (hstate i)
  | other _ _ hstate => exact hstate i
  | @paid c _ _ _ _ _ _ _ _ _ _ _ _ _ htx _ hstate =>
    rw [hstate i, if_neg (hother htx c.invoiceId List.mem_cons_self)]
    exact Or.inl rfl
  | @transition c _ _ _ _ htx _ hstate =>
    rw [hstate i, if_neg (hother htx c.invoiceId List.mem_cons_self)]
    exact Or.inl rfl

/-- **What holds when an `UPDATE` is executed holds until it is committed**, if it is kept by
the commits of the sessions that have not locked the invoice. -/
theorem WhilePending.move {P Q : Database → Uuid → InvoiceState → Prop} (h : s.Sound crypto φ)
    (hpending : WhilePending Q s.world) (hC : WhenUpdating P s e)
    (hmove : s.Moves crypto φ e t φ') (hPQ : ∀ db i state, P db i state → Q db i state)
    (hkeep : ∀ p q ph i state, s.world.locks ⟨.invoices, i⟩ = some q → p ≠ q →
      Commits crypto s.world p t.world.db (φ p) ph → Q s.world.db i state →
        Q t.world.db i state) : WhilePending Q t.world := by
  intro p i state now hx
  have hold : Q s.world.db i state ∧ (s.world.locks ⟨.invoices, i⟩ = some p ∨
      t.world.db = s.world.db) := by
    rcases hmove.updateInvoice hx with hx | ⟨env, rfl, hnext⟩
    · refine ⟨hpending p i state now hx, Or.inl ?_⟩
      exact h.consistent.locked p _ (mem_writesOf.mp hx) _ (List.mem_singleton_self _)
    · exact ⟨hPQ _ _ _ (hC.exec hnext), Or.inr (hmove.db_of_next hnext (by simp))⟩
  rcases h.commit_or hmove with ⟨hdb, -, -⟩ | ⟨p', ph, -, ht, -, hcommits⟩
  · rw [hdb]
    exact hold.1
  · rcases hold.2 with hlock | hdb
    · refine hkeep p' p ph i state hlock ?_ hcommits hold.1
      rintro rfl
      rw [ht, writesOf_commit, if_pos rfl] at hx
      cases hx
    · rw [hdb]
      exact hold.1

end Pending

/-! ### A service to try -/

section Sample

/-- A hash function that is right on the body of a request with the token `tok_visa`. -/
def sampleCrypto : Crypto where
  sha256 _ := ⟨"316960084f39514b896ad951a5a8df0f2fe078763709cf01d3d0596e20bdc5bd", by decide,
    List.forall_iff_forall_mem.mp (by decide)⟩
  hmacSha256 _ _ := ⟨"0000000000000000000000000000000000000000000000000000000000000000", by decide,
    List.forall_iff_forall_mem.mp (by decide)⟩

def sampleBusiness : Business := ⟨1⟩

/-- A request arrives, and its next statements are executed. -/
def Event.request (req : Request) : Event := .start (.request sampleBusiness req)

/-- The next statements of a session are executed. -/
def Event.steps (p : Pid) (n : ℕ) : List Event := List.replicate n (.exec p {})

/-- The business creates a customer and an invoice of 500 cents, which is a draft. -/
def drafting : List Event :=
  [.request (.createCustomer "Ada" "ada@example.com")] ++ Event.steps 0 3 ++
    [.request (.createInvoice
      ⟨0, none, [⟨"consulting", 1, 500, by decide, by decide, by decide⟩], by simp⟩)] ++
    Event.steps 1 7

/-- A reply of the payment provider. -/
def sampleReply (status pspRef : String) : HttpResult :=
  .response 200 (some (.obj [("status", .str status), ("psp_ref", .str pspRef)]))

end Sample

end TenantBilling
