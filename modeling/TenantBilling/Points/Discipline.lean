import TenantBilling.Model.System

/-!
# Session code that keeps to a discipline

The rules by which it is proved of session code that every statement it can issue is
allowed by what the answers before it have told (`Base.Prog.Keeps`). A statement is
issued where the session flushes, not where the code assigns, so a session is in order
when everything it has not written out yet is allowed already
(`TenantBilling.Session.Keeps`): what is allowed stays allowed.
-/

namespace TenantBilling

open Base

/-- The statement that writes an object out. -/
def Unflushed.stmt : Unflushed → Stmt
  | attempt id change => .updateAttempt id change
  | invoice id state => .updateInvoice id state
  | deliveries new => .insertDeliveries new
  | endpoint id => .deactivateEndpoint id
  | delivery id change => .updateDelivery id change

variable {K : Type} [Preorder K]

/-- Everything the session has not written out is allowed. -/
def Session.Keeps (D : Discipline Stmt Stmt.Resp K) (κ : K) (σ : Session) : Prop :=
  ∀ u ∈ σ.unflushed, D.may κ u.stmt

/-- What is left of session code and what its value satisfies. -/
def Orm.Returns {α : Type} (D : Discipline Stmt Stmt.Resp K) (Q : K → α → Prop) (κ : K)
    (x : Except Exc α × Session) : Prop :=
  x.2.Keeps D κ ∧ ∀ a, x.1 = .ok a → Q κ a

/-- Session code keeps to the discipline from every session that is in order. -/
def Orm.Keeps {α : Type} (D : Discipline Stmt Stmt.Resp K) (Q : K → α → Prop) (κ : K)
    (m : Orm α) : Prop :=
  ∀ σ : Session, σ.Keeps D κ → Prog.Keeps D (Orm.Returns D Q) κ (m σ)

section Rules

variable {D : Discipline Stmt Stmt.Resp K} {κ : K} {α β : Type} {Q : K → α → Prop}

/-- What is allowed stays allowed, so a session stays in order. -/
theorem Session.Keeps.mono {κ' : K} {σ : Session} (h : σ.Keeps D κ) (hle : κ ≤ κ') :
    σ.Keeps D κ' :=
  fun u hu => D.mono hle (h u hu)

namespace Orm

theorem keeps_pure {a : α} (h : Q κ a) : Keeps D Q κ (pure a) := by
  intro σ hσ
  exact ⟨hσ, by rintro _ ⟨⟩; exact h⟩

theorem keeps_raise {e : Exc} : Keeps D Q κ (raise e : Orm α) := by
  intro σ hσ
  exact ⟨hσ, by rintro _ ⟨⟩⟩

/-- The rule of sequence. What is known only grows. -/
theorem Keeps.bind {Q' : K → β → Prop} {m : Orm α} {f : α → Orm β} (hm : Keeps D Q κ m)
    (hf : ∀ κ' a, κ ≤ κ' → Q κ' a → Keeps D Q' κ' (f a)) : Keeps D Q' κ (m >>= f) := by
  intro σ hσ
  have hm' : Prog.Keeps D (fun κ' x => κ ≤ κ' ∧ Returns D Q κ' x) κ (m σ) :=
    (hm σ hσ).imp fun κ' x hle hx => ⟨hle, hx⟩
  refine Prog.Keeps.bind hm' ?_
  rintro κ' ⟨x, σ'⟩ ⟨hle, hσ', hx⟩
  cases x with
  | ok a => exact hf κ' a hle (hx a rfl) σ' hσ'
  | error e => exact ⟨hσ', by rintro _ ⟨⟩⟩

/-- A statement is issued, and its answer is learnt. -/
theorem keeps_issue {st : Stmt} {Q : K → st.Resp → Prop} (h : D.may κ st)
    (hQ : ∀ r, Q (D.learn κ st r) r) : Keeps D Q κ (issue st) := by
  intro σ hσ
  refine ⟨h, fun r => ⟨hσ.mono (D.grows ..), ?_⟩⟩
  rintro _ ⟨⟩
  exact hQ r

/-- An exception that is caught is a value. -/
theorem keeps_catching {Q' : K → Except Exc α → Prop} {m : Orm α} (hm : Keeps D Q κ m)
    (hok : ∀ κ' a, κ ≤ κ' → Q κ' a → Q' κ' (.ok a)) (herror : ∀ κ' e, Q' κ' (.error e)) :
    Keeps D Q' κ (catching m) := by
  intro σ hσ
  have hm' : Prog.Keeps D (fun κ' x => κ ≤ κ' ∧ Returns D Q κ' x) κ (m σ) :=
    (hm σ hσ).imp fun κ' x hle hx => ⟨hle, hx⟩
  refine Prog.Keeps.bind hm' ?_
  rintro κ' ⟨x, σ'⟩ ⟨hle, hσ', hx⟩
  refine ⟨hσ', ?_⟩
  rintro _ ⟨⟩
  cases x with
  | ok a => exact hok κ' a hle (hx a rfl)
  | error e => exact herror κ' e

/-- An error of the database is raised. -/
theorem keeps_ofDb {x : Except DbError α} (h : ∀ a, x = .ok a → Q κ a) :
    Keeps D Q κ (ofDb x) := by
  cases x with
  | ok a => exact keeps_pure (h a rfl)
  | error e => exact keeps_raise

theorem keeps_scalarOne {x : Option α} (h : ∀ a, x = some a → Q κ a) :
    Keeps D Q κ (scalarOne x) := by
  cases x with
  | some a => exact keeps_pure (h a rfl)
  | none => exact keeps_raise

/-- A statement whose error is raised. -/
theorem keeps_ofDb_issue {ρ : Type} {Q : K → ρ → Prop} {st : Stmt}
    (hresp : st.Resp = Except DbError ρ) (h : D.may κ st)
    (hQ : ∀ a, Q (D.learn κ st (hresp ▸ .ok a)) a) :
    Keeps D Q κ (issue st >>= fun r => ofDb (hresp ▸ r)) := by
  refine (keeps_issue (Q := fun κ' r => κ' = D.learn κ st r) h fun r => rfl).bind ?_
  rintro κ' r - rfl
  refine keeps_ofDb fun a ha => ?_
  have hcast : ∀ {T : Type} (h : st.Resp = T) (x : T), h ▸ r = x → r = h ▸ x := by
    rintro T rfl x hx
    exact hx
  rw [hcast hresp _ ha]
  exact hQ a

/-! ### The unit of work -/

/-- An assignment issues nothing yet, but what it is going to issue has to be allowed. -/
theorem keeps_touch {u : Unflushed} {Q : K → Unit → Prop} (h : D.may κ u.stmt) (hQ : Q κ ()) :
    Keeps D Q κ (touch u) := by
  intro σ hσ
  refine ⟨?_, fun _ _ => hQ⟩
  intro u' hu'
  rcases List.mem_append.mp hu' with hu' | hu'
  · exact hσ u' hu'
  · obtain rfl := List.mem_singleton.mp hu'
    exact h

theorem keeps_send {u : Unflushed} (h : D.may κ u.stmt) :
    Keeps D (fun _ _ => True) κ (send u) := by
  have hsend : ∃ hresp : u.stmt.Resp = Except DbError Unit,
      send u = (issue u.stmt >>= fun r => ofDb (hresp ▸ r)) := by
    cases u <;> exact ⟨rfl, rfl⟩
  obtain ⟨hresp, hsend⟩ := hsend
  rw [hsend]
  exact keeps_ofDb_issue hresp h fun _ => trivial

/-- The changes are written out one by one, and each was allowed when it was made. -/
theorem keeps_sendAll {us : List Unflushed} (h : ∀ u ∈ us, D.may κ u.stmt) :
    Keeps D (fun _ _ => True) κ (sendAll us) := by
  induction us generalizing κ with
  | nil => exact keeps_pure trivial
  | cons u us ih =>
    refine (keeps_send (h u List.mem_cons_self)).bind fun κ' _ hle _ => ih fun u' hu' => ?_
    exact D.mono hle (h u' (List.mem_cons_of_mem _ hu'))

/-- A flush writes out what is allowed already. -/
theorem keeps_flush : Keeps D (fun _ _ => True) κ flush := by
  intro σ hσ
  exact keeps_sendAll hσ _ (by rintro u ⟨⟩)

/-- A query comes after a flush, by which more may have been learnt. -/
theorem keeps_select {q : Query} {Q : K → q.Result → Prop}
    (h : ∀ κ', κ ≤ κ' → D.may κ' (.select q))
    (hQ : ∀ κ' r, κ ≤ κ' → Q (D.learn κ' (.select q) r) r) : Keeps D Q κ (select q) := by
  refine keeps_flush.bind fun κ' _ hle _ => ?_
  exact keeps_issue (h κ' hle) fun r => hQ κ' r hle

theorem keeps_commit (h : ∀ κ', κ ≤ κ' → D.may κ' .commit) :
    Keeps D (fun _ _ => True) κ commit := by
  refine keeps_flush.bind fun κ' _ hle _ => ?_
  exact keeps_issue (h κ' hle) fun _ => trivial

theorem keeps_rollback (h : D.may κ .rollback) : Keeps D (fun _ _ => True) κ rollback := by
  refine (keeps_issue (Q := fun _ _ => True) h fun _ => trivial).bind fun κ' _ _ _ => ?_
  intro σ _
  exact ⟨by rintro u ⟨⟩, fun _ _ => trivial⟩

/-! ### The identity map -/

/-- The state of a loaded invoice may be an earlier one, so nothing is known of it. -/
theorem keeps_loadInvoice {row : Invoice} {Q : K → Invoice → Prop}
    (h : ∀ state, Q κ { row with state := state }) : Keeps D Q κ (loadInvoice row) := by
  intro σ hσ
  unfold loadInvoice
  split
  · exact ⟨hσ, by rintro _ ⟨⟩; exact h _⟩
  · exact ⟨hσ, by rintro _ ⟨⟩; exact h row.state⟩

/-- The whole program of a route. -/
theorem keeps_getDb {m : Orm α} (hm : Keeps D Q κ m) (h : ∀ κ', κ ≤ κ' → D.may κ' .rollback) :
    Prog.Keeps D (fun _ _ => True) κ (getDb m) := by
  have hm' : Prog.Keeps D (fun κ' _ => κ ≤ κ') κ (m {}) :=
    (hm {} (by rintro u ⟨⟩)).imp fun κ' _ hle _ => hle
  exact Prog.Keeps.bind hm' fun κ' x hle => ⟨h κ' hle, fun _ => trivial⟩

end Orm

end Rules

end TenantBilling
