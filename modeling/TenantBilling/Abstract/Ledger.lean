import Mathlib.Data.List.Nodup
import Mathlib.Logic.Function.Basic
import TenantBilling.Base.Refinement
import TenantBilling.Model.InvoiceState

/-!
# The ledger of an invoice

What the payments of an invoice are to be, without requests, sessions, rows or locks. An invoice
has a state and, under every key, a payment at some stage. A payment is reserved while the invoice
is open, nothing else is in progress and the key is new; then the provider is called, once; then
the outcome is entered, and with a success the invoice is paid. A call whose outcome is not known
stays as it is.

The state may also be moved by hand. The ledger does not say from where: that the service checks a
state which may be outdated when it writes the new one is left to its model.

The payments of a ledger come one after the other (`TenantBilling.Ledger.serial`): the calls are
those that have been reserved, in the same order, and the outcome of each is entered before the
next is reserved.
-/

namespace TenantBilling

open Base

/-- How far the payment under a key has come. -/
inductive Stage where
  | absent
  | reserved
  | called
  | succeeded
  | failed
deriving DecidableEq

namespace Stage

/-- The payment is in progress. -/
def Pending : Stage → Prop
  | reserved | called => True
  | _ => False

/-- The outcome has been entered. -/
def Settled : Stage → Prop
  | succeeded | failed => True
  | _ => False

end Stage

/-- The state of an invoice, and the payments under its keys. -/
@[ext] structure Ledger (K : Type) where
  state : Option InvoiceState
  stage : K → Stage

namespace Ledger

variable {K : Type}

/-- Before the invoice is there. -/
def empty : Ledger K := ⟨none, fun _ => .absent⟩

/-- What happens to a ledger. -/
inductive Act (K : Type) where
  | create
  | move (target : InvoiceState)
  | reserve (k : K)
  | call (k : K)
  | succeed (k : K)
  | fail (k : K)

variable [DecidableEq K]

/-- The ledger with the payment under a key at another stage. -/
def put (l : Ledger K) (k : K) (st : Stage) : Ledger K :=
    { l with stage := Function.update l.stage k st }

/-- **The steps of a ledger.** -/
inductive Step : Ledger K → Act K → Ledger K → Prop where
  | create {l : Ledger K} (h : l.state = none) : Step l .create { l with state := some .draft }
  | move {l : Ledger K} {target : InvoiceState} (h : l.state ≠ none) (ht : target ≠ .paid) :
    Step l (.move target) { l with state := some target }
  | reserve {l : Ledger K} {k : K} (hopen : l.state = some .open)
    (hfree : ∀ j, ¬(l.stage j).Pending)
    (hnew : l.stage k = .absent) : Step l (.reserve k) (l.put k .reserved)
  | call {l : Ledger K} {k : K} (h : l.stage k = .reserved) : Step l (.call k) (l.put k .called)
  | succeed {l : Ledger K} {k : K} (h : l.stage k = .called) :
    Step l (.succeed k) { l.put k .succeeded with state := some .paid }
  | fail {l : Ledger K} {k : K} (h : l.stage k = .called) : Step l (.fail k) (l.put k .failed)

/-- The keys under which payments have been reserved, in order. -/
def reserves (acts : List (Act K)) : List K :=
  acts.filterMap fun
    | .reserve k => some k
    | _ => none

/-- The keys under which the provider has been called, in order. -/
def calls (acts : List (Act K)) : List K :=
  acts.filterMap fun
    | .call k => some k
    | _ => none

/-- The states the invoice has been put in, in order. -/
def moves (acts : List (Act K)) : List InvoiceState :=
  acts.filterMap fun
    | .move target => some target
    | .succeed _ => some .paid
    | _ => none

@[simp] theorem put_stage (l : Ledger K) (k : K) (st : Stage) : (l.put k st).stage k = st :=
  Function.update_self ..

theorem put_stage_of_ne (l : Ledger K) {j k : K} (st : Stage) (h : j ≠ k) :
    (l.put k st).stage j = l.stage j := Function.update_of_ne h ..

/-! ### One payment after the other -/

/-- **The payments have come one after the other**: those of `done` have been called and settled,
and at most one, the one of `rest`, is in progress. -/
structure Serial (acts : List (Act K)) (l : Ledger K) (done rest : List K) : Prop where
  reserves : reserves acts = done ++ rest
  calls : calls acts = done ++ rest.filter fun k => l.stage k = .called
  nodup : (done ++ rest).Nodup
  settled : ∀ k ∈ done, (l.stage k).Settled
  pending : ∀ k ∈ rest, (l.stage k).Pending
  one : rest.length ≤ 1
  absent : ∀ k, k ∉ done ++ rest → l.stage k = .absent

variable {acts : List (Act K)} {l l' : Ledger K} {done rest : List K} {k : K}

/-- The payment in progress is the one of `rest`. -/
theorem Serial.eq_of_pending (h : Serial acts l done rest) (hk : (l.stage k).Pending) :
    rest = [k] := by
  have hmem : k ∈ done ++ rest := by
    by_contra hnot
    rw [h.absent k hnot] at hk
    exact hk
  have hrest : k ∈ rest := by
    rcases List.mem_append.mp hmem with hdone | hrest
    · have hsettled := h.settled k hdone
      revert hk hsettled
      cases l.stage k <;> simp [Stage.Pending, Stage.Settled]
    · exact hrest
  obtain ⟨j, rfl⟩ := List.length_eq_one_iff.mp
    (le_antisymm h.one (List.length_pos_of_mem hrest))
  rw [List.mem_singleton.mp hrest]

omit [DecidableEq K] in
theorem Serial.eq_nil (h : Serial acts l done rest) (hfree : ∀ j, ¬(l.stage j).Pending) :
    rest = [] := by
  cases rest with
  | nil => rfl
  | cons j rest => exact absurd (h.pending j List.mem_cons_self) (hfree j)

/-- The outcome of the payment in progress is entered. -/
theorem Serial.settle {a : Act K} (h : Serial acts l done rest) (hk : l.stage k = .called)
    (st : Stage)
    (hst : st.Settled) (hl' : l'.stage = (l.put k st).stage) (ha : Ledger.reserves [a] = [])
    (hb : Ledger.calls [a] = []) : Serial (acts ++ [a]) l' (done ++ [k]) [] := by
  obtain rfl := h.eq_of_pending (by rw [hk]; trivial)
  have hne : ∀ j, j ≠ k → l'.stage j = l.stage j := fun j hj => by rw [hl', put_stage_of_ne l st hj]
  have hcalls := h.calls
  rw [List.filter_singleton, hk, decide_eq_true rfl, cond_true] at hcalls
  refine ⟨?_, ?_, by simpa using h.nodup, fun j hj => ?_, by simp, by simp, fun j hj => ?_⟩
  · rw [Ledger.reserves, List.filterMap_append]
    exact (congrArg₂ _ h.reserves ha).trans (by simp)
  · rw [Ledger.calls, List.filterMap_append]
    exact (congrArg₂ _ hcalls hb).trans (by simp)
  · by_cases hjk : j = k
    · rw [hl', hjk, put_stage]
      exact hst
    · rw [hne j hjk]
      exact h.settled j (by simpa [hjk] using hj)
  · have hjk : j ≠ k := by
      rintro rfl
      simp at hj
    rw [hne j hjk]
    exact h.absent j (by simpa using hj)

/-- **A step keeps the payments in order.** -/
theorem Serial.step {a : Act K} (h : Serial acts l done rest) (hstep : Step l a l') :
    ∃ done' rest', Serial (acts ++ [a]) l' done' rest' := by
  cases hstep with
  | create hnone =>
    exact ⟨done, rest, by simpa [Ledger.reserves] using h.reserves,
      by simpa [Ledger.calls] using h.calls, h.nodup, h.settled, h.pending, h.one, h.absent⟩
  | move hsome ht =>
    exact ⟨done, rest, by simpa [Ledger.reserves] using h.reserves,
      by simpa [Ledger.calls] using h.calls, h.nodup, h.settled, h.pending, h.one, h.absent⟩
  | @reserve k hopen hfree hnew =>
    -- nothing is in progress, so the new payment is the only one that is
    obtain rfl := h.eq_nil hfree
    have hk : k ∉ done := fun hk => by
      have hsettled := h.settled k hk
      rw [hnew] at hsettled
      exact hsettled
    have hne : ∀ j ∈ done, j ≠ k := by
      rintro j hj rfl
      exact hk hj
    refine ⟨done, [k], ?_, ?_, ?_, fun j hj => ?_, fun j hj => ?_, by simp, fun j hj => ?_⟩
    · have hreserves := h.reserves
      simp only [Ledger.reserves, List.append_nil] at hreserves
      simp [Ledger.reserves, hreserves]
    · have hcalls := h.calls
      simp only [Ledger.calls, List.filter_nil, List.append_nil] at hcalls
      simp [Ledger.calls, hcalls]
    · have hnodup := h.nodup
      rw [List.append_nil] at hnodup
      exact hnodup.append (List.nodup_singleton k) (by simpa using hk)
    · rw [put_stage_of_ne _ _ (hne j hj)]
      exact h.settled j hj
    · rw [List.mem_singleton.mp hj, put_stage]
      trivial
    · have hjk : j ≠ k := by
        rintro rfl
        simp at hj
      rw [put_stage_of_ne _ _ hjk]
      exact h.absent j (by simpa [hjk] using hj)
  | @call k hk =>
    -- the payment that is called for is the one in progress
    obtain rfl := h.eq_of_pending (by rw [hk]; trivial)
    have hnot : k ∉ done := fun hmem => by
      have hsettled := h.settled k hmem
      rw [hk] at hsettled
      exact hsettled
    have hne : ∀ j ∈ done, j ≠ k := by
      rintro j hj rfl
      exact hnot hj
    have hcalls := h.calls
    rw [List.filter_singleton, hk] at hcalls
    refine ⟨done, [k], ?_, ?_, h.nodup, fun j hj => ?_, fun j hj => ?_, h.one, fun j hj => ?_⟩
    · simpa [Ledger.reserves] using h.reserves
    · simp only [Ledger.calls] at hcalls
      simp [Ledger.calls, hcalls]
    · rw [put_stage_of_ne _ _ (hne j hj)]
      exact h.settled j hj
    · rw [List.mem_singleton.mp hj, put_stage]
      trivial
    · have hjk : j ≠ k := by
        rintro rfl
        simp at hj
      rw [put_stage_of_ne _ _ hjk]
      exact h.absent j hj
  | succeed hk => exact ⟨_, _, h.settle hk .succeeded trivial rfl rfl rfl⟩
  | fail hk => exact ⟨_, _, h.settle hk .failed trivial rfl rfl rfl⟩

/-- **The payments of a ledger come one after the other.** -/
theorem serial (h : Trace Step empty acts l) : ∃ done rest, Serial acts l done rest := by
  refine h.invariant (J := fun acts l => ∃ done rest, Serial acts l done rest) ?_ ?_
  · exact ⟨[], [], rfl, rfl, by simp, by simp, by simp, by simp, fun _ _ => rfl⟩
  · rintro acts l a l' ⟨done, rest, hserial⟩ hstep
    exact hserial.step hstep

end Ledger

end TenantBilling
