import Mathlib.Logic.Relation
import Mathlib.Data.List.Chain

/-!
# Runs of an executable transition function

A system is given by a function `step : σ → ε → Option σ`: in state `s` the event
`e` is possible when `step s e` is `some t`, and then it leads to `t`. Everything
a development says about such a system is about its runs, and this file has the
three forms in which it needs them.

* `Base.run` executes a list of events. It is what a concrete run is evaluated
  with.
* `Base.Reaches step C` is reachability through events that the condition
  `C : σ → ε → Prop` admits in the state before them. It is what a theorem about
  every run is stated with, and `Base.reaches_of_runIf` leads from the first
  form to the second.
* `Base.record` keeps the events so far with the state, for conditions that look at
  what has led to a state (`Base.Reaches.recorded`).

`Base.IsCycle` is a closed walk of a relation, given as a list; a detector that finds
one names it.
-/

namespace Base

section Runs

variable {σ ε : Type} (step : σ → ε → Option σ)

/-- The state after a list of events, if every one of them is possible. -/
def run : σ → List ε → Option σ
  | s, [] => some s
  | s, e :: es => (step s e).bind fun t => run t es

/-- One step, by an event the condition admits in the state before it. -/
def StepIf (C : σ → ε → Prop) (s t : σ) : Prop :=
  ∃ e, C s e ∧ step s e = some t

/-- Reachability by steps whose events the condition admits. -/
abbrev Reaches (C : σ → ε → Prop) : σ → σ → Prop := Relation.ReflTransGen (StepIf step C)

/-- The condition that admits every event. -/
def Always : σ → ε → Prop := fun _ _ => True

variable {step}

/-- **The invariant rule**: what holds at the start and is kept by every admitted
step holds in every state reached. -/
theorem Reaches.invariant {C : σ → ε → Prop} {I : σ → Prop} {s t : σ} (h : Reaches step C s t)
    (hs : I s) (hstep : ∀ u e v, I u → C u e → step u e = some v → I v) : I t := by
  induction h with
  | refl => exact hs
  | tail _ hst ih =>
    obtain ⟨e, hC, he⟩ := hst
    exact hstep _ e _ ih hC he

theorem Reaches.mono {C D : σ → ε → Prop} (hCD : ∀ s e, C s e → D s e) {s t : σ}
    (h : Reaches step C s t) : Reaches step D s t := by
  refine Relation.ReflTransGen.mono ?_ _ _ h
  rintro u v ⟨e, hC, he⟩
  exact ⟨e, hCD _ _ hC, he⟩

theorem Reaches.always {C : σ → ε → Prop} {s t : σ} (h : Reaches step C s t) :
    Reaches step Always s t :=
  h.mono fun _ _ _ => trivial

/-- **The rule of progress**: where something not yet achieved can always be brought closer,
it can be achieved. -/
theorem Reaches.exists_of_rank {C : σ → ε → Prop} {I : σ → ℕ → Prop} {F : σ → Prop} {n : ℕ} {s : σ}
    (h : I s n) (hstep : ∀ u m, I u m → F u ∨ ∃ v k, k < m ∧ Reaches step C u v ∧ I v k) :
    ∃ t, Reaches step C s t ∧ F t := by
  induction n using Nat.strong_induction_on generalizing s with
  | _ n ih =>
    rcases hstep s n h with hF | ⟨v, k, hlt, hreach, hv⟩
    · exact ⟨s, Relation.ReflTransGen.refl, hF⟩
    · obtain ⟨t, ht, hF⟩ := ih k hlt hv
      exact ⟨t, hreach.trans ht, hF⟩

theorem run_append (s : σ) (es fs : List ε) :
    run step s (es ++ fs) = (run step s es).bind fun t => run step t fs := by
  induction es generalizing s with
  | nil => rfl
  | cons e es ih =>
    simp only [List.cons_append, run]
    cases step s e with
    | none => rfl
    | some t => simpa using ih t

variable (step) in
/-- Executing a list of events and checking the condition at each of them. -/
def runIf (C : σ → ε → Prop) [∀ s e, Decidable (C s e)] : σ → List ε → Option σ
  | s, [] => some s
  | s, e :: es => if C s e then (step s e).bind fun t => runIf C t es else none

/-- A run evaluated with its condition is a run through admitted steps. -/
theorem reaches_of_runIf {C : σ → ε → Prop} [∀ s e, Decidable (C s e)] {s t : σ} {es : List ε}
    (h : runIf step C s es = some t) : Reaches step C s t := by
  induction es generalizing s with
  | nil =>
    obtain rfl : s = t := by simpa [runIf] using h
    exact Relation.ReflTransGen.refl
  | cons e es ih =>
    rw [runIf] at h
    split at h
    case isFalse => exact absurd h (by simp)
    case isTrue hC =>
      cases he : step s e with
      | none => simp [he] at h
      | some u =>
        rw [he] at h
        exact Relation.ReflTransGen.head ⟨e, hC, he⟩ (ih h)

/-- A state that is reached is reached by a list of events. -/
theorem Reaches.exists_run {C : σ → ε → Prop} {s t : σ} (h : Reaches step C s t) :
    ∃ es, run step s es = some t := by
  induction h with
  | refl => exact ⟨[], rfl⟩
  | tail _ hst ih =>
    obtain ⟨es, hes⟩ := ih
    obtain ⟨e, -, he⟩ := hst
    exact ⟨es ++ [e], by rw [run_append, hes]; simpa [run] using he⟩

/-- A run of events that the condition admits wherever they occur. -/
theorem reaches_of_forall {C : σ → ε → Prop} {s t : σ} {es : List ε} (h : run step s es = some t)
    (hC : ∀ u, ∀ e ∈ es, C u e) : Reaches step C s t := by
  induction es generalizing s with
  | nil =>
    obtain rfl : s = t := by simpa [run] using h
    exact Relation.ReflTransGen.refl
  | cons e es ih =>
    cases he : step s e with
    | none => simp [run, he] at h
    | some u =>
      rw [run, he] at h
      exact Relation.ReflTransGen.head ⟨e, hC s e List.mem_cons_self, he⟩
        (ih h fun v e' he' => hC v e' (List.mem_cons_of_mem e he'))

theorem reaches_of_run {s t : σ} {es : List ε} (h : run step s es = some t) :
    Reaches step Always s t :=
  reaches_of_forall h fun _ _ _ => trivial

/-! ### Runs with their past -/

variable (step) in
/-- One step of the system, where the state comes with the events that have led to it. -/
def record (x : List ε × σ) (e : ε) : Option (List ε × σ) :=
  (step x.2 e).map fun t => (x.1 ++ [e], t)

theorem record_eq_some {x y : List ε × σ} {e : ε} (h : record step x e = some y) :
    step x.2 e = some y.2 ∧ y.1 = x.1 ++ [e] := by
  obtain ⟨t, ht, rfl⟩ := Option.map_eq_some_iff.mp h
  exact ⟨ht, rfl⟩

theorem run_concat {s t u : σ} {es : List ε} {e : ε} (hrun : run step s es = some t)
    (hstep : step t e = some u) : run step s (es ++ [e]) = some u := by
  rw [run_append, hrun]
  simpa [run] using hstep

/-- A run is recorded after what has been run before. -/
theorem run_record {s t : σ} {fs : List ε} (es : List ε) (h : run step s fs = some t) :
    run (record step) (es, s) fs = some (es ++ fs, t) := by
  induction fs generalizing s es with
  | nil =>
    obtain rfl : s = t := by simpa [run] using h
    rw [run, List.append_nil]
  | cons e fs ih =>
    obtain ⟨u, hu, hrest⟩ := Option.bind_eq_some_iff.mp h
    rw [run, record, hu, Option.map_some, Option.bind_some, ih _ hrest, List.append_assoc]
    rfl

/-- **The invariant rule with the past**: what is recorded has been run, and what holds at the start
and is kept by every admitted step holds of every run. -/
theorem Reaches.recorded {C : List ε × σ → ε → Prop} {I : List ε → σ → Prop} {s : σ}
    {x : List ε × σ} (h : Reaches (record step) C ([], s) x) (hs : I [] s)
    (hstep : ∀ es u e v, run step s es = some u → I es u → C (es, u) e → step u e = some v →
      I (es ++ [e]) v) : run step s x.1 = some x.2 ∧ I x.1 x.2 := by
  refine h.invariant (I := fun x => run step s x.1 = some x.2 ∧ I x.1 x.2) ⟨rfl, hs⟩ ?_
  rintro ⟨es, u⟩ e ⟨es', v⟩ ⟨hrun, hI⟩ hC hv
  obtain ⟨hv, rfl⟩ := record_eq_some hv
  exact ⟨run_concat hrun hv, hstep es u e v hrun hI hC hv⟩

/-- A run can be recorded. -/
theorem Reaches.exists_record {C : σ → ε → Prop} {s t : σ} (h : Reaches step C s t) (es : List ε) :
    ∃ es', Reaches (record step) (fun x => C x.2) (es, s) (es', t) := by
  induction h with
  | refl => exact ⟨es, .refl⟩
  | tail _ hst ih =>
    obtain ⟨es', hes⟩ := ih
    obtain ⟨e, hC, he⟩ := hst
    exact ⟨es' ++ [e], hes.tail ⟨e, hC, Option.map_eq_some_iff.mpr ⟨_, he, rfl⟩⟩⟩

/-- What is recorded is reached through the same events. -/
theorem Reaches.of_record {C : σ → ε → Prop} {s : σ} {x : List ε × σ}
    (h : Reaches (record step) (fun x => C x.2) ([], s) x) : Reaches step C s x.2 :=
  (h.recorded (I := fun _ t => Reaches step C s t) .refl
    fun _ _ e _ _ hreach hC hstep => hreach.tail ⟨e, hC, hstep⟩).2

/-- What is recorded has been run. -/
theorem Reaches.run_recorded {C : List ε × σ → ε → Prop} {s : σ} {x : List ε × σ}
    (h : Reaches (record step) C ([], s) x) : run step s x.1 = some x.2 :=
  (h.recorded (I := fun _ _ => True) trivial fun _ _ _ _ _ _ _ _ => trivial).1

end Runs

/-! ### Closed walks -/

section Cycles

variable {α : Type} (R : α → α → Prop)

/-- A closed walk through the elements of a nonempty list, starting and ending at
its head. -/
def IsCycle : List α → Prop
  | [] => False
  | a :: l => List.IsChain R (a :: (l ++ [a]))

instance [DecidableRel R] : ∀ l, Decidable (IsCycle R l)
  | [] => inferInstanceAs (Decidable False)
  | a :: l => inferInstanceAs (Decidable (List.IsChain R (a :: (l ++ [a]))))

variable {R}

theorem transGen_of_isChain_append {a b : α} {l : List α} (h : List.IsChain R (a :: (l ++ [b]))) :
    Relation.TransGen R a b := by
  induction l generalizing a with
  | nil => exact Relation.TransGen.single (by simpa using h)
  | cons c l ih =>
    rw [List.cons_append, List.isChain_cons_cons] at h
    exact Relation.TransGen.head h.1 (ih h.2)

/-- The head of a closed walk is connected to itself. -/
theorem IsCycle.transGen {a : α} {l : List α} (h : IsCycle R (a :: l)) : Relation.TransGen R a a :=
  transGen_of_isChain_append h

end Cycles

end Base
