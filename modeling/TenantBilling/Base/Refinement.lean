import TenantBilling.Base.Runs

/-!
# Refinement

An executable system next to an abstract one whose steps bear labels. The executable system refines
the abstract one along an abstraction function if every step of the one is followed by the other
(`Base.Refines`): by a step with a label, by several, or by none at all where nothing of it can be
seen. What has been shown so far is a list of labels, and the relation that is kept may speak of it,
so that the labels can be compared with what the executable system records of its own past.

A run of the executable system then has a trace in the abstract one (`Base.Refines.reaches`), and
what holds along every trace (`Base.Trace.invariant`) holds of what the run has shown.
-/

namespace Base

section Trace

variable {α ℓ : Type} {A : α → ℓ → α → Prop} {a b c : α} {l : ℓ} {ls ls' : List ℓ}

/-- Steps of a labelled transition relation, one after the other, and their labels. -/
inductive Trace (A : α → ℓ → α → Prop) (a : α) : List ℓ → α → Prop where
  | nil : Trace A a [] a
  | snoc {ls : List ℓ} {b c : α} {l : ℓ} (h : Trace A a ls b) (hstep : A b l c) :
    Trace A a (ls ++ [l]) c

theorem Trace.single (h : A a l b) : Trace A a [l] b := .snoc .nil h

theorem Trace.append (h : Trace A a ls b) (h' : Trace A b ls' c) : Trace A a (ls ++ ls') c := by
  induction h' with
  | nil => rwa [List.append_nil]
  | snoc _ hstep ih =>
    rw [← List.append_assoc]
    exact ih.snoc hstep

/-- **The invariant rule of traces**: what relates the labels so far to the state, and is kept by
every step. -/
theorem Trace.invariant {J : List ℓ → α → Prop} (h : Trace A a ls b) (ha : J [] a)
    (hstep : ∀ ls b l c, J ls b → A b l c → J (ls ++ [l]) c) : J ls b := by
  induction h with
  | nil => exact ha
  | snoc _ hA ih => exact hstep _ _ _ _ ih hA

end Trace

section Refines

variable {σ ε α ℓ : Type}

/-- **A refinement** along the abstraction function, by steps whose events the condition admits. -/
structure Refines (step : σ → ε → Option σ) (C : σ → ε → Prop) (A : α → ℓ → α → Prop) (abs : σ → α)
    (I : σ → List ℓ → Prop) : Prop where
  follows : ∀ s ls e t, I s ls → C s e → step s e = some t →
    ∃ ls', Trace A (abs s) ls' (abs t) ∧ I t (ls ++ ls')

variable {step : σ → ε → Option σ} {C : σ → ε → Prop} {A : α → ℓ → α → Prop} {abs : σ → α}
  {I : σ → List ℓ → Prop} {s t : σ} {ls : List ℓ}

/-- **A run has a trace in the abstract system.** -/
theorem Refines.reaches (h : Refines step C A abs I) (hreach : Reaches step C s t) (hs : I s ls) :
    ∃ ls', Trace A (abs s) ls' (abs t) ∧ I t (ls ++ ls') := by
  induction hreach with
  | refl => exact ⟨[], .nil, by rwa [List.append_nil]⟩
  | tail _ hstep ih =>
    obtain ⟨ls₁, htrace₁, hI₁⟩ := ih
    obtain ⟨e, hC, he⟩ := hstep
    obtain ⟨ls₂, htrace₂, hI₂⟩ := h.follows _ _ _ _ hI₁ hC he
    exact ⟨ls₁ ++ ls₂, htrace₁.append htrace₂, by rwa [← List.append_assoc]⟩

end Refines

end Base
