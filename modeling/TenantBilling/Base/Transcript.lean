import Mathlib.Data.List.Induction
import TenantBilling.Base.Prog

/-!
# Transcripts

What a program has issued so far and what it has been answered is its transcript, a list of
exchanges (`Base.Exchange`). A program that tracks a machine is at the point to which the machine
is led by the transcript (`Base.Walks`), and there is only one such point
(`Base.Walks.unique`). So whatever is recorded at the points of a machine is a function of the
transcript, and what is said of a transcript is proved by induction over a walk.
-/

namespace Base

/-- A statement with its answer. -/
abbrev Exchange (S : Type) (R : S → Type) : Type := (s : S) × R s

section Walks

variable {S : Type} {R : S → Type} {α P : Type} (out : P → Node S R α P)

/-- The machine is led from one point to another by the exchanges. -/
inductive Walks (pt : P) : List (Exchange S R) → P → Prop where
  | nil : Walks pt [] pt
  | snoc {l : List (Exchange S R)} {pt' : P} {s : S} {next : R s → P} (h : Walks pt l pt')
    (hout : out pt' = .op s next) (r : R s) : Walks pt (l ++ [⟨s, r⟩]) (next r)

variable {out} {pt pt' pt'' : P} {l : List (Exchange S R)}

/-- The last exchange of a walk. -/
theorem Walks.of_concat {x : Exchange S R} (h : Walks out pt (l ++ [x]) pt') :
    ∃ pt₀ next, Walks out pt l pt₀ ∧ out pt₀ = .op x.1 next ∧ pt' = next x.2 := by
  generalize hl : l ++ [x] = l' at h
  cases h with
  | nil => exact absurd hl (by simp)
  | snoc h hout r =>
    obtain ⟨rfl, hx⟩ := List.append_inj' hl rfl
    obtain rfl := (List.cons.inj hx).1
    exact ⟨_, _, h, hout, rfl⟩

/-- **The exchanges determine the point.** -/
theorem Walks.unique (h : Walks out pt l pt') (h' : Walks out pt l pt'') : pt' = pt'' := by
  induction h generalizing pt'' with
  | nil =>
    generalize hl : ([] : List (Exchange S R)) = l' at h'
    cases h' with
    | nil => rfl
    | snoc => exact absurd hl (by simp)
  | snoc _ hout r ih =>
    obtain ⟨pt₀, next, h₀, hout₀, rfl⟩ := h'.of_concat
    obtain rfl := ih h₀
    rw [hout] at hout₀
    obtain ⟨-, hnext⟩ := Node.op.inj hout₀
    rw [eq_of_heq hnext]

/-- A walk goes through a point after every part of its exchanges. -/
theorem Walks.of_append {l' : List (Exchange S R)} (h : Walks out pt (l ++ l') pt'') :
    ∃ pt', Walks out pt l pt' ∧ Walks out pt' l' pt'' := by
  induction l' using List.reverseRecOn generalizing pt'' with
  | nil => exact ⟨pt'', by rwa [List.append_nil] at h, .nil⟩
  | append_singleton l' x ih =>
    rw [← List.append_assoc] at h
    obtain ⟨pt₀, next, h₀, hout, rfl⟩ := h.of_concat
    obtain ⟨pt', hl, hl'⟩ := ih h₀
    exact ⟨pt', hl, hl'.snoc hout x.2⟩

/-- The first exchange of a walk. -/
theorem Walks.of_cons {x : Exchange S R} (h : Walks out pt (x :: l) pt') :
    ∃ next, out pt = .op x.1 next ∧ Walks out (next x.2) l pt' := by
  obtain ⟨pt₁, h₁, hl⟩ := Walks.of_append (l := [x]) h
  obtain ⟨pt₀, next, h₀, hout, rfl⟩ := Walks.of_concat (l := []) h₁
  obtain rfl := h₀.unique .nil
  exact ⟨next, hout, hl⟩

/-- What the machine keeps at its points. -/
theorem Walks.invariant {C : P → Prop} (h : Walks out pt l pt') (hpt : C pt)
    (hstep : ∀ pt s next r, C pt → out pt = .op s next → C (next r)) : C pt' := by
  induction h with
  | nil => exact hpt
  | snoc _ hout r ih => exact hstep _ _ _ r ih hout

end Walks

end Base
