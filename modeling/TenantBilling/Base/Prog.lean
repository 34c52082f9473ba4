import Mathlib.Order.Basic

/-!
# Programs over statements

A program of a component that talks to a server is a tree: it has returned a
value, or it is about to issue a statement and goes on with whatever the server
answers. `Base.Prog S R α` is the type of such trees, for a type `S` of
statements whose answers are typed by `R : S → Type`.

The point of the tree is that the server, and everybody else who talks to it, can
act between any two statements: what is left of a program after an answer is
again a program, so a system of interleaved components is a family of residual
programs next to the shared state.

Three things can be said of all that is left of a program at once, and are inherited
by the residual programs, so that each is an invariant of a component for free.

* `Base.Prog.Keeps` says that the program keeps to a `Base.Discipline`: every statement
  it can still issue is one that is allowed by what the answers before it have told
  (`Base.Prog.Keeps.next`).
* `Base.Prog.Tracks` says that the program does what a machine does from one of its
  points: a machine maps each of its points to a `Base.Node`, the value returned or
  the statement issued and the next point for each answer. It is how a program is
  given names for the places it can be at (`Base.Prog.Tracks.next`).
* `Base.Prog.Along` says that every answer the program can still get leaves of it what it
  may: it is how the end of a program is related to what was answered before
  (`Base.Prog.Along.next`).
-/

namespace Base

/-- A program that issues statements `s : S`, each answered by an `R s`, and
returns an `α`. -/
inductive Prog (S : Type) (R : S → Type) (α : Type) : Type where
  /-- The program has returned. -/
  | ret (a : α) : Prog S R α
  /-- The program issues a statement and continues with the answer. -/
  | op (s : S) (k : R s → Prog S R α) : Prog S R α

namespace Prog

variable {S : Type} {R : S → Type} {α β : Type}

/-- Run a program and continue with the value it returns. -/
def bind : Prog S R α → (α → Prog S R β) → Prog S R β
  | ret a, f => f a
  | op s k, f => op s fun r => (k r).bind f

@[simp] theorem bind_ret (a : α) (f : α → Prog S R β) : (ret a).bind f = f a := rfl

@[simp] theorem bind_op (s : S) (k : R s → Prog S R α) (f : α → Prog S R β) :
    (op s k).bind f = op s fun r => (k r).bind f := rfl

end Prog

/-! ### Disciplines -/

/-- What a component may do and how it comes to be allowed to: from the answers it
gets it gathers knowledge of type `K`, and the more it knows the more it may do. -/
structure Discipline (S : Type) (R : S → Type) (K : Type) [Preorder K] where
  /-- The statements allowed to a component that knows `κ`. -/
  may : K → S → Prop
  /-- What is known after an answer. -/
  learn : K → (s : S) → R s → K
  /-- Nothing is forbidden by knowing more. -/
  mono : ∀ {κ κ' s}, κ ≤ κ' → may κ s → may κ' s
  /-- Nothing is forgotten. -/
  grows : ∀ κ s r, κ ≤ learn κ s r

namespace Prog

variable {S : Type} {R : S → Type} {α β K : Type} [Preorder K]

/-- **A program keeps to a discipline**: every statement it can still issue, whatever the
answers, is allowed by what it knows by then; and what it returns has the property
`Q`. -/
def Keeps (D : Discipline S R K) (Q : K → α → Prop) : K → Prog S R α → Prop
  | κ, ret a => Q κ a
  | κ, op s k => D.may κ s ∧ ∀ r, Keeps D Q (D.learn κ s r) (k r)

variable {D : Discipline S R K} {Q : K → α → Prop} {κ : K}

@[simp] theorem keeps_ret {a : α} : Keeps D Q κ (ret a : Prog S R α) ↔ Q κ a := Iff.rfl

@[simp] theorem keeps_op {s : S} {k : R s → Prog S R α} :
    Keeps D Q κ (op s k) ↔ D.may κ s ∧ ∀ r, Keeps D Q (D.learn κ s r) (k r) := Iff.rfl

/-- What is left of a program after an answer keeps to the discipline too. -/
theorem Keeps.next {s : S} {k : R s → Prog S R α} (h : Keeps D Q κ (op s k)) (r : R s) :
    Keeps D Q (D.learn κ s r) (k r) :=
  h.2 r

/-- **The rule of sequence.** -/
theorem Keeps.bind {Q' : K → β → Prop} {p : Prog S R α} {f : α → Prog S R β}
    (hp : Keeps D Q κ p) (hf : ∀ κ' a, Q κ' a → Keeps D Q' κ' (f a)) :
    Keeps D Q' κ (p.bind f) := by
  induction p generalizing κ with
  | ret a => exact hf κ a hp
  | op s k ih => exact ⟨hp.1, fun r => ih r (hp.2 r)⟩

/-- **The rule of consequence.** The property of the returned value may use that nothing
is forgotten. -/
theorem Keeps.imp {Q' : K → α → Prop} {p : Prog S R α} (hp : Keeps D Q κ p)
    (hQ : ∀ κ' a, κ ≤ κ' → Q κ' a → Q' κ' a) : Keeps D Q' κ p := by
  induction p generalizing κ with
  | ret a => exact hQ κ a le_rfl hp
  | op s k ih =>
    refine ⟨hp.1, fun r => ih r (hp.2 r) fun κ' a hle => ?_⟩
    exact hQ κ' a ((D.grows κ s r).trans hle)
end Prog

/-! ### Points of a program -/

/-- What a machine does at a point: return, or issue a statement and move on. -/
inductive Node (S : Type) (R : S → Type) (α P : Type) : Type where
  /-- The machine has returned. -/
  | ret (a : α) : Node S R α P
  /-- The machine issues a statement and moves to the point given by the answer. -/
  | op (s : S) (k : R s → P) : Node S R α P

namespace Prog

variable {S : Type} {R : S → Type} {α P : Type} {out : P → Node S R α P}

variable (out) in
/-- The program does what the machine does from the point. -/
def Tracks : P → Prog S R α → Prop
  | pt, ret a => out pt = .ret a
  | pt, op s k => ∃ next, out pt = .op s next ∧ ∀ r, Tracks (next r) (k r)

theorem tracks_ret {pt : P} {a : α} : Tracks out pt (ret a) ↔ out pt = .ret a := Iff.rfl

/-- A program that issues the machine's statement, and tracks it after every answer. -/
theorem Tracks.intro {pt : P} {s : S} {next : R s → P} {k : R s → Prog S R α}
    (h : out pt = .op s next) (hk : ∀ r, Tracks out (next r) (k r)) : Tracks out pt (op s k) :=
  ⟨next, h, hk⟩

/-- What is left of a program after an answer tracks the machine from the next point. -/
theorem Tracks.next {pt : P} {s : S} {next : R s → P} {k : R s → Prog S R α}
    (h : Tracks out pt (op s k)) (hout : out pt = .op s next) (r : R s) :
    Tracks out (next r) (k r) := by
  obtain ⟨next', hout', hk⟩ := h
  rw [hout] at hout'
  obtain ⟨-, hnext⟩ := Node.op.inj hout'
  rw [eq_of_heq hnext]
  exact hk r

end Prog

/-! ### What an answer leaves of a program -/

namespace Prog

variable {S : Type} {R : S → Type} {α β P : Type}

/-- Every answer that the program can still get leaves of it what `L` admits. -/
def Along (L : (s : S) → R s → Prog S R α → Prop) : Prog S R α → Prop
  | ret _ => True
  | op s k => ∀ r, L s r (k r) ∧ Along L (k r)

variable {L : (s : S) → R s → Prog S R α → Prop}

@[simp] theorem along_ret (a : α) : Along L (ret a) := trivial

theorem Along.next {s : S} {k : R s → Prog S R α} (h : Along L (op s k)) (r : R s) :
    Along L (k r) :=
  (h r).2

/-- The rule of sequence: what is left of the first part is followed by the second. -/
theorem Along.bind {L : (s : S) → R s → Prog S R β → Prop} {p : Prog S R α} {f : α → Prog S R β}
    (hp : Along (fun s r rest => L s r (rest.bind f)) p) (hf : ∀ a, Along L (f a)) :
    Along L (p.bind f) := by
  induction p with
  | ret a => exact hf a
  | op s k ih => exact fun r => ⟨(hp r).1, ih r (hp r).2⟩

/-- Nothing more is asked of what is left than what every program of its kind satisfies. -/
theorem along_of_forall {p : Prog S R α} (h : ∀ s r rest, L s r rest) : Along L p := by
  induction p with
  | ret a => trivial
  | op s k ih => exact fun r => ⟨h s r _, ih r⟩

/-- A program that tracks a machine, seen at the points of the machine. -/
theorem Tracks.along {out : P → Node S R α P} {pt : P} {p : Prog S R α} (h : Tracks out pt p)
    (hL : ∀ pt s next r rest, out pt = .op s next → Tracks out (next r) rest → L s r rest) :
    Along L p := by
  induction p generalizing pt with
  | ret a => trivial
  | op s k ih =>
    obtain ⟨next, hout, hk⟩ := h
    exact fun r => ⟨hL pt s next r (k r) hout (hk r), ih r (hk r)⟩

/-- A set of points that a machine does not leave, and at which it issues what the discipline
allows to who knows nothing. -/
theorem Tracks.keeps {K : Type} [Preorder K] {D : Discipline S R K} {κ : K} {Q : K → α → Prop}
    {out : P → Node S R α P} {C : P → Prop} {pt : P} {p : Prog S R α} (h : Tracks out pt p)
    (hpt : C pt) (hmay : ∀ pt s next, C pt → out pt = .op s next →
      (∀ κ', κ ≤ κ' → D.may κ' s) ∧ ∀ r, C (next r))
    (hret : ∀ pt a, C pt → out pt = .ret a → ∀ κ', κ ≤ κ' → Q κ' a) : Keeps D Q κ p := by
  suffices ∀ κ', κ ≤ κ' → Keeps D Q κ' p from this κ le_rfl
  induction p generalizing pt with
  | ret a => exact fun κ' hle => hret pt a hpt h κ' hle
  | op s k ih =>
    obtain ⟨next, hout, hk⟩ := h
    obtain ⟨hs, hnext⟩ := hmay pt s next hpt hout
    exact fun κ' hle => ⟨hs κ' hle, fun r => ih r (hk r) (hnext r) _ (hle.trans (D.grows κ' s r))⟩

end Prog

end Base
