import TenantBilling.Base.Prog

/-!
# What a program ensures among others

The state a program's statements act on is not its own: between two of them it goes on in
whatever way the surroundings of the program are bound to. A `Base.Setting` is the two sides of
this, the relation that the surroundings keep to and the relation by which the answer to a
statement takes one state to the next.

`Base.Prog.Ensures E Q w prog` says that from the state `w` on, however the surroundings go on and
whatever is answered, what the program returns has the property `Q` in every later state. As the
other things said of all that is left of a program, it is inherited by the residual programs and
by later states (`Base.Prog.Ensures.answer`, `Base.Prog.Ensures.rely`), so it is an invariant of a
component in a system whose moves are those of the setting. It is shown of a program by the rules
of sequence and consequence (`Base.Prog.Ensures.bind`, `Base.Prog.Ensures.imp`), or of a machine
that the program tracks from what holds at its points (`Base.Prog.Ensures.of_tracks`).
-/

namespace Base

/-- The two sides by which a shared state goes on. -/
structure Setting (S : Type) (R : S → Type) (σ : Type) where
  /-- What the surroundings may make of the state. -/
  rely : σ → σ → Prop
  /-- What the answer to a statement makes of it. -/
  answers : σ → (s : S) → R s → σ → Prop
  refl : ∀ w, rely w w
  trans : ∀ {w w' w''}, rely w w' → rely w' w'' → rely w w''

namespace Prog

variable {S : Type} {R : S → Type} {σ α β P : Type}

/-- **What the program returns has the property**, from the state on and for good. -/
def Ensures (E : Setting S R σ) (Q : σ → α → Prop) : σ → Prog S R α → Prop
  | w, ret a => ∀ w', E.rely w w' → Q w' a
  | w, op s k => ∀ w₁ r w₂, E.rely w w₁ → E.answers w₁ s r w₂ → Ensures E Q w₂ (k r)

variable {E : Setting S R σ} {Q : σ → α → Prop} {w w' : σ} {p : Prog S R α}

theorem ensures_ret {a : α} :
    Ensures E Q w (ret a : Prog S R α) ↔ ∀ w', E.rely w w' → Q w' a := Iff.rfl

theorem ensures_op {s : S} {k : R s → Prog S R α} :
    Ensures E Q w (op s k) ↔
      ∀ w₁ r w₂, E.rely w w₁ → E.answers w₁ s r w₂ → Ensures E Q w₂ (k r) := Iff.rfl

/-- A program is as good in a later state. -/
theorem Ensures.rely (h : Ensures E Q w p) (hw : E.rely w w') : Ensures E Q w' p := by
  cases p with
  | ret a => exact fun v hv => h v (E.trans hw hv)
  | op s k => exact fun w₁ r w₂ hw₁ hans => h w₁ r w₂ (E.trans hw hw₁) hans

/-- What is left of a program after an answer is as good. -/
theorem Ensures.answer {s : S} {k : R s → Prog S R α} {r : R s} (h : Ensures E Q w (op s k))
    (hans : E.answers w s r w') : Ensures E Q w' (k r) :=
  h w r w' (E.refl w) hans

theorem Ensures.returned {a : α} (h : Ensures E Q w (ret a : Prog S R α)) : Q w a :=
  h w (E.refl w)

/-- **The rule of sequence.** -/
theorem Ensures.bind {Q' : σ → β → Prop} {f : α → Prog S R β} (hp : Ensures E Q w p)
    (hf : ∀ w' a, Q w' a → Ensures E Q' w' (f a)) : Ensures E Q' w (p.bind f) := by
  induction p generalizing w with
  | ret a => exact hf w a hp.returned
  | op s k ih => exact fun w₁ r w₂ hw₁ hans => ih r (hp w₁ r w₂ hw₁ hans)

/-- **The rule of consequence.** -/
theorem Ensures.imp {Q' : σ → α → Prop} (hp : Ensures E Q w p) (hQ : ∀ w' a, Q w' a → Q' w' a) :
    Ensures E Q' w p := by
  induction p generalizing w with
  | ret a => exact fun w' hw' => hQ w' a (hp w' hw')
  | op s k ih => exact fun w₁ r w₂ hw₁ hans => ih r (hp w₁ r w₂ hw₁ hans)

/-- What holds of everything is ensured. -/
theorem ensures_of_forall (hQ : ∀ w a, Q w a) : Ensures E Q w p := by
  induction p generalizing w with
  | ret a => exact fun w' _ => hQ w' a
  | op s k ih => exact fun _ r _ _ _ => ih r

/-- **The rule for machines**: what holds at the points of a machine is left alone by the
surroundings and handed over by the answers. -/
theorem Ensures.of_tracks {out : P → Node S R α P} {H : σ → P → Prop} {pt : P}
    (htracks : Tracks out pt p) (hpt : H w pt)
    (hrely : ∀ w w' pt, E.rely w w' → H w pt → H w' pt)
    (hstep : ∀ w pt s next r w', out pt = .op s next → E.answers w s r w' → H w pt → H w' (next r))
    (hret : ∀ w pt a, out pt = .ret a → H w pt → Q w a) : Ensures E Q w p := by
  induction p generalizing w pt with
  | ret a => exact fun w' hw' => hret w' pt a htracks (hrely w w' pt hw' hpt)
  | op s k ih =>
    obtain ⟨next, hout, hk⟩ := htracks
    intro w₁ r w₂ hw₁ hans
    exact ih r (hk r) (hstep w₁ pt s next r w₂ hout hans (hrely w w₁ pt hw₁ hpt))

end Prog

end Base
