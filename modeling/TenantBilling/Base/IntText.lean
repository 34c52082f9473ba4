import Mathlib.Data.Int.Order.Basic
import Mathlib.Data.List.Basic
import Mathlib.Tactic.Ring

/-!
# Integers as text

How Python reads and writes an integer in decimal. `Base.intOfText?` is `int` of a text: white
space around the number is dropped, a sign may stand before it, the digits may be those of any
script and may be grouped by single underscores, and a number of more than `Base.maxIntDigits`
digits is refused. `str` of an integer is Lean's `toString`, for a number of so many digits
(`Base.Printable`); reading what was written gives the number back (`Base.intOfText?_toString`).
-/

namespace Base

/-- The code points of the digits zero, each followed by the other nine digits of its script. -/
def decimalZeros : List ℕ :=
  [0x30, 0x660, 0x6f0, 0x7c0, 0x966, 0x9e6, 0xa66, 0xae6, 0xb66, 0xbe6, 0xc66, 0xce6, 0xd66, 0xde6,
    0xe50, 0xed0, 0xf20, 0x1040, 0x1090, 0x17e0, 0x1810, 0x1946, 0x19d0, 0x1a80, 0x1a90, 0x1b50,
    0x1bb0, 0x1c40, 0x1c50, 0xa620, 0xa8d0, 0xa900, 0xa9d0, 0xa9f0, 0xaa50, 0xabf0, 0xff10, 0x104a0,
    0x10d30, 0x11066, 0x110f0, 0x11136, 0x111d0, 0x112f0, 0x11450, 0x114d0, 0x11650, 0x116c0,
    0x11730, 0x118e0, 0x11950, 0x11c50, 0x11d50, 0x11da0, 0x11f50, 0x16a60, 0x16ac0, 0x16b50,
    0x1d7ce, 0x1d7d8, 0x1d7e2, 0x1d7ec, 0x1d7f6, 0x1e140, 0x1e2f0, 0x1e4f0, 0x1e950, 0x1fbf0]

/-- The value of a digit. -/
def digitValue? (c : Char) : Option ℕ :=
  decimalZeros.findSome? fun z => if z ≤ c.toNat ∧ c.toNat ≤ z + 9 then some (c.toNat - z) else none

/-- The white space that may surround a number. -/
def isIntSpace (c : Char) : Bool :=
  c.toNat ∈ [0x9, 0xa, 0xb, 0xc, 0xd, 0x20, 0x85, 0xa0, 0x1680, 0x2000, 0x2001, 0x2002, 0x2003,
    0x2004, 0x2005, 0x2006, 0x2007, 0x2008, 0x2009, 0x200a, 0x2028, 0x2029, 0x202f, 0x205f, 0x3000]

/-- The text without the white space around it. -/
def trimSpace (cs : List Char) : List Char :=
  ((cs.dropWhile isIntSpace).reverse.dropWhile isIntSpace).reverse

/-- The values of at least one digit, with single underscores between them. -/
def digitValues? : List Char → Option (List ℕ)
  | [] => none
  | [c] => (digitValue? c).map fun d => [d]
  | c :: '_' :: cs =>
    match digitValue? c, digitValues? cs with
    | some d, some ds => some (d :: ds)
    | _, _ => none
  | c :: c' :: cs =>
    match digitValue? c, digitValues? (c' :: cs) with
    | some d, some ds => some (d :: ds)
    | _, _ => none

/-- The greatest number of digits in a conversion from or to a text. -/
def maxIntDigits : ℕ := 4300

/-- A natural number of at most so many digits. -/
def natOfText? (cs : List Char) : Option ℕ :=
  match digitValues? cs with
  | some ds => if ds.length ≤ maxIntDigits then some (ds.foldl (fun n d => 10 * n + d) 0) else none
  | none => none

/-- `int(s)`; `none` is a `ValueError`. -/
def intOfText? (s : String) : Option ℤ :=
  match trimSpace s.toList with
  | '+' :: cs => (natOfText? cs).map Int.ofNat
  | '-' :: cs => (natOfText? cs).map fun n => -Int.ofNat n
  | cs => (natOfText? cs).map Int.ofNat

/-- The number has few enough digits for `str`, which raises a `ValueError` otherwise. -/
def Printable (z : ℤ) : Prop := (Nat.toDigits 10 z.natAbs).length ≤ maxIntDigits

instance (z : ℤ) : Decidable (Printable z) := inferInstanceAs (Decidable (_ ≤ _))

/-! ### Reading what was written -/

theorem toList_toString_ofNat (n : ℕ) : (toString (n : ℤ)).toList = Nat.toDigits 10 n := by
  rw [Int.toString_eq_repr, Int.repr_eq_if, if_pos (Int.natCast_nonneg n), Int.toNat_natCast,
    Nat.toList_repr]

theorem toList_toString_negSucc (n : ℕ) :
    (toString (Int.negSucc n)).toList = '-' :: Nat.toDigits 10 (n + 1) := by
  rw [Int.toString_eq_repr, Int.repr_eq_if, if_neg (Int.not_le.mpr (Int.negSucc_lt_zero n)),
    String.toList_append, Int.neg_negSucc]
  rw [show ((n + 1 : ℕ) : ℤ).toNat = n + 1 from rfl, Nat.toList_repr]
  rfl

theorem digitValue?_of_isDigit {c : Char} (h : c.isDigit = true) :
    digitValue? c = some (c.toNat - '0'.toNat) := by
  have hle : 0x30 ≤ c.toNat ∧ c.toNat ≤ 0x30 + 9 := by
    simp only [Char.isDigit, Bool.and_eq_true, decide_eq_true_eq] at h
    exact ⟨h.1, h.2⟩
  unfold digitValue? decimalZeros
  rw [List.findSome?_cons, if_pos hle]
  rfl

/-- Decimal digits are read one by one. -/
theorem digitValues?_of_isDigit {cs : List Char} (hne : cs ≠ []) (h : ∀ c ∈ cs, c.isDigit = true) :
    digitValues? cs = some (cs.map fun c => c.toNat - '0'.toNat) := by
  induction cs with
  | nil => exact absurd rfl hne
  | cons c cs ih =>
    have hc := digitValue?_of_isDigit (h c List.mem_cons_self)
    cases cs with
    | nil => simp [digitValues?, hc]
    | cons c' cs =>
      have hcs := ih (List.cons_ne_nil _ _) fun x hx => h x (List.mem_cons_of_mem _ hx)
      have hc' : c' ≠ '_' := by
        rintro rfl
        exact absurd (h '_' (by simp)) (by decide)
      rw [digitValues?.eq_4 _ _ _ (by simpa using hc'), hc, hcs]
      rfl

theorem isIntSpace_of_isDigit {c : Char} (h : c.isDigit = true) : isIntSpace c = false := by
  have hle : 0x30 ≤ c.toNat ∧ c.toNat ≤ 0x39 := by
    simp only [Char.isDigit, Bool.and_eq_true, decide_eq_true_eq] at h
    exact ⟨h.1, h.2⟩
  unfold isIntSpace
  rw [decide_eq_false_iff_not]
  simp only [List.mem_cons, List.not_mem_nil, or_false]
  omega

/-- A text without white space at its ends is not trimmed. -/
theorem trimSpace_eq_self {cs : List Char} (h : ∀ c ∈ cs, isIntSpace c = false) :
    trimSpace cs = cs := by
  have hdrop : ∀ l : List Char, (∀ c ∈ l, isIntSpace c = false) → l.dropWhile isIntSpace = l := by
    intro l hl
    cases l with
    | nil => rfl
    | cons c l => exact List.dropWhile_cons_of_neg (by simp [hl c List.mem_cons_self])
  rw [trimSpace, hdrop cs h, hdrop _ fun c hc => h c (List.mem_reverse.mp hc), List.reverse_reverse]

/-- **A number is read back from its digits**, if these are not too many. -/
theorem natOfText?_toDigits (n : ℕ) : natOfText? (Nat.toDigits 10 n) =
    if (Nat.toDigits 10 n).length ≤ maxIntDigits then some n else none := by
  have hdigit : ∀ c ∈ Nat.toDigits 10 n, c.isDigit = true := fun c hc =>
    Nat.isDigit_of_mem_toDigits (by decide) (by decide) hc
  unfold natOfText?
  rw [digitValues?_of_isDigit Nat.toDigits_ne_nil hdigit]
  dsimp only
  rw [List.length_map, List.foldl_map]
  have hvalue : (Nat.toDigits 10 n).foldl (fun m c => 10 * m + (c.toNat - '0'.toNat)) 0 = n :=
    Nat.ofDigitChars_ten_toDigits
  rw [hvalue]

/-- **`int(str(z))` is `z`**, for a number that can be written. -/
theorem intOfText?_toString (z : ℤ) :
    intOfText? (toString z) = if Printable z then some z else none := by
  have hdigit : ∀ n, ∀ c ∈ Nat.toDigits 10 n, c.isDigit = true := fun n c hc =>
    Nat.isDigit_of_mem_toDigits (by decide) (by decide) hc
  have hspace : ∀ n, ∀ c ∈ Nat.toDigits 10 n, isIntSpace c = false := fun n c hc =>
    isIntSpace_of_isDigit (hdigit n c hc)
  cases z with
  | ofNat n =>
    change intOfText? (toString (n : ℤ)) = _
    unfold intOfText?
    rw [toList_toString_ofNat, trimSpace_eq_self (hspace n)]
    split
    · next cs heq => exact absurd (hdigit n '+' (heq ▸ List.mem_cons_self)) (by decide)
    · next cs heq => exact absurd (hdigit n '-' (heq ▸ List.mem_cons_self)) (by decide)
    · rw [natOfText?_toDigits]
      change _ = if (Nat.toDigits 10 n).length ≤ maxIntDigits then _ else _
      split <;> rfl
  | negSucc n =>
    unfold intOfText?
    have hall : ∀ c ∈ '-' :: Nat.toDigits 10 (n + 1), isIntSpace c = false := by
      intro c hc
      rcases List.mem_cons.mp hc with rfl | hc
      · decide
      · exact hspace _ c hc
    rw [toList_toString_negSucc, trimSpace_eq_self hall]
    change (natOfText? _).map _ = if (Nat.toDigits 10 (n + 1)).length ≤ maxIntDigits then _ else _
    rw [natOfText?_toDigits]
    split <;> rfl

/-! ### What was read can be written -/

theorem digitValue?_le {c : Char} {d : ℕ} (h : digitValue? c = some d) : d ≤ 9 := by
  obtain ⟨z, -, hz⟩ := List.exists_of_findSome?_eq_some h
  split at hz
  · next hle =>
    obtain rfl := Option.some.inj hz
    omega
  · exact absurd hz (by simp)

/-- Each digit that is read is at most 9. -/
theorem digitValues?_le {cs : List Char} {ds : List ℕ} (h : digitValues? cs = some ds) :
    ∀ d ∈ ds, d ≤ 9 := by
  fun_induction digitValues? cs generalizing ds with
  | case1 => exact absurd h (by simp)
  | case2 c =>
    obtain ⟨d, hd, rfl⟩ := Option.map_eq_some_iff.mp h
    simpa using digitValue?_le hd
  | case3 c cs d ds' hds hd ih =>
    obtain rfl := Option.some.inj h
    exact List.forall_mem_cons.mpr ⟨digitValue?_le hd, ih hds⟩
  | case5 c c' cs hc' d ds' hds hd ih =>
    obtain rfl := Option.some.inj h
    exact List.forall_mem_cons.mpr ⟨digitValue?_le hd, ih hds⟩
  | case4 => exact absurd h (by simp)
  | case6 => exact absurd h (by simp)

/-- Digits make a number with no more digits. -/
theorem foldl_digits_lt {ds : List ℕ} (h : ∀ d ∈ ds, d ≤ 9) (n : ℕ) :
    ds.foldl (fun n d => 10 * n + d) n < (n + 1) * 10 ^ ds.length := by
  induction ds generalizing n with
  | nil => simp
  | cons d ds ih =>
    obtain ⟨hd, hds⟩ := List.forall_mem_cons.mp h
    calc (d :: ds).foldl (fun n d => 10 * n + d) n
        < (10 * n + d + 1) * 10 ^ ds.length := ih hds (10 * n + d)
      _ ≤ (10 * (n + 1)) * 10 ^ ds.length := Nat.mul_le_mul_right _ (by omega)
      _ = (n + 1) * 10 ^ (d :: ds).length := by rw [List.length_cons, Nat.pow_succ]; ring

/-- **A number that was read can be written.** -/
theorem printable_of_intOfText? {s : String} {z : ℤ} (h : intOfText? s = some z) : Printable z := by
  have hnat : ∀ {cs : List Char} {n : ℕ}, natOfText? cs = some n →
      (Nat.toDigits 10 n).length ≤ maxIntDigits := by
    intro cs n h
    unfold natOfText? at h
    split at h
    · next ds hds =>
      split at h
      · next hlength =>
        obtain rfl := Option.some.inj h
        rw [Nat.length_toDigits_le_iff (by decide) (by decide)]
        refine lt_of_lt_of_le (foldl_digits_lt (digitValues?_le hds) 0) ?_
        rw [Nat.zero_add, Nat.one_mul]
        exact Nat.pow_le_pow_right (by decide) hlength
      · exact absurd h (by simp)
    · exact absurd h (by simp)
  unfold intOfText? at h
  unfold Printable
  split at h
  all_goals
    obtain ⟨n, hn, rfl⟩ := Option.map_eq_some_iff.mp h
    simpa using hnat hn

/-- The text of an integer has digits and a sign only. -/
theorem mem_toString {z : ℤ} {c : Char} (h : c ∈ (toString z).toList) :
    c.isDigit = true ∨ c = '-' := by
  cases z with
  | ofNat n =>
    change c ∈ (toString (n : ℤ)).toList at h
    rw [toList_toString_ofNat] at h
    exact Or.inl (Nat.isDigit_of_mem_toDigits (by decide) (by decide) h)
  | negSucc n =>
    rw [toList_toString_negSucc] at h
    rcases List.mem_cons.mp h with rfl | h
    · exact Or.inr rfl
    · exact Or.inl (Nat.isDigit_of_mem_toDigits (by decide) (by decide) h)

/-- Different integers have different texts. -/
theorem toString_injective : Function.Injective (toString : ℤ → String) := by
  have hdigits : ∀ m n : ℕ, Nat.toDigits 10 m = Nat.toDigits 10 n → m = n := by
    intro m n h
    rw [← Nat.ofDigitChars_ten_toDigits (n := m), h, Nat.ofDigitChars_ten_toDigits]
  have hsign : ∀ m n : ℕ, Nat.toDigits 10 m ≠ '-' :: Nat.toDigits 10 n := by
    intro m n h
    have hc := Nat.isDigit_of_mem_toDigits (b := 10) (n := m) (by decide) (by decide)
      (h ▸ List.mem_cons_self : '-' ∈ Nat.toDigits 10 m)
    exact absurd hc (by decide)
  intro y z h
  have h := congrArg String.toList h
  cases y with
  | ofNat m =>
    change (toString (m : ℤ)).toList = _ at h
    rw [toList_toString_ofNat] at h
    cases z with
    | ofNat n =>
      change _ = (toString (n : ℤ)).toList at h
      rw [toList_toString_ofNat] at h
      rw [hdigits m n h]
    | negSucc n =>
      rw [toList_toString_negSucc] at h
      exact absurd h (hsign m _)
  | negSucc m =>
    rw [toList_toString_negSucc] at h
    cases z with
    | ofNat n =>
      change _ = (toString (n : ℤ)).toList at h
      rw [toList_toString_ofNat] at h
      exact absurd h.symm (hsign n _)
    | negSucc n =>
      rw [toList_toString_negSucc] at h
      have hsucc := hdigits _ _ (List.cons.inj h).2
      rw [Nat.succ.inj hsucc]

end Base
