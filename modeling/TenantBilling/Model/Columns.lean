import Mathlib.Algebra.Ring.Int.Defs
import Mathlib.Algebra.Ring.Nat
import Mathlib.Data.Int.Order.Basic

/-!
# Column types and JSON values

The types of the values that sit in a column. A `VARCHAR(n)` holds a text of at
most `n` characters without `U+0000` and an `INTEGER` or a `BIGINT` a signed number
of 32 or 64 bits, so each is a type of its own and a value that does not fit cannot
be built: storing is a partial function (`TenantBilling.Varchar.ofString?`,
`TenantBilling.SignedInt.ofInt?`), and a text that is too long or has a `U+0000`, or
a number that is out of range, is where a statement fails. The other texts of Python
that PostgreSQL refuses, those with a lone surrogate, are no `String` at all.

`TenantBilling.Json` is what `json.loads` returns, which is all the service sees
of an answer of the payment provider.
-/

namespace TenantBilling

/-- A UUID. Only its identity matters. -/
abbrev Uuid := ℕ

/-- A hexadecimal digit. -/
def hexDigit (n : ℕ) : Char :=
  if n < 10 then Char.ofNat (48 + n) else Char.ofNat (87 + n)

/-- `str` of a UUID: 32 hexadecimal digits in groups of 8, 4, 4, 4 and 12. -/
def Uuid.str (u : Uuid) : String :=
  String.ofList <| (List.range 32).flatMap fun i =>
    let digit := hexDigit (u / 16 ^ (31 - i) % 16)
    if i = 8 ∨ i = 12 ∨ i = 16 ∨ i = 20 then ['-', digit] else [digit]

/-- A point in time, in microseconds. -/
abbrev Timestamp := ℤ

/-- A calendar date, in days. -/
abbrev Date := ℤ

/-- The character no text of PostgreSQL contains. -/
def nul : Char := Char.ofNat 0

/-- The texts a `VARCHAR(n)` stores: at most `n` characters, and no `U+0000` among them. -/
def Varchar.Stores (n : ℕ) (s : String) : Prop := s.length ≤ n ∧ nul ∉ s.toList

instance (n : ℕ) (s : String) : Decidable (Varchar.Stores n s) :=
  inferInstanceAs (Decidable (_ ∧ _))

/-- `VARCHAR(n)`. -/
structure Varchar (n : ℕ) where
  /-- The text. -/
  text : String
  /-- It fits the column. -/
  fits : Varchar.Stores n text
deriving DecidableEq

namespace Varchar

variable {n : ℕ}

/-- Storing a text in the column: a longer one is refused, and so is one with a
`U+0000`, which is no text of the server's encoding. -/
def ofString? (n : ℕ) (s : String) : Option (Varchar n) :=
  if h : Stores n s then some ⟨s, h⟩ else none

/-- A value is stored as the text that it was. -/
theorem ofString?_eq_some {s : String} {v : Varchar n} : ofString? n s = some v ↔ v.text = s := by
  unfold ofString?
  constructor
  · intro h
    split at h
    · rw [← Option.some.inj h]
    · exact absurd h (by simp)
  · rintro rfl
    rw [dif_pos v.fits]

/-- A text is refused exactly if the column does not store it. -/
theorem ofString?_eq_none {s : String} : ofString? n s = none ↔ ¬ Stores n s := by
  unfold ofString?
  split <;> simp_all

/-- A storable text is stored as it is. -/
theorem exists_ofString? {s : String} (h : Stores n s) :
    ∃ v, ofString? n s = some v ∧ v.text = s :=
  ⟨⟨s, h⟩, dif_pos h, rfl⟩

@[ext] theorem ext {v w : Varchar n} (h : v.text = w.text) : v = w := by
  cases v
  cases w
  simp_all

end Varchar

/-- A signed integer column of `bits` bits. -/
structure SignedInt (bits : ℕ) where
  /-- The number. -/
  val : ℤ
  /-- It is not below the range of the column. -/
  lower : -2 ^ (bits - 1) ≤ val
  /-- It is not above the range of the column. -/
  upper : val < 2 ^ (bits - 1)
deriving DecidableEq

/-- `BIGINT`. -/
abbrev BigInt := SignedInt 64

/-- `INTEGER`. -/
abbrev Integer := SignedInt 32

/-- Storing a number in the column; one out of range is refused. -/
def SignedInt.ofInt? (bits : ℕ) (z : ℤ) : Option (SignedInt bits) :=
  if h : -2 ^ (bits - 1) ≤ z ∧ z < 2 ^ (bits - 1) then some ⟨z, h.1, h.2⟩ else none

/-- A value is stored as the number that it was. -/
theorem SignedInt.ofInt?_eq_some {bits : ℕ} {z : ℤ} {v : SignedInt bits} :
    SignedInt.ofInt? bits z = some v ↔ v.val = z := by
  unfold SignedInt.ofInt?
  constructor
  · intro h
    split at h
    · rw [← Option.some.inj h]
    · exact absurd h (by simp)
  · rintro rfl
    rw [dif_pos ⟨v.lower, v.upper⟩]

/-- A value returned by `json.loads`. A float is kept as the text Python prints for
it and whether it is nonzero. -/
inductive Json where
  | null : Json
  | bool (b : Bool) : Json
  | int (z : ℤ) : Json
  | float (text : String) (nonzero : Bool) : Json
  | str (s : String) : Json
  | arr (xs : List Json) : Json
  | obj (fields : List (String × Json)) : Json

namespace Json

/-- Python's truth value of the object. -/
def truthy : Json → Bool
  | null => false
  | bool b => b
  | int z => z != 0
  | float _ nonzero => nonzero
  | str s => s != ""
  | arr xs => !xs.isEmpty
  | obj fields => !fields.isEmpty

/-- `d.get(k)` of a dictionary. -/
def get (fields : List (String × Json)) (k : String) : Json := (fields.lookup k).getD null

/-- `x == s` for a string `s`. -/
def eqStr (s : String) : Json → Bool
  | str t => t == s
  | _ => false

theorem eqStr_iff {s : String} {j : Json} : j.eqStr s = true ↔ j = str s := by
  cases j <;> simp [eqStr]

end Json

end TenantBilling
