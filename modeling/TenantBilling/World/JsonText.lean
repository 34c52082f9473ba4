import TenantBilling.Model.Payments

/-!
# The JSON text of a string

The request hash is taken of the JSON text of the card token, so two card tokens have one hash
only if the hash function collides or the text does not tell them apart. It does:
`TenantBilling.jsonString_injective`. The escapes of the characters are a code, and a text
begins with the code of one character only (`TenantBilling.jsonHead_append`).
-/

namespace TenantBilling

/-- Words over a code are told apart, if the code word that a word begins with is known. -/
theorem flatMap_injective {α β γ : Type} {code : α → List β} {head : List β → γ} {f : α → γ}
    (hf : Function.Injective f) (hne : ∀ a, code a ≠ [])
    (hhead : ∀ a bs, head (code a ++ bs) = f a) : Function.Injective (List.flatMap code) := by
  intro l l' h
  induction l generalizing l' with
  | nil =>
    cases l' with
    | nil => rfl
    | cons b l' =>
      rw [List.flatMap_nil, List.flatMap_cons] at h
      exact absurd (List.append_eq_nil_iff.mp h.symm).1 (hne b)
  | cons a l ih =>
    cases l' with
    | nil =>
      rw [List.flatMap_nil, List.flatMap_cons] at h
      exact absurd (List.append_eq_nil_iff.mp h).1 (hne a)
    | cons b l' =>
      rw [List.flatMap_cons, List.flatMap_cons] at h
      have hab : a = b := by
        refine hf ?_
        rw [← hhead a (l.flatMap code), h, hhead]
      subst hab
      rw [ih (List.append_cancel_left h)]

/-- The value of a hexadecimal digit. -/
def hexValue (c : Char) : ℕ := ((List.range 16).find? fun n => hexDigit n = c).getD 0

theorem hexValue_hexDigit {n : ℕ} (h : n < 16) : hexValue (hexDigit n) = n := by
  revert h n
  decide

/-- The code unit that four digits stand for. -/
def codeUnit (a b c d : Char) : ℕ :=
  hexValue a * 4096 + hexValue b * 256 + hexValue c * 16 + hexValue d

/-- The four digits of an escape are read as the number they were written for. -/
theorem codeUnit_unicodeEscape {n : ℕ} (h : n < 65536) :
    codeUnit (hexDigit (n / 4096 % 16)) (hexDigit (n / 256 % 16)) (hexDigit (n / 16 % 16))
      (hexDigit (n % 16)) = n := by
  have hmod : ∀ m, hexValue (hexDigit (m % 16)) = m % 16 := fun m =>
    hexValue_hexDigit (Nat.mod_lt m (by omega))
  rw [codeUnit, hmod, hmod, hmod, hmod]
  omega

/-- The character that a short escape stands for. -/
def shortEscape (c : Char) : ℕ :=
  if c = 'n' then 10 else if c = 'r' then 13 else if c = 't' then 9 else if c = 'b' then 8
  else if c = 'f' then 12 else c.toNat

/-- The character that a `\u` escape stands for, with what follows it: a high surrogate is
followed by the escape of a low one. -/
def longEscape : List Char → ℕ
  | a :: b :: c :: d :: rest =>
    let u := codeUnit a b c d
    if 55296 ≤ u ∧ u < 56320 then
      match rest with
      | _ :: _ :: a' :: b' :: c' :: d' :: _ =>
        65536 + (u - 55296) * 1024 + (codeUnit a' b' c' d' - 56320)
      | _ => u
    else u
  | _ => 0

/-- The code point of the character whose code a text begins with. -/
def jsonHead : List Char → ℕ
  | a :: b :: rest =>
    if a.toNat = 92 then if b = 'u' then longEscape rest else shortEscape b else a.toNat
  | [a] => a.toNat
  | [] => 0

theorem jsonHead_of_ne {c : Char} (h : c.toNat ≠ 92) (bs : List Char) :
    jsonHead (c :: bs) = c.toNat := by
  cases bs with
  | nil => rfl
  | cons b bs => rw [jsonHead, if_neg h]

theorem jsonHead_escape (bs : List Char) :
    jsonHead (Char.ofNat 92 :: 'u' :: bs) = longEscape bs := by
  rw [jsonHead, if_pos (by decide), if_pos rfl]

theorem unicodeEscape_append (n : ℕ) (bs : List Char) :
    unicodeEscape n ++ bs = Char.ofNat 92 :: 'u' :: hexDigit (n / 4096 % 16) ::
      hexDigit (n / 256 % 16) :: hexDigit (n / 16 % 16) :: hexDigit (n % 16) :: bs := rfl

theorem longEscape_of_not_surrogate {a b c d : Char} {rest : List Char}
    (h : ¬(55296 ≤ codeUnit a b c d ∧ codeUnit a b c d < 56320)) :
    longEscape (a :: b :: c :: d :: rest) = codeUnit a b c d := if_neg h

theorem longEscape_of_surrogate {a b c d x y a' b' c' d' : Char} {rest : List Char}
    (h : 55296 ≤ codeUnit a b c d ∧ codeUnit a b c d < 56320) :
    longEscape (a :: b :: c :: d :: x :: y :: a' :: b' :: c' :: d' :: rest) =
      65536 + (codeUnit a b c d - 55296) * 1024 + (codeUnit a' b' c' d' - 56320) := if_pos h

/-- An escape of one unit is read as its character. -/
theorem jsonHead_unicodeEscape {n : ℕ} (h : n < 65536) (hsurrogate : ¬(55296 ≤ n ∧ n < 56320))
    (bs : List Char) : jsonHead (unicodeEscape n ++ bs) = n := by
  have hunit := codeUnit_unicodeEscape h
  rw [unicodeEscape_append, jsonHead_escape, longEscape_of_not_surrogate (by rwa [hunit]), hunit]

/-- **Two surrogates are read as the one character they stand for.** -/
theorem jsonHead_surrogates {n : ℕ} (hlow : 65536 ≤ n) (hhigh : n < 1114112) (bs : List Char) :
    jsonHead (unicodeEscape (55296 + (n - 65536) / 1024) ++
      unicodeEscape (56320 + (n - 65536) % 1024) ++ bs) = n := by
  have hhighUnit := codeUnit_unicodeEscape (show 55296 + (n - 65536) / 1024 < 65536 by omega)
  have hlowUnit := codeUnit_unicodeEscape (show 56320 + (n - 65536) % 1024 < 65536 by omega)
  have hsurrogate : 55296 ≤ 55296 + (n - 65536) / 1024 ∧ 55296 + (n - 65536) / 1024 < 56320 := by
    omega
  rw [List.append_assoc, unicodeEscape_append, unicodeEscape_append, jsonHead_escape,
    longEscape_of_surrogate (by rwa [hhighUnit]), hhighUnit, hlowUnit]
  omega

/-- **A text begins with the code of one character only.** -/
theorem jsonHead_append (c : Char) (bs : List Char) : jsonHead (jsonChar c ++ bs) = c.toNat := by
  unfold jsonChar
  dsimp only
  by_cases h34 : c.toNat = 34
  · rw [if_pos h34, h34]
    rfl
  rw [if_neg h34]
  by_cases h92 : c.toNat = 92
  · rw [if_pos h92, h92]
    rfl
  rw [if_neg h92]
  by_cases h10 : c.toNat = 10
  · rw [if_pos h10, h10]
    rfl
  rw [if_neg h10]
  by_cases h13 : c.toNat = 13
  · rw [if_pos h13, h13]
    rfl
  rw [if_neg h13]
  by_cases h9 : c.toNat = 9
  · rw [if_pos h9, h9]
    rfl
  rw [if_neg h9]
  by_cases h8 : c.toNat = 8
  · rw [if_pos h8, h8]
    rfl
  rw [if_neg h8]
  by_cases h12 : c.toNat = 12
  · rw [if_pos h12, h12]
    rfl
  rw [if_neg h12]
  by_cases hprint : 32 ≤ c.toNat ∧ c.toNat ≤ 126
  · rw [if_pos hprint]
    exact jsonHead_of_ne h92 bs
  rw [if_neg hprint]
  have hvalid : c.toNat < 55296 ∨ 57343 < c.toNat ∧ c.toNat < 1114112 := c.valid
  by_cases hunit : c.toNat < 65536
  · rw [if_pos hunit]
    exact jsonHead_unicodeEscape hunit (by omega) bs
  · rw [if_neg hunit]
    exact jsonHead_surrogates (by omega) (by omega) bs

theorem jsonChar_ne_nil (c : Char) : jsonChar c ≠ [] := by
  intro h
  -- otherwise every text would begin with the character
  have hnil := jsonHead_append c []
  have hcons := jsonHead_append c ['a']
  rw [h] at hnil hcons
  exact absurd (hnil.trans hcons.symm) (by decide)

/-- **The JSON text of a string tells it.** -/
theorem jsonString_injective : Function.Injective jsonString := by
  intro s s' h
  have htoNat : Function.Injective Char.toNat := by
    intro c d hcd
    exact Char.ext (UInt32.toNat_inj.mp hcd)
  have hlist := (List.cons.inj (String.ofList_inj.mp h)).2
  exact String.toList_inj.mp (flatMap_injective htoNat jsonChar_ne_nil jsonHead_append
    (List.append_cancel_right hlist))

/-- The canonical body of a payment. -/
def requestBody (cardToken : String) : String :=
  "\x7b\"card_token\": " ++ jsonString cardToken ++ "\x7d"

/-- Two card tokens have one body only if they are one. -/
theorem requestBody_injective : Function.Injective requestBody := by
  intro token token' h
  have hbody : "\x7b\"card_token\": " ++ jsonString token ++ "\x7d" =
      "\x7b\"card_token\": " ++ jsonString token' ++ "\x7d" := h
  have hlist := congrArg String.toList hbody
  rw [String.toList_append, String.toList_append, String.toList_append,
    String.toList_append] at hlist
  exact jsonString_injective (String.toList_inj.mp
    (List.append_cancel_left (List.append_cancel_right hlist)))

end TenantBilling
