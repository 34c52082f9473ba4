import TenantBilling.Model.Schema

/-!
# Hashing, signing and JSON text

The parts of `hashlib`, `hmac` and `json` the service uses. The two hash functions
are parameters (`TenantBilling.Crypto`): what is known of them is that they return a
digest of 64 lowercase hexadecimal characters. `sign_payload` is
`app/utils/signing.py`.
-/

namespace TenantBilling

/-- A hexadecimal SHA-256 digest. -/
structure HexDigest where
  text : String
  length_eq : text.length = 64
  hex : ∀ c ∈ text.toList, c ∈ "0123456789abcdef".toList

theorem nul_not_mem_hex : nul ∉ "0123456789abcdef".toList := by decide

/-- A digest fits its column. -/
def HexDigest.toVarchar (d : HexDigest) : Varchar 64 :=
  ⟨d.text, Nat.le_of_eq d.length_eq, fun h => nul_not_mem_hex (d.hex nul h)⟩

/-- The hash functions of the standard library. -/
structure Crypto where
  /-- `hashlib.sha256(body.encode()).hexdigest()`. -/
  sha256 : String → HexDigest
  /-- `hmac.new(secret.encode(), content.encode(), sha256).hexdigest()`. -/
  hmacSha256 : String → String → HexDigest

/-! ### `json.dumps` -/

/-- The `\u` escape of a code unit. -/
def unicodeEscape (n : ℕ) : List Char :=
  [Char.ofNat 92, 'u', hexDigit (n / 4096 % 16), hexDigit (n / 256 % 16), hexDigit (n / 16 % 16),
    hexDigit (n % 16)]

/-- A character in a JSON string, as `ensure_ascii` writes it. -/
def jsonChar (c : Char) : List Char :=
  let n := c.toNat
  if n = 34 then [Char.ofNat 92, Char.ofNat 34]
  else if n = 92 then [Char.ofNat 92, Char.ofNat 92]
  else if n = 10 then [Char.ofNat 92, 'n']
  else if n = 13 then [Char.ofNat 92, 'r']
  else if n = 9 then [Char.ofNat 92, 't']
  else if n = 8 then [Char.ofNat 92, 'b']
  else if n = 12 then [Char.ofNat 92, 'f']
  else if 32 ≤ n ∧ n ≤ 126 then [c]
  else if n < 65536 then unicodeEscape n
  else
    unicodeEscape (55296 + (n - 65536) / 1024) ++ unicodeEscape (56320 + (n - 65536) % 1024)

/-- A string as JSON text. -/
def jsonString (s : String) : String :=
  String.ofList (Char.ofNat 34 :: (s.toList.flatMap jsonChar ++ [Char.ofNat 34]))

mutual

/-- `json.dumps(x, separators=(",", ":"))`. -/
def Json.dumps : Json → String
  | .null => "null"
  | .bool b => if b then "true" else "false"
  | .int z => toString z
  | .float text _ => text
  | .str s => jsonString s
  | .arr xs => "[" ++ ",".intercalate (Json.dumpsList xs) ++ "]"
  | .obj fields => "\x7b" ++ ",".intercalate (Json.dumpsFields fields) ++ "\x7d"

/-- The elements of an array. -/
def Json.dumpsList : List Json → List String
  | [] => []
  | x :: xs => Json.dumps x :: Json.dumpsList xs

/-- The fields of an object. -/
def Json.dumpsFields : List (String × Json) → List String
  | [] => []
  | (k, x) :: fields => (jsonString k ++ ":" ++ Json.dumps x) :: Json.dumpsFields fields

end

/-- A payload value as JSON text. -/
def PayloadValue.dumps : PayloadValue → String
  | uuid u => jsonString (Uuid.str u)
  | cents z => toString z
  | json j => j.dumps

/-- `json.dumps(payload, separators=(",", ":"))`. -/
def Payload.dumps (payload : Payload) : String :=
  "\x7b" ++ ",".intercalate (payload.map fun x => jsonString x.1 ++ ":" ++ x.2.dumps) ++ "\x7d"

/-! ### Signatures -/

variable (crypto : Crypto)

/-- `sign_payload`: the header value and the timestamp in it. -/
def signPayload (secret body : String) (timestamp : ℤ) : String × ℤ :=
  let mac := crypto.hmacSha256 secret (toString timestamp ++ "." ++ body)
  ("t=" ++ toString timestamp ++ ",v1=" ++ mac.text, timestamp)

end TenantBilling
