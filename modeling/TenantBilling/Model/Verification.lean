import TenantBilling.Base.IntText
import TenantBilling.Base.Items
import TenantBilling.Model.Session
import TenantBilling.Model.Signing

/-!
# Verifying a signature

`verify_signature` of `app/utils/signing.py`: what the receiver of a delivery does with the header
that `TenantBilling.signPayload` made. The header is text from the network, so each step of the
parser is written out: `split`, `dict`, `int` and the comparison, with the exceptions they raise.
-/

namespace TenantBilling

open Base

/-- `str(z)`. -/
def strOfInt (z : ℤ) : Except Exc String :=
  if Printable z then .ok (toString z) else .error (.python "ValueError")

/-- The text has ASCII characters only. -/
def Ascii (s : String) : Prop := ∀ c ∈ s.toList, c.toNat < 128

instance (s : String) : Decidable (Ascii s) :=
    List.decidableBAll (fun c : Char => c.toNat < 128) s.toList

/-- `hmac.compare_digest(a, b)` of two texts. -/
def compareDigest (a b : String) : Except Exc Bool :=
  if Ascii a ∧ Ascii b then .ok (a = b) else .error (.python "TypeError")

/-- The `try` block of `verify_signature`; `none` is one of the exceptions it catches, a
`ValueError` or a `KeyError`. -/
def parseSignature (signatureHeader : String) : Option (ℤ × String) := do
  let parts ← (splitText ',' signatureHeader).mapM (splitFirst? '=')
  -- an item replaces an earlier one of its key
  let timestamp ← intOfText? (← parts.reverse.lookup "t")
  let receivedSig ← parts.reverse.lookup "v1"
  return (timestamp, receivedSig)

/-- `verify_signature`, at a time in seconds. -/
def verifySignature (crypto : Crypto) (secret body signatureHeader : String)
    (maxAgeSeconds now : ℤ) : Except Exc Bool :=
  match parseSignature signatureHeader with
  | none => .ok false
  | some (timestamp, receivedSig) =>
    if |now - timestamp| > maxAgeSeconds then .ok false
    else do
      let signedContent := (← strOfInt timestamp) ++ "." ++ body
      let expectedSig := crypto.hmacSha256 secret signedContent
      compareDigest expectedSig.text receivedSig

end TenantBilling
