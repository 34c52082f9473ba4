import Mathlib.Data.List.DropRight
import TenantBilling.Model.Server
import TenantBilling.Model.Verification

/-!
# Authentication

The keys by which a business is known (`app/utils/api_keys.py`) and the dependency
that every route of a business has (`get_current_business` of `app/dependencies.py`):
it looks the presented key up by its hash, loads the business of the key, and answers
with one and the same `401` whenever any of this fails.

No route writes the two tables it reads. They are kept by hand, with statements of an
operator, so they are a `TenantBilling.Directory` of their own. The two selects of the
dependency are answered by whatever directory has been committed by then, each on its
own: the dependency is a program, whose statements are `TenantBilling.AuthQuery`.
-/

namespace TenantBilling

open Base

/-! ### Texts -/

/-- White space, as `str.isspace` has it. -/
def isStripSpace (c : Char) : Bool := isIntSpace c || (0x1c ≤ c.toNat && c.toNat ≤ 0x1f)

/-- `str.strip()`. -/
def strip (s : String) : String :=
  String.ofList ((s.toList.dropWhile isStripSpace).rdropWhile isStripSpace)

/-- White space around a text that has none is stripped. -/
theorem strip_around {before after : List Char} {s : String}
    (hbefore : ∀ c ∈ before, isStripSpace c)
    (hs : ∀ c ∈ s.toList, ¬isStripSpace c) (hafter : ∀ c ∈ after, isStripSpace c) :
    strip (String.ofList (before ++ s.toList ++ after)) = s := by
  have hleft : (before ++ s.toList ++ after).dropWhile isStripSpace =
      (s.toList ++ after).dropWhile isStripSpace := by
    rw [List.append_assoc, List.dropWhile_append_of_pos hbefore]
  have hright : (s.toList ++ after).rdropWhile isStripSpace = s.toList := by
    rw [List.rdropWhile, List.reverse_append,
      List.dropWhile_append_of_pos fun c hc => hafter c (List.mem_reverse.mp hc)]
    change s.toList.rdropWhile isStripSpace = s.toList
    exact List.rdropWhile_eq_self_iff.mpr fun hne => hs _ (List.getLast_mem hne)
  have hboth : ((s.toList ++ after).dropWhile isStripSpace).rdropWhile isStripSpace = s.toList := by
    cases hcs : s.toList with
    | nil =>
      rw [List.nil_append, List.dropWhile_eq_nil_iff.mpr hafter]
      rfl
    | cons c cs =>
      rw [List.cons_append, List.dropWhile_cons_of_neg (hs c (hcs ▸ List.mem_cons_self)),
        ← List.cons_append, ← hcs, hright]
  rw [strip, String.toList_ofList, hleft, hboth, String.ofList_toList]

/-! ### Keys -/

/-- `api_keys`. -/
structure ApiKey where
  id : Uuid
  businessId : Uuid
  keyHash : Varchar 64
  keyPrefix : Varchar 20
  isActive : Bool
  createdAt : Timestamp
  revokedAt : Option Timestamp
deriving DecidableEq

/-- `GeneratedApiKey`. -/
structure GeneratedApiKey where
  plaintext : String
  keyHash : HexDigest
  keyPrefix : String

variable (crypto : Crypto)

/-- `generate_api_key`, where `secrets.token_urlsafe(32)` is the text given. -/
def generateApiKey (randomPart : String) : GeneratedApiKey :=
  let plaintext := "sk_live_" ++ randomPart
  { plaintext
    keyHash := crypto.sha256 plaintext
    keyPrefix := String.ofList (plaintext.toList.take 12) }

/-- The row that `INSERT INTO api_keys (business_id, key_hash, key_prefix)` builds, which is how the
operator puts a generated key to use. -/
def GeneratedApiKey.row (k : GeneratedApiKey) (businessId id : Uuid) (now : Timestamp) :
    Except RowError ApiKey :=
  match Varchar.ofString? 20 k.keyPrefix with
  | some keyPrefix =>
    .ok { id, businessId, keyHash := k.keyHash.toVarchar, keyPrefix, isActive := true,
          createdAt := now, revokedAt := none }
  | none => .error (.unstorable [k.keyPrefix])

/-- `hash_api_key`. -/
def hashApiKey (plaintext : String) : String := (crypto.sha256 plaintext).text

/-- `verify_api_key`. -/
def verifyApiKey (plaintext storedHash : String) : Except Exc Bool :=
  compareDigest (hashApiKey crypto plaintext) storedHash

/-! ### The directory -/

/-- The tables `businesses` and `api_keys`. -/
structure Directory where
  businesses : Table Business.id
  apiKeys : Table ApiKey.id
  /-- `UniqueConstraint("key_hash")`. -/
  hashUnique : (apiKeys.rows.map ApiKey.keyHash).Nodup
  /-- The foreign key on `businesses`. -/
  owned : ∀ k ∈ apiKeys.rows, k.businessId ∈ businesses.rows.map Business.id

/-- A `SELECT` of the dependency. -/
inductive AuthQuery where
  /-- `select(ApiKey).where(ApiKey.key_hash == …, ApiKey.is_active.is_(True))`. -/
  | activeKey (keyHash : String)
  /-- `select(Business).where(Business.id == …)`. -/
  | business (id : Uuid)

/-- What `scalar_one_or_none` returns: no select has two rows, for a hash is unique. -/
def AuthQuery.Result : AuthQuery → Type
  | activeKey _ => Option ApiKey
  | business _ => Option Business

/-- What a select returns from a directory. -/
def Directory.eval (d : Directory) : (q : AuthQuery) → q.Result
  | .activeKey keyHash => d.apiKeys.rows.find? fun k => k.keyHash.text = keyHash && k.isActive
  | .business id => d.businesses.find? id

/-! ### The dependency -/

/-- `HTTPAuthorizationCredentials`, as `HTTPBearer(auto_error=False)` makes them of the header. -/
structure Credentials where
  scheme : String
  credentials : String
deriving DecidableEq

/-- `HTTPException`. -/
structure HttpException where
  statusCode : ℕ
  detail : String
  headers : List (String × String)
deriving DecidableEq

/-- `_UNAUTHORIZED`. -/
def unauthorized : HttpException := ⟨401, "Invalid API key", [("WWW-Authenticate", "Bearer")]⟩

/-- The programs of the dependency. -/
abbrev AuthProg (α : Type) : Type := Prog AuthQuery AuthQuery.Result α

/-- The scheme is `bearer` in any casing; no letter outside ASCII is lowered to one of these. -/
def Credentials.Bearer (c : Credentials) : Prop := c.scheme.toLower = "bearer"

instance (c : Credentials) : Decidable c.Bearer := inferInstanceAs (Decidable (_ = _))

/-- `get_current_business`. -/
def getCurrentBusiness : Option Credentials → AuthProg (Except HttpException Business)
  | none => .ret (.error unauthorized)
  | some credentials =>
    if ¬credentials.Bearer then .ret (.error unauthorized)
    else
      let plaintext := strip credentials.credentials
      if plaintext = "" then .ret (.error unauthorized)
      else
        .op (.activeKey (hashApiKey crypto plaintext)) fun
          | none => .ret (.error unauthorized)
          | some apiKey =>
            .op (.business apiKey.businessId) fun
              -- the key was there and its business is not
              | none => .ret (.error unauthorized)
              | some business => .ret (.ok business)

end TenantBilling
