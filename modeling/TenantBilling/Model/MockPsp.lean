import TenantBilling.Model.Payments

/-!
# The mock payment provider

`mock_psp/main.py`: the service that stands for the payment provider, and what its handler for
`POST /charge` comes to for a client that waits for `PSP_TIMEOUT_SECONDS`. The body of the request
always passes the checks of `ChargeRequest`, whose fields the service sends as a text, an integer
and a text.
-/

namespace TenantBilling

namespace MockPsp

/-- `ChargeResponse`. -/
structure ChargeResponse where
  status : String
  pspRef : Option String := none
  code : Option String := none

/-- What a handler does: it sleeps for so many milliseconds and then returns, or raises an
`HTTPException` with a status and a detail. -/
structure Handling where
  sleep : ℕ
  outcome : Except (ℕ × String) ChargeResponse

/-- `charge`, where `uuid4` is the next `str(uuid.uuid4())`. -/
def charge (uuid4 token : String) : Handling :=
  if token = "tok_success" then ⟨100, .ok { status := "succeeded", pspRef := some uuid4 }⟩
  else if token = "tok_insufficient_funds" then
    ⟨100, .ok { status := "failed", code := some "insufficient_funds" }⟩
  else if token = "tok_card_declined" then
    ⟨100, .ok { status := "failed", code := some "card_declined" }⟩
  else if token = "tok_timeout" then ⟨30000, .ok { status := "succeeded", pspRef := some uuid4 }⟩
  else if token = "tok_network_error" then ⟨0, .error (500, "psp_unavailable")⟩
  else ⟨0, .error (400, "unknown token: " ++ token)⟩

/-- A field of the response that may be missing is `null`. -/
def optional : Option String → Json
  | some s => .str s
  | none => .null

/-- The response as JSON. -/
def ChargeResponse.json (r : ChargeResponse) : Json :=
  .obj [("status", .str r.status), ("psp_ref", optional r.pspRef), ("code", optional r.code)]

/-- What is sent back. -/
def Handling.reply (h : Handling) : HttpResult :=
  match h.outcome with
  | .ok r => .response 200 (some r.json)
  | .error (status, detail) => .response status (some (.obj [("detail", .str detail)]))

/-- **What a call with the token comes to** for a client that waits for so many seconds. -/
def answer (timeoutSeconds : ℕ) (uuid4 token : String) : HttpResult :=
  let h := charge uuid4 token
  if h.sleep < timeoutSeconds * 1000 then h.reply else .timeout

end MockPsp

end TenantBilling
