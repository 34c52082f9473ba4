import TenantBilling.World.Answers

/-!
# Answers to what registers

What a session learns when it inserts a customer or an endpoint. A customer is inserted next to
no other with its email, committed or not: the insert waits for those that are not, and is refused
if there is one that is (`TenantBilling.World.answers_insertCustomer`,
`TenantBilling.World.exec_insertCustomer_integrity`).
-/

namespace TenantBilling

open Base

namespace World

variable {w w' : World} {p : Pid}

theorem answers_secret {token : String} (h : Answers w p .secret token w') : w' = w := by
  cases h with
  | exec env h => exact (Prod.mk.inj (Option.some.inj (exec_eq_some.mp h).2)).2.symm
  | fail e h => cases h

/-- What the answer to the insert of a customer tells. -/
def InsertCustomerAnswer (w : World) (p : Pid) (businessId : Uuid) (name email : String)
    (w' : World) : Except DbError Customer → Prop
  | .error _ => w' = w.release p
  | .ok c => w' = w.write p (.insertCustomer c) ∧
      (∃ now, customerRow businessId name email c.id now = .ok c) ∧
      (∀ d ∈ (w.view p).customers, c.sameEmail d = false) ∧ w.customerWaits p c = []

/-- The row of a customer has what was given. -/
theorem customerRow_fields {businessId id : Uuid} {name email : String} {now : Timestamp}
    {c : Customer} (h : customerRow businessId name email id now = .ok c) :
    c.id = id ∧ c.businessId = businessId ∧ c.name.text = name ∧ c.email.text = email := by
  unfold customerRow at h
  split at h
  case h_1 hname hemail =>
    rw [← Except.ok.inj h]
    exact ⟨rfl, rfl, Varchar.ofString?_eq_some.mp hname, Varchar.ofString?_eq_some.mp hemail⟩
  case h_2 => cases h

/-- Whether there is a row, and with what values, depends on the values only. -/
theorem customerRow_at {businessId id : Uuid} {name email : String} {now : Timestamp} {c : Customer}
    (h : customerRow businessId name email id now = .ok c) (id' : Uuid) (now' : Timestamp) :
    customerRow businessId name email id' now' =
      .ok ⟨id', c.businessId, c.name, c.email, now', now'⟩ := by
  unfold customerRow at h ⊢
  split at h
  case h_1 name' email' hname hemail =>
    obtain rfl := Except.ok.inj h
    rfl
  case h_2 => cases h

/-- **The answer to the insert of a customer**: its row is written, or the transaction
is aborted. -/
theorem answers_insertCustomer {businessId : Uuid} {name email : String}
    {r : Except DbError Customer} (h : Answers w p (.insertCustomer businessId name email) r w') :
    InsertCustomerAnswer w p businessId name email w' r := by
  cases h with
  | exec env h =>
    obtain ⟨hwait, h⟩ := exec_eq_some.mp h
    simp only [perform, insertCustomer] at h
    split at h
    case h_1 e hrow =>
      obtain ⟨err, hx⟩ := reject_eq_some h
      obtain ⟨rfl, rfl⟩ := Prod.mk.inj hx
      rfl
    case h_2 c hrow =>
      split at h
      case isTrue =>
        obtain ⟨-, hx⟩ := violate_eq_some h
        obtain ⟨rfl, rfl⟩ := Prod.mk.inj hx
        rfl
      case isFalse hany =>
        split at h
        case isFalse => cases h
        case isTrue =>
          obtain ⟨rfl, rfl⟩ := Prod.mk.inj (Option.some.inj h)
          refine ⟨rfl, ⟨env.now, (customerRow_fields hrow).1 ▸ hrow⟩, fun d hd => ?_, ?_⟩
          · by_contra hsame
            exact hany (List.any_eq_true.mpr ⟨d, hd, by simpa using hsame⟩)
          · simp only [blockers, customerRow_at hrow 0 0] at hwait
            exact hwait
  | fail e h =>
    obtain ⟨rfl, rfl⟩ := Prod.mk.inj (Option.some.inj h)
    rfl

/-- An insert that is refused for the email has met a customer with it. -/
theorem exec_insertCustomer_integrity {env : Env} {businessId : Uuid} {name email text : String}
    (h : w.exec p env (.insertCustomer businessId name email) =
      some (.error (.integrity text), w')) :
    ∃ c ∈ (w.view p).customers, c.businessId = businessId ∧ c.email.text = email := by
  have h := (exec_eq_some.mp h).2
  simp only [perform, insertCustomer] at h
  split at h
  case h_1 e hrow =>
    -- the only row that cannot be built has a text that is not storable
    obtain rfl : e = .unstorable [name, email] := by
      unfold customerRow at hrow
      split at hrow
      · cases hrow
      · exact (Except.error.inj hrow).symm
    obtain ⟨herror, -⟩ := Prod.mk.inj (Option.some.inj h)
    exact absurd (Except.error.inj herror) textError_ne_integrity
  case h_2 c hrow =>
    obtain ⟨-, hb, -, hemail⟩ := customerRow_fields hrow
    split at h
    case isTrue hany =>
      obtain ⟨d, hd, hsame⟩ := List.any_eq_true.mp hany
      obtain ⟨hb', hemail'⟩ := Bool.and_eq_true_iff.mp hsame
      exact ⟨d, hd, (of_decide_eq_true hb').symm.trans hb,
        (congrArg Varchar.text (of_decide_eq_true hemail')).symm.trans hemail⟩
    case isFalse =>
      split at h
      · cases h
      · cases h

/-- What the answer to the insert of an endpoint tells. -/
def InsertEndpointAnswer (w : World) (p : Pid) (businessId : Uuid) (url signingSecret : String)
    (w' : World) : Except DbError WebhookEndpoint → Prop
  | .error _ => w' = w.release p
  | .ok e => w' = w.write p (.insertEndpoint e) ∧
      ∃ now, endpointRow businessId url signingSecret e.id now = .ok e

/-- The row of an endpoint has what was given, and is active. -/
theorem endpointRow_fields {businessId id : Uuid} {url signingSecret : String} {now : Timestamp}
    {e : WebhookEndpoint} (h : endpointRow businessId url signingSecret id now = .ok e) :
    e.id = id ∧ e.businessId = businessId ∧ e.url.text = url ∧ e.signingSecret.text =
      signingSecret ∧
      e.isActive = true := by
  unfold endpointRow at h
  split at h
  case h_1 hurl hsecret =>
    rw [← Except.ok.inj h]
    exact ⟨rfl, rfl, Varchar.ofString?_eq_some.mp hurl, Varchar.ofString?_eq_some.mp hsecret, rfl⟩
  case h_2 => cases h

/-- **The answer to the insert of an endpoint**: its row is written, or the transaction is
aborted. -/
theorem answers_insertEndpoint {businessId : Uuid} {url signingSecret : String}
    {r : Except DbError WebhookEndpoint}
    (h : Answers w p (.insertEndpoint businessId url signingSecret) r w') :
    InsertEndpointAnswer w p businessId url signingSecret w' r := by
  cases h with
  | exec env h =>
    have h := (exec_eq_some.mp h).2
    simp only [perform, insertEndpoint] at h
    split at h
    case h_1 =>
      obtain ⟨err, hx⟩ := reject_eq_some h
      obtain ⟨rfl, rfl⟩ := Prod.mk.inj hx
      rfl
    case h_2 e hrow =>
      split at h
      case isTrue =>
        obtain ⟨rfl, rfl⟩ := Prod.mk.inj (Option.some.inj h)
        exact ⟨rfl, env.now, (endpointRow_fields hrow).1 ▸ hrow⟩
      case isFalse => cases h
  | fail e h => cases h

end World

end TenantBilling
