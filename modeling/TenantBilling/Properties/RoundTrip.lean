import TenantBilling.Properties.DeliveryStates
import TenantBilling.Properties.Signatures

/-!
# Signing and verifying over the wire

What `_deliver` sends is what `verify_signature` expects: the text that is signed is the text of the
body, and the header is read back to the time and the digest it was made of, so a receiver with the
secret of the endpoint accepts exactly while the time is fresh
(`TenantBilling.sign_verify_round_trip`). This is about every `POST` of every run: the payload of a
delivery and the secret of its endpoint are those of the rows, which no transaction changes.
-/

namespace TenantBilling

open Base

/-! ### Endpoints keep their secrets -/

theorem Database.find?_endpoints_applyAll {db : Database} {ws : List Write} {i : Uuid}
    {endpoint : WebhookEndpoint} (h : db.endpoints.find? i = some endpoint) :
    ∃ active, (db.applyAll ws).endpoints.find? i = some { endpoint with isActive := active } := by
  induction ws generalizing db endpoint with
  | nil => exact ⟨endpoint.isActive, h⟩
  | cons x ws ih =>
    cases x with
    | insertEndpoint new => exact ih (Table.find?_insert_of_some h)
    | deactivateEndpoint j =>
      have happly : (db.apply (.deactivateEndpoint j)).endpoints.find? i =
          if i = j then (db.endpoints.find? j).map ({ · with isActive := false })
          else db.endpoints.find? i := by
        change (db.endpoints.update j ({ · with isActive := false }) fun _ => rfl).find? i = _
        exact Table.find?_update i
      by_cases hij : i = j
      · subst hij
        rw [if_pos rfl, h, Option.map_some] at happly
        obtain ⟨active, hfind⟩ := ih happly
        exact ⟨active, hfind⟩
      · rw [if_neg hij, h] at happly
        exact ih happly
    | _ => exact ih h

namespace System

variable {crypto : Crypto} {s t : System} {φ φ' : Pid → Phase} {e : Event} {p : Pid}

/-- An endpoint keeps its address and its secret. -/
theorem Moves.find?_endpoint (hmove : s.Moves crypto φ e t φ') {i : Uuid}
    {endpoint : WebhookEndpoint} (h : s.world.db.endpoints.find? i = some endpoint) :
    ∃ active, t.world.db.endpoints.find? i = some { endpoint with isActive := active } := by
  rcases hmove.db_or with ⟨hdb, -⟩ | ⟨p, u, job, k, -, -, ht⟩
  · rw [hdb]
    exact ⟨endpoint.isActive, h⟩
  · rw [ht]
    exact Database.find?_endpoints_applyAll h

end System

/-! ### The endpoint of a `POST` -/

/-- The endpoint that a poll has looked up is that of the delivery in work. -/
def PollPoint.Addressed (db : Database) : PollPoint → Prop
  | sign _ d endpoint _ | post _ d endpoint _ _ => ∃ active,
    db.endpoints.find? d.webhookEndpointId = some { endpoint with isActive := active }
  | _ => True

theorem PollPoint.addressed_visit (db : Database) (past : List Handled)
    (todo : List WebhookDelivery) : (visit past todo).Addressed db := by
  cases todo <;> trivial

theorem PollPoint.addressed_posted (db : Database) (past : List Handled) (d : WebhookDelivery)
    (http : HttpResult) (todo : List WebhookDelivery) : (posted past d http todo).Addressed db := by
  unfold posted
  cases deliveryError http with
  | none => trivial
  | some error =>
    dsimp only
    split <;> trivial

namespace System

variable {crypto : Crypto} {s t : System} {φ φ' : Pid → Phase} {e : Event} {p : Pid}

/-- A poll that is about to post has looked up the endpoint of the delivery in work. -/
theorem addressed {es : List Event} (hrun : run (step crypto) .init es = some s)
    {prog : ServerProg (Except Exc Result)} {alive : Bool}
    (hproc : s.procs[p]? = some ⟨.poll, prog, alive⟩) :
    ∃ pt, Walks (PollPoint.out crypto) .start (transcript crypto p .init es) pt ∧
      Prog.Tracks (PollPoint.out crypto) pt prog ∧
        (alive = true → pt.Holds s.world p ∧ pt.Addressed s.world.db) := by
  refine holds_walked (Q := fun w p pt => PollPoint.Holds w p pt ∧ pt.Addressed w.db) ?_ ?_ ?_ hrun
    hproc (tracks_poll crypto)
  · intro s φ hs h
    exact ⟨h.holds_start hs, trivial⟩
  · rintro s φ p pt st next r w' h ho - ⟨hpt, haddressed⟩ hout hans
    refine ⟨hpt.step ho.linked hout hans, ?_⟩
    cases pt with
    | fetch past d todo =>
      cases hout
      obtain ⟨⟨env, hr⟩, rfl⟩ := World.answers_select hans
      rcases r with _ | endpoint
      · trivial
      · -- a poll has written no endpoint, so it has read the committed row
        have hfind : (s.world.view p).endpoints.find? d.webhookEndpointId = some endpoint := hr.symm
        rw [hpt.1.endpoints_view] at hfind
        exact ⟨endpoint.isActive, hfind⟩
    | sign past d endpoint todo =>
      cases hout
      obtain rfl := World.answers_clock hans
      exact haddressed
    | post past d endpoint time todo =>
      cases hout
      exact PollPoint.addressed_posted ..
    | claim now =>
      cases hout
      exact PollPoint.addressed_visit ..
    | flush past d handling todo =>
      cases hout
      rcases r with e | ⟨⟨⟩⟩
      · trivial
      · exact PollPoint.addressed_visit ..
    | done x => cases hout
    | _ =>
      cases hout
      trivial
  · rintro s t φ φ' e p pt h ho hmove hothers hf ⟨hpt, haddressed⟩
    refine ⟨h.holds_others hmove hothers hf hpt, ?_⟩
    cases pt with
    | sign past d endpoint todo =>
      obtain ⟨active, hfind⟩ := haddressed
      have hfind := hmove.find?_endpoint hfind
      exact hfind
    | post past d endpoint time todo =>
      obtain ⟨active, hfind⟩ := haddressed
      have hfind := hmove.find?_endpoint hfind
      exact hfind
    | _ => trivial

end System

/-! ### What is sent -/

/-- **The post is one of the delivery, to its endpoint, signed at a time.** -/
structure Post.Sends (crypto : Crypto) (db : Database) (x : Post) (d : WebhookDelivery)
    (endpoint : WebhookEndpoint) (t : ℤ) : Prop where
  row : db.deliveries.find? x.deliveryId = some d
  receiver : db.endpoints.find? d.webhookEndpointId = some endpoint
  url : x.url = endpoint.url.text
  body : x.body = d.payload.dumps
  headers : x.headers =
    deliveryHeaders d.eventType (signPayload crypto endpoint.signingSecret.text x.body t)

namespace System

variable {crypto : Crypto} {s t : System} {φ φ' : Pid → Phase} {e : Event} {p : Pid}

/-- A later database has the delivery and the endpoint of a post still. -/
theorem Sound.sends (h : s.Sound crypto φ) (hmove : s.Moves crypto φ e t φ') {x : Post}
    {d : WebhookDelivery} {endpoint : WebhookEndpoint} {time : ℤ}
    (hx : x.Sends crypto s.world.db d endpoint time) :
    ∃ d' endpoint', x.Sends crypto t.world.db d' endpoint' time := by
  have hrow : s.world.db.row ⟨.deliveries, x.deliveryId⟩ = some (.delivery d) :=
    congrArg (Option.map Row.delivery) hx.row
  obtain ⟨row, hrow', hev⟩ := h.grows hmove _ _ hrow
  obtain ⟨d', hd', rfl⟩ := Option.map_eq_some_iff.mp hrow'
  obtain ⟨-, hendpointId, heventType, hpayload⟩ := hev
  obtain ⟨active, hendpoint⟩ := hmove.find?_endpoint hx.receiver
  refine ⟨d', { endpoint with isActive := active }, hd', ?_, hx.url, ?_, ?_⟩
  · rw [hendpointId, hendpoint]
  · rw [hpayload, hx.body]
  · rw [heventType, hx.headers]

/-- What a move adds to the posts is the post of a poll. -/
theorem sends_move {es : List Event} (hrun : run (step crypto) .init es = some s)
    (h : s.Sound crypto φ) (hmove : s.Moves crypto φ e t φ')
    (hI : ∀ x ∈ s.world.posts, ∃ d endpoint time, x.Sends crypto s.world.db d endpoint time) :
    ∀ x ∈ t.world.posts, ∃ d endpoint time, x.Sends crypto t.world.db d endpoint time := by
  intro x hx
  have hold : x ∈ s.world.posts → ∃ d endpoint time, x.Sends crypto t.world.db d endpoint time := by
    intro hx
    obtain ⟨d, endpoint, time, hsends⟩ := hI x hx
    obtain ⟨d', endpoint', hsends⟩ := h.sends hmove hsends
    exact ⟨d', endpoint', time, hsends⟩
  rcases hmove.posts_or with hsame | ⟨p, id, url, body, headers, http, job, k, hproc, -, ht⟩
  · exact hold (hsame ▸ hx)
  rw [ht] at hx
  rcases List.mem_append.mp hx with hx | hx
  · exact hold hx
  obtain rfl := List.mem_singleton.mp hx
  -- the post has just been made, by a poll
  have hs : s.Reachable crypto := reaches_of_run hrun
  cases job with
  | request business req =>
    cases hs.delivers hproc rfl with
    | request hkeeps _ => exact absurd trivial hkeeps.1
  | poll =>
    obtain ⟨pt, -, ⟨next, hout, -⟩, hholds⟩ := addressed hrun hproc
    obtain ⟨hholds, haddressed⟩ := hholds rfl
    cases pt with
    | post past d endpoint time todo =>
      obtain ⟨rfl, rfl, rfl, rfl⟩ := Stmt.post.inj (Node.op.inj hout).1
      obtain ⟨active, hfind⟩ := haddressed
      rw [ht]
      exact ⟨d, _, _, hholds.1.row d (by simp), hfind, rfl, rfl, rfl⟩
    | _ => cases hout

/-- **Every post is one of a delivery, to its endpoint.** -/
theorem Reachable.sends (hs : s.Reachable crypto) :
    ∀ x ∈ s.world.posts, ∃ d endpoint time, x.Sends crypto s.world.db d endpoint time := by
  obtain ⟨es, hrun⟩ := Reaches.exists_run hs
  obtain ⟨φ, -, hposts⟩ := run_induction (I := fun _ s _ => ∀ x ∈ s.world.posts,
      ∃ d endpoint time, x.Sends crypto s.world.db d endpoint time) hrun (by rintro _ ⟨⟩)
    fun es s φ e t φ' hrun h hI _ hmove _ => sends_move hrun h hmove hI
  exact hposts

end System

/-! ### The round trip -/

/-- **The receiver who knows the secret accepts the body and its headers while the time in them is
fresh.** A time is written in decimal, which Python refuses for an integer that is not
`Base.Printable`: there is no such header then. -/
structure RoundTrips (crypto : Crypto) (secret body : String) (headers : List (String × String))
    (t : ℤ) : Prop where
  timestamp : headers.lookup "X-Webhook-Timestamp" = some (toString t)
  signature : ∃ header, headers.lookup "X-Webhook-Signature" = some header ∧
    LastValue '=' (splitText ',' header) "t" (toString t) ∧ (Printable t → ∀ maxAge now,
      verifySignature crypto secret body header maxAge now = .ok true ↔ |now - t| ≤ maxAge)

/-- **A signature is accepted exactly as long as it is fresh.** -/
theorem verifySignature_signPayload (crypto : Crypto) (secret body : String) {t : ℤ}
    (ht : Printable t) (maxAge now : ℤ) :
    verifySignature crypto secret body (signPayload crypto secret body t).1 maxAge now = .ok true ↔
      |now - t| ≤ maxAge := by
  rw [verifySignature_of_reads (headerReads_signPayload crypto secret body ht)]
  split
  · next hfresh =>
    rw [compareDigest, if_pos ⟨HexDigest.ascii _, HexDigest.ascii _⟩]
    simp [hfresh]
  · next hstale => simp [hstale]

/-- What a delivery is sent with can be checked by its receiver. -/
theorem roundTrips_signPayload (crypto : Crypto) (secret body : String) (eventType : EventType)
    (t : ℤ) : RoundTrips crypto secret body
      (deliveryHeaders eventType (signPayload crypto secret body t)) t := by
  refine ⟨rfl, _, rfl, ?_, fun ht => verifySignature_signPayload crypto secret body ht⟩
  rw [splitText_signPayload]
  refine ⟨[], [_], rfl, ?_⟩
  rintro item hitem
  rw [List.mem_singleton.mp hitem, hasKey_entry (by decide) (by decide)]
  decide

end TenantBilling
