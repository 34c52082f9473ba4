import TenantBilling.Base.Transcript
import TenantBilling.Model.System

/-!
# The points of a poll

A poll of the webhook worker claims a batch of deliveries and goes through it one by one. What
`_deliver` assigns to a delivery is written out when the next one looks for its endpoint, or
before the commit, so a point of a poll (`TenantBilling.PollPoint`) holds the deliveries written
out so far, each with what became of it (`TenantBilling.Handling`), the one in work, and those
still to do. That the loop of the source is this machine (`TenantBilling.tracks_poll`) is an
induction on the batch.
-/

namespace TenantBilling

open Base

/-- What became of a delivery in a poll. -/
inductive Handling where
  /-- Its endpoint was not found. -/
  | missing
  /-- The receiver has accepted it. -/
  | delivered (http : HttpResult) (now : Timestamp)
  /-- The `POST` has failed, and was the last one. -/
  | exhausted (http : HttpResult) (error : String)
  /-- The `POST` has failed, and another one is due later. -/
  | retried (http : HttpResult) (error : String) (now : Timestamp)

/-- What `_deliver` assigns to a delivery. -/
def Handling.change (d : WebhookDelivery) : Handling → DeliveryChange
  | missing => { status := some .exhausted, lastError := some (some "endpoint not found") }
  | delivered _ now =>
    { attempts := some (d.attempts + 1), status := some .delivered, deliveredAt := some now }
  | exhausted _ error =>
    { attempts := some (d.attempts + 1), status := some .exhausted, lastError := some (some error) }
  | retried _ error now =>
    { attempts := some (d.attempts + 1), lastError := some (some error)
      nextAttemptAt := some (now + backoff (d.attempts + 1) * second) }

/-- The answer to the `POST`, if one was made. -/
def Handling.answer? : Handling → Option HttpResult
  | missing => none
  | delivered http _ => some http
  | exhausted http _ => some http
  | retried http _ _ => some http

/-- A delivery of a batch and what became of it. -/
structure Handled where
  delivery : WebhookDelivery
  handling : Handling

/-- The places a poll can be at; `past` are the deliveries of its batch that it has written
out. -/
inductive PollPoint where
  | start
  /-- The due deliveries are claimed. -/
  | claim (now : Timestamp)
  /-- The endpoint of a delivery is looked up. -/
  | fetch (past : List Handled) (d : WebhookDelivery) (todo : List WebhookDelivery)
  /-- The time for the signature is read. -/
  | sign (past : List Handled) (d : WebhookDelivery) (endpoint : WebhookEndpoint)
      (todo : List WebhookDelivery)
  | post (past : List Handled) (d : WebhookDelivery) (endpoint : WebhookEndpoint) (time : Timestamp)
      (todo : List WebhookDelivery)
  /-- The time of the outcome is read. -/
  | stamp (past : List Handled) (d : WebhookDelivery) (http : HttpResult) (error : Option String)
      (todo : List WebhookDelivery)
  /-- What has been assigned is written out. -/
  | flush (past : List Handled) (d : WebhookDelivery) (handling : Handling)
      (todo : List WebhookDelivery)
  | commit (past : List Handled)
  /-- The poll has returned or raised; the session is closed. -/
  | closing (x : Except Exc Result)
  | done (x : Except Exc Result)

namespace PollPoint

/-- The next delivery is taken up. -/
def visit (past : List Handled) : List WebhookDelivery → PollPoint
  | [] => commit past
  | d :: todo => fetch past d todo

/-- What the answer to a `POST` leads to. -/
def posted (past : List Handled) (d : WebhookDelivery) (http : HttpResult)
    (todo : List WebhookDelivery) : PollPoint :=
  match deliveryError http with
  | none => stamp past d http none todo
  | some error =>
    if maxAttempts ≤ d.attempts + 1 then flush past d (.exhausted http error) todo
    else stamp past d http (some error) todo

/-- What became of a delivery, once the time is known. -/
def stamped (http : HttpResult) (now : Timestamp) : Option String → Handling
  | none => .delivered http now
  | some error => .retried http error now

variable (crypto : Crypto)

/-- **The statement issued at a point, and the next point for each answer.** -/
def out : PollPoint → Node Stmt Stmt.Resp (Except Exc Result) PollPoint
  | start => .op .clock fun now => claim now
  | claim now => .op (.claimDeliveries now 10) fun batch => visit [] batch
  | fetch past d todo => .op (.select (.endpointById d.webhookEndpointId)) fun
    | none => flush past d .missing todo
    | some endpoint => sign past d endpoint todo
  | sign past d endpoint todo => .op .clock fun time => post past d endpoint time todo
  | post past d endpoint time todo => .op (.post d.id endpoint.url.text (Payload.dumps d.payload)
      (deliveryHeaders d.eventType (signPayload crypto endpoint.signingSecret.text
        (Payload.dumps d.payload) (Int.tdiv time second)))) fun http => posted past d http todo
  | stamp past d http error todo => .op .clock fun now => flush past d (stamped http now error) todo
  | flush past d handling todo => .op (.updateDelivery d.id (handling.change d)) fun
    | .error e => closing (.error (.db e))
    | .ok () => visit (past ++ [⟨d, handling⟩]) todo
  | commit _ => .op .commit fun _ => closing (.ok .done)
  | closing x => .op .rollback fun _ => done x
  | done x => .ret x

end PollPoint

/-! ### The program and its points -/

section Tracks

open Prog Orm

variable (crypto : Crypto)

theorem tracks_poll_closing (x : Except Exc Result) :
    Tracks (PollPoint.out crypto) (.closing x) (.op .rollback fun _ => .ret x) :=
  Tracks.intro rfl fun _ => rfl

/-- What is left of a poll with deliveries to do. -/
def Orm.pollTail (todo : List WebhookDelivery) (σ : Session) : ServerProg (Except Exc Result) :=
  (andThen (andThen (deliverAll crypto todo) fun _ => commit) (fun _ => pure .done) σ).bind
    fun x => .op .rollback fun _ => .ret x.1

/-- The session of a poll that has assigned to a delivery. -/
def Orm.assigned (d : WebhookDelivery) (handling : Handling) : Session :=
  { unflushed := [.delivery d.id (handling.change d)] }

/-- The assignment is written out first. -/
theorem tracks_flush {past : List Handled} {d : WebhookDelivery} {handling : Handling}
    {todo : List WebhookDelivery} {k : Except DbError Unit → ServerProg (Except Exc Result)}
    (herror : ∀ e, k (.error e) = .op .rollback fun _ => .ret (.error (.db e)))
    (hok : Tracks (PollPoint.out crypto) (.visit (past ++ [⟨d, handling⟩]) todo) (k (.ok ()))) :
    Tracks (PollPoint.out crypto) (.flush past d handling todo)
      (.op (.updateDelivery d.id (handling.change d)) k) := by
  refine Tracks.intro rfl ?_
  rintro (e | _)
  · rw [herror]
    exact tracks_poll_closing ..
  · exact hok

/-- **The loop is the machine**, from any point of the batch on. -/
theorem tracks_deliverAll (todo : List WebhookDelivery) :
    (∀ past, Tracks (PollPoint.out crypto) (.visit past todo) (pollTail crypto todo {})) ∧
      ∀ past d handling, Tracks (PollPoint.out crypto) (.flush past d handling todo)
        (pollTail crypto todo (assigned d handling)) := by
  induction todo with
  | nil =>
    have hvisit : ∀ past, Tracks (PollPoint.out crypto) (.visit past []) (pollTail crypto [] {}) :=
      fun past => Tracks.intro rfl fun _ => tracks_poll_closing ..
    exact ⟨hvisit, fun past d handling => tracks_flush crypto (fun _ => rfl) (hvisit _)⟩
  | cons d todo ih =>
    have hvisit : ∀ past, Tracks (PollPoint.out crypto) (.visit past (d :: todo))
        (pollTail crypto (d :: todo) {}) := by
      intro past
      refine Tracks.intro rfl ?_
      rintro (_ | endpoint)
      · exact ih.2 past d .missing
      refine Tracks.intro rfl fun time => Tracks.intro rfl fun (http : HttpResult) => ?_
      -- what is left begins by telling the outcome of the `POST`
      change Tracks _ (PollPoint.posted past d http todo)
        (Prog.bind (Prog.bind (Prog.bind (Prog.bind
        ((match deliveryError http with
          | none => do
            let now : Timestamp ← issue .clock
            touch (.delivery d.id ((Handling.delivered http now).change d))
          | some error =>
            if maxAttempts ≤ d.attempts + 1 then
              touch (.delivery d.id ((Handling.exhausted http error).change d))
            else do
              let now : Timestamp ← issue .clock
              touch (.delivery d.id ((Handling.retried http error now).change d)) : Orm Unit) {})
        _) _) _) _)
      unfold PollPoint.posted
      cases deliveryError http with
      | none => exact Tracks.intro rfl fun now => ih.2 past d (.delivered http now)
      | some error =>
        dsimp only
        split
        · exact ih.2 past d (.exhausted http error)
        · exact Tracks.intro rfl fun now => ih.2 past d (.retried http error now)
    exact ⟨hvisit, fun past d' handling => tracks_flush crypto (fun _ => rfl) (hvisit _)⟩

/-- **The program of a poll is the machine of its points.** -/
theorem tracks_poll : Tracks (PollPoint.out crypto) .start (Job.poll.program crypto) :=
  Tracks.intro rfl fun _ => Tracks.intro rfl fun batch => (tracks_deliverAll crypto batch).1 []

end Tracks

/-! ### What the transcript of a poll tells -/

section Walks

variable {crypto : Crypto} {l : List (Exchange Stmt Stmt.Resp)} {pt : PollPoint}

/-- The poll has handled a delivery so, or is about to write it out, or has given up. -/
def PollPoint.Remembers (h : Handled) : PollPoint → Prop
  | start | claim _ => False
  | fetch past _ _ | sign past _ _ _ | post past _ _ _ _ | stamp past _ _ _ _
  | commit past => h ∈ past
  | flush past d handling _ => h ∈ past ++ [⟨d, handling⟩]
  | closing _ | done _ => True

theorem PollPoint.remembers_visit {h : Handled} {past : List Handled} (hmem : h ∈ past)
    (todo : List WebhookDelivery) : (visit past todo).Remembers h := by
  cases todo with
  | nil => exact hmem
  | cons d todo => exact hmem

theorem PollPoint.Remembers.step {h : Handled} {st : Stmt} {next : st.Resp → PollPoint}
    (hpt : pt.Remembers h) (hout : pt.out crypto = .op st next) (r : st.Resp) :
    (next r).Remembers h := by
  cases pt with
  | fetch past d todo =>
    cases hout
    rcases r with _ | endpoint
    · exact List.mem_append_left _ hpt
    · exact hpt
  | post past d endpoint time todo =>
    cases hout
    change (posted past d _ todo).Remembers h
    unfold posted
    split
    · exact hpt
    · split
      · exact List.mem_append_left _ hpt
      · exact hpt
  | stamp past d http error todo =>
    cases hout
    exact List.mem_append_left _ hpt
  | flush past d handling todo =>
    cases hout
    rcases r with e | ⟨⟨⟩⟩
    · trivial
    · exact remembers_visit hpt todo
  | start | claim now => exact hpt.elim
  | done x => cases hout
  | _ =>
    cases hout
    first | exact hpt | trivial

/-- **The time read after a failed `POST`** is that of the retry. -/
theorem PollPoint.exists_retried {past : List Handled} {id : Uuid} {url body : String}
    {headers : List (String × String)} {http : HttpResult} {error : String} {now : Timestamp}
    (h : Walks (PollPoint.out crypto) .start l (.commit past))
    (hl : [⟨.post id url body headers, http⟩, ⟨.clock, now⟩] <:+: l)
    (herror : deliveryError http = some error) :
    ∃ h ∈ past, h.delivery.id = id ∧ h.handling = .retried http error now := by
  obtain ⟨l₁, l₂, rfl⟩ := hl
  rw [List.append_assoc] at h
  obtain ⟨pt, -, h⟩ := h.of_append
  obtain ⟨next, hout, h⟩ := Walks.of_cons h
  obtain ⟨next', hout', h⟩ := Walks.of_cons h
  cases pt with
  | post past' d endpoint time todo =>
    cases hout
    change (posted past' d http todo).out crypto = _ at hout'
    simp only [posted, herror] at hout'
    split at hout'
    · cases hout'
    · cases hout'
      have hend := h.invariant (C := Remembers ⟨d, .retried http error now⟩)
        (List.mem_append_right _ (List.mem_singleton_self _)) fun _ _ _ r hpt hout =>
          hpt.step hout r
      exact ⟨_, hend, rfl, rfl⟩
  | _ => cases hout

/-- The transcript has the time of a retry right after the `POST`. -/
def Handled.Told (l : List (Exchange Stmt Stmt.Resp)) (h : Handled) : Prop :=
  ∀ http error now, h.handling = .retried http error now → ∃ url body headers,
    [⟨.post h.delivery.id url body headers, http⟩, ⟨.clock, now⟩] <:+: l

/-- What the transcript has of the deliveries handled, and of one that has just been posted. -/
def PollPoint.Tells (l : List (Exchange Stmt Stmt.Resp)) : PollPoint → Prop
  | stamp past d http _ _ => (∀ h ∈ past, h.Told l) ∧
      ∃ l' url body headers, l = l' ++ [⟨.post d.id url body headers, http⟩]
  | flush past d handling _ => ∀ h ∈ past ++ [⟨d, handling⟩], h.Told l
  | fetch past _ _ | sign past _ _ _ | post past _ _ _ _ | commit past => ∀ h ∈ past, h.Told l
  | start | claim _ | closing _ | done _ => True

theorem Handled.Told.concat {h : Handled} (ht : h.Told l) (x : Exchange Stmt Stmt.Resp) :
    h.Told (l ++ [x]) := by
  intro http error now hh
  obtain ⟨url, body, headers, hl⟩ := ht http error now hh
  exact ⟨url, body, headers, hl.trans (List.prefix_append l [x]).isInfix⟩

theorem PollPoint.tells_visit {past : List Handled} (h : ∀ h ∈ past, h.Told l)
    (todo : List WebhookDelivery) : (visit past todo).Tells l := by
  cases todo with
  | nil => exact h
  | cons d todo => exact h

/-- **The transcript of a poll has the times of its retries.** -/
theorem PollPoint.tells (h : Walks (PollPoint.out crypto) .start l pt) : pt.Tells l := by
  induction h with
  | nil => trivial
  | @snoc l pt st next _ hout r ih =>
    have hconcat : ∀ {past : List Handled}, (∀ h ∈ past, h.Told l) →
        ∀ h ∈ past, h.Told (l ++ [⟨st, r⟩]) := fun hpast h hh => (hpast h hh).concat _
    -- a delivery that is not retried asks nothing of the transcript
    have hsnoc : ∀ {past : List Handled} {d : WebhookDelivery} {handling : Handling},
        (∀ h ∈ past, h.Told l) → (∀ http error now, handling ≠ .retried http error now) →
          ∀ h ∈ past ++ [⟨d, handling⟩], h.Told (l ++ [⟨st, r⟩]) := by
      intro past d handling hpast hne h hh
      rcases List.mem_append.mp hh with hh | hh
      · exact (hpast h hh).concat _
      · rw [List.mem_singleton.mp hh]
        exact fun http error now heq => absurd heq (hne http error now)
    cases pt with
    | start =>
      cases hout
      trivial
    | claim now =>
      cases hout
      exact tells_visit (by rintro _ ⟨⟩) _
    | fetch past d todo =>
      cases hout
      rcases r with _ | endpoint
      · exact hsnoc ih (by rintro _ _ _ ⟨⟩)
      · exact hconcat ih
    | sign past d endpoint todo =>
      cases hout
      exact hconcat ih
    | post past d endpoint time todo =>
      cases hout
      change (posted past d _ todo).Tells _
      unfold posted
      split
      · exact ⟨hconcat ih, l, _, _, _, rfl⟩
      · split
        · exact hsnoc ih (by rintro _ _ _ ⟨⟩)
        · exact ⟨hconcat ih, l, _, _, _, rfl⟩
    | stamp past d http error todo =>
      cases hout
      obtain ⟨hpast, l', url, body, headers, rfl⟩ := ih
      cases error with
      | none => exact hsnoc hpast (by rintro _ _ _ ⟨⟩)
      | some error =>
        intro h hh
        rcases List.mem_append.mp hh with hh | hh
        · exact (hpast h hh).concat _
        · obtain rfl := List.mem_singleton.mp hh
          rintro http' error' now' ⟨⟩
          exact ⟨url, body, headers, l', [], by simp⟩
    | flush past d handling todo =>
      cases hout
      rcases r with e | ⟨⟨⟩⟩
      · trivial
      · exact tells_visit (hconcat ih) _
    | done x => cases hout
    | _ =>
      cases hout
      trivial

end Walks

end TenantBilling
