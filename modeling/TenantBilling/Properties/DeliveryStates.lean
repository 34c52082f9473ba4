import TenantBilling.Invariant.Deliveries
import TenantBilling.Properties.Conditions

/-!
# The states of a webhook delivery

Whatever the polls and the requests do, in any interleaving and with kills, a committed delivery
has the columns of its status, its counter grows by one with a poll that commits and by nothing
else, and once it is delivered or exhausted it is neither changed nor claimed nor posted again.
What a poll has claimed, and holds until its transaction ends, is read off its transcript
(`TenantBilling.System.held`); no two polls hold one delivery.
-/

namespace TenantBilling

open Base World

/-! ### What a poll holds -/

/-- The deliveries a session holds after an exchange: those it has claimed, until its transaction
ends. -/
def heldAfter (held : List WebhookDelivery) : Exchange Stmt Stmt.Resp → List WebhookDelivery
  | ⟨.claimDeliveries _ _, batch⟩ => batch
  | ⟨.updateDelivery _ _, .error _⟩ => []
  | ⟨.commit, _⟩ => []
  | ⟨.rollback, _⟩ => []
  | _ => held

/-- **The deliveries that a session has claimed** in a transaction that is not over. -/
def System.held (crypto : Crypto) (p : Pid) (es : List Event) : List WebhookDelivery :=
  (System.init.transcript crypto p es).foldl heldAfter []

/-- The deliveries a poll has claimed, at each of its points. -/
def PollPoint.batch : PollPoint → List WebhookDelivery
  | fetch past d todo | sign past d _ todo | post past d _ _ todo | stamp past d _ _ todo
  | flush past d _ todo => past.map Handled.delivery ++ d :: todo
  | commit past => past.map Handled.delivery
  | _ => []

/-- A statement and its answer concern a delivery: it is claimed or posted. -/
def Selects (id : Uuid) : Exchange Stmt Stmt.Resp → Prop
  | ⟨.claimDeliveries _ _, batch⟩ => id ∈ List.map WebhookDelivery.id batch
  | ⟨.post id' _ _ _, _⟩ => id' = id
  | _ => False

/-- The receiver has answered with a status 2xx. -/
def HttpResult.Accepts : HttpResult → Prop
  | response status _ => 200 ≤ status ∧ status < 300
  | _ => False

theorem deliveryError_eq_none {http : HttpResult} : deliveryError http = none ↔ http.Accepts := by
  cases http with
  | response status body =>
    unfold deliveryError HttpResult.Accepts
    split <;> simp_all
  | _ => exact ⟨by rintro ⟨⟩, False.elim⟩

section Held

variable {crypto : Crypto} {s : System} {p q : Pid} {es : List Event}

theorem PollPoint.batch_visit (past : List Handled) (todo : List WebhookDelivery) :
    (visit past todo).batch = past.map Handled.delivery ++ todo := by
  cases todo with
  | nil => exact (List.append_nil _).symm
  | cons => rfl

theorem PollPoint.batch_posted (past : List Handled) (d : WebhookDelivery) (http : HttpResult)
    (todo : List WebhookDelivery) :
    (posted past d http todo).batch = past.map Handled.delivery ++ d :: todo := by
  unfold posted
  split
  · rfl
  · split <;> rfl

/-- A step of a poll keeps the account of what it holds. -/
theorem PollPoint.heldAfter_batch {pt : PollPoint} {st : Stmt} {next : st.Resp → PollPoint}
    (hout : pt.out crypto = .op st next) (r : st.Resp) :
    heldAfter pt.batch ⟨st, r⟩ = (next r).batch := by
  cases pt with
  | claim now =>
    cases hout
    exact (batch_visit [] _).symm
  | fetch past d todo =>
    cases hout
    rcases r with _ | endpoint <;> rfl
  | post past d endpoint time todo =>
    cases hout
    exact (batch_posted past d _ todo).symm
  | flush past d handling todo =>
    cases hout
    rcases r with e | ⟨⟨⟩⟩
    · rfl
    · change _ = (visit _ todo).batch
      rw [batch_visit, List.map_append, List.append_assoc]
      rfl
  | done x => cases hout
  | _ =>
    cases hout
    rfl

theorem PollPoint.foldl_heldAfter {l : List (Exchange Stmt Stmt.Resp)} {pt : PollPoint}
    (h : Walks (PollPoint.out crypto) .start l pt) : l.foldl heldAfter [] = pt.batch := by
  induction h with
  | nil => rfl
  | snoc _ hout r ih =>
    rw [List.foldl_append, ih]
    exact PollPoint.heldAfter_batch hout r

/-- What is claimed is locked. -/
theorem PollPoint.Holds.locks {w : World} {pt : PollPoint} (h : pt.Holds w p) {d : WebhookDelivery}
    (hd : d ∈ pt.batch) : w.locks d.ref = some p := by
  cases pt with
  | fetch | sign | post | stamp | flush => exact h.1.locked d hd
  | commit past => exact (h.1.locked d (by rwa [List.append_nil]))
  | _ => cases hd

/-- **What a poll holds is locked by it.** -/
theorem System.locks_of_held (hrun : run (System.step crypto) .init es = some s)
    {prog : ServerProg (Except Exc Result)} (hproc : s.procs[p]? = some ⟨.poll, prog, true⟩)
    {d : WebhookDelivery} (hd : d ∈ System.held crypto p es) : s.world.locks d.ref = some p := by
  obtain ⟨pt, hwalk, -, hholds⟩ := System.polled hrun hproc
  refine (hholds rfl).locks ?_
  rw [← PollPoint.foldl_heldAfter hwalk]
  exact hd

end Held

/-! ### The steps of a run -/

section Steps

variable {crypto : Crypto} {s t u : System} {e : Event} {p : Pid}

namespace System

/-- The event commits the transaction of a poll. -/
def PollCommits (s : System) (e : Event) : Prop :=
  ∃ p env prog, e = .exec p env ∧ s.procs[p]? = some ⟨.poll, prog, true⟩ ∧ s.next? p = some .commit

/-- What an event tells a session is the answer to its statement. -/
theorem exchange?_eq_some {x : Exchange Stmt Stmt.Resp} (h : s.exchange? p e = some x) :
    ∃ job k w', s.procs[p]? = some ⟨job, .op x.1 k, true⟩ ∧ s.world.Answers p x.1 x.2 w' := by
  cases e with
  | start job => cases h
  | kill q => cases h
  | exec q env =>
    simp only [exchange?] at h
    split at h
    case h_2 => cases h
    case h_1 job st k hproc =>
      by_cases hq : q = p
      · subst hq
        rw [if_pos rfl] at h
        obtain ⟨⟨r, w'⟩, hexec, rfl⟩ := Option.map_eq_some_iff.mp h
        exact ⟨job, k, w', hproc, .exec env hexec⟩
      · rw [if_neg hq] at h
        cases h
  | abort q cycle =>
    simp only [exchange?] at h
    split at h
    case h_2 => cases h
    case h_1 job st k hproc =>
      by_cases hq : q = p
      · subst hq
        rw [if_pos rfl] at h
        obtain ⟨⟨r, w'⟩, hfail, rfl⟩ := Option.map_eq_some_iff.mp h
        exact ⟨job, k, w', hproc, .fail _ hfail⟩
      · rw [if_neg hq] at h
        cases h

/-- The states after a step. -/
theorem Reachable.moves (hs : s.Reachable crypto) (hstep : s.step crypto e = some t) :
    t.Reachable crypto ∧ ∃ φ φ', s.Sound crypto φ ∧ s.Moves crypto φ e t φ' := by
  obtain ⟨φ, h⟩ := hs.sound
  obtain ⟨φ', hmove⟩ := moves_of_step h.tracks hstep
  exact ⟨hs.tail ⟨e, trivial, hstep⟩, φ, φ', h, hmove⟩

/-- **A step counts at most one attempt more**, with the commit of a poll. -/
theorem Reachable.delivery_step (hs : s.Reachable crypto) (hstep : s.step crypto e = some t)
    {d : WebhookDelivery} (hd : d ∈ s.world.db.deliveries) :
    ∃ d' ∈ t.world.db.deliveries, d'.id = d.id ∧
      (d' = d ∨ d.status = .pending ∧ d'.attempts = d.attempts + 1 ∧ s.PollCommits e) := by
  obtain ⟨-, φ, φ', h, hmove⟩ := hs.moves hstep
  rcases hmove.db_or with ⟨hdb, -⟩ | ⟨p, u, job, k, hproc, hans, ht⟩
  · exact ⟨d, hdb ▸ hd, rfl, Or.inl rfl⟩
  have hfind := Table.find?_key hd
  rw [ht]
  rcases hs.committing hproc with ⟨past, rfl, hbatch, -, -⟩ | ⟨-, hquiet⟩
  · obtain ⟨hnew, hold⟩ := hbatch.find?_commit
    by_cases hid : d.id ∈ past.map fun h => h.delivery.id
    · obtain ⟨h', hh', heq⟩ := List.mem_map.mp hid
      obtain ⟨d', hd', hb⟩ := hnew h' hh'
      obtain ⟨hrow, -, hpending, hfair⟩ := hbatch.handled.2 h' hh'
      obtain ⟨http, -, hattempts, -⟩ := hb.counts hfair
      rw [heq, hfind] at hrow
      obtain rfl := Option.some.inj hrow
      refine ⟨d', (Table.find?_eq_some.mp hd').1, hb.id, Or.inr ⟨hpending, hattempts, ?_⟩⟩
      cases hans with
      | exec env hexec => exact ⟨p, env, _, rfl, hproc, next?_eq_some.mpr ⟨_, k, hproc⟩⟩
      | abort cycle _ hfail => cases hfail
    · rw [← hold d.id hid] at hfind
      exact ⟨d, (Table.find?_eq_some.mp hfind).1, rfl, Or.inl rfl⟩
  · have hkept := Database.find?_deliveries_applyAll hquiet.writes hfind
    exact ⟨d, (Table.find?_eq_some.mp hkept).1, rfl, Or.inl rfl⟩

/-- What is claimed or posted is pending. -/
theorem Reachable.pending_of_selects (hs : s.Reachable crypto) {d : WebhookDelivery}
    (hd : d ∈ s.world.db.deliveries) {x : Exchange Stmt Stmt.Resp} (hx : s.exchange? p e = some x)
    (hselects : Selects d.id x) : d.status = .pending := by
  obtain ⟨job, k, w', hproc, hans⟩ := exchange?_eq_some hx
  have hfind := Table.find?_key hd
  obtain ⟨st, r⟩ := x
  cases st with
  | claimDeliveries now limit =>
    obtain ⟨hdue, -⟩ := answers_claimDeliveries hans
    obtain ⟨d', hd', heq⟩ := List.mem_map.mp hselects
    have hrow := hdue.row d' hd'
    rw [(hs.claiming hproc).view, heq, hfind] at hrow
    rw [Option.some.inj hrow]
    exact hdue.pending d' hd'
  | post id url body headers =>
    obtain ⟨past, d', todo, hid, hbatch, -, -⟩ := hs.posting hproc
    have hrow := hbatch.row d' (by simp)
    rw [← hid, show id = d.id from hselects, hfind] at hrow
    rw [Option.some.inj hrow]
    exact hbatch.pending d' (by simp)
  | _ => exact hselects.elim

/-- **A settled delivery stays as it is.** -/
theorem Reachable.settled (hs : s.Reachable crypto) {d : WebhookDelivery}
    (hd : d ∈ s.world.db.deliveries) (hsettled : d.status ≠ .pending)
    (ht : Reaches (System.step crypto) Always s t) :
    d ∈ t.world.db.deliveries ∧ t.world.postsFor d.id = s.world.postsFor d.id := by
  obtain ⟨-, hd', hposts⟩ := ht.invariant (I := fun u => u.Reachable crypto ∧
      d ∈ u.world.db.deliveries ∧ u.world.postsFor d.id = s.world.postsFor d.id)
    ⟨hs, hd, rfl⟩ <| by
      rintro u e v ⟨hu, hd, hposts⟩ - hstep
      obtain ⟨hv, φ, φ', h, hmove⟩ := hu.moves hstep
      refine ⟨hv, ?_, ?_⟩
      · obtain ⟨d', hd', -, rfl | ⟨hpending, -⟩⟩ := hu.delivery_step hstep hd
        · exact hd'
        · exact absurd hpending hsettled
      · rw [← hposts]
        rcases hmove.posts_or with hsame | ⟨p, id, url, body, headers, http, job, k, hproc, hans,
          hv⟩
        · rw [World.postsFor, hsame]
          rfl
        · have hne : id ≠ d.id := by
            rintro rfl
            refine hsettled (hu.pending_of_selects (p := p) (e := e) hd (x := ⟨_, http⟩) ?_ rfl)
            rw [hans.exchange? hproc, if_pos rfl]
          rw [World.postsFor, hv, List.filter_append]
          simp [hne, World.postsFor]
  exact ⟨hd', hposts⟩

/-- **The state machine of a delivery.** In every state of every run the columns of a delivery
agree with its status, and a delivered one has been accepted by its last recorded `POST`; a step
changes a delivery only with the commit of a poll, which counts one attempt; a delivery
that is delivered or exhausted is never changed, claimed or posted again; and no two polls hold
one delivery. -/
theorem delivery_state_machine (crypto : Crypto) (es : List Event) (s : System)
    (hrun : run (step crypto) .init es = some s) :
    (∀ d ∈ s.world.db.deliveries, d.Regular ∧ (d.status = .delivered →
      ∃ x, (s.world.recordedFor d.id).getLast? = some x ∧ x.result.Accepts)) ∧
    (∀ e t, s.step crypto e = some t → ∀ d ∈ s.world.db.deliveries,
      ∃ d' ∈ t.world.db.deliveries, d'.id = d.id ∧
        (d' = d ∨ d'.attempts = d.attempts + 1 ∧ s.PollCommits e)) ∧
    (∀ d ∈ s.world.db.deliveries, d.status ≠ .pending → ∀ t, Reaches (step crypto) Always s t →
      d ∈ t.world.db.deliveries ∧ t.world.postsFor d.id = s.world.postsFor d.id ∧
        ∀ p e x, t.exchange? p e = some x → ¬Selects d.id x) ∧
    (∀ p q prog prog', s.procs[p]? = some ⟨.poll, prog, true⟩ →
      s.procs[q]? = some ⟨.poll, prog', true⟩ → ∀ d ∈ held crypto p es, ∀ d' ∈ held crypto q es,
        d.id = d'.id → p = q) := by
  have hs : s.Reachable crypto := reaches_of_run hrun
  refine ⟨fun d hd => ⟨hs.delivering.regular d hd, fun hstatus => ?_⟩, fun e t hstep d hd => ?_,
    fun d hd hsettled t ht => ?_, fun p q prog prog' hp hq d hd d' hd' hid => ?_⟩
  · obtain ⟨x, hlast, hc, hok⟩ := hs.delivering.accepted d hd hstatus
    obtain ⟨l, hl⟩ := List.getLast?_eq_some_iff.mp hlast
    refine ⟨x, ?_, deliveryError_eq_none.mp hok⟩
    rw [World.recordedFor, hl, List.filter_append, List.filter_cons_of_pos (by simpa using hc)]
    exact List.getLast?_concat
  · obtain ⟨d', hd', hid, hcase⟩ := hs.delivery_step hstep hd
    exact ⟨d', hd', hid, hcase.imp_right And.right⟩
  · obtain ⟨hd', hposts⟩ := hs.settled hd hsettled ht
    refine ⟨hd', hposts, fun p e x hx hselects => hsettled ?_⟩
    exact Reachable.pending_of_selects (hs.trans ht) hd' hx hselects
  · have hlock := locks_of_held hrun hp hd
    have hlock' := locks_of_held hrun hq hd'
    rw [WebhookDelivery.ref, hid] at hlock
    exact Option.some.inj (hlock.symm.trans hlock')

end System

end Steps

/-! ### An example -/

/-- The business registers an endpoint and creates an invoice, which puts a delivery into the
outbox. -/
def enqueuing : List Event :=
  [.request (.createEndpoint "https://example.com/hook")] ++ Event.steps 0 4 ++
    [.request (.createCustomer "Ada" "ada@example.com")] ++ Event.steps 1 3 ++
    [.request (.createInvoice ⟨0, none, [⟨"retainer", 1, 500, by decide, Int.one_pos,
      Int.natCast_nonneg 500⟩], List.cons_ne_nil _ _⟩)] ++
    Event.steps 2 9

/-- A poll that handles one delivery, at a time and with an answer to its `POST`. -/
def Event.poll (p : Pid) (now : Timestamp) (http : HttpResult) : List Event :=
  .start .poll :: List.replicate 9 (.exec p { now, http })

/-- The delivery is accepted. -/
def accepting : List Event := enqueuing ++ Event.poll 3 0 (.response 200 none)

theorem delivery_state_machine_accepting :
    ∃ s, run (System.step sampleCrypto) .init accepting = some s ∧
      ∃ d ∈ s.world.db.deliveries, d.status = .delivered ∧ d.Regular ∧
        ∃ x, (s.world.recordedFor d.id).getLast? = some x ∧ x.result.Accepts := by
  have hrun : (run (System.step sampleCrypto) .init accepting).any (fun s =>
      s.world.db.deliveries.rows.any fun d => d.status = .delivered) = true := by decide +kernel
  obtain ⟨s, hs, hany⟩ := (Option.any_eq_true _ _).mp hrun
  obtain ⟨d, hd, hstatus⟩ := List.any_eq_true.mp hany
  have hstatus : d.status = .delivered := by simpa using hstatus
  obtain ⟨hregular, hlast⟩ := (System.delivery_state_machine sampleCrypto accepting s hs).1 d hd
  exact ⟨s, hs, d, hd, hstatus, hregular, hlast hstatus⟩

end TenantBilling
