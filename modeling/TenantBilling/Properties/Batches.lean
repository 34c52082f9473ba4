import TenantBilling.Properties.Schedule
import TenantBilling.Properties.Worker

/-!
# The batch of a poll

A poll stores the outcomes of all the deliveries it has claimed in one transaction. It commits if
what it has to record of every answer can be stored, and otherwise stops at the first that cannot,
with everything it has posted until then unrecorded (`TenantBilling.polls_all_or_nothing`). When
it commits, each delivery of its batch becomes what a poll of this delivery alone would have made
of it, whatever the others of the batch were and were answered (`TenantBilling.batches_apart`).
-/

namespace TenantBilling

open Base World

/-! ### What can be recorded -/

/-- What is recorded of the answer to a `POST` can be stored in its column. -/
def HttpResult.Storable (http : HttpResult) : Prop :=
  ∀ error ∈ deliveryError http, Varchar.Stores 2000 error

instance : DecidablePred HttpResult.Storable := fun http =>
  inferInstanceAs (Decidable (∀ error ∈ deliveryError http, Varchar.Stores 2000 error))

/-- The error with which the answer to a `POST` is refused if it is not storable. -/
def HttpResult.storeError (http : HttpResult) : DbError := textError (deliveryError http).toList

/-- A text is stored if its column stores it, and refused otherwise. -/
theorem storeIfSet_str (n : ℕ) (text : String) :
    (Varchar.Stores n text ∧ ∃ v, storeIfSet n (some (.str text)) = .ok (some (some v))) ∨
      ¬Varchar.Stores n text ∧ storeIfSet n (some (.str text)) = .error (textError [text]) := by
  simp only [storeIfSet, Json.store]
  cases h : Varchar.ofString? n text with
  | none => exact Or.inr ⟨Varchar.ofString?_eq_none.mp h, rfl⟩
  | some v =>
    obtain rfl := Varchar.ofString?_eq_some.mp h
    exact Or.inl ⟨v.fits, v, rfl⟩

/-- **What became of a delivery is stored** if the answer is storable, and refused otherwise. -/
theorem Handled.Fair.bind_cases {h : Handled} (hfair : h.Fair) : ∃ http,
    h.handling.answer? = some http ∧
      (http.Storable ∧ (∃ update, (h.handling.change h.delivery).bind = .ok update) ∨
        ¬http.Storable ∧ (h.handling.change h.delivery).bind = .error http.storeError) := by
  -- the error is the only text that is stored
  have herror : ∀ {http : HttpResult} {error : String} {c : DeliveryChange},
      deliveryError http = some error → c.lastError = some (some error) →
        http.Storable ∧ (∃ update, c.bind = .ok update) ∨
          ¬http.Storable ∧ c.bind = .error http.storeError := by
    intro http error c hhttp hc
    have hiff : http.Storable ↔ Varchar.Stores 2000 error := by simp [HttpResult.Storable, hhttp]
    have herror : http.storeError = textError [error] := by simp [HttpResult.storeError, hhttp]
    simp only [DeliveryChange.bind, hc, Option.map_some, Option.getD_some]
    rcases storeIfSet_str 2000 error with ⟨hfits, v, hv⟩ | ⟨hnot, hv⟩
    · exact Or.inl ⟨hiff.mpr hfits, by rw [hv]; exact ⟨_, rfl⟩⟩
    · exact Or.inr ⟨fun hstorable => hnot (hiff.mp hstorable), by rw [hv, herror]⟩
  obtain ⟨d, handling⟩ := h
  cases handling with
  | missing => exact hfair.elim
  | delivered http now =>
    have hok : deliveryError http = none := hfair
    refine ⟨http, rfl, Or.inl ⟨fun error he => ?_, _, rfl⟩⟩
    rw [hok] at he
    cases he
  | exhausted http error => exact ⟨http, rfl, herror hfair.1 rfl⟩
  | retried http error now => exact ⟨http, rfl, herror hfair.1 rfl⟩

theorem Handled.Stores.storable {h : Handled} {x : Write} (hstores : h.Stores x) (hfair : h.Fair)
    {http : HttpResult} (ha : h.handling.answer? = some http) : http.Storable := by
  obtain ⟨update, hbind, -⟩ := hstores
  obtain ⟨http', ha', ⟨hstorable, -⟩ | ⟨-, herror⟩⟩ := hfair.bind_cases
  · rwa [Option.some.inj (ha.symm.trans ha')]
  · rw [hbind] at herror
    cases herror

/-- What has been written out was storable. -/
theorem Batch.storable {w : World} {p : Pid} {past : List Handled} {rest : List WebhookDelivery}
    (hbatch : Batch w p past rest) : ∀ x ∈ past.filterMap Handled.posted?, x.2.Storable := by
  have hstores : ∀ {past : List Handled} {ws : List Write}, List.Forall₂ Handled.Stores past ws →
      ∀ h ∈ past, ∃ x, h.Stores x := by
    intro past ws hws
    induction hws with
    | nil => rintro _ ⟨⟩
    | cons hx _ ih =>
      rintro h (_ | ⟨_, hh⟩)
      · exact ⟨_, hx⟩
      · exact ih h hh
  intro x hx
  obtain ⟨h, hh, hposted⟩ := List.mem_filterMap.mp hx
  obtain ⟨http, ha, rfl⟩ := Option.map_eq_some_iff.mp hposted
  obtain ⟨y, hy⟩ := hstores hbatch.writes h hh
  exact hy.storable (hbatch.fair h hh) ha

/-- The deliveries handled have been posted, one by one. -/
theorem Handled.map_posted? {past : List Handled} (hfair : ∀ h ∈ past, h.Fair) :
    (past.filterMap Handled.posted?).map Prod.fst = past.map fun h => h.delivery.id := by
  induction past with
  | nil => rfl
  | cons h past ih =>
    obtain ⟨http, ha⟩ := (hfair h List.mem_cons_self).answer
    have hposted : h.posted? = some (h.delivery.id, http) := by rw [posted?, ha]; rfl
    rw [List.filterMap_cons_some hposted, List.map_cons, List.map_cons,
      ih fun h' hh' => hfair h' (List.mem_cons_of_mem _ hh')]

/-! ### How a poll ends -/

/-- The deliveries claimed in a transcript. -/
def claimedIn (l : List (Exchange Stmt Stmt.Resp)) : List WebhookDelivery :=
  l.flatMap fun
    | ⟨.claimDeliveries _ _, batch⟩ => batch
    | _ => []

theorem claimedIn_append (l l' : List (Exchange Stmt Stmt.Resp)) :
    claimedIn (l ++ l') = claimedIn l ++ claimedIn l' := List.flatMap_append

section Walks

variable {crypto : Crypto} {l : List (Exchange Stmt Stmt.Resp)} {pt : PollPoint}

/-- The poll is over. -/
def PollPoint.Over : PollPoint → Prop
  | closing _ | done _ => True
  | _ => False

/-- **The batch of a poll is what it has claimed.** -/
theorem PollPoint.claimedIn_of_walks (h : Walks (PollPoint.out crypto) .start l pt)
    (hpt : ¬pt.Over) : claimedIn l = pt.batch := by
  induction h with
  | nil => rfl
  | @snoc l pt st next _ hout r ih =>
    rw [claimedIn_append]
    cases pt with
    | start =>
      cases hout
      rw [ih id]
      rfl
    | claim now =>
      cases hout
      have hclaimed : claimedIn [⟨.claimDeliveries now 10, r⟩] = r := List.append_nil _
      rw [ih id, hclaimed]
      exact (batch_visit [] _).symm
    | fetch past d todo =>
      cases hout
      rw [ih id]
      rcases r with _ | endpoint <;> exact List.append_nil _
    | post past d endpoint time todo =>
      cases hout
      rw [ih id]
      exact (List.append_nil _).trans (batch_posted past d _ todo).symm
    | flush past d handling todo =>
      cases hout
      rcases r with e | ⟨⟨⟩⟩
      · exact absurd trivial hpt
      · rw [ih id]
        change _ ++ [] = (visit _ todo).batch
        rw [batch_visit, List.append_nil, List.map_append, List.append_assoc]
        rfl
    | sign past d endpoint todo | stamp past d http error todo =>
      cases hout
      rw [ih id]
      exact List.append_nil _
    | commit past | closing x =>
      cases hout
      exact absurd trivial hpt
    | done x => cases hout

/-- **A poll is over after its commit or after an outcome that is refused.** -/
theorem PollPoint.over_cases {st : Stmt} {next : st.Resp → PollPoint}
    (hout : pt.out crypto = .op st next) {r : st.Resp} (hover : (next r).Over) :
    (∃ past, pt = commit past ∧ (∃ u, (⟨st, r⟩ : Exchange Stmt Stmt.Resp) = ⟨.commit, u⟩) ∧
      next r = closing (.ok .done)) ∨
    (∃ past d handling todo e, pt = flush past d handling todo ∧
      (⟨st, r⟩ : Exchange Stmt Stmt.Resp) = ⟨.updateDelivery d.id (handling.change d), .error e⟩ ∧
        next r = closing (.error (.db e))) ∨
    ∃ x, pt = closing x ∧ (∃ u, (⟨st, r⟩ : Exchange Stmt Stmt.Resp) = ⟨.rollback, u⟩) ∧
      next r = done x := by
  have hvisit : ∀ past todo, ¬(visit past todo).Over := by
    rintro past (_ | ⟨d, todo⟩) <;> exact id
  cases pt with
  | commit past =>
    cases hout
    exact Or.inl ⟨past, rfl, ⟨r, rfl⟩, rfl⟩
  | flush past d handling todo =>
    cases hout
    rcases r with e | ⟨⟨⟩⟩
    · exact Or.inr (Or.inl ⟨past, d, handling, todo, e, rfl, rfl, rfl⟩)
    · exact absurd hover (hvisit _ todo)
  | closing x =>
    cases hout
    exact Or.inr (Or.inr ⟨x, rfl, ⟨r, rfl⟩, rfl⟩)
  | claim now =>
    cases hout
    exact absurd hover (hvisit [] _)
  | fetch past d todo =>
    cases hout
    rcases r with _ | endpoint <;> exact hover.elim
  | post past d endpoint time todo =>
    cases hout
    change (posted past d _ todo).Over at hover
    unfold posted at hover
    split at hover
    · exact hover.elim
    · split at hover <;> exact hover.elim
  | done x => cases hout
  | _ =>
    cases hout
    exact hover.elim

theorem PollPoint.walks_closing {x : Except Exc Result}
    (h : Walks (PollPoint.out crypto) .start l (.closing x)) :
    (x = .ok .done ∧ ∃ l' past u, l = l' ++ [⟨.commit, u⟩] ∧
      Walks (PollPoint.out crypto) .start l' (.commit past)) ∨
    ∃ e l' past d handling todo, x = .error (.db e) ∧
      l = l' ++ [⟨.updateDelivery d.id (handling.change d), .error e⟩] ∧
        Walks (PollPoint.out crypto) .start l' (.flush past d handling todo) := by
  generalize hpt : PollPoint.closing x = pt at h
  cases h with
  | nil => cases hpt
  | @snoc l' pt st next h hout r =>
    have hover : (next r).Over := hpt ▸ trivial
    obtain ⟨past, rfl, ⟨u, hx⟩, hnext⟩ | ⟨past, d, handling, todo, e, rfl, hx, hnext⟩ |
      ⟨x', rfl, -, hnext⟩ := over_cases hout hover
    · cases hpt.trans hnext
      exact Or.inl ⟨rfl, l', past, u, by rw [hx], h⟩
    · cases hpt.trans hnext
      exact Or.inr ⟨e, l', past, d, handling, todo, rfl, by rw [hx], h⟩
    · cases hpt.trans hnext

theorem PollPoint.walks_done {x : Except Exc Result}
    (h : Walks (PollPoint.out crypto) .start l (.done x)) :
    ∃ l' u, l = l' ++ [⟨.rollback, u⟩] ∧ Walks (PollPoint.out crypto) .start l' (.closing x) := by
  generalize hpt : PollPoint.done x = pt at h
  cases h with
  | nil => cases hpt
  | @snoc l' pt st next h hout r =>
    have hover : (next r).Over := hpt ▸ trivial
    obtain ⟨past, rfl, -, hnext⟩ | ⟨past, d, handling, todo, e, rfl, -, hnext⟩ |
      ⟨x', rfl, ⟨u, hx⟩, hnext⟩ := over_cases hout hover
    · cases hpt.trans hnext
    · cases hpt.trans hnext
    · cases hpt.trans hnext
      exact ⟨l', u, by rw [hx], h⟩

end Walks

section Ends

variable {crypto : Crypto} {s t : System} {φ φ' : Pid → Phase} {e : Event} {es : List Event}
  {p : Pid} {prog : ServerProg (Except Exc Result)}

/-- The poll has committed, at this point. -/
def PollPoint.Settled : PollPoint → Prop
  | closing x | done x => x = .ok .done
  | _ => False

theorem PollPoint.not_settled_posted (past : List Handled) (d : WebhookDelivery) (http : HttpResult)
    (todo : List WebhookDelivery) : ¬(posted past d http todo).Settled := by
  unfold posted
  split
  · exact id
  · split <;> exact id

theorem PollPoint.not_settled_visit (past : List Handled) (todo : List WebhookDelivery) :
    ¬(visit past todo).Settled := by
  cases todo <;> exact id

/-- A step that does not commit leaves a poll as settled as it was. -/
theorem PollPoint.settled_next {pt : PollPoint} {st : Stmt} {next : st.Resp → PollPoint}
    (hout : pt.out crypto = .op st next) (r : st.Resp) :
    ((next r).Settled ↔ pt.Settled) ∧ st ≠ .commit ∨ (next r).Settled ∧ st = .commit := by
  cases pt with
  | commit past =>
    cases hout
    exact Or.inr ⟨rfl, rfl⟩
  | closing x =>
    cases hout
    exact Or.inl ⟨Iff.rfl, by rintro ⟨⟩⟩
  | claim now =>
    cases hout
    exact Or.inl ⟨iff_of_false (not_settled_visit [] _) id, by rintro ⟨⟩⟩
  | fetch past d todo =>
    cases hout
    rcases r with _ | endpoint <;> exact Or.inl ⟨Iff.rfl, by rintro ⟨⟩⟩
  | post past d endpoint time todo =>
    cases hout
    exact Or.inl ⟨iff_of_false (not_settled_posted past d _ todo) id, by rintro ⟨⟩⟩
  | flush past d handling todo =>
    cases hout
    rcases r with e | ⟨⟨⟩⟩
    · exact Or.inl ⟨iff_of_false (by rintro ⟨⟩) id, by rintro ⟨⟩⟩
    · exact Or.inl ⟨iff_of_false (not_settled_visit _ todo) id, by rintro ⟨⟩⟩
  | done x => cases hout
  | _ =>
    cases hout
    exact Or.inl ⟨Iff.rfl, by rintro ⟨⟩⟩

namespace System

/-- **A poll is settled exactly if it has committed.** -/
theorem committed_iff_settled (hrun : run (System.step crypto) .init es = some s)
    (hproc : s.procs[p]? = some ⟨.poll, prog, true⟩) {pt : PollPoint}
    (hwalk : Walks (PollPoint.out crypto) .start (System.init.transcript crypto p es) pt) :
    s.world.Committed p ↔ pt.Settled := by
  obtain ⟨pt', hwalk', -, hiff⟩ := holds_walked (Q := fun w p pt => w.Committed p ↔
    PollPoint.Settled pt) (fun s φ hs h => iff_of_false hs.started.not_committed id)
    (fun s φ p pt st next r w' h _ _ hpt hout hans => by
      rcases pt.settled_next hout r with ⟨hsame, hst⟩ | ⟨hsettled, rfl⟩
      · rw [hsame, ← hpt, World.Committed, World.Committed, hans.effect.history hst]
      · rw [answers_commit hans, committed_commit]
        exact iff_of_true (Or.inr rfl) hsettled)
    (fun s t φ φ' e p pt h _ hmove hothers hf hpt => by
      refine ⟨fun hc => ?_, fun hsettled => ?_⟩
      · rcases hmove.committed hc with hc | ⟨r, hans⟩
        · exact hpt.mp hc
        · exact absurd rfl (hothers p _ _ hans)
      · obtain ⟨m, hm, hpid⟩ := hpt.mpr hsettled
        exact ⟨m, hmove.mem_history hm, hpid⟩)
    hrun hproc (tracks_poll crypto)
  rw [hwalk.unique hwalk']
  exact hiff rfl

/-- The deadlock detector aborts no poll. -/
theorem Reachable.executed (hs : s.Reachable crypto)
    (hproc : s.procs[p]? = some ⟨.poll, prog, true⟩)
    {st : Stmt} {r : st.Resp} {w' : World} (hans : s.Answered p st r w' e) :
    ∃ env, s.world.exec p env st = some (r, w') := by
  cases hans with
  | exec env h => exact ⟨env, h⟩
  | abort cycle hcycle h =>
    obtain ⟨q, hq, -⟩ := Relation.TransGen.head'_iff.mp hcycle.transGen
    exact absurd hq (hs.not_waits hproc)

/-- **The state in which a poll was about to be told something**, and what held there. -/
theorem exists_told (hrun : run (System.step crypto) .init es = some s)
    (hproc : s.procs[p]? = some ⟨.poll, prog, true⟩) {l l' : List (Exchange Stmt Stmt.Resp)}
    {x : Exchange Stmt Stmt.Resp} (hl : System.init.transcript crypto p es = l ++ x :: l')
    {pt : PollPoint} (hwalk : Walks (PollPoint.out crypto) .start l pt) :
    ∃ es₁ s₁ t₁ env, run (System.step crypto) .init es₁ = some s₁ ∧
      System.init.transcript crypto p es₁ = l ∧ pt.Holds s₁.world p ∧
        s₁.world.exec p env x.1 = some (x.2, t₁) := by
  obtain ⟨es₁, e, es₂, s₁, t₁, job, k, rfl, hs₁, hstep, hl₁, hproc₁, hans⟩ := exists_prefix hrun hl
  have hs : s₁.Reachable crypto := reaches_of_run hs₁
  rw [run_append, hs₁] at hrun
  obtain ⟨prog', hbefore⟩ := before_run hs hrun hproc (List.getElem?_eq_some_iff.mp hproc₁).1
  obtain ⟨rfl, rfl, -⟩ := Proc.mk.inj (Option.some.inj (hproc₁.symm.trans hbefore))
  obtain ⟨pt₁, hwalk₁, -, hholds⟩ := polled hs₁ hproc₁
  obtain ⟨env, hexec⟩ := hs.executed hproc₁ hans
  rw [hl₁] at hwalk₁
  rw [hwalk.unique hwalk₁]
  exact ⟨es₁, s₁, t₁.world, env, hs₁, hl₁, hholds rfl, hexec⟩

/-- **What a poll was told before it was over**: all it had claimed, with answers that were
storable, or the deliveries up to the first with an answer that was not. -/
theorem closes (hrun : run (System.step crypto) .init es = some s)
    (hproc : s.procs[p]? = some ⟨.poll, prog, true⟩) {l l' : List (Exchange Stmt Stmt.Resp)}
    (hl : System.init.transcript crypto p es = l ++ l') {x : Except Exc Result}
    (hclosing : Walks (PollPoint.out crypto) .start l (.closing x)) :
    (x = .ok .done ∧ (∀ y ∈ postedIn l, y.2.Storable) ∧
      (postedIn l).map Prod.fst = (claimedIn l).map WebhookDelivery.id) ∨
    ((∃ l₀ y, postedIn l = l₀ ++ [y] ∧ (∀ z ∈ l₀, z.2.Storable) ∧ ¬y.2.Storable ∧
        x = .error (.db y.2.storeError)) ∧
      (postedIn l).map Prod.fst <+: (claimedIn l).map WebhookDelivery.id) := by
  rcases PollPoint.walks_closing hclosing with
    ⟨rfl, l, past, u, rfl, hwalk⟩ | ⟨error, l, past, d, handling, todo, rfl, rfl, hwalk⟩
  · rw [List.append_assoc] at hl
    obtain ⟨es₁, s₁, w₁, env, hs₁, hl₁, ⟨hbatch, hposted, -⟩, -⟩ := exists_told hrun hproc hl hwalk
    have hall : postedIn (l ++ [⟨.commit, u⟩]) = past.filterMap Handled.posted? := by
      rw [postedIn_append, ← hl₁, ← postsOf_transcript hs₁ p, hposted]
      exact List.append_nil _
    refine Or.inl ⟨rfl, fun y hy => hbatch.storable _ (hall ▸ hy), ?_⟩
    rw [hall, Handled.map_posted? hbatch.fair, claimedIn_append,
      PollPoint.claimedIn_of_walks hwalk id]
    simp [PollPoint.batch, claimedIn]
  · rw [List.append_assoc] at hl
    obtain ⟨es₁, s₁, w₁, env, hs₁, hl₁, ⟨hbatch, hposted, -, hfair⟩, hexec⟩ :=
      exists_told hrun hproc hl hwalk
    obtain ⟨http, ha, hbind⟩ := hfair.bind_cases
    have hall : postedIn (l ++ [⟨.updateDelivery d.id (handling.change d), .error error⟩]) =
        (past ++ [Handled.mk d handling]).filterMap Handled.posted? := by
      rw [postedIn_append, ← hl₁, ← postsOf_transcript hs₁ p, hposted]
      exact List.append_nil _
    -- the outcome was refused for its text
    have hperform := (exec_eq_some.mp hexec).2
    obtain ⟨hnot, rfl⟩ : ¬http.Storable ∧ error = http.storeError := by
      rcases hbind with ⟨-, update, hbind⟩ | ⟨hnot, hbind⟩
      · simp only [perform, hbind] at hperform
        cases hperform
      · simp only [perform, hbind] at hperform
        exact ⟨hnot, (Except.error.inj (Prod.mk.inj (Option.some.inj hperform)).1).symm⟩
    refine Or.inr ⟨⟨past.filterMap Handled.posted?, (d.id, http), ?_, hbatch.storable, hnot, rfl⟩,
      ?_⟩
    · rw [hall, Handled.filterMap_posted? ha]
    · have hfairs : ∀ h ∈ past ++ [Handled.mk d handling], h.Fair := by
        intro h hh
        rcases List.mem_append.mp hh with hh | hh
        · exact hbatch.fair h hh
        · exact List.mem_singleton.mp hh ▸ hfair
      rw [hall, Handled.map_posted? hfairs, claimedIn_append, PollPoint.claimedIn_of_walks hwalk id]
      exact ⟨todo.map WebhookDelivery.id, by simp [PollPoint.batch, claimedIn]⟩

/-- **How a poll returns**: with its commit, after all it had claimed, or with the error for the
first answer that was not storable. -/
def AllOrNothing (s : System) (crypto : Crypto) (es : List Event) (p : Pid)
    (x : Except Exc Result) : Prop :=
  (x = .ok .done ∧ s.world.Committed p ∧ (∀ y ∈ s.world.postsOf p, y.result.Storable) ∧
    (s.world.postsOf p).map Post.deliveryId =
      (claimedIn (System.init.transcript crypto p es)).map WebhookDelivery.id) ∨
  (¬s.world.Committed p ∧
    (∃ l y, s.world.postsOf p = l ++ [y] ∧ (∀ z ∈ l, z.result.Storable) ∧ ¬y.result.Storable ∧
      x = .error (.db y.result.storeError)) ∧
    (s.world.postsOf p).map Post.deliveryId <+:
      (claimedIn (System.init.transcript crypto p es)).map WebhookDelivery.id)

/-- **A poll records all of its posts or none.** -/
theorem returned_poll (hrun : run (System.step crypto) .init es = some s) {x : Except Exc Result}
    (hproc : s.procs[p]? = some ⟨.poll, .ret x, true⟩) : s.AllOrNothing crypto es p x := by
  obtain ⟨pt, hwalk, hret, -⟩ := polled hrun hproc
  have hcommitted := committed_iff_settled hrun hproc hwalk
  have hposts := postsOf_transcript hrun p
  cases pt with
  | done x' =>
    obtain rfl : x' = x := Node.ret.inj hret
    -- the last statement was the rollback that closes the session
    obtain ⟨l, u, hl, hclosing⟩ := PollPoint.walks_done hwalk
    have hposted : postedIn (System.init.transcript crypto p es) = postedIn l := by
      rw [hl, postedIn_append]
      exact List.append_nil _
    have hclaimed : claimedIn (System.init.transcript crypto p es) = claimedIn l := by
      rw [hl, claimedIn_append]
      exact List.append_nil _
    rw [hposted] at hposts
    have hids : (s.world.postsOf p).map Post.deliveryId = (postedIn l).map Prod.fst := by
      rw [← hposts, List.map_map]
      rfl
    rw [AllOrNothing, hids, hclaimed]
    rcases closes hrun hproc hl hclosing with
      ⟨rfl, hstorable, hall⟩ | ⟨⟨l₀, y, hl₀, hstorable, hnot, rfl⟩, hprefix⟩
    · refine Or.inl ⟨rfl, hcommitted.mpr rfl, fun y hy => ?_, hall⟩
      exact hstorable (y.deliveryId, y.result) (hposts ▸ List.mem_map_of_mem hy)
    · refine Or.inr ⟨(by rintro hc; cases hcommitted.mp hc), ?_, hprefix⟩
      rw [hl₀] at hposts
      obtain ⟨l₁, l₂, hsplit, hmap, hlast⟩ := List.map_eq_append_iff.mp hposts
      obtain ⟨y', rfl, rfl⟩ := List.map_eq_singleton_iff.mp hlast
      exact ⟨l₁, y', hsplit, fun z hz => hstorable _ (hmap ▸ List.mem_map_of_mem hz), hnot, rfl⟩
  | _ => cases hret

end System

/-- **A poll records all of its posts or none.** A poll that was not killed and has returned either
has committed, and then it has posted each delivery it had claimed, once and in their order, and
every answer was storable; or it has failed with the database's error for a text that it does not
store, at the first answer that was not storable, and nothing of what it had posted until then is
recorded. -/
theorem polls_all_or_nothing (crypto : Crypto) (es : List Event) (s : System)
    (hrun : run (System.step crypto) .init es = some s) (p : Pid) (x : Except Exc Result)
    (hproc : s.procs[p]? = some ⟨.poll, .ret x, true⟩) :
    (x = .ok .done ∧ s.world.Committed p ∧ (∀ y ∈ s.world.postsOf p, y.result.Storable) ∧
      (s.world.postsOf p).map Post.deliveryId =
        (claimedIn (System.init.transcript crypto p es)).map WebhookDelivery.id) ∨
    (¬s.world.Committed p ∧
      (∃ l y, s.world.postsOf p = l ++ [y] ∧ (∀ z ∈ l, z.result.Storable) ∧ ¬y.result.Storable ∧
        x = .error (.db y.result.storeError)) ∧
      (s.world.postsOf p).map Post.deliveryId <+:
        (claimedIn (System.init.transcript crypto p es)).map WebhookDelivery.id) :=
  System.returned_poll hrun hproc

end Ends

/-- The business registers two endpoints and creates an invoice, which puts a delivery to each of
them into the outbox. -/
def enqueuingTwo : List Event :=
  [.request (.createEndpoint "https://a.example")] ++ Event.steps 0 4 ++
    [.request (.createEndpoint "https://b.example")] ++ Event.steps 1 1 ++
    [.exec 1 { ids := fun n => n + 1 }] ++ Event.steps 1 2 ++
    [.request (.createCustomer "Ada" "ada@example.com")] ++ Event.steps 2 3 ++
    [.request (.createInvoice ⟨0, none, [⟨"workshop", 1, 700, by decide, Int.one_pos,
      Int.natCast_nonneg 700⟩], List.cons_ne_nil _ _⟩)] ++
    Event.steps 3 9

/-- A poll claims both deliveries, and their `POST`s are answered one like this and one
like that. -/
def pollingTwo (first second : HttpResult) : List Event :=
  enqueuingTwo ++ .start .poll :: List.replicate 7 (.exec 4 { http := first }) ++
    List.replicate 5 (.exec 4 { http := second })

/-- The first delivery fails and the second one is accepted. -/
def recordingTwo : List Event := pollingTwo (.response 500 none)
    (.response 200 none) ++ Event.steps 4 2

/-- The first delivery is accepted, and the error of the second one is a text that is not stored. -/
def losingTwo : List Event :=
  pollingTwo (.response 200 none) (.exception (String.ofList [nul])) ++ Event.steps 4 1

theorem polls_all_or_nothing_two :
    (∃ s x, run (System.step sampleCrypto) .init recordingTwo = some s ∧
      s.procs[4]? = some ⟨.poll, .ret x, true⟩ ∧ x = .ok .done ∧ s.world.Committed 4 ∧
        (s.world.postsOf 4).length = 2 ∧ (s.world.postsOf 4).map Post.deliveryId =
          (claimedIn (System.init.transcript sampleCrypto 4 recordingTwo)).map WebhookDelivery.id) ∧
    ∃ s x, run (System.step sampleCrypto) .init losingTwo = some s ∧
      s.procs[4]? = some ⟨.poll, .ret x, true⟩ ∧ ¬s.world.Committed 4 ∧
        (s.world.postsOf 4).length = 2 ∧ ∃ l y, s.world.postsOf 4 = l ++ [y] ∧
          (∀ z ∈ l, z.result.Storable) ∧ ¬y.result.Storable ∧
            x = .error (.db y.result.storeError) := by
  constructor
  · obtain ⟨s, hrun, hany⟩ := (Option.any_eq_true _ _).mp (by decide +kernel :
      (run (System.step sampleCrypto) .init recordingTwo).any
        (fun s => s.procs[4]?.any Proc.isPoll ∧
        (s.returned? 4).isSome ∧ s.world.Committed 4 ∧ (s.world.postsOf 4).length = 2) = true)
    obtain ⟨hpoll, hreturned, hcommitted, hlength⟩ := of_decide_eq_true hany
    obtain ⟨proc, hproc, hpoll⟩ := (Option.any_eq_true _ _).mp hpoll
    obtain ⟨prog, rfl⟩ := Proc.isPoll_iff.mp hpoll
    obtain ⟨x, hx⟩ := Option.isSome_iff_exists.mp hreturned
    obtain rfl := (returned?_eq_some hproc).mp hx
    rcases polls_all_or_nothing sampleCrypto recordingTwo s hrun 4 x hproc with
      ⟨rfl, hc, -, hall⟩ | ⟨hopen, -⟩
    · exact ⟨s, _, hrun, hproc, rfl, hc, hlength, hall⟩
    · exact absurd hcommitted hopen
  · obtain ⟨s, hrun, hany⟩ := (Option.any_eq_true _ _).mp (by decide +kernel :
      (run (System.step sampleCrypto) .init losingTwo).any (fun s => s.procs[4]?.any Proc.isPoll ∧
        (s.returned? 4).isSome ∧ ¬s.world.Committed 4 ∧ (s.world.postsOf 4).length = 2) = true)
    obtain ⟨hpoll, hreturned, hopen, hlength⟩ := of_decide_eq_true hany
    obtain ⟨proc, hproc, hpoll⟩ := (Option.any_eq_true _ _).mp hpoll
    obtain ⟨prog, rfl⟩ := Proc.isPoll_iff.mp hpoll
    obtain ⟨x, hx⟩ := Option.isSome_iff_exists.mp hreturned
    obtain rfl := (returned?_eq_some hproc).mp hx
    rcases polls_all_or_nothing sampleCrypto losingTwo s hrun 4 x hproc with
      ⟨-, hc, -⟩ | ⟨-, hraised, -⟩
    · exact absurd hc hopen
    · exact ⟨s, x, hrun, hproc, hopen, hlength, hraised⟩

/-! ### One delivery of a batch -/

section Apart

variable {crypto : Crypto} {l : List (Exchange Stmt Stmt.Resp)} {pt : PollPoint}

/-- The point of a poll that has claimed the delivery in work and no other. -/
def PollPoint.solo : PollPoint → PollPoint
  | fetch _ d _ => fetch [] d []
  | sign _ d endpoint _ => sign [] d endpoint []
  | post _ d endpoint time _ => post [] d endpoint time []
  | stamp _ d http error _ => stamp [] d http error []
  | flush _ d handling _ => flush [] d handling []
  | pt => pt

/-- **A poll that claims the delivery alone is told this**, and makes the same of it. -/
def Handled.Apart (crypto : Crypto) (l : List (Exchange Stmt Stmt.Resp)) (h : Handled) : Prop :=
  ∃ told, told <:+: l ∧
    Walks (PollPoint.out crypto) (.visit [] [h.delivery]) told (.commit [h])

/-- The last that the poll has been told is what it is told of one delivery. -/
def Told (crypto : Crypto) (l : List (Exchange Stmt Stmt.Resp)) (d : WebhookDelivery)
    (pt : PollPoint) : Prop :=
  ∃ told, told <:+ l ∧ Walks (PollPoint.out crypto) (.visit [] [d]) told pt.solo

/-- What the transcript has of the deliveries handled, and of the one in work. -/
def PollPoint.Apart (crypto : Crypto) (l : List (Exchange Stmt Stmt.Resp)) : PollPoint → Prop
  | pt@(fetch past d _) | pt@(sign past d _ _) | pt@(post past d _ _ _) | pt@(stamp past d _ _ _)
  | pt@(flush past d _ _) => (∀ h ∈ past, h.Apart crypto l) ∧ Told crypto l d pt
  | commit past => ∀ h ∈ past, h.Apart crypto l
  | start | claim _ | closing _ | done _ => True

theorem Handled.Apart.concat {h : Handled} (ha : h.Apart crypto l) (x : Exchange Stmt Stmt.Resp) :
    h.Apart crypto (l ++ [x]) := by
  obtain ⟨told, htold, hwalk⟩ := ha
  exact ⟨told, htold.trans (List.prefix_append l [x]).isInfix, hwalk⟩

/-- The poll is told something more of the delivery in work. -/
theorem Told.concat {d : WebhookDelivery} (ht : Told crypto l d pt) {st : Stmt}
    {next : st.Resp → PollPoint} {pt' : PollPoint} {r : st.Resp}
    (hout : pt.solo.out crypto = .op st next) (hnext : next r = pt'.solo) :
    Told crypto (l ++ [⟨st, r⟩]) d pt' := by
  obtain ⟨told, htold, hwalk⟩ := ht
  obtain ⟨l', rfl⟩ := htold
  refine ⟨told ++ [⟨st, r⟩], ⟨l', by simp⟩, ?_⟩
  rw [← hnext]
  exact hwalk.snoc hout r

/-- The next delivery is taken up. -/
theorem PollPoint.apart_visit {past : List Handled} (h : ∀ h ∈ past, h.Apart crypto l)
    (todo : List WebhookDelivery) : (visit past todo).Apart crypto l := by
  cases todo with
  | nil => exact h
  | cons d todo => exact ⟨h, [], List.nil_suffix, .nil⟩

/-- **The transcript of a poll has that of each of its deliveries** as if it were alone. -/
theorem PollPoint.apart (h : Walks (PollPoint.out crypto) .start l pt) : pt.Apart crypto l := by
  induction h with
  | nil => trivial
  | @snoc l pt st next _ hout r ih =>
    have hconcat : ∀ {past : List Handled}, (∀ h ∈ past, h.Apart crypto l) →
        ∀ h ∈ past, h.Apart crypto (l ++ [⟨st, r⟩]) := fun hpast h hh => (hpast h hh).concat _
    cases pt with
    | start =>
      cases hout
      trivial
    | claim now =>
      cases hout
      exact apart_visit (by rintro _ ⟨⟩) _
    | fetch past d todo =>
      cases hout
      rcases r with _ | endpoint
      · exact ⟨hconcat ih.1, ih.2.concat rfl rfl⟩
      · exact ⟨hconcat ih.1, ih.2.concat rfl rfl⟩
    | sign past d endpoint todo =>
      cases hout
      exact ⟨hconcat ih.1, ih.2.concat rfl rfl⟩
    | post past d endpoint time todo =>
      cases hout
      have htold := ih.2
      change (posted past d _ todo).Apart crypto _
      -- alone, the answer leads to the same point
      have hsolo : (posted past d r todo).solo = posted [] d r [] := by
        unfold posted
        split
        · rfl
        · split <;> rfl
      have hposted : Told crypto (l ++ [⟨_, r⟩]) d (posted past d r todo) :=
        htold.concat rfl hsolo.symm
      revert hposted
      unfold posted
      split
      · exact fun hposted => ⟨hconcat ih.1, hposted⟩
      · split <;> exact fun hposted => ⟨hconcat ih.1, hposted⟩
    | stamp past d http error todo =>
      cases hout
      exact ⟨hconcat ih.1, ih.2.concat rfl rfl⟩
    | flush past d handling todo =>
      cases hout
      rcases r with e | ⟨⟨⟩⟩
      · trivial
      · refine apart_visit (fun h hh => ?_) todo
        rcases List.mem_append.mp hh with hh | hh
        · exact hconcat ih.1 h hh
        · obtain rfl := List.mem_singleton.mp hh
          obtain ⟨told, htold, hwalk⟩ : Told crypto _ d (.commit [⟨d, handling⟩]) :=
            @Told.concat crypto l (.flush past d handling todo) d ih.2
              (.updateDelivery d.id (handling.change d)) _ (.commit [⟨d, handling⟩])
                (.ok ()) rfl rfl
          exact ⟨told, htold.isInfix, hwalk⟩
    | done x => cases hout
    | _ =>
      cases hout
      trivial

/-- **What the commit of a poll makes of the deliveries**: of each that it had claimed what a poll
of this delivery alone makes of it, told the same of it, and nothing of the others. -/
def System.CommitsApart (s : System) (crypto : Crypto) (es : List Event) (p : Pid) (t : System) :
    Prop :=
  (∀ d ∈ claimedIn (System.init.transcript crypto p es), d ∈ s.world.db.deliveries ∧
    ∃ told handling d', told <:+: System.init.transcript crypto p es ∧
      Walks (PollPoint.out crypto) (.visit [] [d]) told (.commit [⟨d, handling⟩]) ∧
        (Handled.mk d handling).Became d' ∧ t.world.db.deliveries.find? d.id = some d') ∧
  ∀ i, i ∉ (claimedIn (System.init.transcript crypto p es)).map WebhookDelivery.id →
    t.world.db.deliveries.find? i = s.world.db.deliveries.find? i

/-- **A poll commits what it makes of each of its deliveries alone.** -/
theorem System.commit_apart {es : List Event} {s t : System} {p : Pid} {env : Env}
    (hrun : run (System.step crypto) .init es = some s)
    {k : Stmt.commit.Resp → ServerProg (Except Exc Result)}
    (hproc : s.procs[p]? = some ⟨.poll, .op .commit k, true⟩)
    (hstep : s.step crypto (.exec p env) = some t) : s.CommitsApart crypto es p t := by
  have hworld : t.world = s.world.commit p := by
    simp only [System.step, hproc] at hstep
    obtain ⟨y, hy, rfl⟩ := Option.map_eq_some_iff.mp hstep
    exact congrArg Prod.snd (Option.some.inj (exec_eq_some.mp hy).2).symm
  obtain ⟨pt, hwalk, ⟨next, hout, -⟩, hholds⟩ := System.polled hrun hproc
  cases pt with
  | commit past =>
    obtain ⟨hbatch, -, -⟩ := hholds rfl
    obtain ⟨hnew, hold⟩ := hbatch.find?_commit
    rw [CommitsApart, PollPoint.claimedIn_of_walks hwalk id, hworld]
    refine ⟨fun d hd => ?_, fun i hi => hold i ?_⟩
    · obtain ⟨h, hh, rfl⟩ := List.mem_map.mp hd
      obtain ⟨told, htold, hapart⟩ := PollPoint.apart hwalk h hh
      obtain ⟨d', hd', hb⟩ := hnew h hh
      have hrow := (hbatch.handled.2 h hh).1
      exact ⟨(Table.find?_eq_some.mp hrow).1, told, h.handling, d', htold, hapart, hb, hd'⟩
    · rwa [PollPoint.batch, List.map_map] at hi
  | _ => cases hout

/-- **The deliveries of a batch do not affect each other.** When a poll commits, each delivery that
it had claimed is from then on what a poll of this delivery alone makes of it, told the same of it;
all other deliveries stay as they were. -/
theorem batches_apart (crypto : Crypto) (es : List Event) (s : System)
    (hrun : run (System.step crypto) .init es = some s) (p : Pid) (env : Env) (t : System)
    (k : Stmt.commit.Resp → ServerProg (Except Exc Result))
    (hproc : s.procs[p]? = some ⟨.poll, .op .commit k, true⟩)
    (hstep : s.step crypto (.exec p env) = some t) :
    (∀ d ∈ claimedIn (System.init.transcript crypto p es), d ∈ s.world.db.deliveries ∧
      ∃ told handling d', told <:+: System.init.transcript crypto p es ∧
        Walks (PollPoint.out crypto) (.visit [] [d]) told (.commit [⟨d, handling⟩]) ∧
          (Handled.mk d handling).Became d' ∧ t.world.db.deliveries.find? d.id = some d') ∧
    ∀ i, i ∉ (claimedIn (System.init.transcript crypto p es)).map WebhookDelivery.id →
      t.world.db.deliveries.find? i = s.world.db.deliveries.find? i :=
  System.commit_apart hrun hproc hstep

end Apart

/-- One delivery fails and is rescheduled, the other one is delivered, each as a poll of it alone
would have it. -/
theorem batches_apart_two : ∃ s t d₁ d₂ told₁ told₂ handling₁ handling₂ d₁' d₂',
    run (System.step sampleCrypto) .init (pollingTwo (.response 500 none) (.response 200 none)) =
      some s ∧
      s.step sampleCrypto (.exec 4 {}) = some t ∧ d₁.id ≠ d₂.id ∧
        Walks (PollPoint.out sampleCrypto) (.visit [] [d₁]) told₁ (.commit [⟨d₁, handling₁⟩]) ∧
          (Handled.mk d₁ handling₁).Became d₁' ∧ t.world.db.deliveries.find? d₁.id = some d₁' ∧
            d₁'.status = .pending ∧
        Walks (PollPoint.out sampleCrypto) (.visit [] [d₂]) told₂ (.commit [⟨d₂, handling₂⟩]) ∧
          (Handled.mk d₂ handling₂).Became d₂' ∧ t.world.db.deliveries.find? d₂.id = some d₂' ∧
            d₂'.status = .delivered := by
  have hclaimed : (claimedIn (System.init.transcript sampleCrypto 4
      (pollingTwo (.response 500 none) (.response 200 none)))).map WebhookDelivery.id = [0, 1] := by
    decide +kernel
  obtain ⟨s, hrun, hany⟩ := (Option.any_eq_true _ _).mp (by decide +kernel :
    (run (System.step sampleCrypto) .init
        (pollingTwo (.response 500 none) (.response 200 none))).any (fun s =>
      s.procs[4]?.any Proc.pollCommits ∧ (s.step sampleCrypto (.exec 4 {})).any (fun t =>
        (t.world.db.deliveries.find? 0).any (fun d => d.status = .pending) ∧
          (t.world.db.deliveries.find? 1).any (fun d => d.status = .delivered)) = true) = true)
  obtain ⟨hproc, hstep⟩ := of_decide_eq_true hany
  obtain ⟨proc, hproc, hcommits⟩ := (Option.any_eq_true _ _).mp hproc
  obtain ⟨k, rfl⟩ := Proc.pollCommits_iff.mp hcommits
  obtain ⟨t, hstep, hrows⟩ := (Option.any_eq_true _ _).mp hstep
  obtain ⟨hpending, hdelivered⟩ := of_decide_eq_true hrows
  obtain ⟨d₁, l, hd₁, hid₁, hrest⟩ := List.map_eq_cons_iff.mp hclaimed
  obtain ⟨d₂, l', rfl, hid₂, hnil⟩ := List.map_eq_cons_iff.mp hrest
  obtain ⟨heach, -⟩ := batches_apart sampleCrypto _ s hrun 4 {} t k hproc hstep
  obtain ⟨-, told₁, handling₁, d₁', -, hwalk₁, hbecame₁, hrow₁⟩ := heach d₁ (by simp [hd₁])
  obtain ⟨-, told₂, handling₂, d₂', -, hwalk₂, hbecame₂, hrow₂⟩ := heach d₂ (by simp [hd₁])
  have hstatus₁ : d₁'.status = .pending := by
    rw [← hid₁, hrow₁] at hpending
    exact of_decide_eq_true hpending
  have hstatus₂ : d₂'.status = .delivered := by
    rw [← hid₂, hrow₂] at hdelivered
    exact of_decide_eq_true hdelivered
  exact ⟨s, t, d₁, d₂, told₁, told₂, handling₁, handling₂, d₁', d₂', hrun, hstep,
    by rw [hid₁, hid₂]; decide, hwalk₁, hbecame₁, hrow₁, hstatus₁, hwalk₂, hbecame₂, hrow₂,
      hstatus₂⟩

end TenantBilling
