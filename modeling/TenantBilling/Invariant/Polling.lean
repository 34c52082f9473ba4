import TenantBilling.Invariant.Transcripts
import TenantBilling.Points.Poll
import TenantBilling.Points.Requests
import TenantBilling.World.Posts

/-!
# What holds at each point of a poll

A poll holds the deliveries of its batch from the claim to the end of its transaction: it has
locked them, they are committed as it has claimed them, its writes are the outcomes of those it
has written out, and its posts those it has made (`TenantBilling.Batch`). The sessions of the
requests hold no delivery, update none and post none (`TenantBilling.World.Leaves`).
-/

namespace TenantBilling

open Base World

/-! ### A batch -/

/-- What became of a delivery fits the answer to its `POST`. -/
def Handled.Fair (h : Handled) : Prop :=
  match h.handling with
  | .missing => False
  | .delivered http _ => deliveryError http = none
  | .exhausted http error => deliveryError http = some error ∧ maxAttempts ≤ h.delivery.attempts + 1
  | .retried http error _ => deliveryError http = some error ∧ h.delivery.attempts + 1 < maxAttempts

/-- The `POST` of a delivery and its answer. -/
def Handled.posted? (h : Handled) : Option (Uuid × HttpResult) :=
  h.handling.answer?.map fun http => (h.delivery.id, http)

/-- The write that stores what became of a delivery. -/
def Handled.Stores (h : Handled) (x : Write) : Prop :=
  ∃ update, (h.handling.change h.delivery).bind = .ok update ∧
    x = .updateDelivery h.delivery.id update

/-- **The transaction of a poll**: the deliveries written out, and the rest of the batch. -/
structure Batch (w : World) (p : Pid) (past : List Handled) (rest : List WebhookDelivery) :
    Prop where
  nodup : ((past.map Handled.delivery ++ rest).map WebhookDelivery.id).Nodup
  row : ∀ d ∈ past.map Handled.delivery ++ rest, w.db.deliveries.find? d.id = some d
  locked : ∀ d ∈ past.map Handled.delivery ++ rest, w.locks d.ref = some p
  pending : ∀ d ∈ past.map Handled.delivery ++ rest, d.status = .pending
  writes : List.Forall₂ Handled.Stores past (w.writesOf p)
  fair : ∀ h ∈ past, h.Fair

/-- The posts of a session, by delivery and answer. -/
def World.Posted (w : World) (p : Pid) (l : List (Uuid × HttpResult)) : Prop :=
  (w.postsOf p).map (fun x => (x.deliveryId, x.result)) = l

/-- What holds of the session at a point of a poll. -/
def PollPoint.Holds (w : World) (p : Pid) : PollPoint → Prop
  | start | claim _ => w.Idle p ∧ w.Posted p [] ∧ ¬w.Committed p
  | fetch past d todo | sign past d _ todo | post past d _ _ todo =>
    Batch w p past (d :: todo) ∧ w.Posted p (past.filterMap Handled.posted?) ∧ ¬w.Committed p
  | stamp past d http error todo =>
    Batch w p past (d :: todo) ∧ w.Posted p (past.filterMap Handled.posted? ++ [(d.id, http)]) ∧
      ¬w.Committed p ∧ deliveryError http = error ∧
        (error ≠ none → d.attempts + 1 < maxAttempts)
  | flush past d handling todo =>
    Batch w p past (d :: todo) ∧
      w.Posted p ((past ++ [Handled.mk d handling]).filterMap Handled.posted?) ∧ ¬w.Committed p ∧
        (Handled.mk d handling).Fair
  | commit past =>
    Batch w p past [] ∧ w.Posted p (past.filterMap Handled.posted?) ∧ ¬w.Committed p
  | closing _ | done _ => w.Idle p

section Steps

variable {crypto : Crypto} {w w' : World} {p : Pid}

theorem Handled.Fair.answer {h : Handled} (hfair : h.Fair) :
    ∃ http, h.handling.answer? = some http := by
  obtain ⟨d, handling⟩ := h
  cases handling with
  | missing => exact hfair.elim
  | _ => exact ⟨_, rfl⟩

/-- What a session sees of the endpoints, if it only updates deliveries. -/
theorem Batch.endpoints_view {past : List Handled} {rest : List WebhookDelivery}
    (h : Batch w p past rest) : (w.view p).endpoints = w.db.endpoints := by
  have hwrites : ∀ (db : Database) (past : List Handled) (ws : List Write),
      List.Forall₂ Handled.Stores past ws → (db.applyAll ws).endpoints = db.endpoints := by
    intro db past ws hws
    induction hws generalizing db with
    | nil => rfl
    | cons hx _ ih =>
      obtain ⟨update, -, rfl⟩ := hx
      exact ih _
  exact hwrites _ _ _ h.writes

/-- A step that changes nothing but the posts keeps the batch. -/
theorem Batch.congr {past : List Handled} {rest : List WebhookDelivery} (h : Batch w p past rest)
    (hrow : ∀ d : WebhookDelivery, w.locks d.ref = some p → w.db.deliveries.find? d.id = some d →
      w'.db.deliveries.find? d.id = some d)
    (hlocks : ∀ r, w'.locks r = some p ↔ w.locks r = some p)
    (hwrites : w'.writesOf p = w.writesOf p) :
    Batch w' p past rest :=
  ⟨h.nodup, fun d hd => hrow d (h.locked d hd) (h.row d hd),
    fun d hd => (hlocks d.ref).mpr (h.locked d hd), h.pending, hwrites ▸ h.writes, h.fair⟩

/-- The next delivery is taken up, or the poll is about to commit. -/
theorem PollPoint.holds_visit {past : List Handled} {todo : List WebhookDelivery}
    (h : Batch w p past todo) (hposted : w.Posted p (past.filterMap Handled.posted?))
    (hopen : ¬w.Committed p) : (visit past todo).Holds w p := by
  cases todo with
  | nil => exact ⟨h, hposted, hopen⟩
  | cons d todo => exact ⟨h, hposted, hopen⟩

/-- The claimed deliveries are a batch with nothing written out. -/
theorem Batch.of_claim {now : Timestamp} {batch : List WebhookDelivery} (hidle : w.Idle p)
    (hdue : w.Due p now batch) : Batch (w.lockAll p batch) p [] batch := by
  rw [lockAll_eq]
  refine ⟨hdue.nodup, fun d hd => ?_, fun d hd => if_pos (List.mem_map_of_mem hd), hdue.pending, ?_,
    by rintro _ ⟨⟩⟩
  · have hrow := hdue.row d hd
    rwa [hidle.view] at hrow
  · have hnil : List.Forall₂ Handled.Stores [] (w.writesOf p) := by
      rw [hidle.writes]
      exact .nil
    exact hnil

/-- The batch is claimed. -/
theorem PollPoint.holds_claimed {now : Timestamp} {batch : List WebhookDelivery}
    (h : (claim now).Holds w p) (hdue : w.Due p now batch) :
    (visit [] batch).Holds (w.lockAll p batch) p := by
  obtain ⟨hidle, hposted, hopen⟩ := h
  refine holds_visit (Batch.of_claim hidle hdue) ?_ ?_
  · rw [lockAll_eq]
    exact hposted
  · rw [lockAll_eq]
    exact hopen

/-- What became of a delivery has been written out. -/
theorem Batch.write {past : List Handled} {d : WebhookDelivery} {todo : List WebhookDelivery}
    {handling : Handling} {update : DeliveryUpdate} (h : Batch w p past (d :: todo))
    (hfair : (Handled.mk d handling).Fair) (hbind : (handling.change d).bind = .ok update) :
    Batch ((w.lock p d.ref).write p (.updateDelivery d.id update)) p
      (past ++ [⟨d, handling⟩]) todo := by
  have hall : (past ++ [Handled.mk d handling]).map Handled.delivery ++ todo =
      past.map Handled.delivery ++ d :: todo := by simp
  refine ⟨hall ▸ h.nodup, hall ▸ h.row, fun d' hd' => ?_, hall ▸ h.pending, ?_, fun x hx => ?_⟩
  · rw [locks_write, locks_lock]
    split
    · rfl
    · exact h.locked d' (hall ▸ hd')
  · rw [writesOf_write, if_pos rfl, writesOf_lock]
    exact List.rel_append h.writes (.cons ⟨update, hbind, rfl⟩ .nil)
  · rcases List.mem_append.mp hx with hx | hx
    · exact h.fair x hx
    · rwa [List.mem_singleton.mp hx]

/-- A step that leaves the posts and the history alone. -/
theorem World.Posted.congr {l : List (Uuid × HttpResult)} (h : w.Posted p l)
    (hposts : w'.posts = w.posts) : w'.Posted p l := by
  unfold Posted postsOf
  rw [hposts]
  exact h

/-- A session has made another post. -/
theorem World.Posted.post {l : List (Uuid × HttpResult)} (h : w.Posted p l) {id : Uuid}
    {url body : String} {headers : List (String × String)} {http : HttpResult} :
    ({ w with posts := w.posts ++ [⟨p, id, url, body, headers, http⟩] } : World).Posted p
      (l ++ [(id, http)]) := by
  unfold Posted postsOf at h ⊢
  rw [List.filter_append, List.map_append, h]
  simp

theorem Handled.filterMap_posted? {past : List Handled} {d : WebhookDelivery} {handling : Handling}
    {http : HttpResult} (h : handling.answer? = some http) :
    (past ++ [Handled.mk d handling]).filterMap Handled.posted? =
      past.filterMap Handled.posted? ++ [(d.id, http)] := by
  rw [List.filterMap_append]
  simp [Handled.posted?, h]

/-- The answer to a `POST` is taken up. -/
theorem PollPoint.holds_posted {past : List Handled} {d : WebhookDelivery}
    {todo : List WebhookDelivery} {http : HttpResult} (h : Batch w p past (d :: todo))
    (hposted : w.Posted p (past.filterMap Handled.posted? ++ [(d.id, http)]))
    (hopen : ¬w.Committed p) : (posted past d http todo).Holds w p := by
  unfold posted
  cases herror : deliveryError http with
  | none => exact ⟨h, hposted, hopen, herror, fun hne => absurd rfl hne⟩
  | some error =>
    by_cases hlast : maxAttempts ≤ d.attempts + 1
    · dsimp only
      rw [if_pos hlast]
      refine ⟨h, ?_, hopen, herror, hlast⟩
      rwa [Handled.filterMap_posted? rfl]
    · dsimp only
      rw [if_neg hlast]
      exact ⟨h, hposted, hopen, herror, fun _ => Nat.lt_of_not_le hlast⟩

/-- **A step of a poll** hands over what holds of its session. -/
theorem PollPoint.Holds.step {pt : PollPoint} {st : Stmt} {next : st.Resp → PollPoint} {r : st.Resp}
    (h : pt.Holds w p) (hlinked : w.db.Linked) (hout : pt.out crypto = .op st next)
    (hans : w.Answers p st r w') : (next r).Holds w' p := by
  cases pt with
  | start =>
    cases hout
    obtain rfl := answers_clock hans
    exact h
  | claim now =>
    cases hout
    obtain ⟨hdue, rfl⟩ := answers_claimDeliveries hans
    exact holds_claimed h hdue
  | fetch past d todo =>
    cases hout
    obtain ⟨⟨env, hr⟩, rfl⟩ := answers_select hans
    obtain ⟨hbatch, hposted, hopen⟩ := h
    have hd : d ∈ past.map Handled.delivery ++ d :: todo := by simp
    -- a delivery has its endpoint
    rcases r with _ | endpoint
    · obtain ⟨b, -, ⟨endpoint, hfind, -⟩, -⟩ :=
        hlinked.delivery d (Table.find?_eq_some.mp (hbatch.row d hd)).1
      have hnone : (w'.view p).endpoints.find? d.webhookEndpointId = none := hr.symm
      rw [hbatch.endpoints_view, hfind] at hnone
      cases hnone
    · exact ⟨hbatch, hposted, hopen⟩
  | sign past d endpoint todo =>
    cases hout
    obtain rfl := answers_clock hans
    exact h
  | post past d endpoint time todo =>
    cases hout
    obtain rfl := answers_post hans
    obtain ⟨hbatch, hposted, hopen⟩ := h
    exact
      holds_posted (hbatch.congr (fun _ _ hrow => hrow) (fun _ => Iff.rfl) rfl) hposted.post hopen
  | stamp past d http error todo =>
    cases hout
    obtain rfl := answers_clock hans
    obtain ⟨hbatch, hposted, hopen, herror, hattempts⟩ := h
    cases error with
    | none =>
      refine ⟨hbatch, ?_, hopen, herror⟩
      rwa [Handled.filterMap_posted? rfl]
    | some error =>
      refine ⟨hbatch, ?_, hopen, herror, hattempts (by rintro ⟨⟩)⟩
      rwa [Handled.filterMap_posted? rfl]
  | flush past d handling todo =>
    cases hout
    have hupdate := answers_updateDelivery hans
    obtain ⟨hbatch, hposted, hopen, hfair⟩ := h
    rcases r with e | ⟨⟨⟩⟩
    · obtain rfl := hupdate
      exact idle_release w p
    · obtain ⟨update, hbind, rfl⟩ := hupdate
      exact holds_visit (hbatch.write hfair hbind) (hposted.congr rfl) hopen
  | commit past =>
    cases hout
    obtain rfl := answers_commit hans
    exact idle_commit w p
  | closing x =>
    cases hout
    obtain rfl := answers_rollback hans
    exact idle_release w p
  | done x => cases hout

/-- What the others do leaves a poll alone. -/
theorem PollPoint.Holds.frame {pt : PollPoint} (h : pt.Holds w p) (hf : Frame p w w')
    (hrow : ∀ d : WebhookDelivery, w.locks d.ref = some p → w.db.deliveries.find? d.id = some d →
      w'.db.deliveries.find? d.id = some d)
    (hposts : w'.postsOf p = w.postsOf p) (hcommitted : w'.Committed p → w.Committed p) :
    pt.Holds w' p := by
  have hbatch : ∀ {past rest}, Batch w p past rest → Batch w' p past rest :=
    fun hbatch => hbatch.congr hrow hf.locks hf.writes
  have hposted : ∀ {l}, w.Posted p l → w'.Posted p l := by
    intro l hl
    rw [Posted, hposts]
    exact hl
  cases pt with
  | start | claim now =>
    obtain ⟨hidle, hl, hopen⟩ := h
    exact ⟨hidle.frame hf, hposted hl, fun hc => hopen (hcommitted hc)⟩
  | fetch past d todo | sign past d endpoint todo | post past d endpoint time todo | commit past =>
    obtain ⟨hb, hl, hopen⟩ := h
    exact ⟨hbatch hb, hposted hl, fun hc => hopen (hcommitted hc)⟩
  | stamp past d http error todo | flush past d handling todo =>
    obtain ⟨hb, hl, hopen, hrest⟩ := h
    exact ⟨hbatch hb, hposted hl, fun hc => hopen (hcommitted hc), hrest⟩
  | closing x | done x => exact HasTx.frame h hf

end Steps

/-! ### The sessions of a run -/

/-- What holds of a session that leaves the deliveries to the worker. -/
structure World.Quiet (w : World) (p : Pid) : Prop where
  writes : ∀ id update, .updateDelivery id update ∉ w.writesOf p
  locks : ∀ r, w.locks r = some p → r.table ≠ .deliveries
  posts : w.postsOf p = []

section Runs

variable {crypto : Crypto} {s t : System} {φ φ' : Pid → Phase} {e : Event} {p : Pid}

theorem World.Idle.quiet {w : World} (h : w.Idle p) (hposts : w.postsOf p = []) : w.Quiet p where
  writes id update hx := by
    rw [h.writes] at hx
    cases hx
  locks r hr := by cases (h.locks r).mp hr
  posts := hposts

/-- A statement that is none of the worker leaves the session quiet. -/
theorem World.Quiet.step {w w' : World} {st : Stmt} {r : st.Resp} (h : w.Quiet p) (hst : st.Leaves)
    (hans : w.Answers p st r w') : w'.Quiet p := by
  have heffect := hans.effect
  refine ⟨fun id update hx => ?_, fun r hr htable => ?_, ?_⟩
  · rcases heffect.writes _ hx with hx | hx
    · exact h.writes id update hx
    · cases st with
      | updateDelivery => exact hst trivial
      | _ => exact hx.elim
  · rcases heffect.locks r hr with hr | hr
    · exact h.locks r hr htable
    · cases st with
      | updateDelivery => exact hst trivial
      | claimDeliveries => exact hst trivial
      | lockInvoice | updateInvoice | updateAttempt | deactivateEndpoint =>
        cases hr
        cases htable
      | _ => exact hr.elim
  · have hposts : w'.posts = w.posts := hans.posts fun hpost => by
      cases st with
      | post => exact hst trivial
      | _ => exact hpost
    rw [postsOf, hposts]
    exact h.posts

namespace System

/-- A new session has posted nothing. -/
theorem Started.postsOf (hI : s.Started) : s.world.postsOf s.procs.length = [] := by
  refine List.filter_eq_nil_iff.mpr fun x hx => ?_
  have hlt := hI.posts x hx
  simpa using hlt.ne

theorem Started.not_committed (hI : s.Started) : ¬s.world.Committed s.procs.length := by
  rintro ⟨m, hm, hpid⟩
  exact absurd (hI.history m hm) (hpid ▸ Nat.lt_irrefl _)

theorem Sound.idle_new (h : s.Sound crypto φ) : s.world.Idle s.procs.length := by
  refine h.idle _ ?_
  rintro ⟨proc, hproc, -⟩
  exact absurd (List.getElem?_eq_some_iff.mp hproc).1 (Nat.lt_irrefl _)

/-- The posts of a session are its own. -/
theorem Moves.postsOf (hmove : s.Moves crypto φ e t φ')
    (hothers : ∀ q st r, s.Answered q st r t.world e → q ≠ p) :
    t.world.postsOf p = s.world.postsOf p := by
  rcases hmove.posts_or with hposts | ⟨q, id, url, body, headers, http, -, -, -, hans, ht⟩
  · rw [World.postsOf, hposts]
    rfl
  · rw [World.postsOf, ht, List.filter_append]
    have hne : ¬q = p := hothers q _ _ hans
    simp [hne, World.postsOf]

/-- A delivery that a session has locked is not changed by the others. -/
theorem Sound.find?_delivery (h : s.Sound crypto φ) (hmove : s.Moves crypto φ e t φ')
    (hothers : ∀ q st r, s.Answered q st r t.world e → q ≠ p) {d : WebhookDelivery}
    (hlock : s.world.locks d.ref = some p) (hrow : s.world.db.deliveries.find? d.id = some d) :
    t.world.db.deliveries.find? d.id = some d := by
  rcases hmove.db_or with ⟨hdb, -⟩ | ⟨q, u, -, -, -, hans, ht⟩
  · rwa [hdb]
  · have hne := hothers q _ _ hans
    have hsome : s.world.db.row d.ref ≠ none := by simp [Database.row, WebhookDelivery.ref, hrow]
    rw [ht, ← hrow]
    exact Database.find?_deliveries_eq (h.consistent.row_commit hlock hne hsome)

/-- **No request has to do with deliveries** once they are in the outbox. -/
theorem quiet_of_request (hs : s.Reachable crypto) {business : Business} {req : Request}
    {prog : ServerProg (Except Exc Result)} {alive : Bool}
    (hproc : s.procs[p]? = some ⟨.request business req, prog, alive⟩) :
    Prog.Keeps (only Stmt.Leaves) (fun _ _ => True) () prog ∧ s.world.Quiet p := by
  obtain ⟨-, -, -, hI⟩ := Sound.reaches (I := fun u _ => u.Started ∧ ∀ p proc,
    u.procs[p]? = some proc →
      ∀ business req, proc.job = .request business req →
        Prog.Keeps (only Stmt.Leaves) (fun _ _ => True) () proc.prog ∧ u.world.Quiet p)
    hs sound_init
    ⟨⟨by rintro _ ⟨⟩, by rintro _ ⟨⟩⟩, by rintro _ _ ⟨⟩⟩ <| by
      rintro u ψ e v ψ' hu ⟨hstarted, hI⟩ - - hmove -
      refine ⟨hstarted.move hmove, hmove.each (Q := fun w p proc => ∀ business req,
        proc.job = .request business req →
          Prog.Keeps (only Stmt.Leaves) (fun _ _ => True) () proc.prog ∧ w.Quiet p) hI ?_ ?_ ?_ ?_⟩
      · rintro job hv business req rfl
        rw [hv]
        exact ⟨leaves_request crypto business req, hu.idle_new.quiet hstarted.postsOf⟩
      · rintro p job st k r hproc hans hold business req hjob
        obtain ⟨hkeeps, hquiet⟩ := hold business req hjob
        exact ⟨hkeeps.next r, hquiet.step hkeeps.1 hans.answers⟩
      · rintro p job prog hv hold business req hjob
        obtain ⟨hkeeps, hquiet⟩ := hold business req hjob
        rw [hv]
        exact ⟨hkeeps, (idle_release u.world p).quiet hquiet.posts⟩
      · rintro q proc hothers hf hold business req hjob
        obtain ⟨hkeeps, hquiet⟩ := hold business req hjob
        refine ⟨hkeeps, hf.writes ▸ hquiet.writes, fun r hr => hquiet.locks r ((hf.locks r).mp hr),
          ?_⟩
        rw [hmove.postsOf hothers]
        exact hquiet.posts
  exact hI p _ hproc business req rfl

theorem Sound.holds_start (h : s.Sound crypto φ) (hs : s.Reachable crypto) :
    PollPoint.start.Holds s.world s.procs.length := by
  have hnil : s.world.Posted s.procs.length [] := by
    rw [World.Posted, hs.started.postsOf]
    rfl
  exact ⟨h.idle_new, hnil, hs.started.not_committed⟩

/-- A move of another process keeps what a poll holds. -/
theorem Sound.holds_others (h : s.Sound crypto φ) (hmove : s.Moves crypto φ e t φ')
    (hothers : ∀ q st r, s.Answered q st r t.world e → q ≠ p) (hf : Frame p s.world t.world)
    {pt : PollPoint} (hpt : pt.Holds s.world p) : pt.Holds t.world p := by
  refine hpt.frame hf (fun d => h.find?_delivery hmove hothers) (hmove.postsOf hothers) fun hc => ?_
  rcases hmove.committed hc with hc | ⟨r, hans⟩
  · exact hc
  · exact absurd rfl (hothers p _ _ hans)

/-- **A poll is where its transcript has led it**, and what is said of the point holds. -/
theorem polled {es : List Event} (hrun : run (step crypto) .init es = some s)
    {prog : ServerProg (Except Exc Result)} {alive : Bool}
    (hproc : s.procs[p]? = some ⟨.poll, prog, alive⟩) :
    ∃ pt, Walks (PollPoint.out crypto) .start (transcript crypto p .init es) pt ∧
      Prog.Tracks (PollPoint.out crypto) pt prog ∧ (alive = true → pt.Holds s.world p) := by
  refine holds_walked (Q := fun w p pt => PollPoint.Holds w p pt) ?_ ?_ ?_ hrun hproc
    (tracks_poll crypto)
  · intro s φ hs h
    exact h.holds_start hs
  · intro s φ p pt st next r w' h ho _ hpt hout hans
    exact hpt.step ho.linked hout hans
  · intro s t φ φ' e p pt h ho hmove hothers hf hpt
    exact h.holds_others hmove hothers hf hpt

end System

end Runs

end TenantBilling
