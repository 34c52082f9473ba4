import TenantBilling.Properties.SuccessKept
import TenantBilling.Properties.Unopposed

/-!
# What becomes of a charge request

Once its pending attempt is committed, a payment that runs alone is given an outcome of its call and
persists it. What the reply says is read in two places: `charge` maps exceptions and statuses of
400 and above to unknown outcomes and reads the JSON body of everything else, and `process_payment`
takes every status of the body other than `succeeded` for a decline. So an outcome is classified as
documented if it is an exception of the client, an HTTP status of 400 and above, or a 2xx reply
whose JSON says `succeeded` or `failed` (`TenantBilling.outcome_classified_iff`), and not for any
other reply.
-/

namespace TenantBilling

open Base World

/-! ### Replies -/

/-- The reply is a 2xx and its JSON body has the status. -/
def HttpResult.Replies (status : String) : HttpResult → Prop
  | .response code (some (.obj fields)) =>
    200 ≤ code ∧ code < 300 ∧ (fields.lookup "status").any (·.eqStr status)
  | _ => False

instance (status : String) : ∀ http, Decidable (HttpResult.Replies status http)
  | .response code (some (.obj fields)) => inferInstanceAs (Decidable
      (200 ≤ code ∧ code < 300 ∧ (fields.lookup "status").any (·.eqStr status)))
  | .timeout | .requestError _ | .exception _ | .response _ none | .response _ (some .null)
  | .response _ (some (.bool _)) | .response _ (some (.int _)) | .response _ (some (.float ..))
  | .response _ (some (.str _)) | .response _ (some (.arr _)) => .isFalse id

/-- What comes of the call tells what has become of the charge, or is one of the two failures that
the client reports. -/
def HttpResult.Documented : HttpResult → Prop
  | .timeout | .requestError _ => True
  | .exception _ => False
  | .response code body =>
    400 ≤ code ∨ (HttpResult.response code body).Replies "succeeded" ∨
      (HttpResult.response code body).Replies "failed"

/-- The reference, or the failure code, that is to be stored fits its column. -/
def HttpResult.Fits (http : HttpResult) : Prop :=
  ∀ outcome, chargeOutcome http = some outcome → ∃ update, (outcomeChange outcome).bind = .ok update

theorem HttpResult.fits_of_toBool {http : HttpResult} {outcome : Except PspError PspChargeResult}
    (h : chargeOutcome http = some outcome) (hbind : (outcomeChange outcome).bind.toBool = true) :
    http.Fits := by
  intro outcome' houtcome
  obtain rfl := Option.some.inj (h.symm.trans houtcome)
  cases hupdate : (outcomeChange outcome).bind with
  | ok update => exact ⟨update, rfl⟩
  | error e =>
    rw [hupdate] at hbind
    cases hbind

/-- The status that an attempt gets for an outcome. -/
def outcomeStatus : Except PspError PspChargeResult → PaymentStatus
  | .error _ => .pending
  | .ok result => if result.Succeeded then .succeeded else .failed

theorem replies_obj {code : ℕ} {fields : List (String × Json)} {st : Json} {status : String}
    (h : fields.lookup "status" = some st) :
    (HttpResult.response code (some (.obj fields))).Replies status ↔
      (200 ≤ code ∧ code < 300) ∧ st = .str status := by
  rw [HttpResult.Replies, h, Option.any_some, Json.eqStr_iff, and_assoc]

/-- The code takes the outcome for what the reply says. -/
def HttpResult.Classified (http : HttpResult) : Prop :=
  ∃ outcome, chargeOutcome http = some outcome ∧
    (outcomeStatus outcome = .succeeded ↔ http.Replies "succeeded") ∧
      (outcomeStatus outcome = .failed ↔ http.Replies "failed")

theorem classified_of_error {http : HttpResult} {e : PspError}
    (h : chargeOutcome http = some (.error e)) (hno : ∀ status, ¬http.Replies status) :
    http.Classified := by
  refine ⟨_, h, ⟨?_, fun hr => absurd hr (hno _)⟩, ⟨?_, fun hr => absurd hr (hno _)⟩⟩
  · rintro ⟨⟩
  · rintro ⟨⟩

theorem not_classified_of_none {http : HttpResult} (h : chargeOutcome http = none) :
    ¬http.Classified := by
  rintro ⟨outcome, houtcome, -⟩
  rw [h] at houtcome
  cases houtcome

/-- A body that says a status below 400 is classified if it is a 2xx that says one of the two: the
code reads the status whatever the reply is, and takes every other status for a decline. -/
theorem classified_iff_of_status {code : ℕ} {fields : List (String × Json)}
    {result : PspChargeResult} (hst : fields.lookup "status" = some result.status)
    (h : chargeOutcome (.response code (some (.obj fields))) = some (.ok result)) :
    (HttpResult.response code (some (.obj fields))).Classified ↔
      (200 ≤ code ∧ code < 300) ∧
        (result.status = .str "succeeded" ∨ result.status = .str "failed") := by
  have hsucceeded : result.Succeeded ↔ result.status = .str "succeeded" := Json.eqStr_iff
  have hclassified : (HttpResult.response code (some (.obj fields))).Classified ↔
      (outcomeStatus (.ok result) = .succeeded ↔
        (200 ≤ code ∧ code < 300) ∧ result.status = .str "succeeded") ∧
      (outcomeStatus (.ok result) = .failed ↔
        (200 ≤ code ∧ code < 300) ∧ result.status = .str "failed") := by
    rw [← replies_obj hst, ← replies_obj hst]
    constructor
    · rintro ⟨outcome, houtcome, hiff⟩
      obtain rfl := Option.some.inj (h.symm.trans houtcome)
      exact hiff
    · rintro hiff
      exact ⟨_, h, hiff⟩
  rw [hclassified]
  by_cases hs : result.status = .str "succeeded"
  · have hok : outcomeStatus (.ok result) = .succeeded := if_pos (hsucceeded.mpr hs)
    rw [hok, hs]
    simp
  · have hok : outcomeStatus (.ok result) = .failed := if_neg fun h => hs (hsucceeded.mp h)
    rw [hok]
    simp [hs]

/-- **Documented outcomes are classified as what they say**, and no others are. -/
theorem documented_iff {http : HttpResult} : http.Documented ↔ http.Classified := by
  cases http with
  | timeout =>
    exact ⟨fun _ => classified_of_error (e := .timeout) rfl fun _ => id, fun _ => trivial⟩
  | requestError message =>
    exact ⟨fun _ => classified_of_error (e := .networkError) rfl fun _ => id, fun _ => trivial⟩
  | exception message => exact ⟨False.elim, fun h => absurd h (not_classified_of_none rfl)⟩
  | response code body =>
    -- from 400 on the body is not looked at
    by_cases hcode : 400 ≤ code
    · refine ⟨fun _ => classified_of_error (e := .networkError) ?_ fun status => ?_,
        fun _ => Or.inl hcode⟩
      · simp [chargeOutcome, chargeResult, hcode]
      · unfold HttpResult.Replies
        split
        case h_1 heq =>
          cases heq
          rintro ⟨-, hlt, -⟩
          omega
        case h_2 => exact id
    -- below 400, without a status the reply is neither documented nor classified
    · have hnone : chargeOutcome (.response code body) = none →
          (∀ status, ¬(HttpResult.response code body).Replies status) →
            ((HttpResult.response code body).Documented ↔
              (HttpResult.response code body).Classified) := by
        intro h hno
        refine ⟨?_, fun hc => absurd hc (not_classified_of_none h)⟩
        rintro (hle | hr | hr)
        · exact absurd hle hcode
        · exact absurd hr (hno _)
        · exact absurd hr (hno _)
      cases body with
      | none => exact hnone (by simp [chargeOutcome, chargeResult, hcode]) fun _ => id
      | some j =>
        cases j with
        | obj fields =>
          cases hst : fields.lookup "status" with
          | none =>
            refine hnone (by simp [chargeOutcome, chargeResult, hcode, hst]) fun status => ?_
            rw [HttpResult.Replies, hst]
            rintro ⟨-, -, ⟨⟩⟩
          | some st =>
            obtain ⟨result, houtcome, rfl⟩ : ∃ result,
                chargeOutcome (.response code (some (.obj fields))) = some (.ok result) ∧
                  result.status = st := by
              simp [chargeOutcome, chargeResult, hcode, hst]
            rw [classified_iff_of_status hst houtcome, HttpResult.Documented, replies_obj hst,
              replies_obj hst, or_iff_right hcode, and_or_left]
        | _ => exact hnone (by simp [chargeOutcome, chargeResult, hcode]) fun _ => id

/-! ### From the first commit on -/

/-- **The outcome has been persisted**: the row of the attempt, the state of its invoice, and no
event if the outcome is unknown. -/
structure Resolved (http : HttpResult) (db db' : Database) (a row : PaymentAttempt) : Prop where
  found : db'.attempts.find? a.id = some row
  update : ∃ outcome update now, chargeOutcome http = some outcome ∧
    (outcomeChange outcome).bind = .ok update ∧ row = a.update update now ∧
      (Pays outcome → db'.stateOf a.invoiceId = some .paid) ∧
      (¬Pays outcome → ∀ i, db'.stateOf i = db.stateOf i) ∧
      ∀ e, outcome = .error e → db'.deliveries = db.deliveries

/-- Where a payment ends that has made its call. -/
def EndsWith (http : HttpResult) (db : Database) (a : PaymentAttempt) (w : World)
    (x : Except Exc Result) : Prop :=
  chargeOutcome http = none ∧ (∃ e, x = .error e) ∨
    ∃ row, x = .ok (.attempt row false) ∧ Resolved http db w.db a row

/-- A payment that runs alone on a database, from its first commit on. -/
def PayPoint.Resolving (http : HttpResult) (db : Database) (a : PaymentAttempt) (w : World) :
    PayPoint → Prop
  | send _ b | receive _ b => b = a ∧ w.db = db
  | refetch _ b h _ | record _ b h _ | relock _ b h _ | markPaid b h _ | listEndpoints b h _
  | readClock b h _ _ | outbox b h _ _ _ | settle b h _ _ => b = a ∧ h = http ∧ w.db = db
  | refresh b _ => b = a ∧ ∃ row, Resolved http db w.db a row
  | closing x _ | done x _ => EndsWith http db a w x
  | _ => False

section Runs

variable {crypto : Crypto} {s t : System} {φ : Pid → Phase} {p : Pid} {c : PayCall} {pt : PayPoint}
  {env : Env} {http : HttpResult} {db : Database} {a : PaymentAttempt}

/-- The second commit persists the outcome. -/
theorem resolved_of_commits {w : World} {endpoints : List WebhookEndpoint}
    {outcome : Except PspError PspChargeResult}
    (h : Commits crypto w p (w.view p) (.pay c (.settle a http outcome endpoints))
      (.pay c (.refresh a http))) : ∃ row, Resolved http w.db (w.view p) a row := by
  have hrow : ∀ {update : AttemptUpdate} {now : Timestamp}, w.db.attempts.find? a.id = some a →
      (w.view p).attempts = w.db.attempts.update a.id (·.update update now)
        (·.update_id update now) →
        (w.view p).attempts.find? a.id = some (a.update update now) := by
    intro update now hfind hattempts
    rw [hattempts, Table.find?_update_self, hfind]
    rfl
  cases h with
  | @paid _ _ _ result _ update now now' rest hgood houtcome hresult hbind _ htx hattempts hstate =>
    refine ⟨_, hrow hgood.2.2 hattempts, .ok result, update, now, houtcome, ?_, rfl, fun _ => ?_,
      fun hpays => absurd hresult hpays, by rintro e ⟨⟩⟩
    · rw [outcomeChange, if_pos hresult]
      exact hbind
    · rw [hstate, if_pos hgood.2.1.invoiceId]
  | @unpaid _ _ _ _ _ update now rest hgood houtcome hpays hbind hrest htx hattempts hstate =>
    refine ⟨_, hrow hgood.2.2 hattempts, outcome, update, now, houtcome, hbind, rfl,
      fun hp => absurd hp hpays, fun _ => hstate, ?_⟩
    rintro e rfl
    -- an unknown outcome has no event
    rcases hrest with ⟨-, rfl⟩ | ⟨-, result, _, _, ⟨⟩, -⟩
    rw [htx.view]
    rfl

/-- **One statement of a payment that runs alone** after its first commit. -/
theorem PayPoint.Resolving.step {st : Stmt} {next : st.Resp → PayPoint} {r : st.Resp} {w' : World}
    (h : s.Unopposed crypto φ p c pt) (hfits : http.Fits) (hout : pt.out crypto c = .op st next)
    (henv : env.http = http) (hexec : s.world.exec p env st = some (r, w'))
    (hpt : pt.Resolving http db a s.world) : (next r).Resolving http db a w' := by
  have hans : s.world.Answers p st r w' := .exec env hexec
  have hholds := h.sound.alive p h.alive
  have hgood := h.sound.forGood p
  rw [h.phase] at hholds hgood
  have hdb : st ≠ .commit → w'.db = s.world.db := hans.effect.db
  cases pt with
  | send v b =>
    cases hout
    exact ⟨hpt.1, (hdb (by simp)).trans hpt.2⟩
  | receive v b =>
    cases hout
    obtain ⟨rfl, rfl⟩ := hpt
    obtain rfl : r = http :=
      (congrArg Prod.fst (Option.some.inj (exec_eq_some.mp hexec).2)).symm.trans henv
    dsimp only
    cases hres : chargeResult r with
    | ok result => exact ⟨rfl, rfl, hdb (by simp)⟩
    | error e =>
      cases e with
      | psp e => exact ⟨rfl, rfl, hdb (by simp)⟩
      | _ => exact Or.inl ⟨by simp [chargeOutcome, hres], _, rfl⟩
  | refetch v b h' outcome =>
    cases hout
    obtain ⟨rfl, rfl, rfl⟩ := hpt
    obtain ⟨⟨env', hr⟩, rfl⟩ := answers_select hans
    -- no other session writes the attempt, so the row is as it was inserted
    have hrow : r = some b := by
      rw [hr, World.Idle.view hholds.1]
      exact hgood.2.2
    subst hrow
    have hloaded : b.orLoaded b = b := if_pos rfl
    exact ⟨hloaded, rfl, rfl⟩
  | record v b h' outcome =>
    cases hout
    obtain ⟨rfl, rfl, rfl⟩ := hpt
    -- the outcome fits the columns, so the UPDATE is not refused
    obtain ⟨update, hbind⟩ := hfits outcome hholds.2.2
    obtain rfl := exec_updateAttempt hexec hbind
    dsimp only [PayPoint.recorded]
    split
    · exact ⟨rfl, rfl, hdb (by simp)⟩
    · split
      · exact ⟨rfl, rfl, hdb (by simp)⟩
      · exact ⟨rfl, rfl, hdb (by simp)⟩
  | relock v b h' result =>
    cases hout
    obtain ⟨rfl, rfl, rfl⟩ := hpt
    obtain ⟨row?, rfl⟩ := exec_lockInvoice hexec
    have hlock := answers_lockInvoice hans
    obtain ⟨hv, -, -, update, now, -, htx⟩ := hholds
    cases row? with
    | none =>
      -- the invoice of an attempt is always there
      have hex := h.sound.invoice b (Table.find?_eq_some.mp hgood.2.2).1
      rw [hgood.2.1.invoiceId] at hex
      obtain ⟨row, hrow⟩ := Option.ne_none_iff_exists'.mp hex
      cases hlock.2 row ((find?_view_of_attempt htx _).trans hrow)
    | some row =>
      have hid : v.id = row.id := by
        obtain ⟨-, -, hrow, -⟩ := hlock
        exact hv.id.trans (Table.find?_eq_some.mp hrow).2.symm
      -- the check is made on the state that was loaded before the call
      have hstate : row.stateOrLoaded v = .open := (if_pos hid).trans hv.isOpen
      dsimp only
      rw [assertTransitionAllowed_paid.mpr hstate]
      exact ⟨rfl, rfl, hdb (by simp)⟩
  | markPaid b h' result =>
    cases hout
    obtain ⟨rfl, rfl, rfl⟩ := hpt
    obtain rfl := exec_updateInvoice hexec
    exact ⟨rfl, rfl, hdb (by simp)⟩
  | listEndpoints b h' result =>
    cases hout
    obtain ⟨rfl, rfl, rfl⟩ := hpt
    dsimp only
    split
    · exact ⟨rfl, rfl, hdb (by simp)⟩
    · exact ⟨rfl, rfl, hdb (by simp)⟩
  | readClock b h' result endpoints =>
    cases hout
    exact ⟨hpt.1, hpt.2.1, (hdb (by simp)).trans hpt.2.2⟩
  | outbox b h' result endpoints now =>
    cases hout
    obtain ⟨rfl, -⟩ := answers_insertDeliveries hans
    exact ⟨hpt.1, hpt.2.1, (hdb (by simp)).trans hpt.2.2⟩
  | settle b h' outcome endpoints =>
    have hnext : Phase.Next crypto (.pay c (.settle b h' outcome endpoints)) st r
      (.pay c (next r)) := .pay hout r
    cases hout
    obtain ⟨rfl, rfl, rfl⟩ := hpt
    obtain rfl := answers_commit hans
    exact ⟨rfl, resolved_of_commits (hnext.commits hholds hgood h.sound.invoice)⟩
  | refresh b h' =>
    cases hout
    obtain ⟨rfl, row, hrow⟩ := hpt
    obtain ⟨⟨env', hr⟩, rfl⟩ := answers_select hans
    have hfound : r = some row := by
      rw [hr, World.Idle.view hholds]
      exact hrow.found
    subst hfound
    exact Or.inr ⟨row, rfl, hrow⟩
  | closing x g =>
    cases hout
    obtain rfl := answers_rollback hans
    exact hpt
  | done x g => cases hout
  | _ => exact hpt.elim

/-! ### The outcome of a run -/

/-- **What is to be persisted of an outcome**: a reply that says what has become of the charge, or
else a pending attempt with a failure code, and nothing more. -/
structure PersistsOutcome (http : HttpResult) (db db' : Database) (a row : PaymentAttempt) :
    Prop where
  found : db'.attempts.find? a.id = some row
  succeeded : row.status = .succeeded ↔ http.Replies "succeeded"
  failed : row.status = .failed ↔ http.Replies "failed"
  unknown : ¬http.Replies "succeeded" → ¬http.Replies "failed" →
    row.status = .pending ∧ (∃ code, row.failureCode = some code ∧
      (code.text = "psp_timeout" ∨ code.text = "psp_unavailable")) ∧
        db'.stateOf a.invoiceId = some .open ∧ db'.deliveries = db.deliveries

/-- **The outcome of the call is a normal one**: with it, the session run alone comes to an end, and
however it is run, it returns the attempt as the outcome says. -/
structure NormalOutcome (crypto : Crypto) (s : System) (p : Pid) (a : PaymentAttempt)
    (http : HttpResult) : Prop where
  returns : ∃ n envs t, (∀ k, (envs k).http = http) ∧
    run (System.step crypto) s (alone p n envs) = some t ∧ ∃ x, t.returned? p = some x
  persists : ∀ n envs t x, (∀ k, (envs k).http = http) →
    run (System.step crypto) s (alone p n envs) = some t → t.returned? p = some x →
      ∃ row, x = .ok (.attempt row false) ∧
        PersistsOutcome http s.world.db t.world.db a row

theorem status_update (hpending : a.status = .pending) {outcome : Except PspError PspChargeResult}
    {update : AttemptUpdate} (hbind : (outcomeChange outcome).bind = .ok update) (now : Timestamp) :
    (a.update update now).status = outcomeStatus outcome := by
  have hstatus := AttemptChange.bind_status hbind
  cases outcome with
  | error e =>
    rw [PaymentAttempt.update, hstatus]
    exact hpending
  | ok result =>
    rw [PaymentAttempt.update, hstatus, outcomeChange, outcomeStatus]
    split <;> rfl

/-- An unknown outcome leaves one of the two failure codes. -/
theorem failureCode_update {e : PspError} {update : AttemptUpdate}
    (hbind : (outcomeChange (.error e)).bind = .ok update) (now : Timestamp) :
    ∃ code, (a.update update now).failureCode = some code ∧
      (code.text = "psp_timeout" ∨ code.text = "psp_unavailable") := by
  have hcode : failureCodeFromPspError e = "psp_timeout" ∨
      failureCodeFromPspError e = "psp_unavailable" := by
    unfold failureCodeFromPspError
    split
    · exact Or.inl rfl
    · exact Or.inr rfl
  simp only [outcomeChange, unknownChange, AttemptChange.bind, storeIfSet, Json.store] at hbind
  cases hstore : Varchar.ofString? 50 (failureCodeFromPspError e) with
  | none =>
    rw [hstore] at hbind
    cases hbind
  | some code =>
    rw [hstore] at hbind
    cases hbind
    exact ⟨code, rfl, Varchar.ofString?_eq_some.mp hstore ▸ hcode⟩

theorem Resolved.persistsOutcome {db' : Database} {row : PaymentAttempt}
    (h : Resolved http db db' a row) (hpending : a.status = .pending)
    (hopen : db.stateOf a.invoiceId = some .open) (hclassified : http.Classified) :
    PersistsOutcome http db db' a row := by
  obtain ⟨hfound, outcome, update, now, houtcome, hbind, rfl, -, hunpaid, hevents⟩ := h
  obtain ⟨outcome', houtcome', hsucceeded, hfailed⟩ := hclassified
  obtain rfl := Option.some.inj (houtcome.symm.trans houtcome')
  have hstatus := status_update hpending hbind now
  refine ⟨hfound, hstatus ▸ hsucceeded, hstatus ▸ hfailed, fun hno hno' => ?_⟩
  cases outcome with
  | error e =>
    exact ⟨hstatus, failureCode_update hbind now, (hunpaid id _).trans hopen, hevents e rfl⟩
  | ok result =>
    by_cases hresult : result.Succeeded
    · exact absurd (hsucceeded.mp (if_pos hresult)) hno
    · exact absurd (hfailed.mp (if_neg hresult)) hno'

/-- The attempt that a session is about to commit. -/
def System.reserving? (s : System) (p : Pid) : Option PaymentAttempt :=
  match s.next? p, s.world.writesOf p with
  | some .commit, [.insertAttempt a] => some a
  | _, _ => none

theorem System.reserving?_eq_some : s.reserving? p = some a ↔
    s.next? p = some .commit ∧ s.world.writesOf p = [.insertAttempt a] := by
  unfold System.reserving?
  split
  case h_1 b hnext hwrites => simp [hnext, hwrites]
  case h_2 hnot =>
    refine ⟨by rintro ⟨⟩, ?_⟩
    rintro ⟨hnext, hwrites⟩
    exact (hnot a hnext hwrites).elim

/-- A session that is about to commit an attempt is a payment at its first commit. -/
theorem System.Sound.reserve_of_reserving? (h : s.Sound crypto φ) (ha : s.reserving? p = some a) :
    s.Alive p ∧ ∃ c v, φ p = .pay c (.reserve v a) := by
  obtain ⟨hnext, hwrites⟩ := System.reserving?_eq_some.mp ha
  refine ⟨System.alive_of_next? hnext, ?_⟩
  have hholds := h.alive p (System.alive_of_next? hnext)
  cases hph : φ p with
  | other =>
    rw [hph] at hholds
    have hperipheral := hholds.writes _ (hwrites ▸ List.mem_singleton_self _)
    exact False.elim hperipheral
  | transition c pt =>
    rw [hph] at hholds
    obtain ⟨next, hout⟩ := h.out_transition hnext hph
    cases pt with
    | commit v x =>
      obtain ⟨-, now, htx⟩ := hholds
      rw [htx.writes] at hwrites
      cases hwrites
    | _ => cases hout
  | pay c pt =>
    rw [hph] at hholds
    obtain ⟨next, hout⟩ := h.out_pay hnext hph
    cases pt with
    | reserve v b =>
      have heq := hholds.1.writes.symm.trans hwrites
      cases heq
      exact ⟨c, v, rfl⟩
    | settle b h' outcome endpoints =>
      obtain ⟨rest, -, -, update, now, -, ⟨-, now', htx⟩ | ⟨-, htx⟩⟩ := hholds
      · rw [htx.writes] at hwrites
        cases hwrites
      · rw [htx.writes] at hwrites
        cases hwrites
    | _ => cases hout

/-- **A payment that has committed its attempt and is run alone** ends with the outcome that its
call is given. -/
structure RunsOut (crypto : Crypto) (s : System) (p : Pid) (a : PaymentAttempt)
    (http : HttpResult) : Prop where
  pending : a.status = .pending
  isOpen : s.world.db.stateOf a.invoiceId = some .open
  returns : ∃ n envs t, (∀ k, (envs k).http = http) ∧
    run (System.step crypto) s (alone p n envs) = some t ∧ ∃ x, t.returned? p = some x
  ends : ∀ n envs t x, (∀ k, (envs k).http = http) →
    run (System.step crypto) s (alone p n envs) = some t → t.returned? p = some x →
      EndsWith http s.world.db a t.world x

theorem System.Reachable.runsOut (hs : s.Reachable crypto) (ha : s.reserving? p = some a)
    (hothers : s.Lone p) (hstep : s.step crypto (.exec p env) = some t) (hfits : http.Fits) :
    RunsOut crypto t p a http := by
  obtain ⟨φ, h⟩ := hs.sound
  obtain ⟨hp, c, v, hph⟩ := h.reserve_of_reserving? ha
  have hreserve : s.Unopposed crypto φ p c (.reserve v a) := ⟨h, hp, hph, h.unopposed hothers⟩
  obtain ⟨st, next, r, hout, hexec, hsend⟩ := hreserve.step hstep
  have hholds := h.alive p hp
  rw [hph] at hholds
  obtain ⟨htx, hv, hfind, hreserving⟩ := hholds
  cases hout
  have hdb : t.world.db = s.world.view p := by rw [answers_commit (.exec env hexec), db_commit]
  refine ⟨hreserving.made.status, ?_, hsend.exists_end http, fun n envs u x henvs hrun hx => ?_⟩
  · rw [hdb, htx.view, hreserving.made.invoiceId]
    change Option.map _ (s.world.db.invoices.find? c.invoiceId) = _
    rw [hfind, Option.map_some, hv.isOpen]
  · obtain ⟨ψ, pt, hu, hpt⟩ := hsend.run (I := PayPoint.Resolving http t.world.db a)
      (fun _ _ _ _ _ _ _ _ hu hout henv hexec hpt => hpt.step hu hfits hout henv hexec) henvs hrun
      ⟨rfl, rfl⟩
    obtain ⟨g, rfl⟩ := hu.sound.done_of_returned hx hu.phase
    exact hpt

/-- Documented outcomes are normal outcomes. -/
theorem RunsOut.normalOutcome (h : RunsOut crypto s p a http) (hclassified : http.Classified) :
    NormalOutcome crypto s p a http := by
  refine ⟨h.returns, fun n envs t x henvs hrun hx => ?_⟩
  rcases h.ends n envs t x henvs hrun hx with ⟨hnone, -⟩ | ⟨row, rfl, hrow⟩
  · exact absurd hclassified (not_classified_of_none hnone)
  · exact ⟨row, rfl, hrow.persistsOutcome h.pending h.isOpen hclassified⟩

/-- Normal outcomes are documented ones. -/
theorem RunsOut.classified (h : RunsOut crypto s p a http)
    (hnormal : NormalOutcome crypto s p a http) : http.Classified := by
  obtain ⟨n, envs, t, henvs, hrun, x, hx⟩ := h.returns
  obtain ⟨row, rfl, hpersists⟩ := hnormal.persists n envs t x henvs hrun hx
  rcases h.ends n envs t _ henvs hrun hx with ⟨-, e, ⟨⟩⟩ | ⟨row', heq, -, outcome, update, now,
    houtcome, hbind, rfl, -⟩
  cases heq
  have hstatus := status_update h.pending hbind now
  exact ⟨outcome, houtcome, hstatus ▸ hpersists.succeeded, hstatus ▸ hpersists.failed⟩

/-- **The outcome of the call is a normal one exactly if it is documented**: an exception of the
client, a status of 400 and above, or a 2xx whose JSON says `succeeded` or `failed`. -/
theorem outcome_classified_iff (hs : s.Reachable crypto) (ha : s.reserving? p = some a)
    (hothers : s.Lone p) (hstep : s.step crypto (.exec p env) = some t) (hfits : http.Fits) :
    NormalOutcome crypto t p a http ↔ http.Documented := by
  have hruns := hs.runsOut ha hothers hstep hfits
  rw [documented_iff]
  exact ⟨hruns.classified, hruns.normalOutcome⟩

/-- The pending attempt of a payment is about to be committed. -/
def reservingAlone : System :=
  (run (System.step sampleCrypto) .init (drafting ++ [.request (.finalize 0)] ++ Event.steps 2 5 ++
    [.request (.pay 0 "tok_visa" "k1")] ++ Event.steps 3 3)).get (by decide +kernel)

def reservedAlone : System := (reservingAlone.step sampleCrypto (.exec 3 {})).get
    (by decide +kernel)

theorem reservingAlone_reachable : reservingAlone.Reachable sampleCrypto :=
  reaches_of_run (Option.some_get _).symm

theorem exists_reservingAlone : ∃ a, reservingAlone.reserving? 3 = some a :=
  Option.isSome_iff_exists.mp (by decide +kernel)

theorem outcome_classified_reservedAlone :
    ∃ a, NormalOutcome sampleCrypto reservedAlone 3 a .timeout := by
  obtain ⟨a, ha⟩ := exists_reservingAlone
  have hfits : HttpResult.timeout.Fits := HttpResult.fits_of_toBool rfl (by decide +kernel)
  exact ⟨a, (outcome_classified_iff reservingAlone_reachable ha (by decide +kernel)
    (Option.some_get _).symm hfits).mpr trivial⟩

/-- A reply that says that the charge is still being processed. -/
def processingReply : HttpResult := .response 200 (some (.obj [("status", .str "processing")]))

theorem processingReply_fits : processingReply.Fits :=
  HttpResult.fits_of_toBool rfl (by decide +kernel)

theorem not_outcome_classified : ¬ ∀ (s t : System) (p : Pid) (a : PaymentAttempt) (env : Env)
    (http : HttpResult), s.Reachable sampleCrypto → s.reserving? p = some a → s.Lone p →
      s.step sampleCrypto (.exec p env) = some t → http.Fits →
        NormalOutcome sampleCrypto t p a http := by
  intro h
  obtain ⟨a, ha⟩ := exists_reservingAlone
  have hlone : reservingAlone.Lone 3 := by decide +kernel
  have hstep : reservingAlone.step sampleCrypto (.exec 3 {}) = some reservedAlone :=
    (Option.some_get _).symm
  have hnormal := h _ _ _ a _ _ reservingAlone_reachable ha hlone hstep processingReply_fits
  -- the attempt is recorded as declined, which the reply does not say
  have hdocumented := documented_iff.mpr
    ((reservingAlone_reachable.runsOut ha hlone hstep processingReply_fits).classified hnormal)
  rcases hdocumented with hcode | ⟨-, -, hstatus⟩ | ⟨-, -, hstatus⟩
  · exact absurd hcode (by decide)
  · exact absurd hstatus (by decide)
  · exact absurd hstatus (by decide)

end Runs

end TenantBilling
