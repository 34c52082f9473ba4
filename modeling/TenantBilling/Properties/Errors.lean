import TenantBilling.Properties.Money
import TenantBilling.Properties.Refused

/-!
# The causes of payment errors

`process_payment` tells two of its errors apart by the text of the integrity error that its
insert has been refused with: if it contains the name of the index on pending attempts, another
attempt is in progress, and otherwise an attempt under the same key has come first. The text
of the driver may contain more than the name of the violated constraint
(`TenantBilling.Violation.Describes`), and a third constraint can be violated.

* Why an insert is refused with an integrity error, and what is in the text
  (`TenantBilling.InsertRefused`).
* In a run all of whose inserts are made for a positive amount, and under keys that cannot be
  mistaken for the name of the index, every error has its cause
  (`TenantBilling.PayPoint.Justified`).
* An insert that does not meet the condition leads to an error without its cause
  (`TenantBilling.errors_justified`).
-/

namespace TenantBilling

open Base World

namespace Database

/-- There is an attempt on the invoice under the key. -/
def HasKey (db : Database) (i : Uuid) (key : String) : Prop :=
  ∃ a ∈ db.attempts, a.invoiceId = i ∧ a.idempotencyKey.text = key

/-- An attempt on the invoice under another key is pending. -/
def OtherPending (db : Database) (i : Uuid) (key : String) : Prop :=
  ∃ a ∈ db.attempts, a.invoiceId = i ∧ a.status = .pending ∧ a.idempotencyKey.text ≠ key

instance (db : Database) (i : Uuid) (key : String) : Decidable (db.HasKey i key) :=
  inferInstanceAs
    (Decidable (∃ a ∈ db.attempts.rows, a.invoiceId = i ∧ a.idempotencyKey.text = key))

instance (db : Database) (i : Uuid) (key : String) : Decidable (db.OtherPending i key) :=
  inferInstanceAs (Decidable (∃ a ∈ db.attempts.rows,
    a.invoiceId = i ∧ a.status = .pending ∧ a.idempotencyKey.text ≠ key))

end Database

/-- **The refusal of the insert would be read correctly**: the amount is positive, and a key
that contains the name of the index is met by no attempt under it, or another is pending. -/
def NewAttempt.Readable (db : Database) (new : NewAttempt) : Prop :=
  0 < new.amountCents.val ∧ (occursIn onePendingMarker new.idempotencyKey →
    db.HasKey new.invoiceId new.idempotencyKey → db.OtherPending new.invoiceId new.idempotencyKey)

instance (db : Database) (new : NewAttempt) : Decidable (new.Readable db) :=
  inferInstanceAs (Decidable (_ ∧ (_ → _ → _)))

/-- The statement is no insert of an attempt, or one with the property. -/
def Stmt.InsertsIf (P : NewAttempt → Prop) : Option Stmt → Prop
  | some (.insertAttempt new) => P new
  | _ => True

instance (P : NewAttempt → Prop) [DecidablePred P] :
    DecidablePred (Stmt.InsertsIf P) := fun st => by
  unfold Stmt.InsertsIf
  split <;> infer_instance

/-- The insert of the payment of a session is executed only when it is readable. -/
def ReadsRefusal (p : Pid) (s : System) : Event → Prop
  | .exec q _ => q = p → Stmt.InsertsIf (·.Readable s.world.db) (s.next? q)
  | _ => True

instance (p : Pid) (s : System) : ∀ e, Decidable (ReadsRefusal p s e)
  | .exec q _ =>
    inferInstanceAs (Decidable (q = p → Stmt.InsertsIf (·.Readable s.world.db) (s.next? q)))
  | .start _ | .abort .. | .kill _ => inferInstanceAs (Decidable True)

theorem ReadsRefusal.exec {s : System} {p : Pid} {env : Env} {new : NewAttempt}
    (h : ReadsRefusal p s (.exec p env)) (hnext : s.next? p = some (.insertAttempt new)) :
    new.Readable s.world.db := by
  have hinserts : Stmt.InsertsIf (·.Readable s.world.db) (s.next? p) := h rfl
  rw [hnext] at hinserts
  exact hinserts

/-- **Why an insert is refused with an integrity error**, and what its text tells. -/
inductive InsertRefused (db : Database) (new : NewAttempt) (errorMsg : String) : Prop where
  | check (h : ¬0 < new.amountCents.val)
  | key (hpos : 0 < new.amountCents.val) (hkey : db.HasKey new.invoiceId new.idempotencyKey)
    (htext : occursIn onePendingMarker errorMsg ↔ occursIn onePendingMarker new.idempotencyKey)
  | pending (hpos : 0 < new.amountCents.val) (hkey : ¬db.HasKey new.invoiceId new.idempotencyKey)
    (hpending : db.OtherPending new.invoiceId new.idempotencyKey)
    (htext : occursIn onePendingMarker errorMsg)

section Refused

variable {w w' : World} {p : Pid} {env : Env} {new : NewAttempt} {errorMsg : String}

/-- The name of the index is not part of a UUID. -/
theorem not_occursIn_uuid (u : Uuid) : ¬occursIn onePendingMarker (Uuid.str u) := by
  intro h
  have hmem : '_' ∈ (Uuid.str u).toList := h.subset (by decide)
  have hdigit : ∀ n < 16, hexDigit n ≠ '_' := by decide
  simp only [Uuid.str, String.toList_ofList, List.mem_flatMap] at hmem
  obtain ⟨i, -, hi⟩ := hmem
  split at hi
  · rcases List.mem_cons.mp hi with hi | hi
    · cases hi
    · exact hdigit _ (Nat.mod_lt _ (by decide)) (List.mem_singleton.mp hi).symm
  · exact hdigit _ (Nat.mod_lt _ (by decide)) (List.mem_singleton.mp hi).symm

/-- The text of an integrity error describes the violation that raised it. -/
theorem violate_integrity {α : Type} {v : Violation}
    (h : w.violate p env v = some ((.error (.integrity errorMsg) : Except DbError α), w')) :
    v.Describes errorMsg := by
  obtain ⟨hdescribes, hx⟩ := violate_eq_some h
  obtain ⟨herror, -⟩ := Prod.mk.inj hx
  rw [DbError.integrity.inj (Except.error.inj herror)]
  exact hdescribes

theorem NewAttempt.not_pos_of_check {id : Uuid} {now : Timestamp} {constraint : String}
    {row : List String} (h : new.row id now = .error (.check constraint row)) :
    ¬0 < new.amountCents.val := by
  unfold NewAttempt.row at h
  split at h
  case h_1 =>
    split at h
    case isTrue => cases h
    case isFalse hpos => exact hpos
  case h_2 => cases h

/-- An attempt with a positive amount and texts that can be stored has a row. -/
theorem NewAttempt.exists_row (hkey : Varchar.Stores 255 new.idempotencyKey)
    (htoken : Varchar.Stores 100 new.cardToken) (hpos : 0 < new.amountCents.val) (id : Uuid)
    (now : Timestamp) :
    ∃ row, new.row id now = .ok row := by
  obtain ⟨key, hkey, -⟩ := Varchar.exists_ofString? hkey
  obtain ⟨token, htoken, -⟩ := Varchar.exists_ofString? htoken
  simp [NewAttempt.row, hkey, htoken, hpos]

/-- An attempt without a positive amount violates the check of its table. -/
theorem NewAttempt.row_of_not_pos (hkey : Varchar.Stores 255 new.idempotencyKey)
    (htoken : Varchar.Stores 100 new.cardToken) (hpos : ¬0 < new.amountCents.val) {id : Uuid}
    {now : Timestamp} :
    new.row id now =
      .error (.check "ck_payment_attempts_amount_pos" [new.idempotencyKey, new.cardToken]) := by
  obtain ⟨key, hkey, -⟩ := Varchar.exists_ofString? hkey
  obtain ⟨token, htoken, -⟩ := Varchar.exists_ofString? htoken
  simp [NewAttempt.row, hkey, htoken, hpos]

/-- **The refusals of an insert** of a session that sees the committed rows, on an invoice that
exists. -/
theorem insertRefused
    (hexec : w.exec p env (.insertAttempt new) = some (.error (.integrity errorMsg), w'))
    (hview : w.view p = w.db) (hinvoice : w.db.invoices.find? new.invoiceId ≠ none) :
    InsertRefused w.db new errorMsg := by
  have hinsert : w.insertAttempt p env new = some (.error (.integrity errorMsg), w') :=
    (exec_eq_some.mp hexec).2
  unfold World.insertAttempt at hinsert
  split at hinsert
  case h_1 err hrow =>
    -- the row cannot be built, and the error tells why
    cases err with
    | unstorable texts =>
      obtain ⟨herror, -⟩ := Prod.mk.inj (Option.some.inj hinsert)
      exact absurd (Except.error.inj herror) textError_ne_integrity
    | outOfRange => cases hinsert
    | check constraint row => exact .check (NewAttempt.not_pos_of_check hrow)
  case h_2 row hrow =>
    obtain ⟨-, hi, -⟩ := NewAttempt.row_fields hrow
    have hkey := NewAttempt.row_idempotencyKey hrow
    have hpos : 0 < new.amountCents.val := NewAttempt.row_amountCents hrow ▸ row.amountPos
    have hsame : (w.view p).attempts.rows.any (row.sameKey ·) = true ↔
        w.db.HasKey new.invoiceId new.idempotencyKey := by
      rw [hview, List.any_eq_true]
      simp only [PaymentAttempt.sameKey, Bool.and_eq_true, decide_eq_true_eq, Varchar.ext_iff, hi,
        hkey]
      constructor
      · rintro ⟨a, ha, hinv, htext⟩
        exact ⟨a, ha, hinv.symm, htext.symm⟩
      · rintro ⟨a, ha, hinv, htext⟩
        exact ⟨a, ha, hinv.symm, htext.symm⟩
    split at hinsert
    case isTrue hany =>
      obtain ⟨-, hquoted, hmarker⟩ := violate_integrity hinsert
      refine .key hpos (hsame.mp hany) ⟨fun h => ?_, fun h => ?_⟩
      · -- the marker is in the key, for it is in nothing else that is quoted
        rcases hmarker h with h | ⟨x, hx, h⟩
        · exact absurd h (show ¬occursIn onePendingMarker "uq_payment_attempts_invoice_idem_key" by
            decide +kernel)
        · simp only [PaymentAttempt.keyViolation, List.append_nil, List.mem_cons, List.not_mem_nil,
            or_false] at hx
          rcases hx with rfl | rfl
          · exact absurd h (not_occursIn_uuid _)
          · rwa [← hkey]
      · have hx := hquoted row.idempotencyKey.text (by simp [PaymentAttempt.keyViolation])
        exact List.IsInfix.trans (hkey ▸ h) hx
    case isFalse hany =>
      have hnone := mt hsame.mpr hany
      split at hinsert
      case isTrue hpending =>
        obtain ⟨hconstraint, -, -⟩ := violate_integrity hinsert
        have hmarker : occursIn onePendingMarker "uq_payment_attempts_one_pending_per_invoice" := by
          decide +kernel
        refine .pending hpos hnone ?_ (List.IsInfix.trans hmarker hconstraint)
        rw [hview, List.any_eq_true] at hpending
        obtain ⟨a, ha, hpending⟩ := hpending
        simp only [PaymentAttempt.samePending, Bool.and_eq_true, decide_eq_true_eq] at hpending
        obtain ⟨⟨hinv, -⟩, hstatus⟩ := hpending
        refine ⟨a, ha, hinv.symm.trans hi, hstatus, fun htext => hnone ?_⟩
        exact ⟨a, ha, hinv.symm.trans hi, htext⟩
      case isFalse =>
        split at hinsert
        case isTrue hfree =>
          rw [hview, hi] at hfree
          exact absurd (Table.free_iff.mp hfree) hinvoice
        case isFalse =>
          split at hinsert
          · cases hinsert
          · cases hinsert

end Refused

/-! ### Justified errors -/

/-- An error of a payment has its cause: an attempt under the same key with another body in the
database, or one of the two given for the others. -/
structure Justified (crypto : Crypto) (db : Database) (c : PayCall) (pending absent : Prop)
    (x : Except Exc Result) : Prop where
  conflict : x = .error (.app .idempotencyConflict) → ∃ a ∈ db.attempts,
    a.invoiceId = c.invoiceId ∧ a.idempotencyKey.text = c.idempotencyKey ∧
      a.requestHash ≠ c.requestHash crypto
  inProgress : x = .error otherInProgress → pending
  notFound : ∀ resource id, x = .error (.app (.notFound resource id)) → absent

/-- The attempt that a payment inserts. -/
def PayCall.newAttempt (crypto : Crypto) (c : PayCall) (v : Invoice) : NewAttempt :=
  TenantBilling.newAttempt crypto v c.invoiceId c.cardToken c.idempotencyKey

/-- What is known of the cause at a point of a payment. -/
def PayPoint.Justified (crypto : Crypto) (db : Database) (c : PayCall) (pending absent : Prop) :
    PayPoint → Prop
  | undo errorMsg => (occursIn onePendingMarker errorMsg → pending) ∧
      (¬occursIn onePendingMarker errorMsg → db.HasKey c.invoiceId c.idempotencyKey)
  | relookup => db.HasKey c.invoiceId c.idempotencyKey
  | closing x _ | done x _ => TenantBilling.Justified crypto db c pending absent x
  | _ => True

section Justified

variable {crypto : Crypto} {s t u : System} {φ φ' : Pid → Phase} {e : Event} {p : Pid} {c : PayCall}
  {db db' : Database} {pending absent pending' absent' : Prop}

theorem Database.HasKey.follows {i : Uuid} {key : String} (h : db.HasKey i key)
    (hdb : ∀ a ∈ db.attempts, ∃ b ∈ db'.attempts, a.Follows b) : db'.HasKey i key := by
  obtain ⟨a, ha, hi, hkey⟩ := h
  obtain ⟨b, hb, hab⟩ := hdb a ha
  exact ⟨b, hb, hab.invoiceId.trans hi, (congrArg Varchar.text hab.idempotencyKey).trans hkey⟩

/-- An error that has its cause keeps it in a later database. -/
theorem Justified.imp {x : Except Exc Result} (h : Justified crypto db c pending absent x)
    (hdb : ∀ a ∈ db.attempts, ∃ b ∈ db'.attempts, a.Follows b) (hpending : pending → pending')
    (habsent : absent → absent') : Justified crypto db' c pending' absent' x := by
  refine ⟨fun hx => ?_, fun hx => hpending (h.inProgress hx),
    fun resource id hx => habsent (h.notFound resource id hx)⟩
  obtain ⟨a, ha, hi, hkey, hhash⟩ := h.conflict hx
  obtain ⟨b, hb, hab⟩ := hdb a ha
  exact ⟨b, hb, hab.invoiceId.trans hi, (congrArg Varchar.text hab.idempotencyKey).trans hkey,
    hab.requestHash ▸ hhash⟩

theorem PayPoint.Justified.imp {pt : PayPoint} (h : pt.Justified crypto db c pending absent)
    (hdb : ∀ a ∈ db.attempts, ∃ b ∈ db'.attempts, a.Follows b) (hpending : pending → pending')
    (habsent : absent → absent') : pt.Justified crypto db' c pending' absent' := by
  cases pt with
  | undo errorMsg => exact ⟨fun hm => hpending (h.1 hm), fun hm => (h.2 hm).follows hdb⟩
  | relookup => exact Database.HasKey.follows h hdb
  | closing x g => exact TenantBilling.Justified.imp h hdb hpending habsent
  | done x g => exact TenantBilling.Justified.imp h hdb hpending habsent
  | _ => trivial

/-- An error of another kind needs no cause. -/
theorem justified_of_ne {x : Except Exc Result} (hconflict : x ≠ .error (.app .idempotencyConflict))
    (hprogress : x ≠ .error otherInProgress)
    (hfound : ∀ resource id, x ≠ .error (.app (.notFound resource id))) :
    Justified crypto db c pending absent x :=
  ⟨fun hx => absurd hx hconflict, fun hx => absurd hx hprogress,
    fun resource id hx => absurd hx (hfound resource id)⟩

/-- The client of the provider raises no error of the service. -/
theorem chargeResult_error {http : HttpResult} {err : Exc} (h : chargeResult http = .error err) :
    ∀ appError, err ≠ .app appError := by
  rintro appError rfl
  exact chargeResult_not_refusal h trivial

/-- **A step of a payment keeps its errors justified**, if its insert meets the condition. -/
theorem PayPoint.Justified.step {pt : PayPoint} {st : Stmt} {next : st.Resp → PayPoint}
    {r : st.Resp} {w' : World} (h : s.Sound crypto φ) (hp : s.Alive p) (hph : φ p = .pay c pt)
    (hout : pt.out crypto c = .op st next) (hans : s.Answered p st r w' e)
    (hinsert : ∀ v env, e = .exec p env → st = .insertAttempt (c.newAttempt crypto v) →
      (c.newAttempt crypto v).Readable s.world.db ∧
        (s.world.db.OtherPending c.invoiceId c.idempotencyKey → pending))
    (hlock : ∀ env, e = .exec p env → st = .lockInvoice c.invoiceId (some c.business.id) →
      ¬s.world.db.HasInvoice c.business.id c.invoiceId → absent)
    (hJ : pt.Justified crypto s.world.db c pending absent) :
    (next r).Justified crypto s.world.db c pending absent := by
  -- an error of another class needs no cause
  have hother : ∀ {x : Except Exc Result} {g : Progress}, (∀ appError, x ≠ .error (.app appError)) →
      (closing x g).Justified crypto s.world.db c pending absent := by
    intro x g hx
    exact justified_of_ne (hx _) (hx _) fun resource id => hx _
  -- nor does a refused transition, which says so in other words
  have hstate : ∀ {state : InvoiceState} {err : AppError} {g : Progress},
      assertTransitionAllowed state .paid = .error err →
        (closing (.error (.app err)) g).Justified crypto s.world.db c pending absent := by
    intro state err g herr
    obtain ⟨reason, rfl⟩ := assertTransitionAllowed_eq_error herr
    refine justified_of_ne (by simp) (fun hx => ?_) (by simp)
    cases state with
    | «open» => cases herr
    | _ => simp [otherInProgress, InvoiceState.value] at hx
  have hkeyed : s.world.db.Keyed := h.keys
  have hholds := h.alive p hp
  rw [hph] at hholds
  cases pt with
  | lookup =>
    cases hout
    obtain ⟨⟨env, hr⟩, -⟩ := answers_select hans.answers
    rw [World.Idle.view hholds] at hr
    rcases r with _ | a
    · trivial
    · obtain ⟨ha, hi, hkey⟩ := (Database.attemptByKey_eq_some hkeyed).mp hr.symm
      dsimp only
      split
      case isTrue hhash =>
        exact ⟨fun _ => ⟨a, ha, hi, hkey, hhash⟩, (by rintro ⟨⟩), by rintro _ _ ⟨⟩⟩
      case isFalse => exact hother (by simp)
  | lock =>
    cases hout
    have hanswer := answers_lockInvoice hans.answers
    rcases r with err | _ | v
    · exact hother (by simp)
    · obtain ⟨env, rfl⟩ : ∃ env, e = .exec p env := by
        cases hans with
        | exec env hexec => exact ⟨env, rfl⟩
        | abort cycle hcycle hfail => cases hfail
      refine ⟨(by rintro ⟨⟩), (by rintro ⟨⟩), fun _ _ _ => hlock env rfl rfl ?_⟩
      rintro ⟨v, hv, hb⟩
      have hnot := hanswer.2 v <|
        (congrArg (·.invoices.find? c.invoiceId) (World.Idle.view hholds)).trans hv
      simp [Invoice.belongsTo, hb] at hnot
    · dsimp only
      split
      case h_1 err herr => exact hstate herr
      case h_2 => trivial
  | insert v =>
    cases hout
    rcases r with err | a
    · cases err with
      | integrity text =>
        obtain ⟨htx, -, hfind⟩ := hholds
        cases hans with
        | abort cycle hcycle hfail => cases hfail
        | exec env hexec =>
          obtain ⟨hreadable, hpending⟩ := hinsert v env rfl rfl
          -- what the marker in the text says depends on which constraint has refused the row
          cases insertRefused hexec htx.view (by rw [newAttempt, hfind]; simp) with
          | check hpos => exact absurd hreadable.1 hpos
          | key hpos hkey htext =>
            exact ⟨fun hm => hpending (hreadable.2 (htext.mp hm) hkey), fun _ => hkey⟩
          | pending hpos hkey hother htext =>
            exact ⟨fun _ => hpending hother, fun hm => absurd htext hm⟩
      | _ => exact hother (by simp)
    · trivial
  | undo text =>
    cases hout
    dsimp only
    split
    case isTrue hm =>
      exact ⟨(by rintro ⟨⟩), fun _ => hJ.1 hm, by rintro _ _ ⟨⟩⟩
    case isFalse hm => exact hJ.2 hm
  | relookup =>
    cases hout
    obtain ⟨⟨env, hr⟩, -⟩ := answers_select hans.answers
    rw [World.Idle.view hholds] at hr
    obtain ⟨a, ha, hi, hkey⟩ := hJ
    -- the attempt that has refused the insert is found under the key
    have hfound : r = some a := hr.trans ((Database.attemptByKey_eq_some hkeyed).mpr ⟨ha, hi, hkey⟩)
    subst hfound
    dsimp only
    split
    case isTrue => exact hother (by simp)
    case isFalse hhash =>
      exact ⟨fun _ => ⟨a, ha, hi, hkey, hhash⟩, (by rintro ⟨⟩), by rintro _ _ ⟨⟩⟩
  | receive v a =>
    cases hout
    dsimp only
    split
    · trivial
    · trivial
    case h_3 err hne hresult =>
      exact hother fun appError herr => chargeResult_error hresult appError (Except.error.inj herr)
  | relock v a http result =>
    cases hout
    rcases r with err | _ | row
    · exact hother (by simp)
    · exact hother (by simp)
    · dsimp only
      split
      case h_1 err herr => exact hstate herr
      case h_2 => trivial
  | record v a http outcome =>
    cases hout
    rcases r with err | _
    · exact hother (by simp)
    · dsimp only
      unfold recorded
      split
      · trivial
      · split <;> trivial
  | closing x g => cases hout; exact hJ
  | done x g => cases hout
  | refetch | markPaid | listEndpoints | outbox | refresh =>
    cases hout
    dsimp only
    split
    all_goals first | trivial | exact hother (by simp)
  | _ => cases hout; trivial

theorem PayPoint.justified_start (c : PayCall) (db : Database) (pending absent : Prop) :
    (PayPoint.start c).Justified crypto db c pending absent := by
  unfold PayPoint.start
  split
  · exact justified_of_ne (by simp) (by simp [otherInProgress]) (by simp)
  · trivial

/-- **A move keeps the errors of a payment justified**, if its insert meets the condition. -/
theorem PayPoint.Justified.move {pt : PayPoint} (h : s.Sound crypto φ)
    (hmove : s.Moves crypto φ e t φ') (hph : φ p = .pay c pt)
    (hinsert : ∀ v env, e = .exec p env →
      s.next? p = some (.insertAttempt (c.newAttempt crypto v)) →
      (c.newAttempt crypto v).Readable s.world.db ∧
        (s.world.db.OtherPending c.invoiceId c.idempotencyKey → pending))
    (hlock : ∀ env, e = .exec p env →
      s.next? p = some (.lockInvoice c.invoiceId (some c.business.id)) →
      ¬s.world.db.HasInvoice c.business.id c.invoiceId → absent)
    (hJ : pt.Justified crypto s.world.db c pending absent) :
    ∃ pt', φ' p = .pay c pt' ∧ pt'.Justified crypto t.world.db c pending absent := by
  have hdb : ∀ a ∈ s.world.db.attempts, ∃ b ∈ t.world.db.attempts, a.Follows b :=
    fun a ha => h.follows hmove ha
  obtain ⟨pt', hph', rfl | ⟨st, next, r, hout, hp, hnext, hans, rfl⟩⟩ := hmove.point h hph
  · exact ⟨pt', hph', hJ.imp hdb id id⟩
  · refine ⟨next r, hph', (hJ.step h hp hph hout hans ?_ ?_).imp hdb id id⟩
    · rintro v env rfl rfl
      exact hinsert v env rfl hnext
    · rintro env rfl rfl
      exact hlock env rfl hnext

/-- The insert is past. -/
def PayPoint.Inserted : PayPoint → Prop
  | lookup | lock | insert _ => False
  | _ => True

/-- A payment that has executed its insert does not come to another. -/
theorem PayPoint.Inserted.step {pt : PayPoint} {st : Stmt} {next : st.Resp → PayPoint} {r : st.Resp}
    (h : pt.Inserted ∨ ∃ v, pt = .insert v) (hout : pt.out crypto c = .op st next) :
    (next r).Inserted := by
  rcases h with h | ⟨v, rfl⟩
  · cases pt with
    | lookup | lock | insert => exact h.elim
    | _ =>
      cases hout <;> dsimp only [recorded] <;> repeat' split
      all_goals trivial
  · cases hout
    dsimp only
    split <;> trivial

/-- Neither of the statements that look for a cause is left. -/
theorem PayPoint.Inserted.next? (h : s.Sound crypto φ) {pt : PayPoint} (hph : φ p = .pay c pt)
    (hpt : pt.Inserted) {st : Stmt} (hnext : s.next? p = some st) :
    (∀ new, st ≠ .insertAttempt new) ∧ st ≠ .lockInvoice c.invoiceId (some c.business.id) := by
  obtain ⟨next, hout⟩ := h.out_pay hnext hph
  cases pt with
  | lookup | lock | insert => exact hpt.elim
  | _ =>
    cases hout <;> exact ⟨by rintro _ ⟨⟩, by rintro ⟨⟩⟩

/-! ### Misread errors -/

/-- What a payment makes of the text of an integrity error, if no attempt under the key is
found. -/
def misread (errorMsg : String) : Except Exc Result :=
  if occursIn onePendingMarker errorMsg then .error otherInProgress
  else .error (.app .idempotencyConflict)

/-- The payment is at the branch taken on an integrity error, or has passed it. -/
def PayPoint.Misled (errorMsg : String) (pt : PayPoint) : Prop :=
  pt = .undo errorMsg ∨ ¬occursIn onePendingMarker errorMsg ∧ pt = .relookup ∨
    ∃ g, pt = .closing (misread errorMsg) g ∨ pt = .done (misread errorMsg) g

/-- A payment that has misread its refusal goes on to an error without a cause. -/
theorem PayPoint.Misled.step {pt : PayPoint} {st : Stmt} {next : st.Resp → PayPoint}
    {r : st.Resp} {w w' : World} {errorMsg : String} (hholds : pt.Holds crypto w p c)
    (hout : pt.out crypto c = .op st next) (hans : w.Answers p st r w')
    (hnone : ¬occursIn onePendingMarker errorMsg →
      w.db.attemptByKey c.invoiceId c.idempotencyKey = none)
    (h : pt.Misled errorMsg) : (next r).Misled errorMsg := by
  rcases h with rfl | ⟨hm, rfl⟩ | ⟨g, rfl | rfl⟩
  · cases hout
    dsimp only
    split
    case isTrue hm =>
      refine Or.inr (Or.inr ⟨.nothing, Or.inl ?_⟩)
      rw [misread, if_pos hm]
    case isFalse hm => exact Or.inr (Or.inl ⟨hm, rfl⟩)
  · cases hout
    obtain ⟨⟨env, hr⟩, -⟩ := answers_select hans
    rw [World.Idle.view hholds] at hr
    have hnothing : r = none := hr.trans (hnone hm)
    subst hnothing
    refine Or.inr (Or.inr ⟨.nothing, Or.inl ?_⟩)
    rw [misread, if_neg hm]
  · cases hout
    exact Or.inr (Or.inr ⟨g, Or.inr rfl⟩)
  · cases hout

/-- **An insert that does not meet the condition is refused**, and the refusal is misread. -/
theorem exec_insertAttempt_unreadable {w w' : World} {env : Env} {new : NewAttempt}
    {r : Except DbError PaymentAttempt} (hexec : w.exec p env (.insertAttempt new) = some (r, w'))
    (hview : w.view p = w.db) (hkey : Varchar.Stores 255 new.idempotencyKey)
    (htoken : Varchar.Stores 100 new.cardToken) (hnot : ¬new.Readable w.db) :
    ∃ errorMsg, r = .error (.integrity errorMsg) ∧ (¬0 < new.amountCents.val ∨
      occursIn onePendingMarker errorMsg ∧
        ¬w.db.OtherPending new.invoiceId new.idempotencyKey) := by
  have hinsert : w.insertAttempt p env new = some (r, w') := (exec_eq_some.mp hexec).2
  unfold World.insertAttempt at hinsert
  by_cases hpos : 0 < new.amountCents.val
  · -- the key is met by an attempt, and contains the name of the other index
    have hmeets : occursIn onePendingMarker new.idempotencyKey ∧
        w.db.HasKey new.invoiceId new.idempotencyKey ∧
          ¬w.db.OtherPending new.invoiceId new.idempotencyKey := by
      by_contra hcon
      exact hnot ⟨hpos, fun hm hhas => by_contra fun hother => hcon ⟨hm, hhas, hother⟩⟩
    obtain ⟨hmarker, ⟨a, ha, hi, htext⟩, hother⟩ := hmeets
    obtain ⟨row, hrow⟩ := NewAttempt.exists_row hkey htoken hpos (env.ids 0) env.now
    have hrowKey := NewAttempt.row_idempotencyKey hrow
    have hany : (w.view p).attempts.rows.any (row.sameKey ·) = true := by
      rw [hview, List.any_eq_true]
      refine ⟨a, ha, ?_⟩
      simp [PaymentAttempt.sameKey, Varchar.ext_iff, (NewAttempt.row_fields hrow).2.1, hi, htext,
        hrowKey]
    simp only [hrow, hany, if_true] at hinsert
    obtain ⟨⟨-, hquoted, -⟩, hx⟩ := violate_eq_some hinsert
    refine ⟨env.errorText, congrArg Prod.fst hx, Or.inr ⟨?_, hother⟩⟩
    have hquoted := hquoted row.idempotencyKey.text (by simp [PaymentAttempt.keyViolation])
    exact List.IsInfix.trans (hrowKey ▸ hmarker) hquoted
  · rw [NewAttempt.row_of_not_pos hkey htoken hpos] at hinsert
    obtain ⟨-, hx⟩ := violate_eq_some hinsert
    exact ⟨env.errorText, congrArg Prod.fst hx, Or.inl hpos⟩

/-! ### Runs -/

/-- On the way to the state the session has executed such a statement, on such a database. -/
def System.Passed (crypto : Crypto) (C : System → Event → Prop) (u : System) (p : Pid)
    (Q : Stmt → Database → Prop) : Prop :=
  ∃ s t st env, Reaches (System.step crypto) C .init s ∧ s.next? p = some st ∧ Q st s.world.db ∧
    C s (.exec p env) ∧ s.step crypto (.exec p env) = some t ∧ Reaches (System.step crypto) C t u

theorem System.Passed.tail {C : System → Event → Prop} {Q : Stmt → Database → Prop}
    (h : u.Passed crypto C p Q) (hC : C u e) (hstep : u.step crypto e = some t) :
    t.Passed crypto C p Q := by
  obtain ⟨s, v, st, env, hs, hnext, hQ, hexec, hv, hreach⟩ := h
  exact ⟨s, v, st, env, hs, hnext, hQ, hexec, hv, hreach.tail ⟨e, hC, hstep⟩⟩

/-- The insert of a payment, while another attempt is pending. -/
def PayCall.MeetsOther (c : PayCall) (st : Stmt) (db : Database) : Prop :=
  (∃ new, st = .insertAttempt new) ∧ db.OtherPending c.invoiceId c.idempotencyKey

/-- The lookup of the invoice of a payment, when the business has none. -/
def PayCall.MeetsNone (c : PayCall) (st : Stmt) (db : Database) : Prop :=
  st = .lockInvoice c.invoiceId (some c.business.id) ∧ ¬db.HasInvoice c.business.id c.invoiceId

/-- In a run that meets the condition errors have their causes. -/
theorem justified_of_readable (hu : Reaches (System.step crypto) (ReadsRefusal p) .init u)
    {x : Except Exc Result} (hc : u.payCall? p = some c) (hx : u.returned? p = some x) :
    Justified crypto u.world.db c (u.Passed crypto (ReadsRefusal p) p c.MeetsOther)
      (u.Passed crypto (ReadsRefusal p) p c.MeetsNone) x := by
  obtain ⟨φ, h, -, hJ⟩ := System.Sound.reaches
    (I := fun v φ => Reaches (System.step crypto) (ReadsRefusal p) .init v ∧
      ∀ pt, φ p = .pay c pt → pt.Justified crypto v.world.db c
        (v.Passed crypto (ReadsRefusal p) p c.MeetsOther)
          (v.Passed crypto (ReadsRefusal p) p c.MeetsNone))
    hu System.sound_init ⟨.refl, fun pt hpt => by cases hpt⟩ <| by
      rintro s φ e t φ' h ⟨hs, hJ⟩ hC hstep hmove -
      refine ⟨hs.tail ⟨e, hC, hstep⟩, fun pt hpt => ?_⟩
      rcases hmove.pay_or hpt with ⟨-, rfl⟩ | ⟨pt₀, hpt₀⟩
      · exact PayPoint.justified_start ..
      have hold := (hJ pt₀ hpt₀).imp (fun a ha => ⟨a, ha, .refl a⟩)
        (System.Passed.tail · hC hstep) (System.Passed.tail · hC hstep)
      obtain ⟨pt', hpt', hnew⟩ := hold.move h hmove hpt₀
        (by
          rintro v env rfl hnext
          refine ⟨hC.exec hnext, fun hother => ?_⟩
          exact ⟨s, t, _, env, hs, hnext, ⟨⟨_, rfl⟩, hother⟩, hC, hstep, .refl⟩)
        (by
          rintro env rfl hnext habsent
          exact ⟨s, t, _, env, hs, hnext, ⟨rfl, habsent⟩, hC, hstep, .refl⟩)
      obtain ⟨-, rfl⟩ := Phase.pay.inj (hpt.symm.trans hpt')
      exact hnew
  obtain ⟨pt, hph⟩ := h.payCall?_eq_some.mp hc
  obtain ⟨g, rfl⟩ := h.done_of_returned hx hph
  exact hJ _ hph

/-- The attempts on an invoice that has no positive total. -/
theorem System.Reachable.no_attempts (hs : s.Reachable crypto) {i : Uuid} {total : BigInt}
    (htotal : s.world.db.totalOf i = some total) (hpos : ¬0 < total.val) :
    ∀ a ∈ s.world.db.attempts, a.invoiceId ≠ i := by
  rintro a ha rfl
  have hamount := (Database.Balanced.of_reachable hs).attempt a ha
  rw [htotal] at hamount
  exact hpos (Option.some.inj hamount ▸ a.amountPos)

/-- **The condition is exact**: what a payment returns after its insert has been executed has its
cause if and only if the insert has met the condition. -/
theorem justified_iff_readable (hs : s.Reachable crypto) (hc : s.payCall? p = some c)
    (hkey : Varchar.Stores 255 c.idempotencyKey) (htoken : Varchar.Stores 100 c.cardToken)
    {new : NewAttempt} {env : Env} (hnext : s.next? p = some (.insertAttempt new))
    (hstep : s.step crypto (.exec p env) = some t)
    (hreach : Reaches (System.step crypto) Always t u)
    {x : Except Exc Result} (hx : u.returned? p = some x) :
    Justified crypto u.world.db c (s.world.db.OtherPending c.invoiceId c.idempotencyKey) False x ↔
      new.Readable s.world.db := by
  obtain ⟨φ, h⟩ := hs.sound
  obtain ⟨pt, hph⟩ := h.payCall?_eq_some.mp hc
  obtain ⟨next, hout⟩ := h.out_pay hnext hph
  have hholds := h.alive p (System.alive_of_next? hnext)
  rw [hph] at hholds
  obtain ⟨v, rfl⟩ : ∃ v, pt = .insert v := by
    cases pt with
    | insert v => exact ⟨v, rfl⟩
    | _ => cases hout
  obtain ⟨htx, -, hfind⟩ := hholds
  obtain ⟨φ', hmove⟩ := System.moves_of_step h.tracks hstep
  obtain ⟨st', next', r, hout', hexec, hph'⟩ := hmove.point_exec hph
  cases hout
  cases hout'
  have ht := h.move hmove
  constructor
  · intro hJ
    by_contra hnot
    obtain ⟨errorMsg, rfl, hcause⟩ := exec_insertAttempt_unreadable hexec htx.view hkey htoken hnot
    have htotal : s.world.db.totalOf c.invoiceId = some v.totalCents := congrArg _ hfind
    have hnone : ∀ v', s.Reachable crypto → Reaches (System.step crypto) Always s v' →
        ¬0 < v.totalCents.val → ∀ a ∈ v'.world.db.attempts, a.invoiceId ≠ c.invoiceId :=
      fun v' hs hv' hpos => System.Reachable.no_attempts (hs.trans hv') (hs.totalOf hv' htotal) hpos
    have hst : StepIf (System.step crypto) Always s t := ⟨_, trivial, hstep⟩
    obtain ⟨ψ, hu, -, pt, hpt, hmisled⟩ := System.Sound.reaches
      (I := fun u ψ => Reaches (System.step crypto) Always s u ∧
        ∃ pt, ψ p = .pay c pt ∧ pt.Misled errorMsg)
      hreach ht ⟨.single hst, _, hph', Or.inl rfl⟩ <| by
        rintro u ψ e v' ψ' hu ⟨hsu, pt, hpt, hmisled⟩ - hstep' hmove' -
        refine ⟨hsu.tail ⟨e, trivial, hstep'⟩, ?_⟩
        obtain ⟨pt', hpt', rfl | ⟨st, next, r, hout, hp, -, hans, rfl⟩⟩ := hmove'.point hu hpt
        · exact ⟨pt', hpt', hmisled⟩
        · have hholds := hu.alive p hp
          rw [hpt] at hholds
          refine ⟨_, hpt', hmisled.step hholds hout hans.answers fun hm => ?_⟩
          refine List.find?_eq_none.mpr fun a ha => ?_
          have hne := hnone u hs hsu (hcause.resolve_right fun hother => hm hother.1) a ha
          simp [hne]
    obtain ⟨g, rfl⟩ := hu.done_of_returned hx hpt
    have hx' : x = misread errorMsg := by
      rcases hmisled with hpt | ⟨-, hpt⟩ | ⟨g', hpt | hpt⟩ <;> cases hpt
      rfl
    -- the error has no cause
    by_cases hm : occursIn onePendingMarker errorMsg
    · rw [misread, if_pos hm] at hx'
      obtain ⟨b, hb, hi, -⟩ := hJ.inProgress hx'
      rcases hcause with hpos | ⟨-, hother⟩
      · exact hnone s hs .refl hpos b hb hi
      · exact hother (hJ.inProgress hx')
    · rw [misread, if_neg hm] at hx'
      obtain ⟨b, hb, hi, -⟩ := hJ.conflict hx'
      exact hnone u hs ((Relation.ReflTransGen.single hst).trans hreach)
        (hcause.resolve_right fun hother => hm hother.1) b hb hi
  · intro hreadable
    have hnothing : (PayPoint.insert v).Justified crypto s.world.db c
        (s.world.db.OtherPending c.invoiceId c.idempotencyKey) False := trivial
    obtain ⟨pt, hpt, hJ⟩ := hnothing.move h hmove hph
      (by
        rintro v' env - hnext'
        rw [hnext] at hnext'
        rw [← Stmt.insertAttempt.inj (Option.some.inj hnext')]
        exact ⟨hreadable, id⟩)
      (by
        rintro env - hnext'
        rw [hnext] at hnext'
        cases hnext')
    obtain ⟨-, rfl⟩ := Phase.pay.inj (hph'.symm.trans hpt)
    have hout : (PayPoint.insert v).out crypto c = .op _ _ := rfl
    have hinserted := PayPoint.Inserted.step (r := r) (Or.inr ⟨v, rfl⟩) hout
    obtain ⟨ψ, hu, pt, hpt, -, hJ⟩ := System.Sound.reaches
      (I := fun u ψ => ∃ pt, ψ p = .pay c pt ∧ pt.Inserted ∧ pt.Justified crypto u.world.db c
        (s.world.db.OtherPending c.invoiceId c.idempotencyKey) False)
      hreach ht ⟨_, hph', hinserted, hJ⟩ <| by
        rintro u ψ e v' ψ' hu ⟨pt, hpt, hins, hJ⟩ - - hmove' -
        obtain ⟨pt', hpt', hJ'⟩ := hJ.move hu hmove' hpt
          (by
            rintro v' env rfl hnext'
            exact absurd rfl ((hins.next? hu hpt hnext').1 _))
          (by
            rintro env rfl hnext'
            exact absurd rfl (hins.next? hu hpt hnext').2)
        refine ⟨pt', hpt', ?_, hJ'⟩
        obtain ⟨pt'', hpt'', rfl | ⟨st, next, r, hout, -, -, -, rfl⟩⟩ := hmove'.point hu hpt
        · obtain ⟨-, rfl⟩ := Phase.pay.inj (hpt'.symm.trans hpt'')
          exact hins
        · obtain ⟨-, rfl⟩ := Phase.pay.inj (hpt'.symm.trans hpt'')
          exact PayPoint.Inserted.step (Or.inl hins) hout
    obtain ⟨g, rfl⟩ := hu.done_of_returned hx hpt
    exact hJ

/-- **Errors and their causes.** Over every run in which the insert of a payment, if it is
executed, is readable, the error that the payment ends with has its cause: an idempotency
conflict an attempt under the key with another body, another attempt in progress one that was
pending under another key when the insert was executed, and a missing invoice that the business
had none when it was looked up. What a payment returns after an insert that is not readable has
no cause. -/
theorem errors_justified :
    (∀ (u : System) (p : Pid) (c : PayCall) (x : Except Exc Result),
      Reaches (System.step crypto) (ReadsRefusal p) .init u → u.payCall? p = some c →
      u.returned? p = some x →
        Justified crypto u.world.db c (u.Passed crypto (ReadsRefusal p) p c.MeetsOther)
          (u.Passed crypto (ReadsRefusal p) p c.MeetsNone) x) ∧
      ∀ (s t u : System) (p : Pid) (c : PayCall) (new : NewAttempt) (env : Env)
        (x : Except Exc Result), s.Reachable crypto → s.payCall? p = some c →
        Varchar.Stores 255 c.idempotencyKey → Varchar.Stores 100 c.cardToken →
        s.next? p = some (.insertAttempt new) → s.step crypto (.exec p env) = some t →
        Reaches (System.step crypto) Always t u → u.returned? p = some x →
          (Justified crypto u.world.db c
            (s.world.db.OtherPending c.invoiceId c.idempotencyKey) False x ↔
              new.Readable s.world.db) :=
  ⟨fun _ _ _ _ hu hc hx => justified_of_readable hu hc hx,
    fun _ _ _ _ _ _ _ _ hs hc hkey htoken hnext hstep hreach hx =>
      justified_iff_readable hs hc hkey htoken hnext hstep hreach hx⟩

/-- A payment meets the pending attempt of another. -/
def meetingOther : List Event :=
  drafting ++ [.request (.finalize 0)] ++ Event.steps 2 5 ++
    [.request (.pay 0 "tok_visa" "k1")] ++ Event.steps 3 5 ++
    [.request (.pay 0 "tok_visa" "k2")] ++ Event.steps 4 2 ++
    [.exec 4 { errorText := "uq_payment_attempts_one_pending_per_invoice " ++ Uuid.str 0 }] ++
    Event.steps 4 2

def metOther : System :=
  (runIf (System.step sampleCrypto) (ReadsRefusal 4) .init meetingOther).get (by decide +kernel)

/-- A payment meets the pending attempt of another one, and says so. -/
theorem justified_metOther : metOther.raised? 4 = some otherInProgress ∧
    metOther.Passed sampleCrypto (ReadsRefusal 4) 4
      (PayCall.MeetsOther ⟨sampleBusiness, 0, "tok_visa", "k2"⟩) := by
  have hreach : Reaches (System.step sampleCrypto) (ReadsRefusal 4) .init metOther :=
    reaches_of_runIf (Option.some_get _).symm
  have hraised : metOther.raised? 4 = some otherInProgress := by decide +kernel
  have hcall : metOther.payCall? 4 = some ⟨sampleBusiness, 0, "tok_visa", "k2"⟩ := by decide +kernel
  have hjustified := errors_justified.1 metOther 4 _ _ hreach hcall
    (System.raised?_eq_some.mp hraised)
  exact ⟨hraised, hjustified.inProgress rfl⟩

/-- An invoice whose only line item is free of charge is finalized and paid: the insert of the
attempt violates the `CHECK` on its amount. -/
def payingNothing : List Event :=
  [.request (.createCustomer "Ada" "ada@example.com")] ++ Event.steps 0 3 ++
    [.request (.createInvoice
      ⟨0, none, [⟨"trial", 1, 0, by decide, Int.one_pos, le_rfl⟩], by simp⟩)] ++
    Event.steps 1 7 ++ [.request (.finalize 0)] ++ Event.steps 2 5 ++
    [.request (.pay 0 "tok_visa" "k1")] ++ Event.steps 3 2 ++
    [.exec 3 { errorText := "ck_payment_attempts_amount_pos" }] ++ Event.steps 3 3

def paidNothing : System :=
  (run (System.step sampleCrypto) .init payingNothing).get (by decide +kernel)

/-- A payment of nothing is told of a conflict, although no attempt has its key. -/
theorem not_errors_justified : ¬∀ (u : System) (p : Pid) (c : PayCall) (x : Except Exc Result),
    u.Reachable sampleCrypto → u.payCall? p = some c → c.idempotencyKey.length ≤ 255 →
      c.cardToken.length ≤ 100 → u.returned? p = some x →
        Justified sampleCrypto u.world.db c (u.Passed sampleCrypto Always p c.MeetsOther)
          (u.Passed sampleCrypto Always p c.MeetsNone) x := by
  intro h
  have hs : paidNothing.Reachable sampleCrypto := reaches_of_run (Option.some_get _).symm
  have hraised : paidNothing.raised? 3 = some (.app .idempotencyConflict) := by decide +kernel
  have hcall : paidNothing.payCall? 3 =
    some ⟨sampleBusiness, 0, "tok_visa", "k1"⟩ := by decide +kernel
  have hjustified := h paidNothing 3 _ _ hs hcall (by decide) (by decide)
    (System.raised?_eq_some.mp hraised)
  obtain ⟨a, ha, -⟩ := hjustified.conflict rfl
  have hnone : paidNothing.world.db.attempts.rows = [] := by decide +kernel
  rw [← Table.mem_rows, hnone] at ha
  cases ha

end Justified

end TenantBilling
