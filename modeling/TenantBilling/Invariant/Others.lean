import TenantBilling.Invariant.OwnStep

/-!
# The sessions that do not step

A statement of one session leaves alone what holds of the others. For all statements but
a commit this is plain: the committed rows are the same. A commit changes committed rows,
and what the others rely on there is protected in three ways: a locked invoice by its
lock (`TenantBilling.World.Consistent.row_commit`), a session's own attempt by being its
own, and the unique indexes of an invoice under its lock by the fact that attempts are
inserted under that lock only.
-/

namespace TenantBilling

open Base World

/-! ### Attempts only advance -/

/-- One row of an attempt after another: it does not become pending again. -/
structure PaymentAttempt.Advances (a b : PaymentAttempt) : Prop where
  id : a.id = b.id
  invoiceId : a.invoiceId = b.invoiceId
  idempotencyKey : a.idempotencyKey = b.idempotencyKey
  pending : b.status = .pending → a.status = .pending

theorem PaymentAttempt.Advances.refl (a : PaymentAttempt) : a.Advances a :=
  ⟨rfl, rfl, rfl, fun h => h⟩

theorem PaymentAttempt.Advances.trans {a b c : PaymentAttempt} (h : a.Advances b)
    (h' : b.Advances c) : a.Advances c :=
  ⟨h.id.trans h'.id, h.invoiceId.trans h'.invoiceId, h.idempotencyKey.trans h'.idempotencyKey,
    fun hc => h.pending (h'.pending hc)⟩

/-- An attempt keeps its invoice and its key. -/
theorem PaymentAttempt.Advances.sameKey {a b c : PaymentAttempt} (h : b.Advances c) :
    a.sameKey c = a.sameKey b := by
  unfold PaymentAttempt.sameKey
  rw [h.invoiceId, h.idempotencyKey]

/-- An attempt that is pending has been pending on the same invoice. -/
theorem PaymentAttempt.Advances.samePending {a b c : PaymentAttempt} (h : b.Advances c)
    (hc : a.samePending c = true) : a.samePending b = true := by
  simp only [PaymentAttempt.samePending, Bool.and_eq_true, decide_eq_true_eq] at hc ⊢
  exact ⟨⟨hc.1.1.trans h.invoiceId.symm, hc.1.2⟩, h.pending hc.2⟩

theorem PaymentAttempt.sameKey_comm (a b : PaymentAttempt) : a.sameKey b = b.sameKey a := by
  simp [PaymentAttempt.sameKey, eq_comm]

theorem PaymentAttempt.samePending_comm (a b : PaymentAttempt) :
    a.samePending b = b.samePending a := by
  simp only [PaymentAttempt.samePending, eq_comm, Bool.and_assoc]
  rw [Bool.and_comm (decide (_ = a.status))]

/-- A write that makes no attempt pending again. -/
def Write.Advances : Write → Prop
  | .updateAttempt _ update _ => update.status ≠ some .pending
  | _ => True

/-- A write brings an attempt, or one that was there has advanced to it. -/
theorem mem_attempts_apply {db : Database} {x : Write} {b : PaymentAttempt} (hx : x.Advances)
    (h : b ∈ (db.apply x).attempts) :
    (∃ a ∈ db.attempts, a.Advances b) ∨ x = .insertAttempt b := by
  cases x with
  | insertAttempt row =>
    rcases Table.of_mem_insert h with h | rfl
    · exact Or.inl ⟨b, h, .refl b⟩
    · exact Or.inr rfl
  | updateAttempt id update now =>
    have h' : b ∈ db.attempts.update id (·.update update now) (·.update_id update now) := h
    obtain ⟨a, ha, rfl⟩ := Table.mem_update.mp h'
    refine Or.inl ⟨a, ha, ?_⟩
    split
    case isFalse => exact .refl a
    case isTrue =>
      refine ⟨rfl, rfl, rfl, fun hp => ?_⟩
      cases hs : update.status with
      | none => simpa [PaymentAttempt.update, hs] using hp
      | some status =>
        have hstatus : status = .pending := by simpa [PaymentAttempt.update, hs] using hp
        exact absurd (hs.trans (congrArg some hstatus)) hx
  | _ => exact Or.inl ⟨b, h, .refl b⟩

/-- Every attempt after several writes comes from one before them, or from an insert. -/
theorem mem_attempts_applyAll {db : Database} {ws : List Write} {b : PaymentAttempt}
    (hws : ∀ x ∈ ws, x.Advances) (h : b ∈ (db.applyAll ws).attempts) :
    ∃ a, a.Advances b ∧ (a ∈ db.attempts ∨ .insertAttempt a ∈ ws) := by
  induction ws generalizing db with
  | nil => exact ⟨b, .refl b, Or.inl h⟩
  | cons x ws ih =>
    obtain ⟨a, hab, ha | ha⟩ := ih (fun y hy => hws y (List.mem_cons_of_mem _ hy)) h
    · rcases mem_attempts_apply (hws x List.mem_cons_self) ha with ⟨a', ha', haa'⟩ | rfl
      · exact ⟨a', haa'.trans hab, Or.inl ha'⟩
      · exact ⟨a, hab, Or.inr List.mem_cons_self⟩
    · exact ⟨a, hab, Or.inr (List.mem_cons_of_mem _ ha)⟩

/-- A row that is there stays there. -/
theorem row_apply_ne_none {db : Database} {x : Write} {r : RowRef} (h : db.row r ≠ none) :
    (db.apply x).row r ≠ none := by
  by_cases hupd : r ∈ x.updated
  · have hupdate : ∀ {ρ : Type} {id : ρ → Uuid} {t : Table id} {i : Uuid} {f : ρ → ρ}
        (hf : ∀ r, id (f r) = id r) {g : ρ → Row}, (t.find? i).map g ≠ none →
        ((t.update i f hf).find? i).map g ≠ none := by
      intro ρ id t i f hf g ht
      rw [Table.find?_update_self]
      simpa using ht
    cases x with
    | updateInvoice i state now =>
      obtain rfl := List.mem_singleton.mp hupd
      exact hupdate (by intro; rfl) h
    | updateAttempt i change now =>
      obtain rfl := List.mem_singleton.mp hupd
      exact hupdate (by intro; rfl) h
    | deactivateEndpoint i =>
      obtain rfl := List.mem_singleton.mp hupd
      exact hupdate (by intro; rfl) h
    | updateDelivery i change =>
      obtain rfl := List.mem_singleton.mp hupd
      exact hupdate (by intro; rfl) h
    | _ => cases hupd
  · rw [Database.row_apply hupd fun _ => h]
    exact h

/-- No write removes a row. -/
theorem row_applyAll_ne_none {db : Database} {ws : List Write} {r : RowRef} (h : db.row r ≠ none) :
    (db.applyAll ws).row r ≠ none := by
  induction ws generalizing db with
  | nil => exact h
  | cons x ws ih => exact ih (row_apply_ne_none h)

theorem find?_invoices_ne_none {db : Database} {i : Uuid} :
    db.row ⟨.invoices, i⟩ ≠ none ↔ db.invoices.find? i ≠ none := by
  simp [Database.row]

/-! ### The writes of a session -/

section Writes

variable {crypto : Crypto} {w w' : World} {p q : Pid}

/-- The status of an update is the one that was assigned. -/
theorem AttemptChange.bind_status {c : AttemptChange} {u : AttemptUpdate} (h : c.bind = .ok u) :
    u.status = c.status := by
  unfold AttemptChange.bind at h
  split at h
  · rw [← Except.ok.inj h]
  · cases h
  · cases h

/-- No outcome makes an attempt pending. -/
theorem outcomeChange_status (outcome : Except PspError PspChargeResult) :
    (outcomeChange outcome).status ≠ some .pending := by
  cases outcome with
  | error e => simp [outcomeChange, unknownChange]
  | ok result =>
    unfold outcomeChange
    dsimp only
    split <;> simp [succeededChange, failedChange]

/-- What a session of the phase may have written, as far as attempts are concerned. -/
def Phase.MayWrite (ph : Phase) : Write → Prop
  | .insertAttempt a => ∃ c v, ph = .pay c (.reserve v a)
  | .updateAttempt id update _ =>
    update.status ≠ some .pending ∧ ∃ a, ph.committed? = some a ∧ a.id = id
  | _ => True

theorem Write.Peripheral.mayWrite {x : Write} (h : x.Peripheral) (ph : Phase) : ph.MayWrite x := by
  cases x <;> trivial

/-- What a payment writes of its outcome, its phase may write. -/
theorem Settling.mayWrite {c : PayCall} {a : PaymentAttempt} {http : HttpResult}
    {outcome : Except PspError PspChargeResult} {rest : List Write} {ph : Phase}
    (h : Settling w p c a http outcome rest) (hrest : ∀ x ∈ rest, x.Peripheral)
    (hph : ph.committed? = some a) : ∀ x ∈ w.writesOf p, ph.MayWrite x := by
  obtain ⟨-, update, now, hbind, hcase⟩ := h
  have hstatus : update.status ≠ some .pending := by
    rw [AttemptChange.bind_status hbind]
    exact outcomeChange_status outcome
  intro x hx
  rcases hcase with ⟨-, now', htx⟩ | ⟨-, htx⟩
  · rw [htx.writes] at hx
    rcases List.mem_append.mp hx with hx | hx
    · rcases List.mem_cons.mp hx with rfl | hx
      · exact ⟨hstatus, a, hph, rfl⟩
      · rw [List.mem_singleton.mp hx]
        trivial
    · exact (hrest x hx).mayWrite ph
  · rw [htx.writes] at hx
    rcases List.mem_append.mp hx with hx | hx
    · rw [List.mem_singleton.mp hx]
      exact ⟨hstatus, a, hph, rfl⟩
    · exact (hrest x hx).mayWrite ph

theorem succeededChange_status {result : PspChargeResult} {update : AttemptUpdate}
    (h : (succeededChange result).bind = .ok update) : update.status ≠ some .pending := by
  rw [AttemptChange.bind_status h]
  simp [succeededChange]

/-- **What a session has written fits its phase.** -/
theorem Phase.Holds.mayWrite {ph : Phase} (h : ph.Holds crypto w p) :
    ∀ x ∈ w.writesOf p, ph.MayWrite x := by
  have hnil : ∀ {rs : List RowRef}, w.HasTx p rs [] → ∀ x ∈ w.writesOf p, ph.MayWrite x := by
    intro rs htx x hx
    rw [htx.writes] at hx
    cases hx
  cases ph with
  | other => exact fun x hx => (h.writes x hx).mayWrite _
  | transition c pt =>
    -- after the UPDATE, the one write is that of the invoice
    have hone : ∀ now,
        w.HasTx p [⟨.invoices, c.invoiceId⟩] [.updateInvoice c.invoiceId c.target now] →
        ∀ x ∈ w.writesOf p, (Phase.transition c pt).MayWrite x := by
      intro now htx x hx
      rw [htx.writes, List.mem_singleton] at hx
      rw [hx]
      trivial
    cases pt with
    | read => exact hnil h
    | update v => exact hnil h.1
    | reselect v =>
      obtain ⟨-, now, htx⟩ := h
      exact hone now htx
    | commit v x =>
      obtain ⟨-, now, htx⟩ := h
      exact hone now htx
    | closing x => exact hnil h
    | done x => exact hnil h
  | pay c pt =>
    -- after the outcome is written, the one write is that of the attempt
    have hone : ∀ {rs : List RowRef} {a : PaymentAttempt} {update : AttemptUpdate}
      {now : Timestamp}, pt.progress.attempt? = some a → update.status ≠ some .pending →
        w.HasTx p rs [.updateAttempt a.id update now] →
        ∀ x ∈ w.writesOf p, (Phase.pay c pt).MayWrite x := by
      intro rs a update now ha hstatus htx x hx
      rw [htx.writes, List.mem_singleton] at hx
      rw [hx]
      exact ⟨hstatus, a, ha, rfl⟩
    cases pt with
    | lookup => exact hnil h
    | lock => exact hnil h
    | undo errorMsg => exact hnil h
    | relookup => exact hnil h
    | refresh a http => exact hnil h
    | done x g => exact hnil h
    | insert v => exact hnil h.1
    | reserve v a =>
      intro x hx
      rw [h.1.writes, List.mem_singleton] at hx
      rw [hx]
      exact ⟨c, v, rfl⟩
    | send v a => exact hnil h.1
    | receive v a => exact hnil h.1
    | refetch v a http outcome => exact hnil h.1
    | record v a http outcome => exact hnil h.1
    | relock v a http result =>
      obtain ⟨-, -, -, update, now, hbind, htx⟩ := h
      exact hone rfl (succeededChange_status hbind) htx
    | markPaid a http result =>
      obtain ⟨-, -, update, now, hbind, htx⟩ := h
      exact hone rfl (succeededChange_status hbind) htx
    | listEndpoints a http result => exact Settling.mayWrite h (by simp) rfl
    | readClock a http result endpoints => exact Settling.mayWrite h.2 (by simp) rfl
    | outbox a http result endpoints now => exact Settling.mayWrite h.2 (by simp) rfl
    | settle a http outcome endpoints =>
      obtain ⟨rest, hrest, hsettling⟩ := h
      exact hsettling.mayWrite hrest.peripheral rfl
    | closing x g =>
      intro x hx
      rw [h.1] at hx
      cases hx

end Writes

/-! ### What holds of the others -/

section Frame

variable {crypto : Crypto} {w w' : World} {p q : Pid}

/-- The others leave the transaction of an outcome as it is. -/
theorem Settling.frame {c : PayCall} {a : PaymentAttempt} {http : HttpResult}
    {outcome : Except PspError PspChargeResult} {rest : List Write} (hf : Frame q w w')
    (h : Settling w q c a http outcome rest) : Settling w' q c a http outcome rest := by
  obtain ⟨hout, update, now, hbind, hcase⟩ := h
  refine ⟨hout, update, now, hbind, ?_⟩
  rcases hcase with ⟨hs, now', htx⟩ | ⟨hs, htx⟩
  · exact Or.inl ⟨hs, now', htx.frame hf⟩
  · exact Or.inr ⟨hs, htx.frame hf⟩

/-- The endpoints that a settling payment is told are the committed ones. -/
theorem Settling.endpoints_view {c : PayCall} {a : PaymentAttempt} {http : HttpResult}
    {outcome : Except PspError PspChargeResult} (h : Settling w q c a http outcome []) :
    (w.view q).endpoints = w.db.endpoints := by
  obtain ⟨-, update, now, -, ⟨-, now', htx⟩ | ⟨-, htx⟩⟩ := h
  · rw [htx.view]
    rfl
  · rw [htx.view]
    rfl

/-- **What holds of a session survives what the others do**, provided they keep what it
relies on of the committed rows. -/
theorem Phase.Holds.frame {ph : Phase} (h : ph.Holds crypto w q) (hf : Frame q w w')
    (hlocked : ∀ i v, w.locks ⟨.invoices, i⟩ = some q → w.db.invoices.find? i = some v →
      w'.db.invoices.find? i = some v)
    (hexist : ∀ i, w.db.invoices.find? i ≠ none → w'.db.invoices.find? i ≠ none)
    (hres : ∀ c v a, ph = .pay c (.reserve v a) →
      Reserving crypto w c a → Reserving crypto w' c a) :
    ph.Holds crypto w' q := by
  cases ph with
  | other =>
    refine ⟨fun x hx => h.writes x (hf.writes ▸ hx), fun r hr => h.locks r ((hf.locks r).mp hr)⟩
  | transition c pt =>
    have hchecked : ∀ {v}, c.Checked w v → c.Checked w' v := fun hv =>
      ⟨hv.id, hv.business, hv.allowed, hexist _ hv.exist⟩
    cases pt with
    | read => exact World.HasTx.frame h hf
    | update v => exact ⟨h.1.frame hf, hchecked h.2⟩
    | reselect v =>
      obtain ⟨hv, now, htx⟩ := h
      exact ⟨hchecked hv, now, htx.frame hf⟩
    | commit v x =>
      obtain ⟨hv, now, htx⟩ := h
      exact ⟨hchecked hv, now, htx.frame hf⟩
    | closing x => exact World.HasTx.frame h hf
    | done x => exact World.HasTx.frame h hf
  | pay c pt =>
    -- the invoice that a payment has locked is not changed by the others
    have hinvoice : ∀ {ws v}, w.HasTx q [c.invoiceRef] ws →
        w.db.invoices.find? c.invoiceId = some v →
        w'.db.invoices.find? c.invoiceId = some v := fun htx hfind =>
      hlocked _ _ ((htx.locks _).mpr (List.mem_singleton_self _)) hfind
    cases pt with
    | lookup => exact World.HasTx.frame h hf
    | lock => exact World.HasTx.frame h hf
    | undo errorMsg => exact World.HasTx.frame h hf
    | relookup => exact World.HasTx.frame h hf
    | refresh a http => exact World.HasTx.frame h hf
    | done x g => exact World.HasTx.frame h hf
    | insert v => exact ⟨h.1.frame hf, h.2.1, hinvoice h.1 h.2.2⟩
    | reserve v a =>
      exact ⟨h.1.frame hf, h.2.1, hinvoice h.1 h.2.2.1, hres c v a rfl h.2.2.2⟩
    | send v a => exact ⟨h.1.frame hf, h.2⟩
    | receive v a => exact ⟨h.1.frame hf, h.2⟩
    | refetch v a http outcome => exact ⟨h.1.frame hf, h.2⟩
    | record v a http outcome => exact ⟨h.1.frame hf, h.2⟩
    | relock v a http result =>
      obtain ⟨hv, hout, hs, update, now, hbind, htx⟩ := h
      exact ⟨hv, hout, hs, update, now, hbind, htx.frame hf⟩
    | markPaid a http result =>
      obtain ⟨hout, hs, update, now, hbind, htx⟩ := h
      exact ⟨hout, hs, update, now, hbind, htx.frame hf⟩
    | listEndpoints a http result => exact Settling.frame hf h
    | readClock a http result endpoints => exact ⟨h.1, h.2.frame hf⟩
    | outbox a http result endpoints now => exact ⟨h.1, h.2.frame hf⟩
    | settle a http outcome endpoints =>
      obtain ⟨rest, hrest, hsettling⟩ := h
      exact ⟨rest, hrest, hsettling.frame hf⟩
    | closing x g => exact ⟨hf.writes.trans h.1, fun r hr => h.2 r ((hf.locks r).mp hr)⟩

/-- What is known of a payment for good survives what the others do. -/
theorem Phase.HoldsForGood.frame {ph : Phase} (h : ph.HoldsForGood crypto w q)
    (hcharges : w'.chargesOf q = w.chargesOf q)
    (hattempt : ∀ a, ph.committed? = some a →
      w'.db.attempts.find? a.id = w.db.attempts.find? a.id) :
    ph.HoldsForGood crypto w' q := by
  cases ph with
  | pay c pt => exact Progress.Holds.congr h hcharges hattempt
  | transition c pt => exact hcharges.trans h
  | other => exact hcharges.trans h

end Frame

end TenantBilling
