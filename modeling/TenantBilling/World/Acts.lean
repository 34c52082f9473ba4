import TenantBilling.Model.Server
import Mathlib.Logic.Relation

/-!
# What a statement does to the world

Every statement is made of a few elementary acts of its session
(`TenantBilling.World.Act`): it writes, locks a row no other session has locked, ends
its transaction, or talks to the outside. `TenantBilling.World.acts_of_perform` is the
only place where the statements are gone through one by one; what holds of all of them
is proved for the acts.

Two things are. What a session sees of its own (its uncommitted writes, its locks, its
calls) is out of reach of the others (`TenantBilling.World.Frame`). And the uncommitted
writes of all sessions fit together (`TenantBilling.World.Consistent`): a changed row is
locked by the session that changes it, and an inserted row is new.
-/

namespace TenantBilling

open Base

/-- The rows a write changes. -/
def Write.updated : Write → List RowRef
  | .updateInvoice id .. => [⟨.invoices, id⟩]
  | .updateAttempt id .. => [⟨.attempts, id⟩]
  | .deactivateEndpoint id => [⟨.endpoints, id⟩]
  | .updateDelivery id _ => [⟨.deliveries, id⟩]
  | _ => []

/-- The rows of an insert of deliveries. -/
def deliveryRows (env : Env) (new : List NewDelivery) : List WebhookDelivery :=
  new.mapIdx fun k n => n.row (env.ids k) env.now

/-- The writes that a statement may make. -/
def Stmt.Writes : Stmt → Write → Prop
  | insertCustomer businessId name email, .insertCustomer row =>
    ∃ id now, customerRow businessId name email id now = .ok row
  | insertInvoice new, .insertInvoice row => ∃ id now, new.row id now = .ok row
  | insertLineItems invoiceId new, .insertLineItems rows =>
    ∃ (ids : ℕ → Uuid) (now : Timestamp),
      buildRows (fun n id => n.row invoiceId id now) ids 0 new = .ok rows
  | insertAttempt new, .insertAttempt row => ∃ id now, new.row id now = .ok row
  | insertEndpoint businessId url signingSecret, .insertEndpoint row =>
    ∃ id now, endpointRow businessId url signingSecret id now = .ok row
  | insertDeliveries new, .insertDeliveries rows => ∃ env : Env, rows = deliveryRows env new
  | updateInvoice id state, .updateInvoice id' state' _ => id = id' ∧ state = state'
  | updateAttempt id change, .updateAttempt id' update _ => id = id' ∧ change.bind = .ok update
  | deactivateEndpoint id, .deactivateEndpoint id' => id = id'
  | updateDelivery id change, .updateDelivery id' update => id = id' ∧ change.bind = .ok update
  | _, _ => False

/-- The rows that a statement may lock. -/
def Stmt.Locks : Stmt → RowRef → Prop
  | lockInvoice id _, r => r = ⟨.invoices, id⟩
  | claimDeliveries .., r => r.table = .deliveries
  | updateInvoice id _, r => r = ⟨.invoices, id⟩
  | updateAttempt id _, r => r = ⟨.attempts, id⟩
  | deactivateEndpoint id, r => r = ⟨.endpoints, id⟩
  | updateDelivery id _, r => r = ⟨.deliveries, id⟩
  | _, _ => False

/-- The statement is part of a call of the payment provider. -/
def Stmt.IsCharge : Stmt → Prop
  | sendCharge .. => True
  | awaitCharge => True
  | _ => False

namespace World

/-- The calls of the payment provider that a session has made. -/
def chargesOf (w : World) (p : Pid) : List Charge := w.charges.filter fun c => c.pid = p

/-! ### The small lemmas -/

section Simp

variable (w : World) (p q : Pid) (x : Write) (r : RowRef)

@[simp] theorem db_write : (w.write p x).db = w.db := rfl
@[simp] theorem db_lock : (w.lock p r).db = w.db := rfl
@[simp] theorem db_release : (w.release p).db = w.db := rfl
@[simp] theorem db_commit : (w.commit p).db = w.view p := rfl

@[simp] theorem charges_write : (w.write p x).charges = w.charges := rfl
@[simp] theorem charges_lock : (w.lock p r).charges = w.charges := rfl
@[simp] theorem charges_release : (w.release p).charges = w.charges := rfl
@[simp] theorem charges_commit : (w.commit p).charges = w.charges := rfl

@[simp] theorem inflight_lock : (w.lock p r).inflight = w.inflight := rfl
@[simp] theorem inflight_write : (w.write p x).inflight = w.inflight ++ [(p, x)] := rfl

@[simp] theorem locks_write : (w.write p x).locks = w.locks := rfl

@[simp] theorem history_write : (w.write p x).history = w.history := rfl
@[simp] theorem history_lock : (w.lock p r).history = w.history := rfl
@[simp] theorem history_release : (w.release p).history = w.history := rfl
@[simp] theorem history_commit :
    (w.commit p).history = w.history ++ [⟨p, w.writesOf p⟩] := rfl

/-- The writes of a session are the uncommitted ones that bear its number. -/
theorem mem_writesOf {w : World} {p : Pid} {x : Write} :
    x ∈ w.writesOf p ↔ (p, x) ∈ w.inflight := by
  unfold writesOf
  rw [List.mem_filterMap]
  constructor
  · rintro ⟨⟨q, y⟩, hy, h⟩
    split at h
    case isTrue hq => rw [← hq, ← Option.some.inj h]; exact hy
    case isFalse => cases h
  · intro h
    exact ⟨(p, x), h, by simp⟩

/-- The end of a transaction takes away the writes of its session and of no other. -/
theorem mem_inflight_release {w : World} {p : Pid} {y : Pid × Write} :
    y ∈ (w.release p).inflight ↔ y ∈ w.inflight ∧ y.1 ≠ p := by
  simp [release]

theorem inflight_commit : (w.commit p).inflight = (w.release p).inflight := rfl

theorem locks_commit : (w.commit p).locks = (w.release p).locks := rfl

@[simp] theorem writesOf_lock : (w.lock p r).writesOf q = w.writesOf q := rfl

/-- A write is added to those of its own session. -/
theorem writesOf_write :
    (w.write p x).writesOf q = if p = q then w.writesOf q ++ [x] else w.writesOf q := by
  unfold writesOf write
  rw [List.filterMap_append]
  split <;> simp [*]

/-- A session whose transaction has ended has no uncommitted writes. -/
theorem writesOf_release : (w.release p).writesOf q = if p = q then [] else w.writesOf q := by
  unfold writesOf release
  rw [List.filterMap_filter]
  split
  case isTrue h =>
    subst h
    rw [List.filterMap_eq_nil_iff]
    intro y _
    by_cases hy : y.1 = p <;> simp [hy]
  case isFalse h =>
    refine List.filterMap_congr fun y _ => ?_
    by_cases hy : y.1 = q
    · simp [hy, Ne.symm h]
    · simp [hy]

theorem writesOf_commit : (w.commit p).writesOf q = if p = q then [] else w.writesOf q :=
  writesOf_release { w with db := w.view p, history := w.history ++ [⟨p, w.writesOf p⟩] } p q

theorem locks_lock (r' : RowRef) :
    (w.lock p r).locks r' = if r' = r then some p else w.locks r' := rfl

theorem locks_release (r' : RowRef) :
    (w.release p).locks r' = if w.locks r' = some p then none else w.locks r' := rfl

theorem locks_release_self : (w.release p).locks r ≠ some p := by
  rw [locks_release]
  split
  case isTrue => simp
  case isFalse h => exact h

/-- The locks of the others stay when a transaction ends. -/
theorem locks_release_of_ne (h : p ≠ q) :
    (w.release p).locks r = some q ↔ w.locks r = some q := by
  rw [locks_release]
  split
  case isTrue h' => rw [h']; simp [h]
  case isFalse => rfl

/-- A row can be locked by a session if nobody else has locked it. -/
theorem lockWaits_eq_nil {w : World} {p : Pid} {r : RowRef} :
    w.lockWaits p r = [] ↔ ∀ q, w.locks r = some q → q = p := by
  unfold lockWaits
  cases w.locks r with
  | none => simp
  | some q => by_cases h : q = p <;> simp [h]

theorem mem_lockWaits {w : World} {p q : Pid} {r : RowRef} :
    q ∈ w.lockWaits p r ↔ w.locks r = some q ∧ q ≠ p := by
  unfold lockWaits
  cases w.locks r with
  | none => simp
  | some q' =>
    by_cases h : q' = p
    · simp [h, eq_comm]
    · simp only [h, if_false, List.mem_singleton, Option.some.injEq]
      constructor
      · rintro rfl
        exact ⟨rfl, h⟩
      · rintro ⟨rfl, -⟩
        rfl

/-- A row locked by a session can be locked again by that session only. -/
theorem locks_lock_of_ne {w : World} {p q : Pid} {r r' : RowRef} (h : w.lockWaits p r = [])
    (hne : p ≠ q) : (w.lock p r).locks r' = some q ↔ w.locks r' = some q := by
  rw [locks_lock]
  split
  case isTrue hr =>
    subst hr
    constructor
    · intro h'
      exact absurd (Option.some.inj h') hne
    · intro h'
      exact absurd (lockWaits_eq_nil.mp h q h').symm hne
  case isFalse => rfl

end Simp

/-! ### Acts -/

/-- An elementary act of a session, as part of a statement. -/
inductive Act (p : Pid) (st : Stmt) : World → World → Prop where
  /-- A row that is written has been locked or is new. -/
  | write {w : World} (x : Write) (hst : st.Writes x)
    (hlocked : ∀ r ∈ x.updated, w.locks r = some p)
    (hfresh : ∀ r ∈ x.inserted, w.Fresh r) (hnodup : x.inserted.Nodup) : Act p st w (w.write p x)
  | lock {w : World} (r : RowRef) (hst : st.Locks r) (hfree : w.lockWaits p r = []) :
    Act p st w (w.lock p r)
  | release {w : World} : Act p st w (w.release p)
  | commit {w : World} (hst : st = .commit) : Act p st w (w.commit p)
  | send {w : World} (c : Charge) (hst : st.IsCharge) (hpid : c.pid = p) :
    Act p st w { w with charges := w.charges ++ [c] }
  | receive {w : World} (result : HttpResult) (hst : st.IsCharge) :
    Act p st w (w.recordCharge p result)
  | post {w : World} (x : Post) : Act p st w { w with posts := w.posts ++ [x] }

/-- Several acts, one after the other. -/
abbrev Acts (p : Pid) (st : Stmt) : World → World → Prop := Relation.ReflTransGen (Act p st)

section Refusals

variable {α : Type} {w : World} {p : Pid} {st : Stmt}

/-- A violated constraint is reported by a text that describes it, and ends the transaction. -/
theorem violate_eq_some {env : Env} {v : Violation} {x : Except DbError α × World}
    (h : w.violate p env v = some x) :
    v.Describes env.errorText ∧ x = (.error (.integrity env.errorText), w.release p) := by
  unfold violate at h
  split at h
  case isTrue hv => exact ⟨hv, (Option.some.inj h).symm⟩
  case isFalse => cases h

/-- A row that cannot be built ends the transaction. -/
theorem reject_eq_some {env : Env} {e : RowError} {x : Except DbError α × World}
    (h : w.reject p env e = some x) : ∃ err, x = (.error err, w.release p) := by
  cases e with
  | unstorable texts => exact ⟨_, (Option.some.inj h).symm⟩
  | outOfRange => exact ⟨_, (Option.some.inj h).symm⟩
  | check constraint row => exact ⟨_, (violate_eq_some h).2⟩

/-- What is known of an attempt that has been inserted. -/
structure Inserted (w : World) (p : Pid) (new : NewAttempt) (a : PaymentAttempt) : Prop where
  row : ∃ now, new.row a.id now = .ok a
  noSameKey : ∀ b ∈ (w.view p).attempts, a.sameKey b = false
  noSamePending : ∀ b ∈ (w.view p).attempts, a.samePending b = false
  invoice : ∃ v, (w.view p).invoices.find? a.invoiceId = some v
  fresh : w.Fresh ⟨.attempts, a.id⟩

/-- The row of an attempt has the values it is built from. -/
theorem NewAttempt.row_fields {new : NewAttempt} {id : Uuid} {now : Timestamp} {a : PaymentAttempt}
    (h : new.row id now = .ok a) :
    a.id = id ∧ a.invoiceId = new.invoiceId ∧ a.status = new.status := by
  unfold NewAttempt.row at h
  split at h
  · split at h
    · rw [← Except.ok.inj h]
      exact ⟨rfl, rfl, rfl⟩
    · cases h
  · cases h

/-- The key is stored as it was given. -/
theorem NewAttempt.row_idempotencyKey {new : NewAttempt} {id : Uuid} {now : Timestamp}
    {a : PaymentAttempt} (h : new.row id now = .ok a) :
    a.idempotencyKey.text = new.idempotencyKey := by
  unfold NewAttempt.row at h
  split at h
  case h_1 key token hkey htoken =>
    split at h
    · rw [← Except.ok.inj h]
      exact Varchar.ofString?_eq_some.mp hkey
    · cases h
  case h_2 => cases h

theorem NewAttempt.row_amountCents {new : NewAttempt} {id : Uuid} {now : Timestamp}
    {a : PaymentAttempt} (h : new.row id now = .ok a) : a.amountCents = new.amountCents := by
  unfold NewAttempt.row at h
  split at h
  · split at h
    · rw [← Except.ok.inj h]
    · cases h
  · cases h

/-- **An attempt is refused or inserted**, and what has been checked before it was inserted. -/
theorem insertAttempt_eq_some {env : Env} {new : NewAttempt}
    {x : Except DbError PaymentAttempt × World} (h : w.insertAttempt p env new = some x) :
    (∃ e, x = (.error e, w.release p)) ∨
      ∃ a, x = (.ok a, w.write p (.insertAttempt a)) ∧ Inserted w p new a := by
  unfold insertAttempt at h
  split at h
  case h_1 => exact Or.inl (reject_eq_some h)
  case h_2 a ha =>
    split at h
    case isTrue => exact Or.inl ⟨_, (violate_eq_some h).2⟩
    case isFalse hkey =>
      split at h
      case isTrue => exact Or.inl ⟨_, (violate_eq_some h).2⟩
      case isFalse hpending =>
        split at h
        case isTrue => exact Or.inl ⟨_, (violate_eq_some h).2⟩
        case isFalse hinvoice =>
          split at h
          case isTrue hfresh =>
            refine Or.inr ⟨a, (Option.some.inj h).symm, ?_⟩
            refine ⟨⟨env.now, (NewAttempt.row_fields ha).1 ▸ ha⟩, ?_, ?_, ?_, hfresh⟩
            · intro b hb
              by_contra hab
              exact hkey (List.any_eq_true.mpr ⟨b, hb, by simpa using hab⟩)
            · intro b hb
              by_contra hab
              exact hpending (List.any_eq_true.mpr ⟨b, hb, by simpa using hab⟩)
            · rw [Table.free_iff] at hinvoice
              exact Option.ne_none_iff_exists'.mp hinvoice
          case isFalse => cases h

theorem acts_violate {env : Env} {v : Violation} {x : Except DbError α × World}
    (h : w.violate p env v = some x) : Acts p st w x.2 := by
  rw [(violate_eq_some h).2]
  exact .single .release

theorem acts_reject {env : Env} {e : RowError} {x : Except DbError α × World}
    (h : w.reject p env e = some x) : Acts p st w x.2 := by
  obtain ⟨err, rfl⟩ := reject_eq_some h
  exact .single .release

end Refusals

/-- An insert of one row. -/
theorem acts_insert {w : World} {p : Pid} {st : Stmt} {r : RowRef} {x : Write} (hst : st.Writes x)
    (hr : w.Fresh r) (hins : x.inserted = [r]) (hupd : x.updated = []) :
    Acts p st w (w.write p x) := by
  refine .single (.write x hst ?_ ?_ ?_)
  · rw [hupd]; simp
  · rw [hins]; simpa using hr
  · rw [hins]; simp

/-- An update of one row. -/
theorem acts_updateRow {w : World} {p : Pid} {st : Stmt} {r : RowRef} {x : Write}
    (hlock : st.Locks r) (hst : st.Writes x) (hfree : w.lockWaits p r = [])
    (hins : x.inserted = []) (hupd : x.updated = [r]) : Acts p st w ((w.lock p r).write p x) := by
  refine (Relation.ReflTransGen.single (.lock r hlock hfree)).tail (.write x hst ?_ ?_ ?_)
  · rw [hupd]; simp [locks_lock]
  · rw [hins]; simp
  · rw [hins]; simp

/-- The claim of several deliveries. -/
theorem acts_claim {p : Pid} {st : Stmt} (hst : ∀ id, st.Locks ⟨.deliveries, id⟩)
    (due : List WebhookDelivery) (w : World)
    (h : ∀ d ∈ due, w.lockWaits p ⟨.deliveries, d.id⟩ = []) :
    Acts p st w (due.foldl (fun w d => w.lock p ⟨.deliveries, d.id⟩) w) := by
  induction due generalizing w with
  | nil => exact .refl
  | cons d due ih =>
    refine .head (.lock ⟨.deliveries, d.id⟩ (hst d.id) (h d List.mem_cons_self)) (ih _ ?_)
    intro d' hd'
    rw [lockWaits_eq_nil, locks_lock]
    intro q hq
    split at hq
    case isTrue => exact (Option.some.inj hq).symm
    case isFalse => exact lockWaits_eq_nil.mp (h d' (List.mem_cons_of_mem _ hd')) q hq

/-- Nobody else has locked a delivery that is claimed: those are skipped. -/
theorem lockWaits_of_mem_due {w : World} {p : Pid} {rank : Uuid → ℕ} {now : Timestamp} {limit : ℕ}
    {d : WebhookDelivery} (h : d ∈ w.dueDeliveries p rank now limit) :
    w.lockWaits p ⟨.deliveries, d.id⟩ = [] := by
  have h' := List.mem_of_mem_take h
  rw [List.mem_insertionSort, List.mem_filter] at h'
  simpa using (Bool.and_eq_true_iff.mp h'.2).2

/-- The insert of an attempt writes its row, or ends the transaction. -/
theorem acts_insertAttempt {w : World} {p : Pid} {env : Env} {new : NewAttempt}
    {x : Except DbError PaymentAttempt × World} (h : w.insertAttempt p env new = some x) :
    Acts p (.insertAttempt new) w x.2 := by
  rcases insertAttempt_eq_some h with ⟨e, rfl⟩ | ⟨a, rfl, ha⟩
  · exact .single .release
  · exact acts_insert ⟨_, ha.row⟩ ha.fresh rfl rfl

theorem acts_insertCustomer {w : World} {p : Pid} {env : Env} {businessId : Uuid}
    {name email : String} {x : Except DbError Customer × World}
    (h : w.insertCustomer p env businessId name email = some x) :
    Acts p (.insertCustomer businessId name email) w x.2 := by
  unfold insertCustomer at h
  split at h
  case h_1 => exact acts_reject h
  case h_2 row hrow =>
    split at h
    case isTrue => exact acts_violate h
    case isFalse =>
      split at h
      case isTrue hr =>
        rw [← Option.some.inj h]
        exact acts_insert ⟨_, _, hrow⟩ hr rfl rfl
      case isFalse => cases h

theorem acts_insertInvoice {w : World} {p : Pid} {env : Env} {new : NewInvoice}
    {x : Except DbError Invoice × World} (h : w.insertInvoice p env new = some x) :
    Acts p (.insertInvoice new) w x.2 := by
  unfold insertInvoice at h
  split at h
  case h_1 => exact acts_reject h
  case h_2 row hrow =>
    split at h
    case isTrue hr =>
      rw [← Option.some.inj h]
      exact acts_insert ⟨_, _, hrow⟩ hr rfl rfl
    case isFalse => cases h

theorem acts_insertEndpoint {w : World} {p : Pid} {env : Env} {businessId : Uuid}
    {url secret : String} {x : Except DbError WebhookEndpoint × World}
    (h : w.insertEndpoint p env businessId url secret = some x) :
    Acts p (.insertEndpoint businessId url secret) w x.2 := by
  unfold insertEndpoint at h
  split at h
  case h_1 => exact acts_reject h
  case h_2 row hrow =>
    split at h
    case isTrue hr =>
      rw [← Option.some.inj h]
      exact acts_insert ⟨_, _, hrow⟩ hr rfl rfl
    case isFalse => cases h

/-- The references of the rows of a multi-row insert. -/
theorem nodup_refs {ρ : Type} {id : ρ → Uuid} {table : TableName} {rows : List ρ}
    (h : (rows.map id).Nodup) : (rows.map fun row => (⟨table, id row⟩ : RowRef)).Nodup := by
  have hinj : Function.Injective fun u => (⟨table, u⟩ : RowRef) := fun u v huv => by
    injection huv
  simpa [List.map_map, Function.comp_def] using h.map hinj

/-- The line items are one write, under ids that are new and different. -/
theorem acts_insertLineItems {w : World} {p : Pid} {env : Env} {invoiceId : Uuid}
    {new : List NewLineItem} {x : Except DbError Unit × World}
    (h : w.insertLineItems p env invoiceId new = some x) :
    Acts p (.insertLineItems invoiceId new) w x.2 := by
  unfold insertLineItems at h
  split at h
  case h_1 => exact acts_reject h
  case h_2 rows hrows =>
    split at h
    case isTrue hr =>
      rw [← Option.some.inj h]
      refine .single (.write _ ⟨_, _, hrows⟩ (by simp [Write.updated]) ?_ (nodup_refs hr.1))
      simpa [Write.inserted] using hr.2
    case isFalse => cases h

/-- The outbox rows are one write, under ids that are new and different. -/
theorem acts_insertDeliveries {w : World} {p : Pid} {env : Env} {new : List NewDelivery}
    {x : Except DbError Unit × World} (h : w.insertDeliveries p env new = some x) :
    Acts p (.insertDeliveries new) w x.2 := by
  unfold insertDeliveries at h
  dsimp only at h
  split at h
  case isTrue hr =>
    rw [← Option.some.inj h]
    refine .single (.write _ ⟨env, rfl⟩ (by simp [Write.updated]) ?_ (nodup_refs hr.1))
    intro r hr'
    obtain ⟨row, hrow, rfl⟩ := List.mem_map.mp hr'
    exact hr.2 row hrow
  case isFalse => cases h

/-- **Every statement is made of acts.** -/
theorem acts_of_perform {w : World} {p : Pid} {env : Env} {st : Stmt} {r : st.Resp} {w' : World}
    (hwait : w.blockers p st = []) (h : w.perform p env st = some (r, w')) : Acts p st w w' := by
  cases st with
  | select q =>
    obtain ⟨-, rfl⟩ := Prod.mk.inj (Option.some.inj h)
    exact .refl
  | lockInvoice id businessId =>
    obtain ⟨-, rfl⟩ := Prod.mk.inj (Option.some.inj h)
    dsimp only [blockers] at hwait
    cases hv : (w.view p).invoices.find? id with
    | none => exact .refl
    | some v =>
      rw [hv] at hwait
      dsimp only at hwait ⊢
      split
      case isTrue hb =>
        -- the row is locked only if it is of the business, and nobody else has it
        rw [if_pos hb] at hwait
        exact .single (.lock _ rfl hwait)
      case isFalse => exact .refl
  | claimDeliveries now limit =>
    obtain ⟨-, rfl⟩ := Prod.mk.inj (Option.some.inj h)
    have hst : ∀ id, (Stmt.claimDeliveries now limit).Locks ⟨.deliveries, id⟩ := fun _ => rfl
    exact acts_claim hst _ w fun d hd => lockWaits_of_mem_due hd
  | insertCustomer businessId name email => exact acts_insertCustomer h
  | insertInvoice new => exact acts_insertInvoice h
  | insertLineItems invoiceId new => exact acts_insertLineItems h
  | insertAttempt new => exact acts_insertAttempt h
  | insertEndpoint businessId url signingSecret => exact acts_insertEndpoint h
  | insertDeliveries new => exact acts_insertDeliveries h
  | updateInvoice id state =>
    obtain ⟨-, rfl⟩ := Prod.mk.inj (Option.some.inj h)
    exact acts_updateRow rfl ⟨rfl, rfl⟩ hwait rfl rfl
  | updateAttempt id change =>
    cases hb : change.bind with
    | ok update =>
      simp only [perform, hb] at h
      obtain ⟨-, rfl⟩ := Prod.mk.inj (Option.some.inj h)
      exact acts_updateRow rfl ⟨rfl, hb⟩ hwait rfl rfl
    -- a value that the driver refuses has the transaction rolled back
    | error e =>
      simp only [perform, hb] at h
      obtain ⟨-, rfl⟩ := Prod.mk.inj (Option.some.inj h)
      exact .single .release
  | deactivateEndpoint id =>
    obtain ⟨-, rfl⟩ := Prod.mk.inj (Option.some.inj h)
    exact acts_updateRow rfl rfl hwait rfl rfl
  | updateDelivery id change =>
    cases hb : change.bind with
    | ok update =>
      simp only [perform, hb] at h
      obtain ⟨-, rfl⟩ := Prod.mk.inj (Option.some.inj h)
      exact acts_updateRow rfl ⟨rfl, hb⟩ hwait rfl rfl
    | error e =>
      simp only [perform, hb] at h
      obtain ⟨-, rfl⟩ := Prod.mk.inj (Option.some.inj h)
      exact .single .release
  | commit =>
    obtain ⟨-, rfl⟩ := Prod.mk.inj (Option.some.inj h)
    exact .single (.commit rfl)
  | rollback =>
    obtain ⟨-, rfl⟩ := Prod.mk.inj (Option.some.inj h)
    exact .single .release
  | sendCharge cardToken amountCents idempotencyKey =>
    obtain ⟨-, rfl⟩ := Prod.mk.inj (Option.some.inj h)
    exact .single (.send _ trivial rfl)
  | awaitCharge =>
    obtain ⟨-, rfl⟩ := Prod.mk.inj (Option.some.inj h)
    exact .single (.receive _ trivial)
  | post deliveryId url body headers =>
    obtain ⟨-, rfl⟩ := Prod.mk.inj (Option.some.inj h)
    exact .single (.post _)
  | clock =>
    obtain ⟨-, rfl⟩ := Prod.mk.inj (Option.some.inj h)
    exact .refl
  | secret =>
    obtain ⟨-, rfl⟩ := Prod.mk.inj (Option.some.inj h)
    exact .refl

/-! ### What the others cannot reach -/

/-- What a session sees of its own is the same in two worlds. -/
structure Frame (p : Pid) (w w' : World) : Prop where
  writes : w'.writesOf p = w.writesOf p
  locks : ∀ r, w'.locks r = some p ↔ w.locks r = some p
  charges : w'.chargesOf p = w.chargesOf p

theorem Frame.refl (p : Pid) (w : World) : Frame p w w := ⟨rfl, fun _ => Iff.rfl, rfl⟩

theorem Frame.trans {p : Pid} {w w' w'' : World} (h : Frame p w w') (h' : Frame p w' w'') :
    Frame p w w'' :=
  ⟨h'.writes.trans h.writes, fun r => (h'.locks r).trans (h.locks r), h'.charges.trans h.charges⟩

/-- What one session is told of its call is not recorded for another. -/
theorem chargesOf_recordCharge {w : World} {p q : Pid} {result : HttpResult} (h : p ≠ q) :
    (w.recordCharge p result).chargesOf q = w.chargesOf q := by
  unfold chargesOf recordCharge
  rw [List.filter_map]
  have hpid : ∀ c : Charge,
      (if c.pid = p ∧ c.result.isNone then { c with result := some result } else c).pid =
        c.pid := by
    intro c
    split <;> rfl
  have hcomp : ((fun c : Charge => decide (c.pid = q)) ∘ fun c : Charge =>
      if c.pid = p ∧ c.result.isNone then { c with result := some result } else c) =
        fun c => decide (c.pid = q) := by
    funext c
    simp only [Function.comp_apply, hpid]
  rw [hcomp]
  refine (List.map_congr_left fun c hc => ?_).trans (List.map_id _)
  have hc' : c.pid = q := by simpa using (List.mem_filter.mp hc).2
  rw [if_neg fun hand => h (hand.1.symm.trans hc'), id]

/-- No act of another session reaches what a session sees of its own. -/
theorem Act.frame {p q : Pid} {st : Stmt} {w w' : World} (h : Act p st w w') (hne : p ≠ q) :
    Frame q w w' := by
  cases h with
  | write x _ _ _ _ => exact ⟨by rw [writesOf_write, if_neg hne], fun _ => Iff.rfl, rfl⟩
  | lock r _ hfree => exact ⟨rfl, fun r' => locks_lock_of_ne hfree hne, rfl⟩
  | release =>
    exact ⟨by rw [writesOf_release, if_neg hne], fun r => locks_release_of_ne w p q r hne, rfl⟩
  | commit _ =>
    exact ⟨by rw [writesOf_commit, if_neg hne], fun r => locks_release_of_ne w p q r hne, rfl⟩
  | send c _ hpid =>
    refine ⟨rfl, fun _ => Iff.rfl, ?_⟩
    have hc : c.pid ≠ q := by rw [hpid]; exact hne
    simp [chargesOf, hc]
  | receive result _ => exact ⟨rfl, fun _ => Iff.rfl, chargesOf_recordCharge hne⟩
  | post x => exact ⟨rfl, fun _ => Iff.rfl, rfl⟩

/-- **No statement of another session reaches what a session sees of its own.** -/
theorem Acts.frame {p q : Pid} {st : Stmt} {w w' : World} (h : Acts p st w w') (hne : p ≠ q) :
    Frame q w w' := by
  induction h with
  | refl => exact .refl q w
  | tail _ hact ih => exact ih.trans (hact.frame hne)

end World

end TenantBilling
