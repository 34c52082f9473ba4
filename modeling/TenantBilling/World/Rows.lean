import Mathlib.Data.List.Flatten
import Mathlib.Data.List.Pairwise
import TenantBilling.World.Acts

/-!
# Rows under writes

What a write does to the rows, for all tables at once: `TenantBilling.Database.row` is the
row at a reference, and a write leaves every row alone that it neither changes nor
inserts (`TenantBilling.Database.row_apply`). With it the uncommitted writes of the
sessions are seen to fit together (`TenantBilling.World.Consistent`), and a commit to
leave alone what another session has locked (`TenantBilling.World.row_commit`).
-/

namespace TenantBilling

open Base

/-- A row of any table. -/
inductive Row where
  | customer (c : Customer)
  | invoice (v : Invoice)
  | lineItem (li : InvoiceLineItem)
  | attempt (a : PaymentAttempt)
  | endpoint (e : WebhookEndpoint)
  | delivery (d : WebhookDelivery)

namespace Database

/-- The row at a reference. -/
def row (db : Database) (r : RowRef) : Option Row :=
  match r.table with
  | .customers => (db.customers.find? r.id).map .customer
  | .invoices => (db.invoices.find? r.id).map .invoice
  | .lineItems => (db.lineItems.find? r.id).map .lineItem
  | .attempts => (db.attempts.find? r.id).map .attempt
  | .endpoints => (db.endpoints.find? r.id).map .endpoint
  | .deliveries => (db.deliveries.find? r.id).map .delivery

theorem lacks_iff {db : Database} {r : RowRef} : db.Lacks r ↔ db.row r = none := by
  obtain ⟨table, id⟩ := r
  cases table <;> simp [Lacks, row, Table.free_iff]

theorem find?_invoices_eq {db db' : Database} {i : Uuid}
    (h : db'.row ⟨.invoices, i⟩ = db.row ⟨.invoices, i⟩) :
    db'.invoices.find? i = db.invoices.find? i :=
  Option.map_injective (fun _ _ hv => Row.invoice.inj hv) h

theorem find?_attempts_eq {db db' : Database} {i : Uuid}
    (h : db'.row ⟨.attempts, i⟩ = db.row ⟨.attempts, i⟩) :
    db'.attempts.find? i = db.attempts.find? i :=
  Option.map_injective (fun _ _ ha => Row.attempt.inj ha) h

/-- A table after an insert of one row, at a reference. -/
theorem map_find?_insert {ρ : Type} {id : ρ → Uuid} {t : Table id} {row : ρ} {f : ρ → Row}
    {i : Uuid} (h : i = id row → (t.find? i).map f ≠ none) :
    ((t.insert row).find? i).map f = (t.find? i).map f := by
  by_cases hi : id row = i
  · cases hfind : t.find? i with
    | none => exact absurd (by rw [hfind]; rfl) (h hi.symm)
    | some row' => rw [Table.find?_insert_of_some hfind]
  · rw [Table.find?_insert_of_ne hi]

/-- A table after an insert of several rows, at a reference. -/
theorem map_find?_insertAll {ρ : Type} {id : ρ → Uuid} {t : Table id} {rows : List ρ} {f : ρ → Row}
    {i : Uuid} (h : i ∈ rows.map id → (t.find? i).map f ≠ none) :
    ((t.insertAll rows).find? i).map f = (t.find? i).map f := by
  by_cases hi : i ∈ rows.map id
  · cases hfind : t.find? i with
    | none => exact absurd (by rw [hfind]; rfl) (h hi)
    | some row' => rw [Table.find?_insertAll_of_some hfind]
  · rw [Table.find?_insertAll_of_ne]
    intro row hrow hid
    exact hi (List.mem_map.mpr ⟨row, hrow, hid⟩)

/-- A table after an update of another row. -/
theorem map_find?_update {ρ : Type} {id : ρ → Uuid} {t : Table id} {i j : Uuid} {f : ρ → ρ}
    (hf : ∀ r, id (f r) = id r) {g : ρ → Row} (h : i ≠ j) :
    ((t.update j f hf).find? i).map g = (t.find? i).map g :=
  congrArg _ (Table.find?_update_of_ne h)

/-- A table after an update of a row that is missing. -/
theorem map_find?_update_eq_none {ρ : Type} {id : ρ → Uuid} {t : Table id} {i : Uuid} {f : ρ → ρ}
    (hf : ∀ r, id (f r) = id r) {g : ρ → Row} (h : (t.find? i).map g = none) :
    ((t.update i f hf).find? i).map g = none := by
  rw [Table.find?_update_self, Option.map_eq_none_iff.mp h]
  rfl

theorem mem_singleton_ref {table : TableName} {i j : Uuid} (h : i = j) :
    (⟨table, i⟩ : RowRef) ∈ [(⟨table, j⟩ : RowRef)] := by
  rw [h]
  exact List.mem_singleton_self _

/-- **A write leaves a row alone that it neither changes nor inserts.** -/
theorem row_apply {db : Database} {x : Write} {r : RowRef} (hupd : r ∉ x.updated)
    (hins : r ∈ x.inserted → db.row r ≠ none) : (db.apply x).row r = db.row r := by
  obtain ⟨table, id⟩ := r
  cases x with
  | insertCustomer row =>
    cases table
    case customers => exact map_find?_insert fun h => hins (mem_singleton_ref h)
    all_goals rfl
  | insertInvoice row =>
    cases table
    case invoices => exact map_find?_insert fun h => hins (mem_singleton_ref h)
    all_goals rfl
  | insertLineItems rows =>
    cases table
    case lineItems => exact map_find?_insertAll fun h => hins (by simpa [Write.inserted] using h)
    all_goals rfl
  | insertAttempt row =>
    cases table
    case attempts => exact map_find?_insert fun h => hins (mem_singleton_ref h)
    all_goals rfl
  | insertEndpoint row =>
    cases table
    case endpoints => exact map_find?_insert fun h => hins (mem_singleton_ref h)
    all_goals rfl
  | insertDeliveries rows =>
    cases table
    case deliveries => exact map_find?_insertAll fun h => hins (by simpa [Write.inserted] using h)
    all_goals rfl
  | updateInvoice i state now =>
    cases table
    case invoices =>
      exact map_find?_update (by intro; rfl) fun h => hupd (mem_singleton_ref h)
    all_goals rfl
  | updateAttempt i change now =>
    cases table
    case attempts =>
      exact map_find?_update (by intro; rfl) fun h => hupd (mem_singleton_ref h)
    all_goals rfl
  | deactivateEndpoint i =>
    cases table
    case endpoints =>
      exact map_find?_update (by intro; rfl) fun h => hupd (mem_singleton_ref h)
    all_goals rfl
  | updateDelivery i change =>
    cases table
    case deliveries =>
      exact map_find?_update (by intro; rfl) fun h => hupd (mem_singleton_ref h)
    all_goals rfl

/-- A write of a row that is missing changes nothing, unless it inserts it. -/
theorem row_apply_eq_none {db : Database} {x : Write} {r : RowRef} (hins : r ∉ x.inserted)
    (h : db.row r = none) : (db.apply x).row r = none := by
  by_cases hupd : r ∈ x.updated
  · cases x with
    | updateInvoice i state now =>
      obtain rfl := List.mem_singleton.mp hupd
      exact map_find?_update_eq_none (by intro; rfl) h
    | updateAttempt i change now =>
      obtain rfl := List.mem_singleton.mp hupd
      exact map_find?_update_eq_none (by intro; rfl) h
    | deactivateEndpoint i =>
      obtain rfl := List.mem_singleton.mp hupd
      exact map_find?_update_eq_none (by intro; rfl) h
    | updateDelivery i change =>
      obtain rfl := List.mem_singleton.mp hupd
      exact map_find?_update_eq_none (by intro; rfl) h
    | _ => cases hupd
  · rw [row_apply hupd fun h' => absurd h' hins, h]

theorem find?_apply_updateInvoice (db : Database) (i : Uuid) (state : InvoiceState)
    (now : Timestamp) (j : Uuid) :
    (db.apply (.updateInvoice i state now)).invoices.find? j =
      if j = i then (db.invoices.find? i).map (·.update state now) else db.invoices.find? j := by
  rw [Database.apply, Table.find?_update]

@[simp] theorem applyAll_nil (db : Database) : db.applyAll [] = db := rfl

@[simp] theorem applyAll_cons (db : Database) (x : Write) (ws : List Write) :
    db.applyAll (x :: ws) = (db.apply x).applyAll ws := rfl

theorem row_applyAll {db : Database} {ws : List Write} {r : RowRef}
    (hupd : ∀ x ∈ ws, r ∉ x.updated) (hins : ∀ x ∈ ws, r ∈ x.inserted → db.row r ≠ none) :
    (db.applyAll ws).row r = db.row r := by
  induction ws generalizing db with
  | nil => rfl
  | cons x ws ih =>
    have hx : (db.apply x).row r = db.row r :=
      row_apply (hupd x List.mem_cons_self) (hins x List.mem_cons_self)
    rw [applyAll_cons, ih (fun y hy => hupd y (List.mem_cons_of_mem _ hy)), hx]
    intro y hy
    rw [hx]
    exact hins y (List.mem_cons_of_mem _ hy)

theorem row_applyAll_eq_none {db : Database} {ws : List Write} {r : RowRef}
    (hins : ∀ x ∈ ws, r ∉ x.inserted) (h : db.row r = none) : (db.applyAll ws).row r = none := by
  induction ws generalizing db with
  | nil => exact h
  | cons x ws ih =>
    refine ih (fun y hy => hins y (List.mem_cons_of_mem _ hy)) ?_
    exact row_apply_eq_none (hins x List.mem_cons_self) h

end Database

/-! ### The uncommitted writes fit together -/

namespace World

/-- **The uncommitted writes of all sessions fit together**: a row that is changed is locked
by the session that changes it, and an inserted row is new. -/
structure Consistent (w : World) : Prop where
  locked : ∀ p x, (p, x) ∈ w.inflight → ∀ r ∈ x.updated, w.locks r = some p
  fresh : ∀ p x, (p, x) ∈ w.inflight → ∀ r ∈ x.inserted, w.db.row r = none
  nodup : (w.inflight.flatMap fun y => y.2.inserted).Nodup

theorem consistent_init : Consistent init :=
  ⟨by rintro p x ⟨⟩, by rintro p x ⟨⟩, List.nodup_nil⟩

variable {w w' : World} {p q : Pid} {r : RowRef}

/-- A row that one session inserts is inserted by no other. -/
theorem Consistent.not_inserted (h : Consistent w) {x y : Write} (hx : (p, x) ∈ w.inflight)
    (hy : (q, y) ∈ w.inflight) (hne : p ≠ q) (hr : r ∈ x.inserted) : r ∉ y.inserted := by
  intro hr'
  have hsymm : Std.Symm fun y z : Pid × Write => List.Disjoint y.2.inserted z.2.inserted :=
    ⟨fun _ _ hdisj _ h h' => hdisj h' h⟩
  have hdisj := (List.nodup_flatMap.mp h.nodup).2.forall hx hy fun heq =>
    hne (congrArg Prod.fst heq)
  exact hdisj hr hr'

theorem Consistent.release (h : Consistent w) : Consistent (w.release p) := by
  refine ⟨?_, ?_, ?_⟩
  · intro q x hx r hr
    obtain ⟨hx, hne⟩ := mem_inflight_release.mp hx
    exact (locks_release_of_ne w p q r (Ne.symm hne)).mpr (h.locked q x hx r hr)
  · intro q x hx r hr
    obtain ⟨hx, -⟩ := mem_inflight_release.mp hx
    exact h.fresh q x hx r hr
  · exact (List.filter_sublist.flatMap _).nodup h.nodup

/-- What another session inserts is still missing after a commit. -/
theorem Consistent.row_view_eq_none (h : Consistent w) {x : Write} (hx : (q, x) ∈ w.inflight)
    (hne : p ≠ q) (hr : r ∈ x.inserted) : (w.view p).row r = none := by
  refine Database.row_applyAll_eq_none ?_ (h.fresh q x hx r hr)
  intro y hy
  exact h.not_inserted hx (mem_writesOf.mp hy) (Ne.symm hne) hr

theorem Consistent.commit (h : Consistent w) : Consistent (w.commit p) := by
  refine ⟨h.release.locked, ?_, h.release.nodup⟩
  intro q x hx r hr
  obtain ⟨hx, hne⟩ := mem_inflight_release.mp (inflight_commit w p ▸ hx)
  exact h.row_view_eq_none hx (Ne.symm hne) hr

theorem Act.consistent {st : Stmt} (hact : Act p st w w') (h : Consistent w) : Consistent w' := by
  cases hact with
  | write x _ hlocked hfresh hnodup =>
    refine ⟨?_, ?_, ?_⟩
    · intro q y hy r hr
      rcases List.mem_append.mp hy with hy | hy
      · exact h.locked q y hy r hr
      · obtain ⟨rfl, rfl⟩ := Prod.mk.inj (List.mem_singleton.mp hy)
        exact hlocked r hr
    · intro q y hy r hr
      rcases List.mem_append.mp hy with hy | hy
      · exact h.fresh q y hy r hr
      · obtain ⟨rfl, rfl⟩ := Prod.mk.inj (List.mem_singleton.mp hy)
        exact Database.lacks_iff.mp (hfresh r hr).1
    · rw [inflight_write, List.flatMap_append, List.flatMap_singleton]
      refine List.Nodup.append h.nodup hnodup ?_
      intro r hr hr'
      obtain ⟨y, hy, hr⟩ := List.mem_flatMap.mp hr
      exact (hfresh r hr').2 y hy hr
  | lock r _ hfree =>
    refine ⟨?_, h.fresh, h.nodup⟩
    intro q y hy r' hr'
    have hq := h.locked q y hy r' hr'
    by_cases hpq : p = q
    · subst hpq
      rw [locks_lock]
      split
      · rfl
      · exact hq
    · exact (locks_lock_of_ne hfree hpq).mpr hq
  | release => exact h.release
  | commit _ => exact h.commit
  | send c _ hpid => exact ⟨h.locked, h.fresh, h.nodup⟩
  | receive result _ => exact ⟨h.locked, h.fresh, h.nodup⟩
  | post x => exact ⟨h.locked, h.fresh, h.nodup⟩

theorem Acts.consistent {st : Stmt} (hacts : Acts p st w w') (h : Consistent w) :
    Consistent w' := by
  induction hacts with
  | refl => exact h
  | tail _ hact ih => exact hact.consistent ih

/-- **A commit leaves alone what it finds locked by another session.** -/
theorem Consistent.row_commit (h : Consistent w) (hlock : w.locks r = some q) (hne : p ≠ q)
    (hrow : w.db.row r ≠ none) : (w.commit p).db.row r = w.db.row r := by
  refine Database.row_applyAll ?_ fun _ _ _ => hrow
  intro x hx hr
  have hp := h.locked p x (mem_writesOf.mp hx) r hr
  rw [hlock] at hp
  exact hne (Option.some.inj hp).symm

end World

end TenantBilling
