import Mathlib.Data.Set.Finite.Lattice
import Mathlib.Order.Bounds.Basic
import TenantBilling.Invariant.Calls

/-!
# What can be executed

The steps that are always possible. A statement that need not wait can be executed in some
environment: generated UUIDs are there in any number, and every violation has a text that
describes it. A payment that has been told the outcome of its call waits at most for the
lock of its invoice, and whoever has it can be made to release it, without killing
anybody (`TenantBilling.System.Sound.unlock`).
-/

namespace TenantBilling

open Base World

/-! ### The environment -/

theorem exists_bound (l : List ℕ) : ∃ N, ∀ n ∈ l, n < N := by
  obtain ⟨N, hN⟩ := (List.finite_toSet l).bddAbove
  exact ⟨N + 1, fun n hn => Nat.lt_succ_of_le (hN hn)⟩

/-- There are new UUIDs in any number. -/
theorem World.exists_fresh (w : World) (table : TableName) :
    ∃ N, ∀ n, N ≤ n → w.Fresh ⟨table, n⟩ := by
  have hrows : ∃ N, ∀ n, N ≤ n → w.db.Lacks ⟨table, n⟩ := by
    have htable : ∀ {ρ : Type} {id : ρ → Uuid} (t : Table id), ∃ N, ∀ n, N ≤ n → t.Free n := by
      intro ρ id t
      obtain ⟨N, hN⟩ := exists_bound (t.rows.map id)
      refine ⟨N, fun n hn r hr hid => ?_⟩
      exact Nat.not_le.mpr (hN (id r) (List.mem_map_of_mem hr)) (hid ▸ hn)
    cases table with
    | customers => exact htable w.db.customers
    | invoices => exact htable w.db.invoices
    | lineItems => exact htable w.db.lineItems
    | attempts => exact htable w.db.attempts
    | endpoints => exact htable w.db.endpoints
    | deliveries => exact htable w.db.deliveries
  obtain ⟨N, hN⟩ := hrows
  obtain ⟨M, hM⟩ := exists_bound ((w.inflight.flatMap fun x => x.2.inserted).map RowRef.id)
  refine ⟨max N M, fun n hn => ⟨hN n (le_trans (le_max_left N M) hn), fun x hx hr => ?_⟩⟩
  have hlt := hM n (List.mem_map.mpr ⟨⟨table, n⟩, List.mem_flatMap.mpr ⟨x, hx, hr⟩, rfl⟩)
  exact Nat.not_le.mpr hlt (le_trans (le_max_right N M) hn)

/-- A word without the separator that occurs in a separated text occurs in one of the two
parts. -/
theorem infix_of_separated {α : Type} {l as bs : List α} {sep : α} (hsep : sep ∉ l)
    (h : l <:+: as ++ sep :: bs) : l <:+: as ∨ l <:+: bs := by
  obtain ⟨x, y, hxy⟩ := h
  rcases List.append_eq_append_iff.mp hxy with ⟨z, rfl, -⟩ | ⟨z, hz, hrest⟩
  · exact Or.inl ⟨x, z, rfl⟩
  cases z with
  | nil => exact Or.inl ⟨x, [], by simpa using hz⟩
  | cons sep' z =>
    obtain ⟨rfl, rfl⟩ := List.cons.inj hrest
    rcases List.append_eq_append_iff.mp hz with ⟨u, -, hl⟩ | ⟨u, -, hu⟩
    · -- the separator would be in the word
      exact absurd (by rw [hl]; simp) hsep
    · cases u with
      | nil => exact absurd (by rw [← show _ = l from hu]; simp) hsep
      | cons sep' u =>
        obtain ⟨-, rfl⟩ := List.cons.inj hu
        exact Or.inr ⟨u, y, by simp⟩

/-- **Every violation has a text that describes it.** -/
theorem Violation.exists_describes (v : Violation) : ∃ text, v.Describes text := by
  obtain ⟨constraint, quoted, row⟩ := v
  have hsep : ' ' ∉ onePendingMarker.toList := by decide
  suffices h : ∃ l : List Char, constraint.toList <:+: l ∧ (∀ x ∈ quoted, x.toList <:+: l) ∧
      (onePendingMarker.toList <:+: l → onePendingMarker.toList <:+: constraint.toList ∨
        ∃ x ∈ quoted, onePendingMarker.toList <:+: x.toList) by
    obtain ⟨l, hconstraint, hquoted, hmarker⟩ := h
    refine ⟨String.ofList l, ?_, fun x hx => ?_, fun h => ?_⟩
    · simpa [occursIn] using hconstraint
    · simpa [occursIn] using hquoted x hx
    · rcases hmarker (by simpa [occursIn] using h) with h | ⟨x, hx, h⟩
      · exact Or.inl h
      · exact Or.inr ⟨x, List.mem_append_left _ hx, h⟩
  induction quoted with
  | nil => exact ⟨constraint.toList, List.infix_rfl, by simp, Or.inl⟩
  | cons x quoted ih =>
    obtain ⟨l, hconstraint, hquoted, hmarker⟩ := ih
    refine ⟨l ++ ' ' :: x.toList, hconstraint.trans (List.infix_append' [] l _), ?_, fun h => ?_⟩
    · intro y hy
      rcases List.mem_cons.mp hy with rfl | hy
      · exact ⟨l ++ [' '], [], by simp⟩
      · exact (hquoted y hy).trans (List.infix_append' [] l _)
    · rcases infix_of_separated hsep h with h | h
      · rcases hmarker h with h | ⟨y, hy, h⟩
        · exact Or.inl h
        · exact Or.inr ⟨y, List.mem_cons_of_mem _ hy, h⟩
      · exact Or.inr ⟨x, List.mem_cons_self, h⟩

/-! ### Executing a statement -/

section Exec

variable {w : World} {p : Pid}

theorem exec_of_perform {env : Env} {st : Stmt} {x : st.Resp × World} (hfree : w.blockers p st = [])
    (h : w.perform p env st = some x) : w.exec p env st = some x :=
  exec_eq_some.mpr ⟨hfree, h⟩

theorem exists_violate {α : Type} (v : Violation) : ∃ text, ∀ (env : Env),
    env.errorText = text → w.violate (α := α) p env v =
      some (.error (.integrity text), w.release p) := by
  obtain ⟨text, htext⟩ := v.exists_describes
  refine ⟨text, fun env henv => ?_⟩
  subst henv
  exact if_pos htext

/-- A row that cannot be built is refused, in some words. -/
theorem exists_reject {α : Type} (w : World) (p : Pid) (e : RowError) : ∃ text, ∀ (env : Env),
    env.errorText = text → (w.reject (α := α) p env e).isSome = true := by
  cases e with
  | unstorable texts => exact ⟨"", fun env _ => rfl⟩
  | outOfRange => exact ⟨"", fun env _ => rfl⟩
  | check constraint row =>
    obtain ⟨text, htext⟩ := exists_violate (w := w) (p := p) (α := α) ⟨constraint, [], row⟩
    refine ⟨text, fun env henv => ?_⟩
    rw [World.reject, htext env henv]
    rfl

theorem buildRows_ids {ν ρ : Type} {build : ν → Uuid → Except RowError ρ} {id : ρ → Uuid}
    (hid : ∀ n i r, build n i = .ok r → id r = i) {ids : ℕ → Uuid} {k : ℕ} {new : List ν}
    {rows : List ρ} (h : buildRows build ids k new = .ok rows) :
    rows.map id = (List.range' k new.length).map ids := by
  induction new generalizing k rows with
  | nil =>
    obtain rfl := Except.ok.inj h
    rfl
  | cons n new ih =>
    unfold buildRows at h
    split at h
    · next r rs hr hrs =>
      obtain rfl := Except.ok.inj h
      rw [List.map_cons, hid n _ r hr, ih hrs, List.length_cons, List.range'_succ, List.map_cons]
    · exact absurd h (by simp)
    · exact absurd h (by simp)

theorem NewLineItem.row_id {new : NewLineItem} {i id : Uuid} {now : Timestamp}
    {li : InvoiceLineItem} (h : new.row i id now = .ok li) : li.id = id := by
  unfold NewLineItem.row at h
  repeat' split at h
  all_goals first | rw [← Except.ok.inj h] | exact absurd h (by simp)

theorem customerRow_id {businessId id : Uuid} {name email : String} {now : Timestamp} {c : Customer}
    (h : customerRow businessId name email id now = .ok c) : c.id = id := by
  unfold customerRow at h
  split at h
  · rw [← Except.ok.inj h]
  · exact absurd h (by simp)

theorem endpointRow_id {businessId id : Uuid} {url secret : String} {now : Timestamp}
    {e : WebhookEndpoint} (h : endpointRow businessId url secret id now = .ok e) : e.id = id := by
  unfold endpointRow at h
  split at h
  · rw [← Except.ok.inj h]
  · exact absurd h (by simp)

/-- A refusal or a new row: an insert of one row can be executed. -/
theorem exists_insert {α : Type} (w : World) (p : Pid) (N : Uuid) (row : Except RowError α)
    {http : HttpResult} {insert : Env → Option (Except DbError α × World)}
    (herror : ∀ e, row = .error e → ∀ env : Env, env.ids 0 = N → env.now = 0 →
      insert env = w.reject p env e)
    (hok : ∀ r, row = .ok r → ∃ text, ∀ env : Env, env.ids 0 = N → env.now = 0 →
      env.errorText = text → (insert env).isSome = true) :
    ∃ env : Env, env.http = http ∧ (insert env).isSome = true := by
  cases hrow : row with
  | error e =>
    obtain ⟨text, htext⟩ := exists_reject (α := α) w p e
    refine ⟨{ ids := fun _ => N, errorText := text, http }, rfl, ?_⟩
    rw [herror e hrow _ rfl rfl]
    exact htext _ rfl
  | ok r =>
    obtain ⟨text, htext⟩ := hok r hrow
    exact ⟨{ ids := fun _ => N, errorText := text, http }, rfl, htext _ rfl rfl rfl⟩

theorem exists_insertInvoice (w : World) (p : Pid) (http : HttpResult) (new : NewInvoice) :
    ∃ env : Env, env.http = http ∧ (w.insertInvoice p env new).isSome = true := by
  obtain ⟨N, hN⟩ := w.exists_fresh .invoices
  refine exists_insert w p N (new.row N 0) (fun e hrow env hid hnow => ?_)
    fun v hrow => ⟨"", fun env hid hnow _ => ?_⟩
  · simp only [World.insertInvoice, hid, hnow, hrow]
  · simp only [World.insertInvoice, hid, hnow, hrow]
    rw [if_pos (hN _ (NewInvoice.row_id hrow).ge)]
    rfl

theorem exists_insertCustomer (w : World) (p : Pid) (http : HttpResult) (b : Uuid)
    (name email : String) :
    ∃ env : Env, env.http = http ∧ (w.insertCustomer p env b name email).isSome = true := by
  obtain ⟨N, hN⟩ := w.exists_fresh .customers
  refine exists_insert w p N (customerRow b name email N 0)
    (fun e hrow env hid hnow => ?_) fun c hrow => ?_
  · simp only [World.insertCustomer, hid, hnow, hrow]
  · obtain ⟨text, htext⟩ := exists_violate (w := w) (p := p) (α := Customer)
      ⟨"uq_customers_business_email", [Uuid.str b, email], []⟩
    refine ⟨text, fun env hid hnow henv => ?_⟩
    simp only [World.insertCustomer, hid, hnow, hrow]
    split
    · rw [htext env henv]
      rfl
    · rw [if_pos (hN _ (customerRow_id hrow).ge)]
      rfl

theorem exists_insertEndpoint (w : World) (p : Pid) (http : HttpResult) (b : Uuid)
    (url secret : String) :
    ∃ env : Env, env.http = http ∧ (w.insertEndpoint p env b url secret).isSome = true := by
  obtain ⟨N, hN⟩ := w.exists_fresh .endpoints
  refine exists_insert w p N (endpointRow b url secret N 0)
    (fun e hrow env hid hnow => ?_) fun e hrow => ⟨"", fun env hid hnow _ => ?_⟩
  · simp only [World.insertEndpoint, hid, hnow, hrow]
  · simp only [World.insertEndpoint, hid, hnow, hrow]
    rw [if_pos (hN _ (endpointRow_id hrow).ge)]
    rfl

theorem exists_insertAttempt (w : World) (p : Pid) (http : HttpResult) (new : NewAttempt) :
    ∃ env : Env, env.http = http ∧ (w.insertAttempt p env new).isSome = true := by
  obtain ⟨N, hN⟩ := w.exists_fresh .attempts
  refine exists_insert w p N (new.row N 0)
    (fun e hrow env hid hnow => ?_) fun a hrow => ?_
  · simp only [World.insertAttempt, hid, hnow, hrow]
  · -- the words are those of the first constraint that the row violates
    have hid' : a.id = N := (NewAttempt.row_fields hrow).1
    by_cases hkey : (w.view p).attempts.rows.any (a.sameKey ·) = true
    · obtain ⟨text, htext⟩ := exists_violate (w := w) (p := p) (α := PaymentAttempt) a.keyViolation
      refine ⟨text, fun env hid hnow henv => ?_⟩
      simp only [World.insertAttempt, hid, hnow, hrow, if_pos hkey, htext env henv]
      rfl
    by_cases hpending : (w.view p).attempts.rows.any (a.samePending ·) = true
    · obtain ⟨text, htext⟩ := exists_violate (w := w) (p := p)
        (α := PaymentAttempt) a.pendingViolation
      refine ⟨text, fun env hid hnow henv => ?_⟩
      simp only [World.insertAttempt, hid, hnow, hrow, if_neg hkey, if_pos hpending, htext env henv]
      rfl
    obtain ⟨text, htext⟩ := exists_violate (w := w) (p := p)
      (α := PaymentAttempt) a.invoiceViolation
    refine ⟨text, fun env hid hnow henv => ?_⟩
    simp only [World.insertAttempt, hid, hnow, hrow, if_neg hkey, if_neg hpending]
    split
    · rw [htext env henv]
      rfl
    · rw [if_pos (hN _ hid'.ge)]
      rfl

theorem exists_insertLineItems (w : World) (p : Pid) (http : HttpResult) (i : Uuid)
    (new : List NewLineItem) :
    ∃ env : Env, env.http = http ∧ (w.insertLineItems p env i new).isSome = true := by
  obtain ⟨N, hN⟩ := w.exists_fresh .lineItems
  cases hrows : buildRows (fun (n : NewLineItem) id => n.row i id 0) (fun k => N + k) 0 new with
  | error e =>
    obtain ⟨text, htext⟩ := exists_reject (α := Unit) w p e
    refine ⟨{ ids := fun k => N + k, errorText := text, http }, rfl, ?_⟩
    simp only [World.insertLineItems, hrows]
    exact htext _ rfl
  | ok rows =>
    have hids : rows.map InvoiceLineItem.id = (List.range' 0 new.length).map fun k => N + k :=
      buildRows_ids (fun _ _ _ => NewLineItem.row_id) hrows
    refine ⟨{ ids := fun k => N + k, http }, rfl, ?_⟩
    have hfresh : (rows.map InvoiceLineItem.id).Nodup ∧ ∀ row ∈ rows,
      w.Fresh ⟨.lineItems, row.id⟩ := by
      refine ⟨?_, fun row hrow => hN _ ?_⟩
      · rw [hids]
        exact (List.nodup_range').map fun _ _ h => Nat.add_left_cancel h
      · have hmem := List.mem_map_of_mem (f := InvoiceLineItem.id) hrow
        rw [hids] at hmem
        obtain ⟨k, -, hk⟩ := List.mem_map.mp hmem
        exact hk ▸ Nat.le_add_right N k
    simp only [World.insertLineItems, hrows, if_pos hfresh]
    rfl

theorem exists_insertDeliveries (w : World) (p : Pid) (http : HttpResult) (new : List NewDelivery) :
    ∃ env : Env, env.http = http ∧ (w.insertDeliveries p env new).isSome = true := by
  obtain ⟨N, hN⟩ := w.exists_fresh .deliveries
  refine ⟨{ ids := fun k => N + k, http }, rfl, ?_⟩
  unfold World.insertDeliveries
  dsimp only
  rw [if_pos]
  · rfl
  · refine ⟨List.pairwise_iff_getElem.mpr fun i j hi hj hlt => ?_, fun row hrow => ?_⟩
    · simp [NewDelivery.row]
      omega
    · obtain ⟨k, hk, rfl⟩ := List.mem_mapIdx.mp hrow
      exact hN _ (Nat.le_add_right N k)

/-- **A statement that need not wait can be executed**, whatever is answered over HTTP. -/
theorem exists_perform (w : World) (p : Pid) (http : HttpResult) (st : Stmt) :
    ∃ env : Env, env.http = http ∧ (w.perform p env st).isSome = true := by
  cases st with
  | insertCustomer b name email => exact exists_insertCustomer w p http b name email
  | insertInvoice new => exact exists_insertInvoice w p http new
  | insertLineItems i new => exact exists_insertLineItems w p http i new
  | insertAttempt new => exact exists_insertAttempt w p http new
  | insertEndpoint b url secret => exact exists_insertEndpoint w p http b url secret
  | insertDeliveries new => exact exists_insertDeliveries w p http new
  | updateAttempt id change =>
    refine ⟨{ http }, rfl, ?_⟩
    unfold World.perform
    dsimp only
    cases change.bind <;> rfl
  | updateDelivery id change =>
    refine ⟨{ http }, rfl, ?_⟩
    unfold World.perform
    dsimp only
    cases change.bind <;> rfl
  | _ => exact ⟨{ http }, rfl, rfl⟩

theorem exists_exec_of_free (w : World) (p : Pid) (http : HttpResult) {st : Stmt}
    (hfree : w.blockers p st = []) :
    ∃ env : Env, env.http = http ∧ ∃ r w', w.exec p env st = some (r, w') := by
  obtain ⟨env, henv, hsome⟩ := exists_perform w p http st
  obtain ⟨x, hx⟩ := Option.isSome_iff_exists.mp hsome
  exact ⟨env, henv, x.1, x.2, exec_of_perform hfree hx⟩

/-- An insert of an attempt that meets a pending one fails, if it need not wait. -/
theorem exists_exec_insertAttempt {new : NewAttempt} {b : PaymentAttempt}
    (hfree : w.blockers p (.insertAttempt new) = []) (hnew : new.status = .pending)
    (hb : b ∈ (w.view p).attempts) (hinvoice : b.invoiceId = new.invoiceId)
    (hpending : b.status = .pending) :
    ∃ env e, w.exec p env (.insertAttempt new) = some (.error e, w.release p) := by
  suffices h : ∃ (env : Env) (e : DbError),
    w.insertAttempt p env new = some (.error e, w.release p) by
    obtain ⟨env, e, h⟩ := h
    exact ⟨env, e, exec_of_perform hfree h⟩
  cases hrow : new.row 0 0 with
  | error e =>
    cases e with
    | unstorable texts => exact ⟨{}, textError texts, by simp only [World.insertAttempt, hrow]; rfl⟩
    | outOfRange =>
      exact ⟨{}, .numericValueOutOfRange, by simp only [World.insertAttempt, hrow]; rfl⟩
    | check constraint row =>
      obtain ⟨text, htext⟩ := exists_violate (w := w) (p := p) (α := PaymentAttempt)
        ⟨constraint, [], row⟩
      exact ⟨{ errorText := text }, .integrity text, by
        simp only [World.insertAttempt, hrow]
        exact htext _ rfl⟩
  | ok row =>
    by_cases hkey : (w.view p).attempts.rows.any (row.sameKey ·) = true
    · obtain ⟨text, htext⟩ := exists_violate (w := w) (p := p)
        (α := PaymentAttempt) row.keyViolation
      refine ⟨{ errorText := text }, .integrity text, ?_⟩
      simp only [World.insertAttempt, hrow, if_pos hkey]
      exact htext _ rfl
    · have hany : (w.view p).attempts.rows.any (row.samePending ·) = true := by
        obtain ⟨-, hinvoice', hstatus⟩ := NewAttempt.row_fields hrow
        refine List.any_eq_true.mpr ⟨b, hb, ?_⟩
        simp [PaymentAttempt.samePending, hinvoice', hinvoice, hstatus, hnew, hpending]
      obtain ⟨text, htext⟩ := exists_violate (w := w) (p := p)
        (α := PaymentAttempt) row.pendingViolation
      refine ⟨{ errorText := text }, .integrity text, ?_⟩
      simp only [World.insertAttempt, hrow, if_neg hkey, if_pos hany]
      exact htext _ rfl

end Exec

/-! ### Who is in the way -/

section Waiting

variable {crypto : Crypto} {s t : System} {φ φ' : Pid → Phase} {p q : Pid}

/-- Whoever has locked an attempt has committed it. -/
theorem System.Sound.committed?_of_lock (h : s.Sound crypto φ) {id : Uuid}
    (hlock : s.world.locks ⟨.attempts, id⟩ = some q) :
    ∃ a, (φ q).committed? = some a ∧ a.id = id := by
  have hq : s.Alive q := by
    by_contra hdead
    exact List.not_mem_nil (((h.idle q hdead).locks _).mp hlock)
  have hholds := h.alive q hq
  -- no point fits that has no lock, or only one of an invoice
  have hidle : ∀ {ws}, ¬s.world.HasTx q [] ws :=
    fun htx => List.not_mem_nil ((htx.locks _).mp hlock)
  have hinvoice : ∀ {i ws}, ¬s.world.HasTx q [⟨.invoices, i⟩] ws := fun htx => by
    cases List.mem_singleton.mp ((htx.locks _).mp hlock)
  -- the points that have locked an attempt have locked their own
  have hself : ∀ {a : PaymentAttempt} {ws}, s.world.HasTx q [a.ref] ws → a.id = id := fun htx =>
    (congrArg RowRef.id (List.mem_singleton.mp ((htx.locks _).mp hlock))).symm
  have hboth : ∀ {c : PayCall} {a : PaymentAttempt} {ws}, s.world.HasTx q [c.invoiceRef, a.ref] ws →
      a.id = id := fun htx => by
    rcases List.mem_cons.mp ((htx.locks _).mp hlock) with hr | hr
    · cases hr
    · exact (congrArg RowRef.id (List.mem_singleton.mp hr)).symm
  have hsettling : ∀ {c : PayCall} {a : PaymentAttempt} {http outcome rest},
      Settling s.world q c a http outcome rest → a.id = id := by
    rintro c a http outcome rest ⟨-, update, now, -, ⟨-, now', htx⟩ | ⟨-, htx⟩⟩
    · exact hboth htx
    · exact hself htx
  cases hph : φ q with
  | other =>
    rw [hph] at hholds
    exact absurd rfl (hholds.locks _ hlock).2
  | transition c pt =>
    rw [hph] at hholds
    cases pt with
    | update v => exact absurd hholds.1 hidle
    | reselect v => exact (hinvoice hholds.2.choose_spec).elim
    | commit v x => exact (hinvoice hholds.2.choose_spec).elim
    | _ => exact absurd hholds hidle
  | pay c pt =>
    rw [hph] at hholds
    cases pt with
    | insert v => exact (hinvoice hholds.1).elim
    | reserve v a => exact (hinvoice hholds.1).elim
    | relock v a http result =>
      obtain ⟨-, -, -, update, now, -, htx⟩ := hholds
      exact ⟨a, rfl, hself htx⟩
    | markPaid a http result =>
      obtain ⟨-, -, update, now, -, htx⟩ := hholds
      exact ⟨a, rfl, hboth htx⟩
    | listEndpoints a http result => exact ⟨a, rfl, hsettling hholds⟩
    | readClock a http result endpoints => exact ⟨a, rfl, hsettling hholds.2⟩
    | outbox a http result endpoints now => exact ⟨a, rfl, hsettling hholds.2⟩
    | settle a http outcome endpoints =>
      obtain ⟨rest, -, hs⟩ := hholds
      exact ⟨a, rfl, hsettling hs⟩
    | closing x g => cases hholds.2 _ hlock
    | send v a => exact absurd hholds.1 hidle
    | receive v a => exact absurd hholds.1 hidle
    | refetch v a http outcome => exact absurd hholds.1 hidle
    | record v a http outcome => exact absurd hholds.1 hidle
    | _ => exact absurd hholds hidle

theorem mem_attemptWaits {w : World} {conflicts : PaymentAttempt → Bool}
    (h : q ∈ w.attemptWaits p conflicts) :
    q ≠ p ∧ ∃ x ∈ w.writesOf q, ∃ b ∈ w.touchedAttempts x, conflicts b = true := by
  obtain ⟨⟨q', x⟩, hx, rfl⟩ := List.mem_map.mp h
  obtain ⟨hx, hcond⟩ := List.mem_filter.mp hx
  obtain ⟨hne, hany⟩ := Bool.and_eq_true_iff.mp hcond
  exact ⟨by simpa using hne, x, mem_writesOf.mpr hx, List.any_eq_true.mp hany⟩

/-- **Who touches an attempt of an invoice that another session has locked** is a payment that
has flushed the outcome of its call. -/
theorem System.Sound.touched (h : s.Sound crypto φ) {c : PayCall} (hne : q ≠ p)
    (hp : s.world.locks c.invoiceRef = some p) {x : Write} (hx : x ∈ s.world.writesOf q)
    {b : PaymentAttempt} (hb : b ∈ s.world.touchedAttempts x)
    (hinvoice : b.invoiceId = c.invoiceId) :
    ∃ c' pt a http, s.Alive q ∧ φ q = .pay c' pt ∧ pt.progress = .answered a http ∧
      c'.invoiceId = c.invoiceId := by
  have hq : s.Alive q := by
    by_contra hdead
    rw [(h.idle q hdead).writes] at hx
    cases hx
  cases x with
  | insertAttempt row =>
    -- the other one would have locked the invoice too
    obtain rfl := List.mem_singleton.mp hb
    obtain ⟨c', v, -, hholds⟩ := h.reserving hx
    have hq := (hholds.1.locks _).mpr (List.mem_singleton_self c'.invoiceRef)
    have hsame : c'.invoiceRef = c.invoiceRef := by
      rw [PayCall.invoiceRef, ← hholds.2.2.2.made.invoiceId, hinvoice, PayCall.invoiceRef]
    rw [hsame, hp] at hq
    exact absurd (Option.some.inj hq).symm hne
  | updateAttempt id update now =>
    obtain ⟨-, a, ha, rfl⟩ := h.mayWrite q _ hx
    have hholds := h.alive q hq
    have hgood := h.forGood q
    obtain ⟨row, hrow, hadv⟩ := hgood.row ha
    have hrowInvoice : row.invoiceId = b.invoiceId := by
      simp only [touchedAttempts, hrow, List.mem_cons, List.not_mem_nil, or_false] at hb
      rcases hb with rfl | rfl <;> rfl
    cases hph : φ q with
    | other =>
      rw [hph] at ha
      cases ha
    | transition c' pt =>
      rw [hph] at ha
      cases ha
    | pay c' pt =>
      rw [hph] at hholds ha hgood
      have hempty : ∀ {rs}, ¬s.world.HasTx q rs [] := fun htx => by
        rw [htx.writes] at hx
        cases hx
      have hi : c'.invoiceId = c.invoiceId := by
        obtain ⟨hmade, -⟩ : c'.Made crypto a ∧ True := by
          change pt.progress.Holds crypto s.world q c' at hgood
          change pt.progress.attempt? = some a at ha
          cases hg : pt.progress <;> rw [hg] at hgood ha <;> cases ha <;> exact ⟨hgood.2.1, trivial⟩
        rw [← hmade.invoiceId, hadv.invoiceId, hrowInvoice, hinvoice]
      cases pt with
      | relock v a' http result => exact ⟨c', _, a', http, hq, rfl, rfl, hi⟩
      | markPaid a' http result => exact ⟨c', _, a', http, hq, rfl, rfl, hi⟩
      | listEndpoints a' http result => exact ⟨c', _, a', http, hq, rfl, rfl, hi⟩
      | readClock a' http result endpoints => exact ⟨c', _, a', http, hq, rfl, rfl, hi⟩
      | outbox a' http result endpoints now => exact ⟨c', _, a', http, hq, rfl, rfl, hi⟩
      | settle a' http outcome endpoints => exact ⟨c', _, a', http, hq, rfl, rfl, hi⟩
      | closing x g =>
        rw [hholds.1] at hx
        cases hx
      | send v a' => exact absurd hholds.1 hempty
      | receive v a' => exact absurd hholds.1 hempty
      | refetch v a' http outcome => exact absurd hholds.1 hempty
      | record v a' http outcome => exact absurd hholds.1 hempty
      | insert v => exact absurd hholds.1 hempty
      | reserve v a' => cases ha
      | _ => exact absurd hholds hempty
  | _ => cases hb

/-- The blockers of an insert have an uncommitted write of an attempt of the invoice. -/
theorem touched_of_mem_blockers {w : World} {new : NewAttempt}
    (h : q ∈ w.blockers p (.insertAttempt new)) : q ≠ p ∧ ∃ x ∈ w.writesOf q,
      ∃ b ∈ w.touchedAttempts x, b.invoiceId = new.invoiceId := by
  have hwaits : ∀ {conflicts : PaymentAttempt → Bool},
      (∀ b, conflicts b = true → b.invoiceId = new.invoiceId) → q ∈ w.attemptWaits p conflicts →
      q ≠ p ∧ ∃ x ∈ w.writesOf q, ∃ b ∈ w.touchedAttempts x, b.invoiceId = new.invoiceId := by
    intro conflicts hconflicts hq
    obtain ⟨hne, x, hx, b, hb, hconflict⟩ := mem_attemptWaits hq
    exact ⟨hne, x, hx, b, hb, hconflicts b hconflict⟩
  simp only [blockers] at h
  split at h
  case h_1 => cases h
  case h_2 row hrow =>
    have hinvoice := (NewAttempt.row_fields hrow).2.1
    have hkey : ∀ b, row.sameKey b = true → b.invoiceId = new.invoiceId := by
      intro b hb
      simp only [PaymentAttempt.sameKey, Bool.and_eq_true, decide_eq_true_eq] at hb
      rw [← hb.1, hinvoice]
    have hpending : ∀ b, row.samePending b = true → b.invoiceId = new.invoiceId := by
      intro b hb
      simp only [PaymentAttempt.samePending, Bool.and_eq_true, decide_eq_true_eq] at hb
      rw [← hb.1.1, hinvoice]
    split at h
    case h_1 =>
      split at h
      · cases h
      · exact hwaits hpending h
    case h_2 => exact hwaits hkey h

end Waiting

/-! ### Bringing a session to its end -/

/-- How many statements of a payment are left at most. -/
def PayPoint.remaining : PayPoint → ℕ
  | lookup => 16
  | lock => 15
  | insert _ => 14
  | reserve _ _ => 13
  | send _ _ => 12
  | receive _ _ => 11
  | refetch .. => 10
  | record .. => 9
  | relock .. => 8
  | markPaid .. => 7
  | listEndpoints .. => 6
  | readClock .. => 5
  | outbox .. => 4
  | settle .. => 3
  | undo _ => 3
  | relookup => 2
  | refresh .. => 2
  | closing .. => 1
  | done .. => 0

/-- How many statements of a transition are left at most. -/
def TransitionPoint.remaining : TransitionPoint → ℕ
  | read => 5
  | update _ => 4
  | reselect _ => 3
  | commit .. => 2
  | closing _ => 1
  | done _ => 0

/-- How many statements are left at most of a payment or a transition. -/
def Phase.remaining : Phase → ℕ
  | .pay _ pt => pt.remaining
  | .transition _ pt => pt.remaining
  | .other => 0

/-- **A payment comes nearer to its end with every statement.** -/
theorem PayPoint.remaining_next {crypto : Crypto} {c : PayCall} {pt : PayPoint} {st : Stmt}
    {next : st.Resp → PayPoint} (hout : pt.out crypto c = .op st next) (r : st.Resp) :
    (next r).remaining < pt.remaining := by
  cases pt <;> cases hout
  all_goals
    try dsimp only [PayPoint.recorded]
    repeat' split
    all_goals
      simp only [remaining]
      omega

theorem TransitionPoint.remaining_next {c : TransitionCall} {pt : TransitionPoint} {st : Stmt}
    {next : st.Resp → TransitionPoint} (hout : pt.out c = .op st next) (r : st.Resp) :
    (next r).remaining < pt.remaining := by
  cases pt <;> cases hout
  all_goals
    dsimp only
    repeat' split
    all_goals
      simp only [remaining]
      omega

/-- A payment or a transition comes nearer to its end with every statement. -/
theorem Phase.Next.remaining {crypto : Crypto} {ph ph' : Phase} {st : Stmt} {r : st.Resp}
    (h : ph.Next crypto st r ph') (hother : ph ≠ .other) : ph'.remaining < ph.remaining := by
  cases h with
  | pay hout r => exact PayPoint.remaining_next hout r
  | transition hout r => exact TransitionPoint.remaining_next hout r
  | other _ r => exact absurd rfl hother

/-- A step that starts nothing and kills nobody, does not abort the session, and answers no
charge request. -/
def Drives (p : Pid) (s : System) : Event → Prop
  | .exec q _ => s.next? q ≠ some .awaitCharge
  | .abort q _ => q ≠ p
  | _ => False

section Drive

variable {crypto : Crypto} {s t : System} {φ φ' : Pid → Phase} {p q : Pid} {c : PayCall}

/-- A statement that is executed. -/
theorem System.Sound.exec (h : s.Sound crypto φ) {st : Stmt} (hnext : s.next? q = some st)
    {env : Env} {r : st.Resp} {w' : World} (hexec : s.world.exec q env st = some (r, w')) :
    ∃ t ph, s.step crypto (.exec q env) = some t ∧ t.world = w' ∧ (φ q).Next crypto st r ph ∧
      t.Sound crypto (Function.update φ q ph) ∧ ∀ x, s.Alive x → t.Alive x := by
  obtain ⟨job, k, hproc⟩ := System.next?_eq_some.mp hnext
  obtain ⟨ph, hph⟩ := (h.tracks q _ hproc).exists_next r
  refine ⟨⟨w', s.procs.set q ⟨job, k r, true⟩⟩, ph, ?_, rfl, hph,
    h.answer hproc (.exec env hexec) hph, ?_⟩
  · simp only [System.step, hproc, hexec]
    rfl
  · rintro x ⟨proc, hx, halive⟩
    by_cases hqx : q = x
    · subst hqx
      exact ⟨_, System.getElem?_replace_self hproc, rfl⟩
    · exact ⟨proc, (System.getElem?_replace_of_ne hqx).trans hx, halive⟩

/-- A statement that the deadlock detector makes fail. -/
theorem System.Sound.abort (h : s.Sound crypto φ) {st : Stmt} (hnext : s.next? q = some st)
    {cycle : List Pid} (hcycle : IsCycle s.Waits (q :: cycle)) {r : st.Resp} {w' : World}
    (hfail : s.world.fail q .deadlockDetected st = some (r, w')) :
    ∃ t ph, s.step crypto (.abort q cycle) = some t ∧ t.world = w' ∧ (φ q).Next crypto st r ph ∧
      t.Sound crypto (Function.update φ q ph) ∧ ∀ x, s.Alive x → t.Alive x := by
  obtain ⟨job, k, hproc⟩ := System.next?_eq_some.mp hnext
  obtain ⟨ph, hph⟩ := (h.tracks q _ hproc).exists_next r
  refine ⟨⟨w', s.procs.set q ⟨job, k r, true⟩⟩, ph, ?_, rfl, hph,
    h.answer hproc (.fail _ hfail) hph, ?_⟩
  · simp only [System.step, if_pos hcycle, hproc, hfail]
    rfl
  · rintro x ⟨proc, hx, halive⟩
    by_cases hqx : q = x
    · subst hqx
      exact ⟨_, System.getElem?_replace_self hproc, rfl⟩
    · exact ⟨proc, (System.getElem?_replace_of_ne hqx).trans hx, halive⟩

/-- An alive payment that is not done has a next statement. -/
theorem System.Sound.exists_next? (h : s.Sound crypto φ) (hp : s.Alive p) {pt : PayPoint}
    (hph : φ p = .pay c pt) (hdone : ∀ x g, pt ≠ .done x g) :
    ∃ st next, pt.out crypto c = .op st next ∧ s.next? p = some st := by
  have hout : ∃ st next, pt.out crypto c = .op st next := by
    cases pt with
    | done x g => exact absurd rfl (hdone x g)
    | _ => exact ⟨_, _, rfl⟩
  obtain ⟨st, next, hout⟩ := hout
  exact ⟨st, next, hout, h.next?_of_out hp hph hout⟩

/-- **What a payment does after its call can be executed**, if nobody else has locked the
invoice that it is about to lock again. -/
theorem System.Sound.exists_exec (h : s.Sound crypto φ) (hp : s.Alive p) {pt : PayPoint}
    (hph : φ p = .pay c pt) (hremaining : pt.remaining ≤ 10) {st : Stmt} {next : st.Resp → PayPoint}
    (hout : pt.out crypto c = .op st next)
    (hfree : st = .lockInvoice c.invoiceId none → s.world.lockWaits p c.invoiceRef = []) :
    st ≠ .awaitCharge ∧ ∃ env r w', s.world.exec p env st = some (r, w') := by
  suffices hwait : st ≠ .awaitCharge ∧ s.world.blockers p st = [] by
    obtain ⟨env, -, hexec⟩ := exists_exec_of_free s.world p .timeout hwait.2
    exact ⟨hwait.1, env, hexec⟩
  have hholds := h.alive p hp
  have hgood := h.forGood p
  rw [hph] at hholds hgood
  cases pt with
  | lookup => simp [PayPoint.remaining] at hremaining
  | lock => simp [PayPoint.remaining] at hremaining
  | insert v => simp [PayPoint.remaining] at hremaining
  | reserve v a => simp [PayPoint.remaining] at hremaining
  | send v a => simp [PayPoint.remaining] at hremaining
  | receive v a => simp [PayPoint.remaining] at hremaining
  | refetch v a http outcome =>
    cases hout
    exact ⟨by simp, rfl⟩
  | record v a http outcome =>
    cases hout
    refine ⟨by simp, lockWaits_eq_nil.mpr fun q hq => ?_⟩
    obtain ⟨b, hb, hid⟩ := h.committed?_of_lock hq
    exact h.owner q p b a hb (by rw [hph]; rfl) hid
  | relock v a http result =>
    cases hout
    refine ⟨by simp, ?_⟩
    simp only [World.blockers]
    split
    · split
      · exact hfree rfl
      · rfl
    · rfl
  | markPaid a http result =>
    cases hout
    obtain ⟨-, -, update, now, -, htx⟩ := hholds
    refine ⟨by simp, ?_⟩
    have hlock := (htx.locks c.invoiceRef).mpr List.mem_cons_self
    exact lockWaits_eq_nil.mpr fun q hq => (Option.some.inj (hq.symm.trans hlock))
  | done x g => cases hout
  | _ =>
    cases hout
    exact ⟨by simp, rfl⟩

/-- Two payments of one invoice have not both been told the outcome of a call. -/
theorem System.Sound.eq_of_answered (h : s.Sound crypto φ) {c' : PayCall} {pt pt' : PayPoint}
    {a a' : PaymentAttempt} {http http' : HttpResult} (hp : φ p = .pay c pt)
    (hg : pt.progress = .answered a http) (hq : φ q = .pay c' pt')
    (hg' : pt'.progress = .answered a' http') (hi : c'.invoiceId = c.invoiceId) : q = p := by
  have hgood := h.forGood p
  have hgood' := h.forGood q
  rw [hp] at hgood
  rw [hq] at hgood'
  change pt.progress.Holds crypto s.world p c at hgood
  change pt'.progress.Holds crypto s.world q c' at hgood'
  rw [hg] at hgood
  rw [hg'] at hgood'
  obtain ⟨-, hmade, hfind⟩ := hgood
  obtain ⟨-, hmade', hfind'⟩ := hgood'
  have hsame : a' = a := by
    refine h.pending a' (Table.find?_eq_some.mp hfind').1 a (Table.find?_eq_some.mp hfind).1 ?_
    simp [PaymentAttempt.samePending, hmade.invoiceId, hmade'.invoiceId, hi, hmade.status,
      hmade'.status]
  refine h.owner q p a' a ?_ ?_ (congrArg _ hsame)
  · rw [hq]
    exact congrArg Progress.attempt? hg'
  · rw [hp]
    exact congrArg Progress.attempt? hg

/-- The session that has locked an invoice is about to read, to end its transaction, or to
insert an attempt of the invoice, if another payment has been told of the outcome of its call for
the invoice. -/
theorem System.Sound.holder (h : s.Sound crypto φ) {pt : PayPoint} {a : PaymentAttempt}
    {http : HttpResult} (hph : φ p = .pay c pt) (hg : pt.progress = .answered a http)
    (hlock : s.world.locks c.invoiceRef = some q) (hne : q ≠ p) :
    φ q ≠ .other ∧ ∃ st, s.next? q = some st ∧
      ((∃ qu, st = .select qu) ∨ st = .commit ∨ st = .rollback ∨
        ∃ c' v, φ q = .pay c' (.insert v) ∧ c'.invoiceId = c.invoiceId ∧
          st =
            .insertAttempt (newAttempt crypto v c'.invoiceId c'.cardToken c'.idempotencyKey)) := by
  have hq : s.Alive q := by
    by_contra hdead
    exact List.not_mem_nil (((h.idle q hdead).locks _).mp hlock)
  have hholds := h.alive q hq
  have hidle : ∀ {ws}, ¬s.world.HasTx q [] ws := fun htx =>
    List.not_mem_nil ((htx.locks _).mp hlock)
  have hrow : ∀ {a : PaymentAttempt} {ws}, ¬s.world.HasTx q [a.ref] ws := fun htx => by
    cases List.mem_singleton.mp ((htx.locks _).mp hlock)
  have hinvoice : ∀ {c' : PayCall} {a : PaymentAttempt} {ws},
      s.world.HasTx q [c'.invoiceRef, a.ref] ws → c'.invoiceId = c.invoiceId := fun htx => by
    rcases List.mem_cons.mp ((htx.locks _).mp hlock) with hr | hr
    · exact (congrArg RowRef.id hr).symm
    · cases List.mem_singleton.mp hr
  cases hphq : φ q with
  | other =>
    rw [hphq] at hholds
    exact absurd rfl (hholds.locks _ hlock).1
  | transition c' pt' =>
    rw [hphq] at hholds
    refine ⟨by simp, ?_⟩
    cases pt' with
    | reselect v => exact ⟨_, h.next?_of_out_transition hq hphq rfl, Or.inl ⟨_, rfl⟩⟩
    | commit v x => exact ⟨_, h.next?_of_out_transition hq hphq rfl, Or.inr (Or.inl rfl)⟩
    | update v => exact absurd hholds.1 hidle
    | _ => exact absurd hholds hidle
  | pay c' pt' =>
    rw [hphq] at hholds
    refine ⟨by simp, ?_⟩
    -- no other payment has been told an outcome for the invoice
    have hanswered : ∀ {a' http'}, pt'.progress = .answered a' http' →
        c'.invoiceId = c.invoiceId → False := fun hg' hi =>
      hne (h.eq_of_answered hph hg hphq hg' hi)
    have hsettling : ∀ {a' http' outcome rest}, pt'.progress = .answered a' http' →
        ¬Settling s.world q c' a' http' outcome rest := by
      rintro a' http' outcome rest hg' ⟨-, update, now, -, ⟨-, now', htx⟩ | ⟨-, htx⟩⟩
      · exact hanswered hg' (hinvoice htx)
      · exact hrow htx
    cases pt' with
    | insert v =>
      refine ⟨_, h.next?_of_out hq hphq rfl, Or.inr (Or.inr (Or.inr ⟨c', v, rfl, ?_, rfl⟩))⟩
      exact (congrArg RowRef.id (List.mem_singleton.mp ((hholds.1.locks _).mp hlock))).symm
    | reserve v a' => exact ⟨_, h.next?_of_out hq hphq rfl, Or.inr (Or.inl rfl)⟩
    | closing x g => exact ⟨_, h.next?_of_out hq hphq rfl, Or.inr (Or.inr (Or.inl rfl))⟩
    | send v a' => exact absurd hholds.1 hidle
    | receive v a' => exact absurd hholds.1 hidle
    | refetch v a' http' outcome => exact absurd hholds.1 hidle
    | record v a' http' outcome => exact absurd hholds.1 hidle
    | relock v a' http' result =>
      obtain ⟨-, -, -, update, now, -, htx⟩ := hholds
      exact absurd htx hrow
    | markPaid a' http' result =>
      obtain ⟨-, -, update, now, -, htx⟩ := hholds
      exact (hanswered rfl (hinvoice htx)).elim
    | listEndpoints a' http' result => exact absurd hholds (hsettling rfl)
    | readClock a' http' result endpoints => exact absurd hholds.2 (hsettling rfl)
    | outbox a' http' result endpoints now => exact absurd hholds.2 (hsettling rfl)
    | settle a' http' outcome endpoints =>
      obtain ⟨rest, -, hs⟩ := hholds
      exact absurd hs (hsettling rfl)
    | _ => exact absurd hholds hidle

/-- Whoever is to lock the invoice of its attempt again waits for the session that has locked it. -/
theorem System.Sound.waits_of_relock (h : s.Sound crypto φ) (hp : s.Alive p) {v : Invoice}
    {a : PaymentAttempt} {http : HttpResult} {result : PspChargeResult}
    (hph : φ p = .pay c (.relock v a http result)) (hlock : s.world.locks c.invoiceRef = some q)
    (hne : q ≠ p) : s.Waits p q := by
  have hholds := h.alive p hp
  have hgood := h.forGood p
  rw [hph] at hholds hgood
  obtain ⟨-, -, -, update, now, -, htx⟩ := hholds
  refine System.mem_blockers.mpr ⟨_, h.next?_of_out hp hph rfl, ?_⟩
  have hex := h.invoice a (Table.find?_eq_some.mp hgood.2.2).1
  rw [hgood.2.1.invoiceId] at hex
  obtain ⟨row, hrow⟩ := Option.ne_none_iff_exists'.mp hex
  have hview := (find?_view_of_attempt htx c.invoiceId).trans hrow
  simp only [World.blockers, hview, Invoice.belongsTo, Option.all_none, if_true]
  rw [PayCall.invoiceRef] at hlock
  simp [lockWaits, hlock, hne]

/-- **The lock comes nearer to its release**: if a payment waits for the lock of its invoice, the
session that has it can go on, or is aborted because it waits for the payment in turn. -/
theorem System.Sound.unlock_step (h : s.Sound crypto φ) (hp : s.Alive p) {v : Invoice}
    {a : PaymentAttempt} {http : HttpResult} {result : PspChargeResult}
    (hph : φ p = .pay c (.relock v a http result)) (hlock : s.world.locks c.invoiceRef = some q)
    (hne : q ≠ p) :
    ∃ e t ph, Drives p s e ∧ s.step crypto e = some t ∧ t.Sound crypto (Function.update φ q ph) ∧
      t.Alive p ∧ (∀ q', t.world.locks c.invoiceRef = some q' → q' = q) ∧
        ph.remaining < (φ q).remaining := by
  obtain ⟨hother, st, hnext, hst⟩ := h.holder hph rfl hlock hne
  have hlocks : ∀ {r : st.Resp} {w' : World}, s.world.Answers q st r w' →
      ∀ q', w'.locks c.invoiceRef = some q' → q' = q := by
    intro r w' hans q' hq'
    by_contra hne'
    rw [(hans.acts.frame (Ne.symm hne')).locks, hlock] at hq'
    exact hne' (Option.some.inj hq').symm
  have hexec : ∀ {env r w'}, st ≠ .awaitCharge → s.world.exec q env st = some (r, w') →
      ∃ e t ph, Drives p s e ∧ s.step crypto e = some t ∧ t.Sound crypto (Function.update φ q ph) ∧
        t.Alive p ∧ (∀ q', t.world.locks c.invoiceRef = some q' → q' = q) ∧
          ph.remaining < (φ q).remaining := by
    intro env r w' hawait hexec
    obtain ⟨t, ph, hstep, rfl, hph', hsound, halive⟩ := h.exec hnext hexec
    refine ⟨_, t, ph, ?_, hstep, hsound, halive p hp, hlocks (.exec env hexec),
      hph'.remaining hother⟩
    rw [Drives, hnext]
    exact fun heq => hawait (Option.some.inj heq)
  rcases hst with ⟨qu, rfl⟩ | rfl | rfl | ⟨c', v', hphq, hi, rfl⟩
  · exact hexec (by simp) (@exec_of_perform s.world q {} _ _ rfl rfl)
  · exact hexec (by simp) (@exec_of_perform s.world q {} _ _ rfl rfl)
  · exact hexec (by simp) (@exec_of_perform s.world q {} _ _ rfl rfl)
  · set new := newAttempt crypto v' c'.invoiceId c'.cardToken c'.idempotencyKey with hnew
    have hgood := h.forGood p
    rw [hph] at hgood
    by_cases hfree : s.world.blockers q (.insertAttempt new) = []
    · -- the insert meets the pending attempt
      have hholds := h.alive q (System.alive_of_next? hnext)
      rw [hphq] at hholds
      obtain ⟨env, e, herror⟩ := exists_exec_insertAttempt (b := a) hfree rfl
        (by rw [hholds.1.view]; exact (Table.find?_eq_some.mp hgood.2.2).1)
        (hgood.2.1.invoiceId.trans hi.symm) hgood.2.1.status
      exact hexec (by simp) herror
    · -- the insert waits for the flushed attempt: the two sessions wait for each other
      obtain ⟨q', hq'⟩ := List.exists_mem_of_ne_nil _ hfree
      obtain ⟨hne', x, hx, b, hb, hinvoice⟩ := touched_of_mem_blockers hq'
      have hlock' : s.world.locks c'.invoiceRef = some q := by
        rw [PayCall.invoiceRef, hi]
        exact hlock
      obtain ⟨c'', pt'', a'', http'', -, hph'', hg'', hi''⟩ := h.touched hne' hlock' hx hb hinvoice
      obtain rfl : q' = p := h.eq_of_answered hph rfl hph'' hg'' (hi''.trans hi)
      have hcycle : IsCycle s.Waits (q :: [q']) := by
        refine List.IsChain.cons_cons (System.mem_blockers.mpr ⟨_, hnext, hq'⟩) ?_
        exact List.IsChain.cons_cons (h.waits_of_relock hp hph hlock hne) (.singleton q)
      obtain ⟨t, ph, hstep, ht, hph', hsound, halive⟩ := h.abort hnext hcycle rfl
      refine ⟨.abort q _, t, ph, hne, hstep, hsound, halive _ hp, ?_, hph'.remaining hother⟩
      rw [ht]
      exact hlocks (.fail .deadlockDetected rfl)

/-- **Whoever has locked the invoice of a payment that is to lock it again can be made to
release it.** -/
theorem System.Sound.unlock (h : s.Sound crypto φ) (hp : s.Alive p) {v : Invoice}
    {a : PaymentAttempt} {http : HttpResult} {result : PspChargeResult}
    (hph : φ p = .pay c (.relock v a http result)) :
    ∃ t, Reaches (System.step crypto) (Drives p) s t ∧ ∃ ψ, t.Sound crypto ψ ∧ t.Alive p ∧
      ψ p = φ p ∧ t.world.lockWaits p c.invoiceRef = [] := by
  by_cases hfree : s.world.lockWaits p c.invoiceRef = []
  · exact ⟨s, .refl, φ, h, hp, rfl, hfree⟩
  obtain ⟨q, hq⟩ := List.exists_mem_of_ne_nil _ hfree
  obtain ⟨hlock, hne⟩ := mem_lockWaits.mp hq
  refine Reaches.exists_of_rank (n := (φ q).remaining)
    (I := fun u n => ∃ ψ, u.Sound crypto ψ ∧ u.Alive p ∧ ψ p = φ p ∧
      (∀ q', u.world.locks c.invoiceRef = some q' → q' = q) ∧ (ψ q).remaining = n)
    ⟨φ, h, hp, rfl, fun q' hq' => ?_, rfl⟩ ?_
  · exact (Option.some.inj (hlock.symm.trans hq')).symm
  · rintro u n ⟨ψ, hu, hpu, hψ, honly, rfl⟩
    by_cases hlock : u.world.locks c.invoiceRef = some q
    · obtain ⟨e, w, ph, hdrives, hstep, hw, hpw, hlocks, hlt⟩ :=
        hu.unlock_step hpu (hψ.trans hph) hlock hne
      refine Or.inr ⟨w, _, hlt, .single ⟨e, hdrives, hstep⟩, _, hw, hpw, ?_, hlocks, ?_⟩
      · rw [Function.update_of_ne hne.symm, hψ]
      · rw [Function.update_self]
    · refine Or.inl ⟨ψ, hu, hpu, hψ, lockWaits_eq_nil.mpr fun q' hq' => ?_⟩
      exact absurd (honly q' hq' ▸ hq') hlock

end Drive

end TenantBilling
