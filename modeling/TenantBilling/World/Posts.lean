import TenantBilling.World.Answers

/-!
# Deliveries and their posts

What a poll learns from the answers to its statements: the deliveries it claims are due, committed
as it sees them, and from then on locked by it (`TenantBilling.World.Due`), an update of a
delivery is refused only for a text that does not fit its column, and no statement but a `POST`
is recorded as one (`TenantBilling.World.Answers.posts`).
-/

namespace TenantBilling

open Base

/-- The row of a delivery. -/
def WebhookDelivery.ref (d : WebhookDelivery) : RowRef := ⟨.deliveries, d.id⟩

/-- The statement is a `POST`. -/
def Stmt.IsPost : Stmt → Prop
  | post .. => True
  | _ => False

theorem Database.find?_deliveries_eq {db db' : Database} {i : Uuid}
    (h : db'.row ⟨.deliveries, i⟩ = db.row ⟨.deliveries, i⟩) :
    db'.deliveries.find? i = db.deliveries.find? i :=
  Option.map_injective (fun _ _ => Row.delivery.inj) h

namespace World

/-- The posts that a session has made. -/
def postsOf (w : World) (p : Pid) : List Post := w.posts.filter fun x => x.pid = p

/-- The posts of a delivery. -/
def postsFor (w : World) (id : Uuid) : List Post := w.posts.filter fun x => x.deliveryId = id

variable {w w' : World} {p : Pid}

/-! ### Claims -/

/-- **The deliveries are due at a time**, and no other session holds them. -/
structure Due (w : World) (p : Pid) (now : Timestamp) (batch : List WebhookDelivery) : Prop where
  nodup : (batch.map WebhookDelivery.id).Nodup
  row : ∀ d ∈ batch, (w.view p).deliveries.find? d.id = some d
  pending : ∀ d ∈ batch, d.status = .pending
  time : ∀ d ∈ batch, ∃ due, d.nextAttemptAt = some due ∧ due ≤ now
  free : ∀ d ∈ batch, w.lockWaits p d.ref = []

/-- What is claimed is due, pending and locked by nobody else. -/
theorem due_dueDeliveries (w : World) (p : Pid) (rank : Uuid → ℕ) (now : Timestamp) (limit : ℕ) :
    w.Due p now (w.dueDeliveries p rank now limit) := by
  have hmem : ∀ d ∈ w.dueDeliveries p rank now limit, d ∈ (w.view p).deliveries ∧
      d.status = .pending ∧ ∃ due, d.nextAttemptAt = some due ∧ due ≤ now := by
    intro d hd
    have hd := List.mem_of_mem_take hd
    rw [List.mem_insertionSort, List.mem_filter] at hd
    obtain ⟨hrow, hd⟩ := hd
    simp only [Bool.and_eq_true, decide_eq_true_eq] at hd
    obtain ⟨due, hdue, hle⟩ := (Option.any_eq_true _ _).mp hd.1.2
    exact ⟨hrow, hd.1.1, due, hdue, by simpa using hle⟩
  refine ⟨?_, fun d hd => Table.find?_key (hmem d hd).1, fun d hd => (hmem d hd).2.1,
    fun d hd => (hmem d hd).2.2, fun d hd => lockWaits_of_mem_due hd⟩
  have hnodup : (((w.view p).deliveries.rows.filter fun d => d.status = .pending &&
      d.nextAttemptAt.any (· ≤ now) && (w.lockWaits p ⟨.deliveries, d.id⟩).isEmpty).map
        WebhookDelivery.id).Nodup :=
    (w.view p).deliveries.nodup.sublist (List.filter_sublist.map _)
  refine List.Nodup.sublist ((List.take_sublist _ _).map _) ?_
  exact ((List.perm_insertionSort _ _).map _).nodup_iff.mpr hnodup

/-- The world after a session has locked several deliveries. -/
def lockAll (w : World) (p : Pid) (batch : List WebhookDelivery) : World :=
  batch.foldl (fun w d => w.lock p ⟨.deliveries, d.id⟩) w

theorem lockAll_eq (batch : List WebhookDelivery) (w : World) (p : Pid) :
    w.lockAll p batch =
      { w with
        locks := fun r => if r ∈ batch.map WebhookDelivery.ref then some p else w.locks r } := by
  induction batch generalizing w with
  | nil => simp [lockAll]
  | cons d batch ih =>
    change (w.lock p d.ref).lockAll p batch = _
    rw [ih]
    simp only [lock, List.map_cons, List.mem_cons]
    congr 1
    funext r
    by_cases hr : r = d.ref <;> by_cases hmem :
      r ∈ batch.map WebhookDelivery.ref <;> simp [hr, hmem]

/-- **A claim locks the deliveries it brings**, which are due. -/
theorem answers_claimDeliveries {now : Timestamp} {limit : ℕ} {batch : List WebhookDelivery}
    (h : Answers w p (.claimDeliveries now limit) batch w') :
    w.Due p now batch ∧ w' = w.lockAll p batch := by
  cases h with
  | exec env h =>
    obtain ⟨rfl, rfl⟩ := Prod.mk.inj (Option.some.inj (exec_eq_some.mp h).2)
    exact ⟨due_dueDeliveries .., rfl⟩
  | fail e h => cases h

/-! ### Updates and posts -/

/-- What the answer to an update of a delivery tells. -/
def UpdateDeliveryAnswer (w : World) (p : Pid) (id : Uuid) (change : DeliveryChange) (w' : World) :
    Except DbError Unit → Prop
  | .error _ => w' = w.release p
  | .ok () => ∃ update, change.bind = .ok update ∧
      w' = (w.lock p ⟨.deliveries, id⟩).write p (.updateDelivery id update)

/-- An update of a delivery writes what was assigned, or is refused for it. -/
theorem answers_updateDelivery {id : Uuid} {change : DeliveryChange} {r : Except DbError Unit}
    (h : Answers w p (.updateDelivery id change) r w') :
    UpdateDeliveryAnswer w p id change w' r := by
  cases h with
  | exec env h =>
    have h := (exec_eq_some.mp h).2
    cases hb : change.bind with
    | ok update =>
      simp only [perform, hb] at h
      obtain ⟨rfl, rfl⟩ := Prod.mk.inj (Option.some.inj h)
      exact ⟨update, hb, rfl⟩
    | error e =>
      simp only [perform, hb] at h
      obtain ⟨rfl, rfl⟩ := Prod.mk.inj (Option.some.inj h)
      rfl
  | fail e h =>
    obtain ⟨rfl, rfl⟩ := Prod.mk.inj (Option.some.inj h)
    rfl

/-- A post is noted with the answer of its receiver. -/
theorem answers_post {id : Uuid} {url body : String} {headers : List (String × String)}
    {http : HttpResult} (h : Answers w p (.post id url body headers) http w') :
    w' = { w with posts := w.posts ++ [⟨p, id, url, body, headers, http⟩] } := by
  cases h with
  | exec env h =>
    obtain ⟨rfl, rfl⟩ := Prod.mk.inj (Option.some.inj (exec_eq_some.mp h).2)
    rfl
  | fail e h => cases h

/-- A statement that is not a `POST` records none. -/
theorem posts_of_perform {env : Env} {st : Stmt} {r : st.Resp}
    (h : w.perform p env st = some (r, w')) (hst : ¬st.IsPost) : w'.posts = w.posts := by
  -- an insert is rejected, violates a constraint, or goes through with a fresh id
  have hrejected : ∀ {α : Type} {e : RowError} {x : Except DbError α × World},
      w.reject p env e = some x → x.2.posts = w.posts := by
    intro α e x hx
    obtain ⟨err, rfl⟩ := reject_eq_some hx
    rfl
  have hviolated : ∀ {α : Type} {v : Violation} {x : Except DbError α × World},
      w.violate p env v = some x → x.2.posts = w.posts := by
    intro α v x hx
    obtain ⟨-, rfl⟩ := violate_eq_some hx
    rfl
  have hguarded : ∀ {α : Type} {P : Prop} [Decidable P] {x y : Except DbError α × World},
      (if P then some y else none) = some x → y.2.posts = w.posts → x.2.posts = w.posts := by
    intro α P _ x y hx hy
    split at hx
    · rwa [← Option.some.inj hx]
    · cases hx
  cases st with
  | post id url body headers => exact absurd trivial hst
  | lockInvoice id businessId =>
    have hw := congrArg Prod.snd (Option.some.inj h)
    rw [← show _ = w' from hw]
    unfold lockInvoice
    split
    · split <;> rfl
    · rfl
  | claimDeliveries now limit =>
    obtain ⟨-, rfl⟩ := Prod.mk.inj (Option.some.inj h)
    change (w.lockAll p (w.dueDeliveries p env.rank now limit)).posts = _
    rw [lockAll_eq]
  | insertCustomer businessId name email =>
    simp only [perform, insertCustomer] at h
    split at h
    · exact hrejected h
    · split at h
      · exact hviolated h
      · exact hguarded h rfl
  | insertInvoice new =>
    simp only [perform, insertInvoice] at h
    split at h
    · exact hrejected h
    · exact hguarded h rfl
  | insertLineItems invoiceId new =>
    simp only [perform, insertLineItems] at h
    split at h
    · exact hrejected h
    · exact hguarded h rfl
  | insertAttempt new =>
    rcases insertAttempt_eq_some h with ⟨e, hx⟩ | ⟨a, hx, -⟩
    · rw [(Prod.mk.inj hx).2]
      rfl
    · rw [(Prod.mk.inj hx).2]
      rfl
  | insertEndpoint businessId url secret =>
    simp only [perform, insertEndpoint] at h
    split at h
    · exact hrejected h
    · exact hguarded h rfl
  | insertDeliveries new => exact hguarded h rfl
  | updateAttempt id change =>
    simp only [perform] at h
    split at h <;> (obtain ⟨-, rfl⟩ := Prod.mk.inj (Option.some.inj h); rfl)
  | updateDelivery id change =>
    simp only [perform] at h
    split at h <;> (obtain ⟨-, rfl⟩ := Prod.mk.inj (Option.some.inj h); rfl)
  | _ =>
    obtain ⟨-, rfl⟩ := Prod.mk.inj (Option.some.inj h)
    rfl

/-- **Only a `POST` is recorded as one.** -/
theorem Answers.posts {st : Stmt} {r : st.Resp} (h : Answers w p st r w') (hst : ¬st.IsPost) :
    w'.posts = w.posts := by
  cases h with
  | exec env h => exact posts_of_perform (exec_eq_some.mp h).2 hst
  | fail e h =>
    rw [acts_of_fail h]
    rfl

end World

end TenantBilling
