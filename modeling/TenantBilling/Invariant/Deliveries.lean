import TenantBilling.Invariant.Polling
import TenantBilling.Invariant.Transactions

/-!
# The deliveries and their posts

What holds of the committed deliveries and of the posts in every state
(`TenantBilling.World.Delivering`): the columns of a delivery agree with its status, its counter
is the number of its posts in polls that have committed, and a delivered one has been accepted
by its last post. A post concerns a delivery that is committed and pending, and locked by
the poll that posts it, and so are no two posts of one poll.
-/

namespace TenantBilling

open Base World

/-! ### What becomes of a delivery -/

/-- The row of a delivery once what became of it is stored. -/
def Handled.Became (h : Handled) (d : WebhookDelivery) : Prop :=
  ∃ update, (h.handling.change h.delivery).bind = .ok update ∧ d = h.delivery.update update

/-- **The columns of a delivery agree with its status.** -/
def WebhookDelivery.Regular (d : WebhookDelivery) : Prop :=
  match d.status with
  | .pending => d.attempts < maxAttempts ∧ d.nextAttemptAt ≠ none
  | .delivered => 1 ≤ d.attempts ∧ d.attempts ≤ maxAttempts ∧ d.deliveredAt ≠ none
  | .exhausted => d.attempts = maxAttempts

section Became

variable {h : Handled} {d : WebhookDelivery}

/-- Whatever the answer to its `POST`, the delivery has one attempt more. -/
inductive Handled.Counts (h : Handled) (d : WebhookDelivery) (http : HttpResult) : Prop where
  | delivered (hok : deliveryError http = none) (hstatus : d.status = .delivered)
    (hat : d.deliveredAt ≠ none)
  | exhausted {error : String} (herror : deliveryError http = some error)
    (hlast : maxAttempts ≤ d.attempts) (hstatus : d.status = .exhausted)
  | retried {error : String} (herror : deliveryError http = some error)
    (hlast : d.attempts < maxAttempts) (hstatus : d.status = h.delivery.status)
    (hat : d.nextAttemptAt ≠ none)

theorem Handled.Became.id (hb : h.Became d) : d.id = h.delivery.id := by
  obtain ⟨update, -, rfl⟩ := hb
  rfl

theorem Handled.Became.counts (hb : h.Became d) (hfair : h.Fair) :
    ∃ http, h.handling.answer? = some http ∧ d.attempts = h.delivery.attempts + 1 ∧
      h.Counts d http := by
  obtain ⟨update, hbind, rfl⟩ := hb
  obtain ⟨d, handling⟩ := h
  cases handling with
  | missing => exact hfair.elim
  | delivered http now =>
    obtain rfl := Except.ok.inj hbind
    exact ⟨http, rfl, rfl, .delivered hfair rfl (by rintro ⟨⟩)⟩
  | exhausted http error =>
    obtain ⟨herror, hlast⟩ := hfair
    simp only [Handling.change, DeliveryChange.bind, storeIfSet, Json.store, Option.map_some,
      Option.getD_some] at hbind
    cases hfits : Varchar.ofString? 2000 error with
    | none =>
      rw [hfits] at hbind
      cases hbind
    | some lastError =>
      rw [hfits] at hbind
      obtain rfl := Except.ok.inj hbind
      exact ⟨http, rfl, rfl, .exhausted herror hlast rfl⟩
  | retried http error now =>
    obtain ⟨herror, hlast⟩ := hfair
    simp only [Handling.change, DeliveryChange.bind, storeIfSet, Json.store, Option.map_some,
      Option.getD_some] at hbind
    cases hfits : Varchar.ofString? 2000 error with
    | none =>
      rw [hfits] at hbind
      cases hbind
    | some lastError =>
      rw [hfits] at hbind
      obtain rfl := Except.ok.inj hbind
      exact ⟨http, rfl, rfl, .retried herror hlast rfl (by rintro ⟨⟩)⟩

/-- A pending delivery that has been handled is regular. -/
theorem Handled.Became.regular (hb : h.Became d) (hfair : h.Fair)
    (hpending : h.delivery.status = .pending) (hregular : h.delivery.Regular) : d.Regular := by
  obtain ⟨http, -, hattempts, hcounts⟩ := hb.counts hfair
  rw [WebhookDelivery.Regular, hpending] at hregular
  have hlt : h.delivery.attempts < maxAttempts := hregular.1
  unfold WebhookDelivery.Regular
  cases hcounts with
  | delivered hok hstatus hat =>
    rw [hstatus, hattempts]
    exact ⟨Nat.le_add_left _ _, hlt, hat⟩
  | exhausted herror hlast hstatus =>
    rw [hstatus]
    exact Nat.le_antisymm (hattempts ▸ hlt) hlast
  | retried herror hlast hstatus hat =>
    rw [hstatus, hpending]
    exact ⟨hlast, hat⟩

end Became

theorem Handled.id_mem {past : List Handled} {h : Handled} (hh : h ∈ past) :
    h.delivery.id ∈ past.map fun h => h.delivery.id :=
  List.mem_map.mpr ⟨h, hh, rfl⟩

/-! ### What a transaction does to the deliveries -/

section Writes

variable {db : Database} {ws : List Write}

/-- **The transaction of a poll** rewrites the deliveries of its batch, and no others. -/
theorem Database.find?_stores {past : List Handled} (hws : List.Forall₂ Handled.Stores past ws)
    (hnodup : (past.map fun h => h.delivery.id).Nodup)
    (hrow : ∀ h ∈ past, db.deliveries.find? h.delivery.id = some h.delivery) :
    (∀ h ∈ past, ∃ d, (db.applyAll ws).deliveries.find? h.delivery.id = some d ∧ h.Became d) ∧
      ∀ i, i ∉ past.map (fun h => h.delivery.id) →
        (db.applyAll ws).deliveries.find? i = db.deliveries.find? i := by
  induction hws generalizing db with
  | nil => exact ⟨by rintro _ ⟨⟩, fun _ _ => rfl⟩
  | @cons h x past ws hx _ ih =>
    obtain ⟨update, hbind, rfl⟩ := hx
    obtain ⟨hnot, hnodup⟩ := List.nodup_cons.mp hnodup
    change h.delivery.id ∉ _ at hnot
    have happly : ∀ i, (db.apply (.updateDelivery h.delivery.id update)).deliveries.find? i =
        if i = h.delivery.id then (db.deliveries.find? h.delivery.id).map (·.update update)
        else db.deliveries.find? i := by
      intro i
      change (db.deliveries.update _ (·.update update) (·.update_id update)).find? i = _
      rw [Table.find?_update]
    have hne : ∀ h' ∈ past, h'.delivery.id ≠ h.delivery.id := fun h' hh' heq =>
      hnot (heq ▸ Handled.id_mem hh')
    obtain ⟨hpast, hothers⟩ := @ih (db.apply (.updateDelivery h.delivery.id update)) hnodup
      fun h' hh' => by
        rw [happly, if_neg (hne h' hh')]
        exact hrow h' (List.mem_cons_of_mem _ hh')
    refine ⟨fun h' hh' => ?_, fun i hi => ?_⟩
    · rcases List.mem_cons.mp hh' with rfl | hh'
      · refine ⟨h'.delivery.update update, ?_, update, hbind, rfl⟩
        rw [applyAll_cons, hothers _ hnot, happly, if_pos rfl, hrow h' List.mem_cons_self]
        rfl
      · exact hpast h' hh'
    · obtain ⟨hi, hpast⟩ := not_or.mp (mt List.mem_cons.mpr hi)
      rw [applyAll_cons, hothers i hpast, happly, if_neg hi]

/-- A transaction that updates no delivery keeps those there are. -/
theorem Database.find?_deliveries_applyAll {i : Uuid} {d : WebhookDelivery}
    (hws : ∀ id update, .updateDelivery id update ∉ ws) (h : db.deliveries.find? i = some d) :
    (db.applyAll ws).deliveries.find? i = some d := by
  rw [← h]
  have hrow : db.row ⟨.deliveries, i⟩ ≠ none := by simp [Database.row, h]
  refine Database.find?_deliveries_eq (Database.row_applyAll (fun x hx hmem => ?_) fun _ _ _ =>
    hrow)
  cases x with
  | updateDelivery id update => exact hws id update hx
  | updateInvoice | updateAttempt | deactivateEndpoint => cases List.mem_singleton.mp hmem
  | _ => cases hmem

/-- The deliveries after a transaction that updates none. -/
theorem Database.mem_deliveries_applyAll_or {d : WebhookDelivery}
    (hws : ∀ id update, .updateDelivery id update ∉ ws) (h : d ∈ (db.applyAll ws).deliveries) :
    d ∈ db.deliveries ∨ ∃ rows, .insertDeliveries rows ∈ ws ∧ d ∈ rows := by
  induction ws generalizing db with
  | nil => exact Or.inl h
  | cons x ws ih =>
    rcases ih (fun id update hx => hws id update (List.mem_cons_of_mem _ hx)) h with h | ⟨rows, hx,
      hd⟩
    · cases x with
      | insertDeliveries rows =>
        rcases Table.of_mem_insertAll h with h | h
        · exact Or.inl h
        · exact Or.inr ⟨rows, List.mem_cons_self, h⟩
      | updateDelivery id update => exact absurd List.mem_cons_self (hws id update)
      | _ => exact Or.inl h
    · exact Or.inr ⟨rows, List.mem_cons_of_mem _ hx, hd⟩

/-- A delivery as it is put into the outbox. -/
structure WebhookDelivery.New (d : WebhookDelivery) : Prop where
  status : d.status = .pending
  attempts : d.attempts = 0
  nextAttemptAt : d.nextAttemptAt ≠ none

theorem new_of_mem_deliveryRows {env : Env} {endpoints : List WebhookEndpoint}
    {eventType : EventType} {payload : Payload} {now : Timestamp} {d : WebhookDelivery}
    (h : d ∈ deliveryRows env (endpoints.map (newDelivery eventType payload now))) : d.New := by
  obtain ⟨k, hk, rfl⟩ := List.mem_mapIdx.mp h
  rw [List.getElem_map]
  exact ⟨rfl, rfl, by rintro ⟨⟩⟩

/-- **What a transaction puts into the outbox is new.** -/
theorem Transacts.new {crypto : Crypto} {w : World} {p : Pid} (h : Transacts crypto w p ws)
    {rows : List WebhookDelivery} (hrows : .insertDeliveries rows ∈ ws) : ∀ d ∈ rows, d.New := by
  cases h with
  | reserve => cases List.mem_singleton.mp hrows
  | settle hgood houtcome hbind hmarks hrest =>
    rcases List.mem_cons.mp hrows with hrows | hrows
    · cases hrows
    rcases List.mem_append.mp hrows with hrows | hrows
    · rcases hmarks with ⟨-, now', rfl⟩ | ⟨-, rfl⟩
      · cases List.mem_singleton.mp hrows
      · cases hrows
    rcases hrest with ⟨-, rfl⟩ | ⟨-, result, now, env, -, rfl⟩
    · cases hrows
    obtain rfl := Write.insertDeliveries.inj (List.mem_singleton.mp hrows)
    exact fun d hd => new_of_mem_deliveryRows hd
  | transition => cases List.mem_singleton.mp hrows
  | create hmade hitems hrest =>
    rcases List.mem_cons.mp hrows with hrows | hrows
    · cases hrows
    rcases List.mem_cons.mp hrows with hrows | hrows
    · cases hrows
    rcases hrest with ⟨-, rfl⟩ | ⟨-, now, env, rfl⟩
    · cases hrows
    obtain rfl := Write.insertDeliveries.inj (List.mem_singleton.mp hrows)
    exact fun d hd => new_of_mem_deliveryRows hd
  | deactivate => cases List.mem_singleton.mp hrows
  | registers h => exact (h _ hrows).elim

end Writes

/-! ### The posts of a delivery -/

namespace World

instance (w : World) (p : Pid) : Decidable (w.Committed p) :=
  inferInstanceAs (Decidable (∃ m ∈ w.history, m.pid = p))

/-- The posts of a delivery in polls that have committed. -/
def recordedFor (w : World) (id : Uuid) : List Post :=
  (w.postsFor id).filter fun x => w.Committed x.pid

/-- **The deliveries and their posts** in a state. -/
structure Delivering (w : World) : Prop where
  regular : ∀ d ∈ w.db.deliveries, d.Regular
  counted : ∀ d ∈ w.db.deliveries, d.attempts = (w.recordedFor d.id).length
  known : ∀ x ∈ w.posts, ∃ d, w.db.deliveries.find? x.deliveryId = some d
  /-- The last post of a delivery that the poll has still locked is the poll's. -/
  latest : ∀ x ∈ w.posts, w.locks ⟨.deliveries, x.deliveryId⟩ = some x.pid →
    (w.postsFor x.deliveryId).getLast? = some x
  accepted : ∀ d ∈ w.db.deliveries, d.status = .delivered →
    ∃ x, (w.postsFor d.id).getLast? = some x ∧ w.Committed x.pid ∧ deliveryError x.result = none
  answered : ∀ x ∈ w.posts, w.Committed x.pid → deliveryError x.result = none →
    ∃ d, w.db.deliveries.find? x.deliveryId = some d ∧ d.status = .delivered

end World

section Posts

variable {w : World} {p : Pid} {past : List Handled} {i : Uuid}

theorem mem_postsOf {x : Post} : x ∈ w.postsOf p ↔ x ∈ w.posts ∧ x.pid = p := by
  rw [postsOf, List.mem_filter, decide_eq_true_eq]

theorem mem_postsFor {x : Post} : x ∈ w.postsFor i ↔ x ∈ w.posts ∧ x.deliveryId = i := by
  rw [postsFor, List.mem_filter, decide_eq_true_eq]

/-- What a poll has posted is a delivery that it has handled. -/
theorem World.Posted.exists_handled (h : w.Posted p (past.filterMap Handled.posted?)) {x : Post}
    (hx : x ∈ w.posts) (hpid : x.pid = p) :
    ∃ h ∈ past, h.delivery.id = x.deliveryId ∧ h.handling.answer? = some x.result := by
  have hmem : (x.deliveryId, x.result) ∈ past.filterMap Handled.posted? := by
    rw [← h]
    exact List.mem_map.mpr ⟨x, mem_postsOf.mpr ⟨hx, hpid⟩, rfl⟩
  obtain ⟨h', hh', hposted⟩ := List.mem_filterMap.mp hmem
  obtain ⟨http, ha, heq⟩ := Option.map_eq_some_iff.mp hposted
  obtain ⟨hid, rfl⟩ := Prod.mk.inj heq
  exact ⟨h', hh', hid, ha⟩

/-- A delivery that has been handled has been posted. -/
theorem World.Posted.exists_post (h : w.Posted p (past.filterMap Handled.posted?)) {h' : Handled}
    (hh' : h' ∈ past) {http : HttpResult} (ha : h'.handling.answer? = some http) :
    ∃ x ∈ w.posts, x.pid = p ∧ x.deliveryId = h'.delivery.id ∧ x.result = http := by
  have hmem : (h'.delivery.id, http) ∈ past.filterMap Handled.posted? :=
    List.mem_filterMap.mpr ⟨h', hh', by rw [Handled.posted?, ha]; rfl⟩
  rw [← h] at hmem
  obtain ⟨x, hx, heq⟩ := List.mem_map.mp hmem
  obtain ⟨hid, hresult⟩ := Prod.mk.inj heq
  obtain ⟨hx, hpid⟩ := mem_postsOf.mp hx
  exact ⟨x, hx, hpid, hid, hresult⟩

theorem Handled.filter_posted?_of_not_mem (hi : i ∉ past.map fun h => h.delivery.id) :
    (past.filterMap Handled.posted?).filter (fun x => x.1 = i) = [] := by
  refine List.filter_eq_nil_iff.mpr fun x hx => ?_
  obtain ⟨h, hh, hposted⟩ := List.mem_filterMap.mp hx
  obtain ⟨http, -, rfl⟩ := Option.map_eq_some_iff.mp hposted
  have hne : h.delivery.id ≠ i := fun heq =>
    hi (heq ▸ Handled.id_mem hh)
  simpa using hne

/-- A poll posts a delivery once. -/
theorem Handled.filter_posted? (hnodup : (past.map fun h => h.delivery.id).Nodup) {h : Handled}
    (hh : h ∈ past) {http : HttpResult} (ha : h.handling.answer? = some http) :
    (past.filterMap Handled.posted?).filter (fun x => x.1 = h.delivery.id) =
      [(h.delivery.id, http)] := by
  induction past with
  | nil => cases hh
  | cons h' past ih =>
    obtain ⟨hnot, hnodup⟩ := List.nodup_cons.mp hnodup
    change h'.delivery.id ∉ _ at hnot
    have hcons : (h' :: past).filterMap Handled.posted? =
        h'.posted?.toList ++ past.filterMap Handled.posted? := by
      cases hp : h'.posted? <;> simp [hp]
    rw [hcons, List.filter_append]
    rcases List.mem_cons.mp hh with rfl | hh
    · rw [filter_posted?_of_not_mem hnot]
      simp [posted?, ha]
    · have hne : h'.delivery.id ≠ h.delivery.id := fun heq =>
        hnot (heq ▸ Handled.id_mem hh)
      rw [ih hnodup hh]
      cases hp : h'.handling.answer? <;> simp [posted?, hp, hne]

/-- The posts of a delivery in one session. -/
theorem World.Posted.count {l : List (Uuid × HttpResult)} (h : w.Posted p l) (i : Uuid) :
    (w.postsFor i).countP (fun x => x.pid = p) = (l.filter fun x => x.1 = i).length := by
  rw [← h, List.filter_map, List.length_map, ← List.countP_eq_length_filter, postsFor, postsOf,
    List.countP_filter, List.countP_filter]
  refine List.countP_congr fun x _ => ?_
  simp [and_comm]

/-- After a commit the session is one that has committed. -/
theorem committed_commit {q : Pid} : (w.commit p).Committed q ↔ w.Committed q ∨ q = p := by
  constructor
  · rintro ⟨m, hm, rfl⟩
    rcases List.mem_append.mp hm with hm | hm
    · exact Or.inl ⟨m, hm, rfl⟩
    · exact Or.inr (congrArg Commit.pid (List.mem_singleton.mp hm))
  · rintro (⟨m, hm, rfl⟩ | rfl)
    · exact ⟨m, List.mem_append_left _ hm, rfl⟩
    · exact ⟨_, List.mem_append_right _ (List.mem_singleton.mpr rfl), rfl⟩

theorem countP_or {α : Type} {l : List α} {P Q : α → Prop} [DecidablePred P] [DecidablePred Q]
    (h : ∀ a ∈ l, P a → ¬Q a) :
    l.countP (fun a => P a ∨ Q a) = l.countP (fun a => P a) + l.countP (fun a => Q a) := by
  induction l with
  | nil => rfl
  | cons a l ih =>
    have hl := ih fun b hb => h b (List.mem_cons_of_mem _ hb)
    have ha := h a List.mem_cons_self
    rw [List.countP_cons, List.countP_cons, List.countP_cons, hl]
    by_cases hP : P a <;> by_cases hQ : Q a <;> simp [hP, hQ] at ha ⊢ <;> omega

/-- The commit of a poll records its posts. -/
theorem length_recordedFor_commit (hopen : ¬w.Committed p) (i : Uuid) :
    ((w.commit p).recordedFor i).length =
      (w.recordedFor i).length + (w.postsFor i).countP fun x => x.pid = p := by
  have hdisjoint : ∀ x ∈ w.postsFor i, w.Committed x.pid → ¬x.pid = p := by
    rintro x - hc rfl
    exact hopen hc
  rw [recordedFor, recordedFor, ← List.countP_eq_length_filter, ← List.countP_eq_length_filter,
    ← countP_or hdisjoint]
  exact List.countP_congr fun x _ => by simp [committed_commit]

end Posts

section Steps

variable {crypto : Crypto} {w w' : World} {p : Pid} {past : List Handled}

/-- A step that changes neither a delivery nor a post, and locks no delivery that has been
posted by the session. -/
theorem World.Delivering.congr (h : w.Delivering) (hdb : w'.db = w.db)
    (hhistory : w'.history = w.history) (hposts : w'.posts = w.posts)
    (hlocks : ∀ x ∈ w.posts, w'.locks ⟨.deliveries, x.deliveryId⟩ = some x.pid →
      w.locks ⟨.deliveries, x.deliveryId⟩ = some x.pid) : w'.Delivering := by
  have hfor : ∀ i, w'.postsFor i = w.postsFor i := fun i => by rw [postsFor, hposts]; rfl
  have hcommitted : ∀ q, w'.Committed q ↔ w.Committed q := fun q => by rw [Committed, hhistory]; rfl
  have hrecorded : ∀ i, w'.recordedFor i = w.recordedFor i := fun i => by
    rw [recordedFor, hfor]
    exact List.filter_congr fun x _ => by simp [hcommitted]
  refine ⟨hdb ▸ h.regular, ?_, ?_, ?_, ?_, ?_⟩
  · rw [hdb]
    exact fun d hd => (hrecorded d.id) ▸ h.counted d hd
  · rw [hdb, hposts]
    exact h.known
  · rw [hposts]
    exact fun x hx hlock => (hfor _) ▸ h.latest x hx (hlocks x hx hlock)
  · rw [hdb]
    intro d hd hstatus
    obtain ⟨x, hlast, hc, hok⟩ := h.accepted d hd hstatus
    exact ⟨x, (hfor _) ▸ hlast, (hcommitted _).mpr hc, hok⟩
  · rw [hdb, hposts]
    exact fun x hx hc => h.answered x hx ((hcommitted _).mp hc)

/-- **A delivery is posted**: it is pending, and locked by the poll. -/
theorem World.Delivering.post (h : w.Delivering) {d : WebhookDelivery} {todo : List WebhookDelivery}
    (hbatch : Batch w p past (d :: todo)) (hposted : w.Posted p (past.filterMap Handled.posted?))
    (hopen : ¬w.Committed p) {x : Post} (hpid : x.pid = p) (hid : x.deliveryId = d.id) :
    ({ w with posts := w.posts ++ [x] } : World).Delivering := by
  have hd : d ∈ past.map Handled.delivery ++ d :: todo := by simp
  have hrow := hbatch.row d hd
  have hpending := hbatch.pending d hd
  have hfor : ∀ i, ({ w with posts := w.posts ++ [x] } : World).postsFor i =
      if i = d.id then w.postsFor i ++ [x] else w.postsFor i := by
    intro i
    rw [postsFor, List.filter_append]
    by_cases hi : i = d.id
    · rw [if_pos hi, hi]
      simp [hid, postsFor]
    · rw [if_neg hi]
      simp [hid, Ne.symm hi, postsFor]
  -- the delivery is none of those the poll has handled before
  have hnot : d.id ∉ past.map fun h => h.delivery.id := by
    have hnodup := hbatch.nodup
    rw [List.map_append, List.map_map] at hnodup
    intro hmem
    exact (List.nodup_append.mp hnodup).2.2 _ hmem _ List.mem_cons_self rfl
  refine ⟨h.regular, fun d' hd' => ?_, fun y hy => ?_, fun y hy hlock => ?_, fun d' hd' hstatus =>
    ?_, fun y hy hc hok => ?_⟩
  · rw [h.counted d' hd', recordedFor, recordedFor, hfor]
    split
    · rw [List.filter_append]
      have hnil : ¬w.Committed x.pid := hpid ▸ hopen
      have hnil' : ¬({ w with posts := w.posts ++ [x] } : World).Committed x.pid := hnil
      simp only [List.filter_cons, hnil', decide_false, Bool.false_eq_true, if_false,
        List.filter_nil, List.append_nil]
      rfl
    · rfl
  · rcases List.mem_append.mp hy with hy | hy
    · exact h.known y hy
    · rw [List.mem_singleton.mp hy, hid]
      exact ⟨d, hrow⟩
  · rw [hfor]
    rcases List.mem_append.mp hy with hy | hy
    · by_cases heq : y.deliveryId = d.id
      · have hlock' : w.locks d.ref = some y.pid := by rw [WebhookDelivery.ref, ← heq]; exact hlock
        rw [hbatch.locked d hd] at hlock'
        obtain ⟨h', hh', hid', -⟩ := hposted.exists_handled hy (Option.some.inj hlock').symm
        refine absurd ?_ hnot
        rw [← heq, ← hid']
        exact Handled.id_mem hh'
      · rw [if_neg heq]
        exact h.latest y hy hlock
    · rw [List.mem_singleton.mp hy, if_pos hid, List.getLast?_concat]
  · have hne : d'.id ≠ d.id := by
      intro heq
      have hd'' := Table.find?_key hd'
      rw [heq, hrow] at hd''
      rw [← Option.some.inj hd'', hpending] at hstatus
      cases hstatus
    rw [hfor, if_neg hne]
    exact h.accepted d' hd' hstatus
  · rcases List.mem_append.mp hy with hy | hy
    · exact h.answered y hy hc hok
    · rw [List.mem_singleton.mp hy, hpid] at hc
      exact absurd hc hopen

/-- What a poll about to commit has handled. -/
theorem Batch.handled (hbatch : Batch w p past []) :
    (past.map fun h => h.delivery.id).Nodup ∧ ∀ h ∈ past,
      w.db.deliveries.find? h.delivery.id = some h.delivery ∧ w.locks h.delivery.ref = some p ∧
        h.delivery.status = .pending ∧ h.Fair := by
  have hnodup := hbatch.nodup
  rw [List.append_nil, List.map_map] at hnodup
  refine ⟨hnodup, fun h hh => ?_⟩
  have hmem : h.delivery ∈ past.map Handled.delivery ++ [] := by
    rw [List.append_nil]
    exact List.mem_map_of_mem hh
  exact ⟨hbatch.row _ hmem, hbatch.locked _ hmem, hbatch.pending _ hmem, hbatch.fair h hh⟩

/-- **The commit of a poll** stores what became of the deliveries of its batch. -/
theorem Batch.find?_commit (hbatch : Batch w p past []) :
    (∀ h ∈ past, ∃ d, (w.commit p).db.deliveries.find? h.delivery.id = some d ∧ h.Became d) ∧
      ∀ i, i ∉ past.map (fun h => h.delivery.id) →
        (w.commit p).db.deliveries.find? i = w.db.deliveries.find? i :=
  Database.find?_stores hbatch.writes hbatch.handled.1 fun h hh => (hbatch.handled.2 h hh).1

/-- A delivery after the commit of a poll has been handled by it, or is as it was. -/
theorem Batch.mem_commit (hbatch : Batch w p past []) {d : WebhookDelivery}
    (hd : d ∈ (w.commit p).db.deliveries) : (∃ h ∈ past, h.Became d) ∨
      d.id ∉ past.map (fun h => h.delivery.id) ∧ d ∈ w.db.deliveries := by
  obtain ⟨hnew, hold⟩ := hbatch.find?_commit
  have hfind := Table.find?_key hd
  by_cases hid : d.id ∈ past.map fun h => h.delivery.id
  · obtain ⟨h, hh, heq⟩ := List.mem_map.mp hid
    obtain ⟨d', hd', hb⟩ := hnew h hh
    rw [← heq, hd'] at hfind
    exact Or.inl ⟨h, hh, Option.some.inj hfind ▸ hb⟩
  · rw [hold d.id hid] at hfind
    exact Or.inr ⟨hid, (Table.find?_eq_some.mp hfind).1⟩

/-- **A poll commits**: every post it has made is recorded in its own delivery. -/
theorem World.Delivering.commit_poll (h : w.Delivering) (hbatch : Batch w p past [])
    (hposted : w.Posted p (past.filterMap Handled.posted?)) (hopen : ¬w.Committed p) :
    (w.commit p).Delivering := by
  obtain ⟨hnodup, hpast⟩ := hbatch.handled
  obtain ⟨hnew, hold⟩ := hbatch.find?_commit
  have hdelivery : ∀ h' ∈ past, h'.delivery ∈ w.db.deliveries := fun h' hh' =>
    (Table.find?_eq_some.mp (hpast h' hh').1).1
  refine ⟨fun d hd => ?_, fun d hd => ?_, fun x hx => ?_, fun x hx hlock => ?_, fun d hd hstatus =>
    ?_, fun x hx hc hok => ?_⟩
  -- a row of the batch follows the handling of its post, any other row stays
  · rcases hbatch.mem_commit hd with ⟨h', hh', hb⟩ | ⟨-, hd⟩
    · obtain ⟨-, -, hpending, hfair⟩ := hpast h' hh'
      exact hb.regular hfair hpending (h.regular _ (hdelivery h' hh'))
    · exact h.regular d hd
  -- the posts of the batch are counted with this commit, one for each row
  · rw [length_recordedFor_commit hopen, hposted.count]
    rcases hbatch.mem_commit hd with ⟨h', hh', hb⟩ | ⟨hid, hd⟩
    · obtain ⟨http, ha, hattempts, -⟩ := hb.counts (hpast h' hh').2.2.2
      rw [hattempts, hb.id, Handled.filter_posted? hnodup hh' ha, ← h.counted _ (hdelivery h' hh')]
      rfl
    · rw [Handled.filter_posted?_of_not_mem hid]
      exact h.counted d hd
  · obtain ⟨d, hd⟩ := h.known x hx
    have hrow : w.db.row ⟨.deliveries, x.deliveryId⟩ ≠ none := by simp [Database.row, hd]
    have hrow' : (w.view p).row ⟨.deliveries, x.deliveryId⟩ ≠ none := row_applyAll_ne_none hrow
    exact Option.ne_none_iff_exists'.mp fun hnone => hrow' (Option.map_eq_none_iff.mpr hnone)
  · rw [locks_commit, locks_release] at hlock
    split at hlock
    · cases hlock
    · exact h.latest x hx hlock
  · rcases hbatch.mem_commit hd with ⟨h', hh', hb⟩ | ⟨-, hd⟩
    · obtain ⟨-, hlocked, hpending, hfair⟩ := hpast h' hh'
      obtain ⟨http, ha, -, hcounts⟩ := hb.counts hfair
      cases hcounts with
      | delivered hok =>
        obtain ⟨x, hx, rfl, hid, rfl⟩ := hposted.exists_post hh' ha
        refine ⟨x, ?_, committed_commit.mpr (Or.inr rfl), hok⟩
        -- no other poll can have posted the row since, for it has been locked
        rw [hb.id, ← hid]
        exact h.latest x hx (by rw [hid]; exact hlocked)
      | exhausted _ _ hstatus' =>
        rw [hstatus'] at hstatus
        cases hstatus
      | retried _ _ hstatus' =>
        rw [hstatus', hpending] at hstatus
        cases hstatus
    · obtain ⟨x, hlast, hc, hok⟩ := h.accepted d hd hstatus
      exact ⟨x, hlast, committed_commit.mpr (Or.inl hc), hok⟩
  · rcases committed_commit.mp hc with hc | hpid
    · obtain ⟨d, hd, hstatus⟩ := h.answered x hx hc hok
      refine ⟨d, ?_, hstatus⟩
      rw [← hd]
      refine hold _ fun hid => ?_
      obtain ⟨h', hh', heq⟩ := List.mem_map.mp hid
      obtain ⟨hd', -, hpending, -⟩ := hpast h' hh'
      rw [heq, hd] at hd'
      -- a row that has been accepted is not claimed again
      rw [Option.some.inj hd', hpending] at hstatus
      cases hstatus
    · obtain ⟨h', hh', hid, ha⟩ := hposted.exists_handled hx hpid
      obtain ⟨d, hd, hb⟩ := hnew h' hh'
      obtain ⟨http, ha', -, hcounts⟩ := hb.counts (hpast h' hh').2.2.2
      obtain rfl := Option.some.inj (ha.symm.trans ha')
      refine ⟨d, hid ▸ hd, ?_⟩
      cases hcounts with
      | delivered _ hstatus => exact hstatus
      | exhausted herror => rw [hok] at herror; cases herror
      | retried herror => rw [hok] at herror; cases herror

/-- **A request commits**: what it has put into the outbox is new. -/
theorem World.Delivering.commit_request (h : w.Delivering) (hquiet : w.Quiet p)
    (hcons : w.Consistent)
    (htransacts : Transacts crypto w p (w.writesOf p)) : (w.commit p).Delivering := by
  have hpid : ∀ x ∈ w.posts, x.pid ≠ p := by
    rintro x hx rfl
    have hmem := mem_postsOf.mpr ⟨hx, rfl⟩
    rw [hquiet.posts] at hmem
    cases hmem
  have hrecorded : ∀ i, (w.commit p).recordedFor i = w.recordedFor i := by
    intro i
    refine List.filter_congr fun x hx => ?_
    have hne := hpid x (mem_postsFor.mp hx).1
    simp [committed_commit, hne]
  have hkept : ∀ i d, w.db.deliveries.find? i = some d →
      (w.commit p).db.deliveries.find? i = some d :=
    fun i d => Database.find?_deliveries_applyAll hquiet.writes
  have hcases : ∀ d ∈ (w.commit p).db.deliveries, d ∈ w.db.deliveries ∨ d.New ∧ ∀ x ∈ w.posts,
      x.deliveryId ≠ d.id := by
    intro d hd
    rcases Database.mem_deliveries_applyAll_or hquiet.writes hd with hd | ⟨rows, hrows, hd⟩
    · exact Or.inl hd
    · refine Or.inr ⟨htransacts.new hrows d hd, fun x hx hid => ?_⟩
      -- a post is of a committed row, and the new ones are not committed yet
      obtain ⟨d', hd'⟩ := h.known x hx
      have hnone := hcons.fresh p _ (mem_writesOf.mp hrows) ⟨.deliveries, d.id⟩
        (List.mem_map.mpr ⟨d, hd, rfl⟩)
      rw [hid] at hd'
      simp [Database.row, hd'] at hnone
  refine ⟨fun d hd => ?_, fun d hd => ?_, fun x hx => ?_, fun x hx hlock => ?_, fun d hd hstatus =>
    ?_, fun x hx hc hok => ?_⟩
  · rcases hcases d hd with hd | ⟨hnew, -⟩
    · exact h.regular d hd
    · rw [WebhookDelivery.Regular, hnew.status, hnew.attempts]
      exact ⟨by decide, hnew.nextAttemptAt⟩
  · rw [hrecorded]
    rcases hcases d hd with hd | ⟨hnew, hposts⟩
    · exact h.counted d hd
    · have hnil : w.postsFor d.id = [] :=
        List.filter_eq_nil_iff.mpr fun x hx => by simpa using hposts x hx
      rw [hnew.attempts, recordedFor, hnil]
      rfl
  · obtain ⟨d, hd⟩ := h.known x hx
    exact ⟨d, hkept _ d hd⟩
  · rw [locks_commit, locks_release] at hlock
    split at hlock
    · cases hlock
    · exact h.latest x hx hlock
  · rcases hcases d hd with hd | ⟨hnew, -⟩
    · obtain ⟨x, hlast, hc, hok⟩ := h.accepted d hd hstatus
      exact ⟨x, hlast, committed_commit.mpr (Or.inl hc), hok⟩
    · rw [hnew.status] at hstatus
      cases hstatus
  · rcases committed_commit.mp hc with hc | hp
    · obtain ⟨d, hd, hstatus⟩ := h.answered x hx hc hok
      exact ⟨d, hkept _ d hd, hstatus⟩
    · exact absurd hp (hpid x hx)

end Steps

/-! ### Runs -/

/-- What holds of a session that is alive. -/
inductive Proc.Delivers (crypto : Crypto) (w : World) (p : Pid) : Proc → Prop where
  | poll {pt : PollPoint} {prog : ServerProg (Except Exc Result)} {alive : Bool}
    (htracks : Prog.Tracks (PollPoint.out crypto) pt prog) (hholds : pt.Holds w p) :
    Delivers crypto w p ⟨.poll, prog, alive⟩
  | request {business : Business} {req : Request} {prog : ServerProg (Except Exc Result)}
    {alive : Bool}
    (hkeeps : Prog.Keeps (only Stmt.Leaves) (fun _ _ => True) () prog) (hquiet : w.Quiet p) :
    Delivers crypto w p ⟨.request business req, prog, alive⟩

namespace System

variable {crypto : Crypto} {s t : System} {φ φ' : Pid → Phase} {e : Event} {p : Pid}

theorem Reachable.delivers (hs : s.Reachable crypto) {proc : Proc} (hproc : s.procs[p]? = some proc)
    (halive : proc.alive = true) : proc.Delivers crypto s.world p := by
  obtain ⟨es, hrun⟩ := hs.exists_run
  obtain ⟨job, prog, alive⟩ := proc
  cases job with
  | poll =>
    obtain ⟨pt, -, htracks, hholds⟩ := polled hrun hproc
    exact .poll htracks (hholds halive)
  | request business req =>
    obtain ⟨hkeeps, hquiet⟩ := quiet_of_request hs hproc
    exact .request hkeeps hquiet

/-- A post that is about to be made. -/
theorem Reachable.posting (hs : s.Reachable crypto) {id : Uuid} {url body : String}
    {headers : List (String × String)} {job : Job}
    {k : (Stmt.post id url body headers).Resp → ServerProg (Except Exc Result)}
    (hproc : s.procs[p]? = some ⟨job, .op (.post id url body headers) k, true⟩) :
    ∃ past d todo, id = d.id ∧ Batch s.world p past (d :: todo) ∧
      s.world.Posted p (past.filterMap Handled.posted?) ∧ ¬s.world.Committed p := by
  cases hs.delivers hproc rfl with
  | poll htracks hholds =>
    rename_i pt
    obtain ⟨next, hout, -⟩ := htracks
    cases pt with
    | post past d endpoint time todo =>
      obtain ⟨rfl, -⟩ := Stmt.post.inj (Node.op.inj hout).1
      exact ⟨past, d, todo, rfl, hholds⟩
    | _ => cases hout
  | request hkeeps _ => exact absurd trivial hkeeps.1

/-- A session that is about to claim deliveries has written nothing. -/
theorem Reachable.claiming (hs : s.Reachable crypto) {now : Timestamp} {limit : ℕ} {job : Job}
    {k : (Stmt.claimDeliveries now limit).Resp → ServerProg (Except Exc Result)}
    (hproc : s.procs[p]? = some ⟨job, .op (.claimDeliveries now limit) k, true⟩) :
    s.world.Idle p := by
  cases hs.delivers hproc rfl with
  | poll htracks hholds =>
    rename_i pt
    obtain ⟨next, hout, -⟩ := htracks
    cases pt with
    | claim now => exact hholds.1
    | _ => cases hout
  | request hkeeps _ => exact absurd trivial hkeeps.1

/-- A commit that is about to be made is that of a poll, or of a request. -/
theorem Reachable.committing (hs : s.Reachable crypto) {job : Job}
    {k : Stmt.commit.Resp → ServerProg (Except Exc Result)}
    (hproc : s.procs[p]? = some ⟨job, .op .commit k, true⟩) :
    (∃ past, job = .poll ∧ Batch s.world p past [] ∧
      s.world.Posted p (past.filterMap Handled.posted?) ∧ ¬s.world.Committed p) ∨
      job ≠ .poll ∧ s.world.Quiet p := by
  cases hs.delivers hproc rfl with
  | poll htracks hholds =>
    rename_i pt
    obtain ⟨next, hout, -⟩ := htracks
    cases pt with
    | commit past => exact Or.inl ⟨past, rfl, hholds⟩
    | _ => cases hout
  | request _ hquiet => exact Or.inr ⟨by rintro ⟨⟩, hquiet⟩

/-- A poll claims deliveries before it posts any, and updates those it has claimed. -/
theorem Reachable.locking (hs : s.Reachable crypto) {st : Stmt} {job : Job}
    {k : st.Resp → ServerProg (Except Exc Result)}
    (hproc : s.procs[p]? = some ⟨job, .op st k, true⟩)
    {i : Uuid} (hst : st.Locks ⟨.deliveries, i⟩) :
    s.world.postsOf p = [] ∨ s.world.locks ⟨.deliveries, i⟩ = some p := by
  cases hs.delivers hproc rfl with
  | poll htracks hholds =>
    rename_i pt
    obtain ⟨next, hout, -⟩ := htracks
    cases pt with
    | claim now => exact Or.inl (List.map_eq_nil_iff.mp hholds.2.1)
    | flush past d handling todo =>
      obtain rfl := (Node.op.inj hout).1
      cases hst
      exact Or.inr (hholds.1.locked d (by simp))
    | _ =>
      cases hout
      try exact hst.elim
  | request _ hquiet => exact Or.inl hquiet.posts

theorem delivering_move (hs : s.Reachable crypto) (h : s.Sound crypto φ) (ho : s.Owned φ)
    (hI : s.world.Delivering) (hmove : s.Moves crypto φ e t φ') : t.world.Delivering := by
  rcases hmove.posts_or with hposts | ⟨p, id, url, body, headers, http, job, k, hproc, -, ht⟩
  case inr =>
    obtain ⟨past, d, todo, rfl, hbatch, hposted, hopen⟩ := hs.posting hproc
    rw [ht]
    exact hI.post hbatch hposted hopen rfl rfl
  rcases hmove.db_or with ⟨hdb, hhistory⟩ | ⟨p, u, job, k, hproc, -, ht⟩
  · refine hI.congr hdb hhistory hposts fun x hx hlock => ?_
    rcases hmove.locks_or hlock with hlock | ⟨st, r, job, k, hproc, -, hst⟩
    · exact hlock
    · rcases hs.locking hproc hst with hnil | hlock
      · have hmem := mem_postsOf.mpr ⟨hx, rfl⟩
        rw [hnil] at hmem
        cases hmem
      · exact hlock
  · rw [ht]
    rcases hs.committing hproc with ⟨past, -, hbatch, hposted, hopen⟩ | ⟨-, hquiet⟩
    · exact hI.commit_poll hbatch hposted hopen
    · exact hI.commit_request hquiet h.consistent (ho.transacts h hproc)

/-- **Deliveries and posts agree** in every state the service gets into. -/
theorem Reachable.delivering (hs : s.Reachable crypto) : s.world.Delivering := by
  have hinit : System.init.world.Delivering :=
    ⟨by rintro _ ⟨⟩, by rintro _ ⟨⟩, by rintro _ ⟨⟩, by rintro _ ⟨⟩, by rintro _ ⟨⟩, by rintro _ ⟨⟩⟩
  obtain ⟨es, hrun⟩ := hs.exists_run
  obtain ⟨φ, -, -, hI⟩ := run_induction (I := fun _ s φ => s.Owned φ ∧ s.world.Delivering) hrun
    ⟨owned_init, hinit⟩ fun es s φ e t φ' hrun h hI _ hmove _ =>
      ⟨hI.1.move h hmove, delivering_move (reaches_of_run hrun) h hI.1 hI.2 hmove⟩
  exact hI

end System

end TenantBilling
