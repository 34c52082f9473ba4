import TenantBilling.Properties.Batches

/-!
# Every post is recorded

While no poll is killed and every error text can be stored, no post is lost: the poll that
has made it has committed, or still holds the delivery (`TenantBilling.System.Unbroken.recorded`).
So the counter of a delivery that nobody holds is the number of its posts, which are never more than
the limit, and nothing is posted once the receiver has accepted it
(`TenantBilling.posts_recorded`).
-/

namespace TenantBilling

open Base World

/-! ### Runs in which no poll breaks off -/

/-- What the receivers answer. -/
def WhenPosting (P : HttpResult → Prop) (s : System) : Event → Prop
  | .exec p env =>
    match s.next? p with
    | some (.post ..) => P env.http
    | _ => True
  | _ => True

/-- No poll is killed. -/
def SparesPolls (s : System) : Event → Prop
  | .kill p =>
    match s.procs[p]? with
    | some ⟨.poll, _, _⟩ => False
    | _ => True
  | _ => True

/-- No poll is killed, and every answer of a receiver is storable. -/
def Uninterrupted (s : System) (e : Event) : Prop :=
  SparesPolls s e ∧ WhenPosting HttpResult.Storable s e

theorem whenPosting_exec {P : HttpResult → Prop} [DecidablePred P] {s : System} {p : Pid}
    {env : Env} : (s.next? p).all (fun
      | .post .. => P env.http
      | _ => true) = true ↔ WhenPosting P s (.exec p env) := by
  simp only [WhenPosting]
  cases s.next? p with
  | none => exact iff_of_true rfl trivial
  | some st => cases st <;> simp

instance (P : HttpResult → Prop) [DecidablePred P] (s : System) : ∀ e, Decidable (WhenPosting P s e)
  | .exec _ _ => decidable_of_iff _ whenPosting_exec
  | .start _ | .abort .. | .kill _ => inferInstanceAs (Decidable True)

instance (s : System) : ∀ e, Decidable (SparesPolls s e)
  | .kill p => by
    unfold SparesPolls
    dsimp only
    split <;> infer_instance
  | .start _ | .abort .. | .exec .. => inferInstanceAs (Decidable True)

instance (s : System) (e : Event) : Decidable (Uninterrupted s e) :=
  inferInstanceAs (Decidable (_ ∧ _))

/-- **No poll has been broken off**, and all that has been answered is storable. -/
structure System.Unbroken (s : System) : Prop where
  alive : ∀ (p : Pid) (prog : ServerProg (Except Exc Result)) (alive : Bool),
    s.procs[p]? = some ⟨.poll, prog, alive⟩ → alive = true
  storable : ∀ x ∈ s.world.posts, x.result.Storable

section Polls

variable {crypto : Crypto} {s t : System} {φ φ' : Pid → Phase} {e : Event} {p : Pid}
  {pt : PollPoint} {w : World}

/-- What a poll under way has posted, and what it holds. -/
theorem PollPoint.Holds.account (h : pt.Holds w p) (hover : ¬pt.Over) : ∃ l, w.Posted p l ∧
    (l.map Prod.fst).Sublist (pt.batch.map WebhookDelivery.id) ∧
      (pt.batch.map WebhookDelivery.id).Nodup ∧ ∀ d ∈ pt.batch, w.locks d.ref = some p ∧
        d.status = .pending ∧ w.db.deliveries.find? d.id = some d := by
  have hbatch : ∀ {past : List Handled} {rest : List WebhookDelivery}, Batch w p past rest →
      ((past.map Handled.delivery ++ rest).map WebhookDelivery.id).Nodup ∧
        ∀ d ∈ past.map Handled.delivery ++ rest, w.locks d.ref = some p ∧ d.status = .pending ∧
          w.db.deliveries.find? d.id = some d := fun hb =>
    ⟨hb.nodup, fun d hd => ⟨hb.locked d hd, hb.pending d hd, hb.row d hd⟩⟩
  have hsub : ∀ {past : List Handled} (rest : List WebhookDelivery), (∀ h ∈ past, h.Fair) →
      ((past.filterMap Handled.posted?).map Prod.fst).Sublist
        ((past.map Handled.delivery ++ rest).map WebhookDelivery.id) := by
    intro past rest hfair
    rw [Handled.map_posted? hfair, List.map_append, List.map_map]
    exact List.sublist_append_left _ _
  cases pt with
  | start | claim now => exact ⟨[], h.2.1, List.nil_sublist _, List.nodup_nil, by rintro _ ⟨⟩⟩
  | fetch past d todo | sign past d endpoint todo | post past d endpoint time todo =>
    obtain ⟨hb, hposted, -⟩ := h
    exact ⟨_, hposted, hsub _ hb.fair, hbatch hb⟩
  | stamp past d http error todo =>
    obtain ⟨hb, hposted, -⟩ := h
    refine ⟨_, hposted, ?_, hbatch hb⟩
    rw [List.map_append, Handled.map_posted? hb.fair, batch, List.map_append, List.map_map]
    exact (List.Sublist.refl _).append (List.singleton_sublist.mpr List.mem_cons_self)
  | flush past d handling todo =>
    obtain ⟨hb, hposted, -, hfair⟩ := h
    refine ⟨_, hposted, ?_, hbatch hb⟩
    obtain ⟨http, ha⟩ := hfair.answer
    rw [Handled.filterMap_posted? ha, List.map_append, Handled.map_posted? hb.fair, batch,
      List.map_append, List.map_map]
    exact (List.Sublist.refl _).append (List.singleton_sublist.mpr List.mem_cons_self)
  | commit past =>
    obtain ⟨hb, hposted, -⟩ := h
    have hb' := hbatch hb
    rw [List.append_nil] at hb'
    have hsub' := hsub [] hb.fair
    rw [List.append_nil] at hsub'
    exact ⟨_, hposted, hsub', hb'⟩
  | closing x | done x => exact absurd trivial hover

namespace System

/-- **What is posted** in a step is answered as the step has it. -/
theorem Moves.posts_whenPosting {P : HttpResult → Prop} (hmove : s.Moves crypto φ e t φ')
    (he : WhenPosting P s e) : ∀ x ∈ t.world.posts, x ∈ s.world.posts ∨ P x.result := by
  intro x hx
  rcases hmove.posts_or with hposts | ⟨p, id, url, body, headers, http, job, k, hproc, hans, ht⟩
  · exact Or.inl (hposts ▸ hx)
  · rw [ht] at hx
    rcases List.mem_append.mp hx with hx | hx
    · exact Or.inl hx
    · rw [List.mem_singleton.mp hx]
      cases hans with
      | exec env hexec =>
        have hnext : s.next? p = some (.post id url body headers) :=
          next?_eq_some.mpr ⟨job, k, hproc⟩
        simp only [WhenPosting, hnext] at he
        obtain ⟨rfl, -⟩ := Prod.mk.inj (Option.some.inj (exec_eq_some.mp hexec).2)
        exact Or.inr he
      | abort cycle _ hfail => cases hfail

theorem Unbroken.move (h : s.Unbroken) (hmove : s.Moves crypto φ e t φ') (he : Uninterrupted s e) :
    t.Unbroken where
  alive p prog alive hproc := by
    cases hmove with
    | start job =>
      rcases getElem?_start hproc with ⟨-, hproc⟩ | ⟨-, heq⟩
      · exact h.alive p prog alive hproc
      · exact congrArg Proc.alive heq
    | @kill q job prog' hq =>
      rcases getElem?_replace hq hproc with ⟨-, hproc⟩ | ⟨-, heq⟩
      · exact h.alive p prog alive hproc
      · obtain ⟨rfl, -, -⟩ := Proc.mk.inj heq
        have hspared := he.1
        simp only [SparesPolls, hq] at hspared
    | answer hq hans hnext =>
      rcases getElem?_replace hq hproc with ⟨-, hproc⟩ | ⟨-, heq⟩
      · exact h.alive p prog alive hproc
      · exact congrArg Proc.alive heq
  storable x hx := (hmove.posts_whenPosting he.2 x hx).elim (h.storable x) id

/-- A poll that is over and has not committed has met an answer that was not storable. -/
theorem exists_not_storable {es : List Event} (hrun : run (System.step crypto) .init es = some s)
    {prog : ServerProg (Except Exc Result)} (hproc : s.procs[p]? = some ⟨.poll, prog, true⟩)
    (hwalk : Walks (PollPoint.out crypto) .start (System.init.transcript crypto p es) pt)
    (hover : pt.Over) (hopen : ¬pt.Settled) : ∃ y ∈ s.world.posts, ¬y.result.Storable := by
  have hclosing : ∃ l l' x, System.init.transcript crypto p es = l ++ l' ∧
      Walks (PollPoint.out crypto) .start l (.closing x) ∧ x ≠ .ok .done := by
    cases pt with
    | closing x => exact ⟨_, [], x, (List.append_nil _).symm, hwalk, hopen⟩
    | done x =>
      obtain ⟨l, u, hl, hclosing⟩ := PollPoint.walks_done hwalk
      exact ⟨l, _, x, hl, hclosing, hopen⟩
    | _ => exact hover.elim
  obtain ⟨l, l', x, hl, hclosing, hx⟩ := hclosing
  rcases closes hrun hproc hl hclosing with ⟨hok, -⟩ | ⟨⟨l₀, y, hl₀, -, hnot, -⟩, -⟩
  · exact absurd hok hx
  · have hmem : y ∈ postedIn (System.init.transcript crypto p es) := by
      rw [hl, postedIn_append, hl₀]
      simp
    rw [← postsOf_transcript hrun p] at hmem
    obtain ⟨z, hz, rfl⟩ := List.mem_map.mp hmem
    exact ⟨z, (mem_postsOf.mp hz).1, hnot⟩

/-- **A post whose poll has not committed** is one of a batch that the poll holds. -/
theorem Unbroken.holding (h : s.Unbroken) (hs : s.Reachable crypto) {x : Post}
    (hx : x ∈ s.world.posts) (hopen : ¬s.world.Committed x.pid) :
    ∃ l, s.world.Posted x.pid l ∧ (l.map Prod.fst).Nodup ∧ x.deliveryId ∈ l.map Prod.fst ∧
      ∀ i ∈ l.map Prod.fst, s.world.locks ⟨.deliveries, i⟩ = some x.pid ∧
        ∃ d, s.world.db.deliveries.find? i = some d ∧ d.status = .pending := by
  obtain ⟨es, hrun⟩ := hs.exists_run
  obtain ⟨⟨job, prog, alive⟩, hproc⟩ : ∃ proc, s.procs[x.pid]? = some proc :=
    ⟨_, List.getElem?_eq_getElem (hs.started.posts x hx)⟩
  cases job with
  | request business req =>
    have hmem := mem_postsOf.mpr ⟨hx, rfl⟩
    rw [(quiet_of_request hs hproc).2.posts] at hmem
    cases hmem
  | poll =>
    obtain rfl := h.alive _ _ _ hproc
    obtain ⟨pt, hwalk, -, hholds⟩ := polled hrun hproc
    have hover : ¬pt.Over := by
      intro hover
      obtain ⟨y, hy, hlong⟩ := exists_not_storable hrun hproc hwalk hover fun hsettled =>
        hopen ((committed_iff_settled hrun hproc hwalk).mpr hsettled)
      exact hlong (h.storable y hy)
    obtain ⟨l, hposted, hsub, hnodup, hbatch⟩ := (hholds rfl).account hover
    refine ⟨l, hposted, hnodup.sublist hsub, ?_, fun i hi => ?_⟩
    · rw [← hposted, List.map_map]
      exact List.mem_map_of_mem (mem_postsOf.mpr ⟨hx, rfl⟩)
    · obtain ⟨d, hd, rfl⟩ := List.mem_map.mp (hsub.subset hi)
      obtain ⟨hlock, hpending, hrow⟩ := hbatch d hd
      exact ⟨hlock, d, hrow, hpending⟩

/-- **No post is lost**: its poll has committed, or still holds the delivery. -/
theorem Unbroken.recorded (h : s.Unbroken) (hs : s.Reachable crypto) {x : Post}
    (hx : x ∈ s.world.posts) :
    s.world.Committed x.pid ∨ s.world.locks ⟨.deliveries, x.deliveryId⟩ = some x.pid := by
  by_cases hc : s.world.Committed x.pid
  · exact Or.inl hc
  · obtain ⟨l, -, -, hmem, hheld⟩ := h.holding hs hx hc
    exact Or.inr (hheld _ hmem).1

/-- The posts of a delivery are those recorded and at most one more, while it is pending. -/
theorem Unbroken.length_postsFor (h : s.Unbroken) (hs : s.Reachable crypto) (i : Uuid) :
    (s.world.postsFor i).length = (s.world.recordedFor i).length ∨
      (s.world.postsFor i).length = (s.world.recordedFor i).length + 1 ∧
        s.world.locks ⟨.deliveries, i⟩ ≠ none ∧
          ∃ d, s.world.db.deliveries.find? i = some d ∧ d.status = .pending := by
  have hsplit : (s.world.postsFor i).length = (s.world.recordedFor i).length +
      (s.world.postsFor i).countP (fun x => ¬s.world.Committed x.pid) := by
    rw [World.recordedFor, ← List.countP_eq_length_filter]
    simpa using List.length_eq_countP_add_countP (fun x : Post => s.world.Committed x.pid)
      (l := s.world.postsFor i)
  by_cases hall : ∀ x ∈ s.world.postsFor i, s.world.Committed x.pid
  · have hzero : (s.world.postsFor i).countP (fun x => ¬s.world.Committed x.pid) = 0 :=
      List.countP_eq_zero.mpr fun x hx => by simpa using hall x hx
    exact Or.inl (by rw [hsplit, hzero, Nat.add_zero])
  · obtain ⟨x, hx, hopen⟩ : ∃ x ∈ s.world.postsFor i,
      ¬s.world.Committed x.pid := by simpa using hall
    obtain ⟨hx, hid⟩ := mem_postsFor.mp hx
    obtain ⟨l, hposted, hnodup, hmem, hheld⟩ := h.holding hs hx hopen
    rw [hid] at hmem
    -- whoever has posted it and not committed is the poll that holds it
    have hpid : ∀ y ∈ s.world.postsFor i, ¬s.world.Committed y.pid ↔ y.pid = x.pid := by
      intro y hy
      obtain ⟨hy, hyid⟩ := mem_postsFor.mp hy
      refine ⟨fun hc => ?_, fun heq => heq ▸ hopen⟩
      rcases h.recorded hs hy with hc' | hlock
      · exact absurd hc' hc
      · rw [hyid, (hheld i hmem).1] at hlock
        exact (Option.some.inj hlock).symm
    have hone : (s.world.postsFor i).countP (fun x => ¬s.world.Committed x.pid) = 1 := by
      have hcongr : (s.world.postsFor i).countP (fun x => ¬s.world.Committed x.pid) =
          (s.world.postsFor i).countP (fun y => y.pid = x.pid) :=
        List.countP_congr fun y hy => by simpa using hpid y hy
      rw [hcongr, hposted.count, ← List.countP_eq_length_filter]
      have hcount := List.count_eq_one_of_mem hnodup hmem
      rw [List.count, List.countP_map] at hcount
      rw [← hcount]
      exact List.countP_congr fun y _ => by simp
    refine Or.inr ⟨by rw [hsplit, hone], ?_, (hheld i hmem).2⟩
    rw [(hheld i hmem).1]
    exact Option.some_ne_none _

/-- **Nothing is posted after the receiver has accepted it.** -/
theorem pairwise_move (h : s.Unbroken) (hs : s.Reachable crypto) (hmove : s.Moves crypto φ e t φ')
    (hI : ∀ i, (s.world.postsFor i).Pairwise fun x _ => ¬x.result.Accepts) (i : Uuid) :
    (t.world.postsFor i).Pairwise fun x _ => ¬x.result.Accepts := by
  rcases hmove.posts_or with hposts | ⟨p, id, url, body, headers, http, job, k, hproc, -, ht⟩
  · rw [World.postsFor, hposts]
    exact hI i
  · obtain ⟨past, d, todo, rfl, hbatch, hposted, hopen⟩ := hs.posting hproc
    have hd : d ∈ past.map Handled.delivery ++ d :: todo := by simp
    rw [World.postsFor, ht, List.filter_append]
    refine List.pairwise_append.mpr ⟨hI i, List.Pairwise.filter _ (List.pairwise_singleton _ _), ?_⟩
    intro x hx y hy haccepts
    obtain ⟨hx, hxid⟩ := mem_postsFor.mp hx
    obtain ⟨hy, hyid⟩ := List.mem_filter.mp hy
    have hid : x.deliveryId = d.id := by
      rw [List.mem_singleton.mp hy] at hyid
      exact hxid.trans (of_decide_eq_true hyid).symm
    rcases h.recorded hs hx with hc | hlock
    · -- the poll that was accepted has committed, so the delivery is not pending
      obtain ⟨d', hd', hstatus⟩ := hs.delivering.answered x hx hc
        (deliveryError_eq_none.mpr haccepts)
      rw [hid, hbatch.row d hd] at hd'
      rw [← Option.some.inj hd', hbatch.pending d hd] at hstatus
      cases hstatus
    · -- the poll itself has posted others of its batch only
      rw [hid] at hlock
      obtain ⟨h', hh', hid', -⟩ := hposted.exists_handled hx
        (Option.some.inj ((hbatch.locked d hd).symm.trans hlock)).symm
      have hnodup := hbatch.nodup
      rw [List.map_append, List.map_map] at hnodup
      refine (List.nodup_append.mp hnodup).2.2 _ (List.mem_map_of_mem hh') _ List.mem_cons_self ?_
      exact hid'.trans hid

/-- A poll that has returned has committed. -/
theorem Unbroken.committed {es : List Event} (h : s.Unbroken)
    (hrun : run (System.step crypto) .init es = some s) {x : Except Exc Result} {alive : Bool}
    (hproc : s.procs[p]? = some ⟨.poll, .ret x, alive⟩) :
    x = .ok .done ∧ s.world.Committed p ∧ (s.world.postsOf p).map Post.deliveryId =
      (claimedIn (System.init.transcript crypto p es)).map WebhookDelivery.id := by
  obtain rfl := h.alive _ _ _ hproc
  rcases returned_poll hrun hproc with ⟨hx, hc, -, hall⟩ | ⟨-, ⟨l, y, hl, -, hnot, -⟩, -⟩
  · exact ⟨hx, hc, hall⟩
  · have hy : y ∈ s.world.postsOf p := hl ▸ List.mem_append_right l (List.mem_singleton_self y)
    exact absurd (h.storable y (mem_postsOf.mp hy).1) hnot

/-- **The counter of a delivery** is the number of its posts, once nobody holds it. -/
theorem Unbroken.counted (h : s.Unbroken) (hs : s.Reachable crypto) {d : WebhookDelivery}
    (hd : d ∈ s.world.db.deliveries) : (s.world.postsFor d.id).length ≤ maxAttempts ∧
      (s.world.locks d.ref = none → d.attempts = (s.world.postsFor d.id).length) := by
  have hregular := hs.delivering.regular d hd
  have hcounted := hs.delivering.counted d hd
  rcases h.length_postsFor hs d.id with hlength | ⟨hlength, hlocked, d', hd', hpending⟩
  · rw [hlength, ← hcounted]
    refine ⟨?_, fun _ => rfl⟩
    unfold WebhookDelivery.Regular at hregular
    split at hregular
    · exact hregular.1.le
    · exact hregular.2.1
    · exact hregular.le
  · rw [Table.find?_key hd] at hd'
    obtain rfl := Option.some.inj hd'
    rw [WebhookDelivery.Regular, hpending] at hregular
    rw [hlength, ← hcounted]
    exact ⟨hregular.1, fun hfree => absurd hfree hlocked⟩

/-- **No run of this kind breaks a poll off**, or posts again what has been accepted. -/
theorem unbroken_of_reaches (hreach : Reaches (System.step crypto) Uninterrupted .init s) :
    s.Unbroken ∧ ∀ i, (s.world.postsFor i).Pairwise fun x _ => ¬x.result.Accepts := by
  obtain ⟨-, -, -, h, hpairwise⟩ := System.Sound.reaches
    (I := fun s _ => s.Reachable crypto ∧ s.Unbroken ∧
      ∀ i, (s.world.postsFor i).Pairwise fun x _ => ¬x.result.Accepts) hreach System.sound_init
    ⟨Relation.ReflTransGen.refl, ⟨by rintro _ _ _ ⟨⟩, by rintro _ ⟨⟩⟩, fun i =>
      List.Pairwise.nil⟩ <| by
      rintro u ψ e v ψ' - ⟨hu, h, hI⟩ he hstep hmove -
      exact ⟨hu.step hstep, h.move hmove he, System.pairwise_move h hu hmove hI⟩
  exact ⟨h, hpairwise⟩

end System

/-- **Every post is recorded.** In every state reached without a poll being killed and without an
answer that is not storable, a poll that has returned has committed; a post has been committed by
its poll, or the poll still holds the delivery; the counter of a delivery that nobody holds is the
number of its posts; no delivery has been posted more often than the limit, nor once more after it
was accepted. -/
theorem posts_recorded (crypto : Crypto) (s : System)
    (hreach : Reaches (System.step crypto) Uninterrupted .init s) :
    (∀ p x alive, s.procs[p]? = some ⟨.poll, .ret x, alive⟩ → x = .ok .done ∧ s.world.Committed p) ∧
    (∀ x ∈ s.world.posts, s.world.Committed x.pid ∨
      s.world.locks ⟨.deliveries, x.deliveryId⟩ = some x.pid) ∧
    (∀ d ∈ s.world.db.deliveries, (s.world.postsFor d.id).length ≤ maxAttempts ∧
      (s.world.locks d.ref = none → d.attempts = (s.world.postsFor d.id).length)) ∧
    ∀ i, (s.world.postsFor i).Pairwise fun x _ => ¬x.result.Accepts := by
  have hs : s.Reachable crypto := hreach.always
  obtain ⟨es, hrun⟩ := hs.exists_run
  obtain ⟨h, hpairwise⟩ := System.unbroken_of_reaches hreach
  refine ⟨fun p x alive hproc => ?_, fun x hx => h.recorded hs hx, fun d hd => h.counted hs hd,
    hpairwise⟩
  obtain ⟨hx, hc, -⟩ := h.committed hrun hproc
  exact ⟨hx, hc⟩

end Polls

theorem posts_recorded_accepting : ∃ s, Reaches (System.step sampleCrypto) Uninterrupted .init s ∧
    ∃ d ∈ s.world.db.deliveries, d.status = .delivered ∧
      (s.world.postsFor d.id).length ≤ maxAttempts ∧
      (s.world.postsFor d.id).Pairwise fun x _ => ¬x.result.Accepts := by
  have hany : (runIf (System.step sampleCrypto) Uninterrupted .init accepting).any (fun s =>
      s.world.db.deliveries.rows.any fun d => d.status = .delivered) = true := by decide +kernel
  obtain ⟨s, hrun, hany⟩ := (Option.any_eq_true _ _).mp hany
  obtain ⟨d, hd, hstatus⟩ := List.any_eq_true.mp hany
  have hreach := reaches_of_runIf hrun
  obtain ⟨-, -, hbound, hpairwise⟩ := posts_recorded sampleCrypto s hreach
  exact ⟨s, hreach, d, hd, of_decide_eq_true hstatus, (hbound d hd).1, hpairwise d.id⟩

end TenantBilling
