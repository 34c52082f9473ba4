import TenantBilling.Properties.Recorded

/-!
# The deliveries of a poll and each other

All the deliveries of a poll are in one transaction, so an answer whose text the column refuses
takes the outcomes of the others with it: a delivery that has been accepted is pending again
(`TenantBilling.not_deliveries_independent`). Nothing else can do so. Every poll that was told
storable answers commits, and while no poll is killed and all answers are storable, the polls make
of each delivery what a poll of it alone would make of it, and count each post
(`TenantBilling.deliveries_independent`).
-/

namespace TenantBilling

open Base World

/-- **The deliveries of a poll have not affected each other**, in a run that has led to this
state. -/
structure System.DeliveriesApart (s : System) (crypto : Crypto) (es : List Event) : Prop where
  /-- A poll that has returned has committed, after one post of each delivery that it
  had claimed. -/
  committed : ∀ p x alive, s.procs[p]? = some ⟨.poll, .ret x, alive⟩ →
    x = .ok .done ∧ s.world.Committed p ∧ (s.world.postsOf p).map Post.deliveryId =
      (claimedIn (System.init.transcript crypto p es)).map WebhookDelivery.id
  /-- A poll that has not commits when it goes on, unless it is told what is not storable. -/
  commits : ∀ p prog alive, s.procs[p]? = some ⟨.poll, prog, alive⟩ →
    ∀ envs : ℕ → Env, (∀ k, (envs k).http.Storable) → ∃ n t,
      run (System.step crypto) s (alone p n envs) = some t ∧ t.returned? p = some (.ok .done) ∧
        t.world.Committed p
  /-- The commit makes of each delivery claimed what a poll of it alone makes of it. -/
  apart : ∀ p k env t, s.procs[p]? = some ⟨.poll, .op .commit k, true⟩ →
    s.step crypto (.exec p env) = some t → s.CommitsApart crypto es p t
  /-- The posts of a delivery are recorded in its own counter, and are not more than the limit. -/
  counted : ∀ d ∈ s.world.db.deliveries, (s.world.postsFor d.id).length ≤ maxAttempts ∧
    (s.world.locks d.ref = none → d.attempts = (s.world.postsFor d.id).length)
  /-- No delivery is posted again after it was accepted. -/
  accepted : ∀ i, (s.world.postsFor i).Pairwise fun x _ => ¬x.result.Accepts

theorem mem_alone {p : Pid} {n : ℕ} {envs : ℕ → Env} {e : Event} (h : e ∈ alone p n envs) :
    ∃ k, e = .exec p (envs k) := by
  induction n generalizing envs with
  | zero => cases h
  | succ n ih =>
    rcases List.mem_cons.mp h with rfl | h
    · exact ⟨0, rfl⟩
    · obtain ⟨k, rfl⟩ := ih h
      exact ⟨k + 1, rfl⟩

section Runs

variable {crypto : Crypto} {s t : System} {p : Pid} {n : ℕ} {envs : ℕ → Env}

/-- What a session is answered over HTTP when it is run alone. -/
theorem whenPosting_alone {P : HttpResult → Prop} (henvs : ∀ k, P (envs k).http) (u : System)
    {e : Event} (he : e ∈ alone p n envs) : WhenPosting P u e := by
  obtain ⟨k, rfl⟩ := mem_alone he
  unfold WhenPosting
  dsimp only
  split
  · exact henvs k
  · trivial

theorem sparesPolls_alone (u : System) {e : Event} (he : e ∈ alone p n envs) : SparesPolls u e := by
  obtain ⟨k, rfl⟩ := mem_alone he
  trivial

namespace System

/-- **What is posted in a run** is answered as its steps have it. -/
theorem Reachable.posts_whenPosting {P : HttpResult → Prop} (hs : s.Reachable crypto)
    (hreach : Reaches (System.step crypto) (WhenPosting P) s t) :
    ∀ x ∈ t.world.posts, x ∈ s.world.posts ∨ P x.result := by
  obtain ⟨φ, h⟩ := hs.sound
  obtain ⟨-, -, hI⟩ := Sound.reaches
    (I := fun u _ => ∀ x ∈ u.world.posts, x ∈ s.world.posts ∨ P x.result) hreach h
    (fun _ hx => Or.inl hx) fun _ _ _ _ _ _ hI he _ hmove _ x hx =>
      (hmove.posts_whenPosting he x hx).elim (hI x) Or.inr
  exact hI

/-- **A poll has committed exactly if what it was told is storable**. -/
theorem committed_iff_storable {es : List Event} (hrun : run (System.step crypto) .init es = some s)
    {x : Except Exc Result} (hproc : s.procs[p]? = some ⟨.poll, .ret x, true⟩) :
    s.world.Committed p ↔ ∀ y ∈ s.world.postsOf p, y.result.Storable := by
  rcases returned_poll hrun hproc with ⟨-, hc, hstorable, -⟩ | ⟨hopen, ⟨l, y, hl, -, hnot, -⟩, -⟩
  · exact iff_of_true hc hstorable
  · refine iff_of_false hopen fun hall => hnot (hall y ?_)
    rw [hl]
    exact List.mem_append_right l (List.mem_singleton_self y)

/-- **A poll commits** when it goes on alone and is told what is storable. -/
theorem exists_committed (hreach : Reaches (System.step crypto) Uninterrupted .init s)
    {prog : ServerProg (Except Exc Result)} {alive : Bool}
    (hproc : s.procs[p]? = some ⟨.poll, prog, alive⟩) (henvs : ∀ k, (envs k).http.Storable) :
    ∃ n t, run (System.step crypto) s (alone p n envs) = some t ∧
      t.returned? p = some (.ok .done) ∧ t.world.Committed p := by
  have hs : s.Reachable crypto := hreach.always
  obtain rfl := (unbroken_of_reaches hreach).1.alive _ _ _ hproc
  obtain ⟨pt, htracks, hholds⟩ := hs.polling hproc
  obtain ⟨n, -, t, x, hrun, hx⟩ := hs.exists_poll_returned hproc htracks hholds envs
  have ht : Reaches (System.step crypto) Uninterrupted .init t := hreach.trans <|
    reaches_of_forall hrun fun u e he => ⟨sparesPolls_alone u he, whenPosting_alone henvs u he⟩
  obtain ⟨es, hrun_t⟩ := ht.exists_run
  obtain ⟨rfl, hc, -⟩ := (unbroken_of_reaches ht).1.committed hrun_t hx
  exact ⟨n, t, hrun, (returned?_eq_some hx).mpr rfl, hc⟩

end System

/-- **The deliveries of a poll do not affect each other** in any run in which no poll is killed
and all answers are storable; and any poll that is not killed commits exactly if all of its
answers are. -/
theorem deliveries_independent (crypto : Crypto) :
    (∀ es s,
      Reaches (record (System.step crypto)) (fun x => Uninterrupted x.2) ([], .init) (es, s) →
        s.DeliveriesApart crypto es) ∧
    ∀ es s, run (System.step crypto) .init es = some s → ∀ p x,
      s.procs[p]? = some ⟨.poll, .ret x, true⟩ →
        (s.world.Committed p ↔ ∀ y ∈ s.world.postsOf p, y.result.Storable) := by
  refine ⟨fun es s hrec => ?_, fun es s hrun p x hproc => System.committed_iff_storable hrun hproc⟩
  have hreach : Reaches (System.step crypto) Uninterrupted .init s := hrec.of_record
  have hrun : run (System.step crypto) .init es = some s := hrec.run_recorded
  obtain ⟨h, hpairwise⟩ := System.unbroken_of_reaches hreach
  exact
    { committed := fun p x alive hproc => h.committed hrun hproc
      commits := fun p prog alive hproc envs henvs => System.exists_committed hreach hproc henvs
      apart := fun p k env t hproc hstep => System.commit_apart hrun hproc hstep
      counted := fun d hd => h.counted hreach.always hd
      accepted := hpairwise }

end Runs

/-- Of two deliveries of a poll one fails and one is accepted, and both are recorded; where the
answer to the second one is not storable, the poll has not committed. -/
theorem deliveries_independent_two :
    (∃ es s,
      Reaches (record (System.step sampleCrypto)) (fun x => Uninterrupted x.2) ([], .init) (es, s) ∧
      s.DeliveriesApart sampleCrypto es ∧ s.world.Committed 4 ∧
        (∃ d, s.world.db.deliveries.find? 0 = some d ∧ d.status = .pending ∧ d.attempts = 1) ∧
          ∃ d, s.world.db.deliveries.find? 1 = some d ∧ d.status = .delivered ∧ d.attempts = 1) ∧
    ∃ s, run (System.step sampleCrypto) .init losingTwo = some s ∧ ¬s.world.Committed 4 ∧
      ∃ y ∈ s.world.postsOf 4, ¬y.result.Storable := by
  constructor
  · obtain ⟨⟨es, s⟩, hrun, hany⟩ := (Option.any_eq_true _ _).mp (by decide +kernel :
      (runIf (record (System.step sampleCrypto)) (fun x => Uninterrupted x.2) ([], .init)
        recordingTwo).any (fun y => y.2.world.Committed 4 ∧
          (y.2.world.db.deliveries.find? 0).any (fun d => d.status = .pending ∧ d.attempts = 1) =
            true ∧
          (y.2.world.db.deliveries.find? 1).any (fun d => d.status = .delivered ∧ d.attempts = 1) =
            true) = true)
    obtain ⟨hc, hfirst, hsecond⟩ := of_decide_eq_true hany
    obtain ⟨d₁, hd₁, hfirst⟩ := (Option.any_eq_true _ _).mp hfirst
    obtain ⟨d₂, hd₂, hsecond⟩ := (Option.any_eq_true _ _).mp hsecond
    have hrec := reaches_of_runIf hrun
    exact ⟨es, s, hrec, (deliveries_independent sampleCrypto).1 es s hrec, hc,
      ⟨d₁, hd₁, of_decide_eq_true hfirst⟩, d₂, hd₂, of_decide_eq_true hsecond⟩
  · obtain ⟨s, hrun, hany⟩ := (Option.any_eq_true _ _).mp (by decide +kernel :
      (run (System.step sampleCrypto) .init losingTwo).any (fun s =>
        s.procs[4]?.any Proc.isPoll ∧ (s.returned? 4).isSome ∧ ¬s.world.Committed 4) = true)
    obtain ⟨hpoll, hreturned, hopen⟩ := of_decide_eq_true hany
    obtain ⟨proc, hproc, hpoll⟩ := (Option.any_eq_true _ _).mp hpoll
    obtain ⟨prog, rfl⟩ := Proc.isPoll_iff.mp hpoll
    obtain ⟨x, hx⟩ := Option.isSome_iff_exists.mp hreturned
    obtain rfl := (returned?_eq_some hproc).mp hx
    have hiff := (deliveries_independent sampleCrypto).2 losingTwo s hrun 4 x hproc
    refine ⟨s, hrun, hopen, ?_⟩
    by_contra hall
    push Not at hall
    exact hopen (hiff.mpr hall)

/-! ### A text that is too long -/

/-- A text that is too long for the column of an error. -/
def longMessage : String := String.ofList (List.replicate 2001 'x')

theorem length_longMessage : longMessage.length = 2001 :=
  String.length_ofList.trans List.length_replicate

theorem not_storable_longMessage : ¬(HttpResult.exception longMessage).Storable := by
  intro h
  have hle := (h longMessage rfl).1
  rw [length_longMessage] at hle
  exact absurd hle (by decide)

/-- A poll has claimed two deliveries, and the first one has been accepted. -/
def acceptingFirst : List Event :=
  enqueuingTwo ++ .start .poll :: List.replicate 7 (.exec 4 { http := .response 200 none })

/-- When the error of the second delivery is too long, the poll does not commit, and that the
first one was accepted is not recorded. -/
theorem not_deliveries_independent : ¬∀ es s,
    Reaches (record (System.step sampleCrypto)) (fun x => SparesPolls x.2) ([], .init) (es, s) →
      s.DeliveriesApart sampleCrypto es := by
  intro h
  obtain ⟨⟨es, s⟩, hrun, hany⟩ := (Option.any_eq_true _ _).mp (by decide +kernel :
    (runIf (record (System.step sampleCrypto)) (fun x => SparesPolls x.2) ([], .init)
      acceptingFirst).any (fun y => y.2.procs[4]?.any Proc.isPoll ∧
        (∀ x ∈ y.2.world.posts, x.deliveryId = 0) ∧
        1 ∈ (claimedIn (System.init.transcript sampleCrypto 4 y.1)).map WebhookDelivery.id) = true)
  obtain ⟨hpoll, hposts, hclaimed⟩ := of_decide_eq_true hany
  obtain ⟨proc, hproc, hpoll⟩ := (Option.any_eq_true _ _).mp hpoll
  obtain ⟨prog, rfl⟩ := Proc.isPoll_iff.mp hpoll
  have hrec := reaches_of_runIf hrun
  have hreach : Reaches (System.step sampleCrypto) SparesPolls .init s := hrec.of_record
  have hs : s.Reachable sampleCrypto := hreach.always
  -- the poll goes on, and the second delivery meets the long text
  obtain ⟨pt, htracks, hholds⟩ := hs.polling hproc
  obtain ⟨n, -, t, x, hrun_t, hx⟩ :=
    hs.exists_poll_returned hproc htracks hholds fun _ => { http := .exception longMessage }
  have hnext := hs.posts_whenPosting (P := fun http => ¬http.Storable) <|
    reaches_of_forall hrun_t fun u e he =>
      whenPosting_alone (fun _ => not_storable_longMessage) u he
  have hrec_t : Reaches (record (System.step sampleCrypto)) (fun x => SparesPolls x.2) ([], .init)
      (_, t) :=
    hrec.trans <| reaches_of_forall (run_record es hrun_t) fun y e he => sparesPolls_alone y.2 he
  have hrun_es := hrec_t.run_recorded
  obtain ⟨-, hc, hall⟩ := (h _ t hrec_t).committed 4 x true hx
  have hstorable := (System.committed_iff_storable hrun_es hx).mp hc
  rw [System.transcript_append hrec.run_recorded, claimedIn_append, List.map_append] at hall
  obtain ⟨y, hy, hid⟩ := List.mem_map.mp (hall ▸ List.mem_append_left _ hclaimed)
  rcases hnext y (mem_postsOf.mp hy).1 with hold | hnot
  · exact absurd ((hposts y hold).symm.trans hid) (by decide)
  · exact hnot (hstorable y hy)

end TenantBilling
