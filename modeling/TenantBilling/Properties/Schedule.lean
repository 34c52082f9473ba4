import TenantBilling.Properties.DeliveryStates

/-!
# The retry schedule

The documented schedule waits 1, 5, 25 and 125 seconds before the attempts 2 to 5. The worker
counts the attempt before it looks the wait up, so it waits 5, 25, 125 and 625 seconds: after
every failed `POST` but the last one the time of the next is another than documented
(`TenantBilling.System.retry_schedule_iff`). That a delivery is not claimed before the time
stored in its row, and that the last failure exhausts it, is as documented.
-/

namespace TenantBilling

open Base World

/-- **What is documented** for a delivery after its `k`-th `POST` has failed at a time. -/
def WebhookDelivery.Documented (d : WebhookDelivery) (k : ℕ) (failedAt : Timestamp → Prop) : Prop :=
  if k < maxAttempts then
    d.status = .pending ∧
      ∃ T, failedAt T ∧ d.nextAttemptAt = some (T + backoffSeconds.getD (k - 1) 0 * second)
  else d.status = .exhausted

/-- The worker has read the time right after the answer to a `POST`. -/
def System.FailedAt (crypto : Crypto) (es : List Event) (x : Post) (T : Timestamp) : Prop :=
  ∃ url body headers, [⟨.post x.deliveryId url body headers, x.result⟩, ⟨.clock, T⟩] <:+:
    System.init.transcript crypto x.pid es

section Schedule

variable {crypto : Crypto} {es : List Event} {s t : System} {p : Pid} {env : Env} {x : Post}

/-- The wait that the worker looks up is never the documented one. -/
theorem backoff_ne {k : ℕ} (hpos : 1 ≤ k) (hlt : k < maxAttempts) :
    backoff k ≠ backoffSeconds.getD (k - 1) 0 := by
  unfold maxAttempts at hlt
  obtain rfl | rfl | rfl | rfl : k = 1 ∨ k = 2 ∨ k = 3 ∨ k = 4 := by omega
  all_goals decide

/-- What the worker stores for a retry. -/
theorem Handled.Became.retried {h : Handled} {d : WebhookDelivery} (hb : h.Became d)
    {http : HttpResult}
    {error : String} {now : Timestamp} (hh : h.handling = .retried http error now) :
    d.nextAttemptAt = some (now + backoff d.attempts * second) := by
  obtain ⟨update, hbind, rfl⟩ := hb
  rw [hh] at hbind
  simp only [Handling.change, DeliveryChange.bind, storeIfSet, Json.store, Option.map_some,
    Option.getD_some] at hbind
  cases hfits : Varchar.ofString? 2000 error with
  | none =>
    rw [hfits] at hbind
    cases hbind
  | some lastError =>
    rw [hfits] at hbind
    obtain rfl := Except.ok.inj hbind
    rfl

/-- A failed `POST` that is not the last one leads to a retry. -/
theorem Handled.Fair.exists_retried {h : Handled} (hfair : h.Fair) {http : HttpResult}
    {error : String}
    (ha : h.handling.answer? = some http) (herror : deliveryError http = some error)
    (hlt : h.delivery.attempts + 1 < maxAttempts) :
    ∃ now, h.handling = .retried http error now := by
  obtain ⟨d, handling⟩ := h
  cases handling with
  | missing => cases ha
  | delivered http' now =>
    obtain rfl := Option.some.inj ha
    rw [show deliveryError http' = none from hfair] at herror
    cases herror
  | exhausted http' error' => exact absurd hlt (Nat.not_lt.mpr hfair.2)
  | retried http' error' now =>
    obtain rfl := Option.some.inj ha
    obtain rfl := Option.some.inj (hfair.1.symm.trans herror)
    exact ⟨now, rfl⟩

namespace System

/-- **A failed `POST` and its delivery**, once the poll has committed. -/
structure FailedRow (crypto : Crypto) (es : List Event) (t : System) (x : Post)
    (d : WebhookDelivery) : Prop where
  row : t.world.db.deliveries.find? x.deliveryId = some d
  /-- The post is the last of so many that are recorded. -/
  counted : (t.world.recordedFor x.deliveryId).length = d.attempts
  recorded : x ∈ t.world.recordedFor x.deliveryId
  failed : ∀ y ∈ t.world.recordedFor x.deliveryId, ¬y.result.Accepts
  bound : d.attempts ≤ maxAttempts
  exhausted : d.attempts = maxAttempts → d.status = .exhausted
  retried : d.attempts < maxAttempts → d.status = .pending ∧
    ∃ T, FailedAt crypto es x T ∧ d.nextAttemptAt = some (T + backoff d.attempts * second)
  time : d.attempts < maxAttempts → ∀ T, FailedAt crypto es x T →
    d.nextAttemptAt = some (T + backoff d.attempts * second)

theorem exists_failedRow (hrun : run (step crypto) .init es = some s)
    {k : Stmt.commit.Resp → ServerProg (Except Exc Result)}
    (hproc : s.procs[p]? = some ⟨.poll, .op .commit k, true⟩)
    (hstep : s.step crypto (.exec p env) = some t) (hx : x ∈ s.world.posts) (hpid : x.pid = p)
    (hfailed : ¬x.result.Accepts) : ∃ d, FailedRow crypto es t x d := by
  have hs : s.Reachable crypto := reaches_of_run hrun
  obtain ⟨ht, -⟩ := hs.moves hstep
  have hworld : t.world = s.world.commit p := by
    simp only [step, hproc] at hstep
    obtain ⟨y, hy, rfl⟩ := Option.map_eq_some_iff.mp hstep
    exact congrArg Prod.snd (Option.some.inj (exec_eq_some.mp hy).2).symm
  obtain ⟨pt, hwalk, ⟨next, hout, -⟩, hholds⟩ := polled hrun hproc
  cases pt with
  | commit past =>
    obtain ⟨hbatch, hposted, hopen⟩ := hholds rfl
    obtain ⟨h, hh, hid, ha⟩ := hposted.exists_handled hx hpid
    obtain ⟨d, hd, hb⟩ := hbatch.find?_commit.1 h hh
    obtain ⟨hrow, hlock, hpending, hfair⟩ := hbatch.handled.2 h hh
    obtain ⟨http, ha', hattempts, hcounts⟩ := hb.counts hfair
    obtain rfl := Option.some.inj (ha.symm.trans ha')
    rw [hid, ← hworld] at hd
    have hmem := (Table.find?_eq_some.mp hd).1
    have hdid : d.id = x.deliveryId := (Table.find?_eq_some.mp hd).2
    have hregular := hs.delivering.regular _ (Table.find?_eq_some.mp hrow).1
    rw [WebhookDelivery.Regular, hpending] at hregular
    obtain ⟨error, herror⟩ := Option.ne_none_iff_exists'.mp (mt deliveryError_eq_none.mp hfailed)
    refine ⟨d, hd, hdid ▸ (ht.delivering.counted d hmem).symm, ?_, ?_, ?_, ?_, ?_, ?_⟩
    · refine List.mem_filter.mpr ⟨mem_postsFor.mpr ⟨?_, rfl⟩, ?_⟩
      · rw [hworld]
        exact hx
      · rw [hworld, hpid]
        simp [committed_commit]
    · -- an accepted post that is recorded is that of a delivered row
      intro y hy haccepts
      obtain ⟨hy, hc⟩ := List.mem_filter.mp hy
      obtain ⟨hy, hyid⟩ := mem_postsFor.mp hy
      obtain ⟨d', hd', hstatus⟩ := ht.delivering.answered y hy (by simpa using hc)
        (deliveryError_eq_none.mpr haccepts)
      rw [hyid, hd] at hd'
      obtain rfl := Option.some.inj hd'
      cases hcounts with
      | delivered hok => rw [hok] at herror; cases herror
      | exhausted _ _ hstatus' => rw [hstatus'] at hstatus; cases hstatus
      | retried _ _ hstatus' => rw [hstatus', hpending] at hstatus; cases hstatus
    · rw [hattempts]
      exact hregular.1
    · intro hlast
      cases hcounts with
      | delivered hok => rw [hok] at herror; cases herror
      | exhausted _ _ hstatus => exact hstatus
      | retried _ hlt => exact absurd hlast hlt.ne
    · intro hlt
      obtain ⟨now, hretried⟩ := hfair.exists_retried ha herror (hattempts ▸ hlt)
      obtain ⟨url, body, headers, hl⟩ := PollPoint.tells hwalk h hh _ _ _ hretried
      refine ⟨?_, now, ⟨url, body, headers, ?_⟩, hb.retried hretried⟩
      · cases hcounts with
        | delivered hok => rw [hok] at herror; cases herror
        | exhausted _ hlast => exact absurd hlt (Nat.not_lt.mpr hlast)
        | retried _ _ hstatus => exact hstatus.trans hpending
      · rwa [hid, ← hpid] at hl
    · -- the poll has posted the delivery once, so it is the time read after this post
      rintro hlt T ⟨url, body, headers, hl⟩
      rw [hpid] at hl
      obtain ⟨h', hh', hid', hretried⟩ := PollPoint.exists_retried hwalk hl herror
      obtain rfl := List.inj_on_of_nodup_map hbatch.handled.1 hh' hh (hid'.trans hid.symm)
      exact hb.retried hretried
  | _ => cases hout

/-- **A failed `POST` is on the documented schedule** if it is the last one, and only then. -/
theorem FailedRow.documented_iff {d : WebhookDelivery} (h : FailedRow crypto es t x d) :
    d.Documented d.attempts (FailedAt crypto es x) ↔ d.attempts = maxAttempts := by
  have hpos : 1 ≤ d.attempts := h.counted ▸ List.length_pos_of_mem h.recorded
  unfold WebhookDelivery.Documented
  constructor
  · intro hdoc
    by_contra hne
    have hlt := lt_of_le_of_ne h.bound hne
    rw [if_pos hlt] at hdoc
    obtain ⟨-, T, hT, hnext⟩ := hdoc
    rw [h.time hlt T hT] at hnext
    have hwait := Int.add_left_cancel (Option.some.inj hnext)
    exact backoff_ne hpos hlt (Int.eq_of_mul_eq_mul_right (by decide) hwait)
  · intro hlast
    rw [if_neg (Nat.not_lt.mpr hlast.ge)]
    exact h.exhausted hlast

/-- **The retry schedule.** In every run, when a poll commits, each of its failed posts is on the
documented schedule if it is the last one that is made, and on no other occasion; before that the
worker waits for the next time of the table, and claims the delivery no earlier. -/
theorem retry_schedule_iff (crypto : Crypto) (es : List Event) (s : System)
    (hrun : run (step crypto) .init es = some s) :
    (∀ p env t k, s.procs[p]? = some ⟨.poll, .op .commit k, true⟩ →
      s.step crypto (.exec p env) = some t → ∀ x ∈ s.world.posts, x.pid = p → ¬x.result.Accepts →
        ∃ d, t.world.db.deliveries.find? x.deliveryId = some d ∧
          d.attempts = (t.world.recordedFor x.deliveryId).length ∧
            x ∈ t.world.recordedFor x.deliveryId ∧
          (∀ y ∈ t.world.recordedFor x.deliveryId, ¬y.result.Accepts) ∧
          (d.Documented d.attempts (FailedAt crypto es x) ↔ d.attempts = maxAttempts) ∧
          (d.attempts ≠ maxAttempts → d.status = .pending ∧ ∃ T, FailedAt crypto es x T ∧
            d.nextAttemptAt = some (T + backoff d.attempts * second))) ∧
    (∀ e p now limit (batch : List WebhookDelivery),
      s.exchange? p e = some ⟨.claimDeliveries now limit, batch⟩ → ∀ d ∈ batch,
        d ∈ s.world.db.deliveries ∧ ∃ due, d.nextAttemptAt = some due ∧ due ≤ now) := by
  refine ⟨fun p env t k hproc hstep x hx hpid hfailed => ?_, fun e p now limit batch hx d hd => ?_⟩
  · obtain ⟨d, hd⟩ := exists_failedRow hrun hproc hstep hx hpid hfailed
    exact ⟨d, hd.row, hd.counted.symm, hd.recorded, hd.failed, hd.documented_iff,
      fun hne => hd.retried (lt_of_le_of_ne hd.bound hne)⟩
  · obtain ⟨job, k, w', hproc, hans⟩ := exchange?_eq_some hx
    obtain ⟨hdue, -⟩ := answers_claimDeliveries hans
    have hs : s.Reachable crypto := reaches_of_run hrun
    have hrow := hdue.row d hd
    rw [(hs.claiming hproc).view] at hrow
    exact ⟨(Table.find?_eq_some.mp hrow).1, hdue.time d hd⟩

end System

end Schedule

/-! ### An example -/

/-- The first `POST` of a delivery fails, and the poll is about to commit. -/
def failing : List Event :=
  enqueuing ++ .start .poll :: List.replicate 7 (.exec 3 { http := .response 500 none })

/-- A poll that is about to commit. -/
def Proc.pollCommits : Proc → Bool
  | ⟨.poll, .op .commit _, true⟩ => true
  | _ => false

theorem Proc.pollCommits_iff {proc : Proc} :
    proc.pollCommits = true ↔ ∃ k, proc = ⟨.poll, .op .commit k, true⟩ := by
  constructor
  · intro h
    unfold pollCommits at h
    split at h
    · exact ⟨_, rfl⟩
    · cases h
  · rintro ⟨k, rfl⟩
    rfl

/-- The poll commits: the delivery has failed once, and the post is recorded. -/
theorem exists_failing : ∃ s t k x d, run (System.step sampleCrypto) .init failing = some s ∧
    s.procs[3]? = some ⟨.poll, .op .commit k, true⟩ ∧
      s.step sampleCrypto (.exec 3 {}) = some t ∧ x ∈ s.world.posts ∧ x.pid = 3 ∧
        ¬x.result.Accepts ∧
        System.FailedRow sampleCrypto failing t x d ∧ d.attempts = 1 := by
  have hany : (run (System.step sampleCrypto) .init failing).any (fun s =>
      s.procs[3]?.any Proc.pollCommits && (s.step sampleCrypto (.exec 3 {})).any (fun t =>
        s.world.posts.any (fun x => x.pid = 3 ∧ deliveryError x.result ≠ none) &&
          t.world.db.deliveries.rows.all fun d => d.attempts = 1)) = true := by decide +kernel
  obtain ⟨s, hrun, hany⟩ := (Option.any_eq_true _ _).mp hany
  simp only [Bool.and_eq_true] at hany
  obtain ⟨hproc, hstep⟩ := hany
  obtain ⟨proc, hproc, hcommits⟩ := (Option.any_eq_true _ _).mp hproc
  obtain ⟨k, rfl⟩ := Proc.pollCommits_iff.mp hcommits
  obtain ⟨t, hstep, hrest⟩ := (Option.any_eq_true _ _).mp hstep
  obtain ⟨hposts, hrows⟩ := Bool.and_eq_true_iff.mp hrest
  obtain ⟨x, hx, hpost⟩ := List.any_eq_true.mp hposts
  obtain ⟨hpid, hfailed⟩ := of_decide_eq_true hpost
  have hfailed : ¬x.result.Accepts := mt deliveryError_eq_none.mpr hfailed
  obtain ⟨d, hd⟩ := System.exists_failedRow hrun hproc hstep hx hpid hfailed
  have hmem := (Table.find?_eq_some.mp hd.row).1
  exact ⟨s, t, k, x, d, hrun, hproc, hstep, hx, hpid, hfailed, hd,
    of_decide_eq_true (List.all_eq_true.mp hrows d hmem)⟩

theorem not_retry_schedule : ¬∀ (es : List Event) (s : System),
    run (System.step sampleCrypto) .init es = some s →
    ∀ p env t k, s.procs[p]? = some ⟨.poll, .op .commit k, true⟩ →
      s.step sampleCrypto (.exec p env) = some t → ∀ x ∈ s.world.posts,
        x.pid = p → ¬x.result.Accepts →
        ∃ d, t.world.db.deliveries.find? x.deliveryId = some d ∧
          d.Documented d.attempts (System.FailedAt sampleCrypto es x) := by
  intro h
  obtain ⟨s, t, k, x, d, hrun, hproc, hstep, hx, hpid, hfailed, hd, hone⟩ := exists_failing
  obtain ⟨d', hd', hdoc⟩ := h failing s hrun 3 {} t k hproc hstep x hx hpid hfailed
  obtain rfl := Option.some.inj (hd.row.symm.trans hd')
  have hlast := hd.documented_iff.mp hdoc
  rw [hone] at hlast
  exact absurd hlast (by decide)

theorem retry_schedule_failing : ∃ s t x d, run (System.step sampleCrypto) .init failing = some s ∧
    s.step sampleCrypto (.exec 3 {}) = some t ∧ t.world.db.deliveries.find? x.deliveryId = some d ∧
      d.attempts = 1 ∧ ¬d.Documented 1 (System.FailedAt sampleCrypto failing x) := by
  obtain ⟨s, t, k, x, d, hrun, hproc, hstep, hx, hpid, hfailed, hd, hone⟩ := exists_failing
  obtain ⟨d', hd', -, -, -, hiff, -⟩ :=
    (System.retry_schedule_iff sampleCrypto failing s hrun).1 3 {} t k hproc hstep x hx hpid hfailed
  obtain rfl := Option.some.inj (hd.row.symm.trans hd')
  rw [hone] at hiff
  exact ⟨s, t, x, d, hrun, hstep, hd', hone, fun hdoc => absurd (hiff.mp hdoc) (by decide)⟩

end TenantBilling
