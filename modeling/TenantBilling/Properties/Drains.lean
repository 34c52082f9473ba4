import TenantBilling.Base.Accounts
import TenantBilling.Properties.Batches
import TenantBilling.Properties.Worker

/-!
# The outbox drains

A round of the worker is a poll that is started and left to itself until it returns, at a time at
which everything is due. A poll that finds something claims it, and each delivery it has claimed
has one `POST` less to come (`TenantBilling.PollPoint.Drains`), so that after five rounds for
every pending delivery nothing is pending but what another worker is holding
(`TenantBilling.outbox_drains`). It does not matter how the receivers answer, as long as the text
of an error fits its column.
-/

namespace TenantBilling

open Base World

/-! ### What is left to be posted -/

/-- How many `POST`s of a delivery are to come at most. -/
def WebhookDelivery.left (d : WebhookDelivery) : ℕ :=
  if d.status = .pending then maxAttempts - d.attempts else 0

/-- How many are to come of a delivery that no session holds. -/
def leftOf (locks : RowRef → Option Pid) (d : WebhookDelivery) : ℕ :=
  if locks d.ref = none then d.left else 0

/-- **The backlog**: how many `POST`s are to come of the deliveries that no session holds. -/
def World.backlog (w : World) : ℕ := (w.db.deliveries.rows.map (leftOf w.locks)).sum

/-- Everything is due at the time. -/
def World.Late (w : World) (now : Timestamp) : Prop :=
  ∀ d ∈ w.db.deliveries, ∀ time ∈ d.nextAttemptAt, time ≤ now

section Backlog

variable {w : World} {p : Pid} {d : WebhookDelivery}

theorem WebhookDelivery.left_pos (h : d.Regular) (hpending : d.status = .pending) : 0 < d.left := by
  rw [Regular, hpending] at h
  rw [left, if_pos hpending]
  exact Nat.sub_pos_of_lt h.1

/-- A delivery that has been handled has less `POST`s to come. -/
theorem Handled.Became.left_lt {h : Handled} (hb : h.Became d) (hfair : h.Fair)
    (hregular : h.delivery.Regular) (hpending : h.delivery.status = .pending) :
    d.left < h.delivery.left := by
  obtain ⟨http, -, hattempts, -⟩ := hb.counts hfair
  have hpos := WebhookDelivery.left_pos hregular hpending
  rw [WebhookDelivery.left, if_pos hpending] at hpos
  rw [WebhookDelivery.left, WebhookDelivery.left, if_pos hpending, hattempts]
  split <;> omega

/-- Without a backlog nothing is pending but what some session holds. -/
theorem World.exists_lock (hregular : ∀ d ∈ w.db.deliveries, d.Regular) (hzero : w.backlog = 0)
    (hd : d ∈ w.db.deliveries) (hpending : d.status = .pending) : ∃ q, w.locks d.ref = some q := by
  have hnone : leftOf w.locks d = 0 :=
    List.sum_eq_zero_iff.mp hzero _ (List.mem_map_of_mem hd)
  refine Option.ne_none_iff_exists'.mp fun hfree => ?_
  rw [leftOf, if_pos hfree] at hnone
  exact absurd hnone (WebhookDelivery.left_pos (hregular d hd) hpending).ne'

/-- Each pending delivery has five `POST`s to come at most. -/
theorem World.backlog_le (w : World) : w.backlog ≤
    maxAttempts * (w.db.deliveries.rows.filter fun d => d.status = .pending).length := by
  unfold backlog
  induction w.db.deliveries.rows with
  | nil => exact le_rfl
  | cons d rows ih =>
    rw [List.map_cons, List.sum_cons, List.filter_cons]
    have hle : leftOf w.locks d ≤ d.left := by
      unfold leftOf
      split
      · exact le_rfl
      · exact Nat.zero_le _
    by_cases hpending : d.status = .pending
    · have hleft : d.left ≤ maxAttempts := by
        rw [WebhookDelivery.left, if_pos hpending]
        exact Nat.sub_le _ _
      rw [if_pos (decide_eq_true hpending), List.length_cons, Nat.mul_succ]
      omega
    · have hleft : d.left = 0 := if_neg hpending
      rw [if_neg (by simpa using hpending)]
      omega

/-- What became of deliveries is stored in the rows that they have. -/
theorem keys_of_stores {past : List Handled} {ws : List Write}
    (h : List.Forall₂ Handled.Stores past ws)
    (db : Database) : (db.applyAll ws).deliveries.rows.map WebhookDelivery.id =
      db.deliveries.rows.map WebhookDelivery.id := by
  induction h generalizing db with
  | nil => rfl
  | @cons handled x past ws hx hrest ih =>
    obtain ⟨update, -, rfl⟩ := hx
    exact (ih _).trans (Table.keys_update _ _ _ (WebhookDelivery.update_id · update))

/-- **The commit of a batch** shortens the backlog. -/
theorem Batch.backlog_commit {past : List Handled} (hbatch : Batch w p past []) (hne : past ≠ [])
    (hregular : ∀ d ∈ w.db.deliveries, d.Regular) {locks : RowRef → Option Pid}
    (hlocks : ∀ r, (w.release p).locks r = locks r) :
    (w.commit p).backlog < (w.db.deliveries.rows.map (leftOf locks)).sum := by
  have hkeys : (w.commit p).db.deliveries.rows.map WebhookDelivery.id =
      w.db.deliveries.rows.map WebhookDelivery.id := keys_of_stores hbatch.writes w.db
  obtain rfl : (w.commit p).locks = locks := funext hlocks
  obtain ⟨hhandled, hrest⟩ := hbatch.find?_commit
  have hless : ∀ h ∈ past, ∀ d, (w.commit p).db.deliveries.find? h.delivery.id = some d →
      leftOf (w.commit p).locks d < leftOf (w.commit p).locks h.delivery := by
    intro h hh d hd
    obtain ⟨d', hd', hbecame⟩ := hhandled h hh
    obtain rfl := Option.some.inj (hd.symm.trans hd')
    obtain ⟨hrow, hlock, hpending, hfair⟩ := hbatch.handled.2 h hh
    have hfree : (w.commit p).locks h.delivery.ref = none := by
      rw [locks_commit, locks_release, if_pos hlock]
    have href : d.ref = h.delivery.ref := congrArg (RowRef.mk .deliveries) hbecame.id
    rw [leftOf, leftOf, href, if_pos hfree, if_pos hfree]
    exact hbecame.left_lt hfair (hregular _ (Table.find?_eq_some.mp hrow).1) hpending
  refine Table.sum_lt_sum hkeys _ (fun d hd d' hd' => ?_) ?_
  · by_cases hmem : d.id ∈ past.map fun h => h.delivery.id
    · obtain ⟨h, hh, hid⟩ := List.mem_map.mp hmem
      obtain rfl : h.delivery = d := by
        have hrow := (hbatch.handled.2 h hh).1
        rw [hid, Table.find?_key hd] at hrow
        exact (Option.some.inj hrow).symm
      exact (hless h hh d' hd').le
    · rw [hrest d.id hmem, Table.find?_key hd] at hd'
      exact (congrArg _ (Option.some.inj hd').symm).le
  · obtain ⟨h, hh⟩ := List.exists_mem_of_ne_nil past hne
    exact ⟨h.delivery, (Table.find?_eq_some.mp (hbatch.handled.2 h hh).1).1, hless h hh⟩

end Backlog

/-! ### A round -/

/-- What a session has done so far is to lock rows that were free. -/
structure World.Locked (w₀ : World) (p : Pid) (w : World) : Prop where
  db : w.db = w₀.db
  locks : ∀ r, (w.release p).locks r = w₀.locks r

/-- What the environment contributes to a round: a time at which everything is due, and answers that
can be stored. -/
structure World.Suits (w : World) (env : Env) : Prop where
  late : w.Late env.now
  http : env.http.Storable

/-- **How a round goes on** that has started in the world `w₀`: everything that it claims gets
stored, and if it claims nothing there is nothing to claim. -/
def PollPoint.Drains (w₀ : World) (p : Pid) (w : World) : PollPoint → Prop
  | start | fetch .. | sign .. | post .. => w₀.Locked p w
  | claim now => w₀.Locked p w ∧ w₀.Late now
  | stamp _ _ http _ _ => w₀.Locked p w ∧ http.Storable
  | flush _ _ handling _ => w₀.Locked p w ∧ ∀ http, handling.answer? = some http → http.Storable
  | commit past => w₀.Locked p w ∧ (past = [] → w₀.backlog = 0)
  | closing _ | done _ => (∀ r, w.locks r = w₀.locks r) ∧ (w.backlog < w₀.backlog ∨ w.backlog = 0)

section Round

variable {crypto : Crypto} {w₀ w w' : World} {p : Pid} {pt : PollPoint} {st : Stmt}
  {next : st.Resp → PollPoint} {r : st.Resp} {env : Env}

theorem World.Locked.congr (h : w₀.Locked p w) (hdb : w'.db = w.db) (hlocks : w'.locks = w.locks) :
    w₀.Locked p w' where
  db := hdb.trans h.db
  locks row := by
    rw [← h.locks row, locks_release, locks_release, hlocks]

/-- A claim that brings nothing finds no backlog. -/
theorem World.Locked.backlog_eq_zero (h : w₀.Locked p w)
    (hregular : ∀ d ∈ w₀.db.deliveries, d.Regular)
    {now : Timestamp} (hlate : w₀.Late now) (hwrites : w.writesOf p = []) {rank : Uuid → ℕ}
    {limit : ℕ} (hlimit : 0 < limit) (hnil : w.dueDeliveries p rank now limit = []) :
    w₀.backlog = 0 := by
  refine List.sum_eq_zero fun n hn => ?_
  obtain ⟨d, hd, rfl⟩ := List.mem_map.mp hn
  unfold leftOf WebhookDelivery.left
  by_contra hleft
  have hfree : w₀.locks d.ref = none := by
    by_contra hlock
    exact hleft (if_neg hlock)
  have hpending : d.status = .pending := by
    by_contra hstatus
    rw [if_pos hfree] at hleft
    exact hleft (if_neg hstatus)
  -- the delivery is due, and nobody holds it
  have hregular := hregular d hd
  rw [WebhookDelivery.Regular, hpending] at hregular
  obtain ⟨time, htime⟩ := Option.ne_none_iff_exists'.mp hregular.2
  have hwaits : w.lockWaits p d.ref = [] := by
    refine lockWaits_eq_nil.mpr fun q hq => ?_
    by_contra hne
    have hlocks := h.locks d.ref
    rw [hfree, locks_release, if_neg (by rw [hq]; simpa using hne), hq] at hlocks
    cases hlocks
  have hview : (w.view p).deliveries.rows = w₀.db.deliveries.rows := by
    rw [World.view, hwrites, h.db]
    rfl
  rw [World.dueDeliveries, List.take_eq_nil_iff] at hnil
  rcases hnil with hzero | hnil
  · exact absurd hzero hlimit.ne'
  have hmem : d ∈ (w.view p).deliveries.rows.filter fun d => d.status = .pending &&
      d.nextAttemptAt.any (· ≤ now) && (w.lockWaits p ⟨.deliveries, d.id⟩).isEmpty := by
    refine List.mem_filter.mpr ⟨hview ▸ hd, ?_⟩
    have hdue : d.nextAttemptAt.any (· ≤ now) = true := by
      rw [htime]
      exact decide_eq_true (hlate d hd time htime)
    have hempty : (w.lockWaits p ⟨.deliveries, d.id⟩).isEmpty = true := List.isEmpty_iff.mpr hwaits
    rw [hdue, hempty, hpending]
    rfl
  have hempty := List.length_insertionSort (fun a b : WebhookDelivery =>
    a.nextAttemptAt.getD 0 < b.nextAttemptAt.getD 0 ∨
      a.nextAttemptAt.getD 0 = b.nextAttemptAt.getD 0 ∧ rank a.id ≤ rank b.id) _ |>.symm.trans
        (congrArg List.length hnil)
  rw [List.length_eq_zero_iff.mp hempty] at hmem
  cases hmem

theorem PollPoint.drains_visit (h : w₀.Locked p w) {past : List Handled}
    {todo : List WebhookDelivery}
    (hnil : past = [] → todo = [] → w₀.backlog = 0) : (visit past todo).Drains w₀ p w := by
  cases todo with
  | nil => exact ⟨h, fun hpast => hnil hpast rfl⟩
  | cons d todo => exact h

theorem PollPoint.drains_posted (h : w₀.Locked p w) {http : HttpResult} (hhttp : http.Storable)
    (past : List Handled) (d : WebhookDelivery) (todo : List WebhookDelivery) :
    (posted past d http todo).Drains w₀ p w := by
  have hflush : ∀ error answer, (Handling.exhausted http error).answer? = some answer →
      answer.Storable := by
    rintro error answer ⟨⟩
    exact hhttp
  unfold posted
  split
  · exact ⟨h, hhttp⟩
  · split
    · exact ⟨h, hflush _⟩
    · exact ⟨h, hhttp⟩

/-- The batch is claimed. -/
theorem PollPoint.drains_claimed (h : w₀.Locked p w) {now : Timestamp}
    {batch : List WebhookDelivery} (hdue : w.Due p now batch) (hnil : batch = [] → w₀.backlog = 0) :
    (visit [] batch).Drains w₀ p (w.lockAll p batch) := by
  refine drains_visit ⟨?_, fun row => ?_⟩ fun _ hbatch => hnil hbatch
  · rw [lockAll_eq]
    exact h.db
  · have hlocks : (w.lockAll p batch).locks row =
        if row ∈ batch.map WebhookDelivery.ref then some p else w.locks row := by rw [lockAll_eq]
    rw [← h.locks row, locks_release, locks_release]
    by_cases hmem : row ∈ batch.map WebhookDelivery.ref
    · -- what is claimed was free
      rw [if_pos hmem] at hlocks
      obtain ⟨d, hd, rfl⟩ := List.mem_map.mp hmem
      have hwaits := lockWaits_eq_nil.mp (hdue.free d hd)
      cases hlock : w.locks d.ref with
      | none => simp [hlocks]
      | some q => simp [hlocks, hwaits q hlock]
    · rw [if_neg hmem] at hlocks
      simp only [hlocks]

/-- **A statement of a round.** -/
theorem PollPoint.Drains.step (h : pt.Drains w₀ p w) (hholds : pt.Holds w p)
    (hregular : ∀ d ∈ w₀.db.deliveries, d.Regular) (henv : w₀.Suits env)
    (hout : pt.out crypto = .op st next) (hexec : w.exec p env st = some (r, w')) :
    (next r).Drains w₀ p w' := by
  obtain ⟨-, hperform⟩ := exec_eq_some.mp hexec
  have hans : w.Answers p st r w' := .exec env hexec
  cases pt with
  | start =>
    cases hout
    obtain ⟨rfl, rfl⟩ := Prod.mk.inj (Option.some.inj hperform)
    exact ⟨h, henv.late⟩
  | claim now =>
    cases hout
    obtain ⟨hdue, rfl⟩ := answers_claimDeliveries hans
    obtain ⟨hr, -⟩ := Prod.mk.inj (Option.some.inj hperform)
    exact drains_claimed h.1 hdue fun hnil =>
      h.1.backlog_eq_zero hregular h.2 hholds.1.writes (by decide) (hr.trans hnil)
  | fetch past d todo =>
    cases hout
    obtain ⟨⟨env', hr⟩, rfl⟩ := answers_select hans
    obtain ⟨hbatch, -⟩ := hholds
    rcases r with _ | endpoint
    · exact ⟨h, by rintro http ⟨⟩⟩
    · exact h
  | sign past d endpoint todo =>
    cases hout
    obtain rfl := answers_clock hans
    exact h
  | post past d endpoint time todo =>
    cases hout
    obtain ⟨rfl, rfl⟩ := Prod.mk.inj (Option.some.inj hperform)
    change (posted past d env.http todo).Drains w₀ p _
    refine drains_posted (World.Locked.congr h ?_ ?_) henv.http past d todo
    · rfl
    · rfl
  | stamp past d http error todo =>
    cases hout
    obtain rfl := answers_clock hans
    obtain ⟨hlocked, hhttp⟩ := h
    refine ⟨hlocked, fun answer hanswer => ?_⟩
    cases error with
    | none =>
      cases hanswer
      exact hhttp
    | some error =>
      cases hanswer
      exact hhttp
  | flush past d handling todo =>
    cases hout
    have hanswer := answers_updateDelivery hans
    obtain ⟨hlocked, hstorable⟩ := h
    obtain ⟨hbatch, -, -, hfair⟩ := hholds
    obtain ⟨http, ha, ⟨-, update, hbind⟩ | ⟨hnot, -⟩⟩ := hfair.bind_cases
    · rcases r with e | ⟨⟨⟩⟩
      · -- an update that fits is not refused
        simp only [World.perform, hbind] at hperform
        cases (Prod.mk.inj (Option.some.inj hperform)).1
      · obtain ⟨update', -, rfl⟩ := hanswer
        have hown : w.locks d.ref = some p := hbatch.locked d (by simp)
        have hlocks : (w.lock p d.ref).locks = w.locks := by
          funext row
          rw [locks_lock]
          split
          case isTrue hrow => rw [hrow, hown]
          case isFalse => rfl
        change (visit (past ++ [⟨d, handling⟩]) todo).Drains w₀ p _
        refine drains_visit (hlocked.congr ?_ ?_) fun hpast => absurd hpast (by simp)
        · rfl
        · exact hlocks
    · exact absurd (hstorable http ha) hnot
  | commit past =>
    cases hout
    obtain rfl := answers_commit hans
    obtain ⟨hlocked, hnil⟩ := h
    refine ⟨hlocked.locks, ?_⟩
    by_cases hpast : past = []
    · right
      subst hpast
      have hwrites : w.writesOf p = [] := List.forall₂_nil_left_iff.mp hholds.1.writes
      have hsame : (w.commit p).db = w₀.db := by
        change w.db.applyAll (w.writesOf p) = _
        rw [hwrites, ← hlocked.db]
        rfl
      have hlocks : (w.commit p).locks = w₀.locks := funext hlocked.locks
      rw [World.backlog, hsame, hlocks]
      exact hnil rfl
    · left
      have hless := hholds.1.backlog_commit hpast (hlocked.db ▸ hregular) hlocked.locks
      rw [hlocked.db] at hless
      exact hless
  | closing x =>
    cases hout
    obtain rfl := answers_rollback hans
    obtain ⟨hlocks, hless⟩ := h
    have hidle : w.Idle p := hholds
    have hrelease : (w.release p).locks = w.locks := by
      funext row
      rw [locks_release, if_neg fun hlock => List.not_mem_nil ((hidle.locks row).mp hlock)]
    refine ⟨fun row => (congrFun hrelease row).trans (hlocks row), ?_⟩
    rw [World.backlog, hrelease]
    exact hless
  | done x => cases hout

end Round

/-! ### Rounds -/

namespace System

section Rounds

variable (crypto : Crypto)

/-- **A round of the worker**: a poll is started, and is left to itself until it has returned. -/
def Round (s t : System) : Prop :=
  ∃ (m : ℕ) (envs : ℕ → Env) (x : Except Exc Result), (∀ k, s.world.Suits (envs k)) ∧
    run (step crypto) s (.start .poll :: alone s.procs.length m envs) = some t ∧
      t.returned? s.procs.length = some x

/-- Several rounds, one after the other. -/
inductive Rounds : ℕ → System → System → Prop where
  | none (s : System) : Rounds 0 s s
  | more {n : ℕ} {s u t : System} (hround : s.Round crypto u) (hrest : Rounds n u t) :
    Rounds (n + 1) s t

/-- A poll is under way. -/
def Polling (s : System) (q : Pid) : Prop :=
  ∃ st k, s.procs[q]? = some ⟨.poll, .op st k, true⟩

end Rounds

variable {crypto : Crypto} {s t u : System} {p q : Pid} {n : ℕ}

/-- **A round goes on** as long as its poll is executed. -/
theorem Reachable.drains_alone {w₀ : World} (hregular : ∀ d ∈ w₀.db.deliveries, d.Regular) {m : ℕ}
    {envs : ℕ → Env} (henvs : ∀ k, w₀.Suits (envs k)) (hs : s.Reachable crypto)
    {prog : ServerProg (Except Exc Result)} {pt : PollPoint}
    (hproc : s.procs[p]? = some ⟨.poll, prog, true⟩)
    (htracks : Prog.Tracks (PollPoint.out crypto) pt prog) (hholds : pt.Holds s.world p)
    (hdrains : pt.Drains w₀ p s.world)
    (hrun : run (System.step crypto) s (alone p m envs) = some t) :
    ∃ prog' pt', t.procs[p]? = some ⟨.poll, prog', true⟩ ∧
      Prog.Tracks (PollPoint.out crypto) pt' prog' ∧ pt'.Drains w₀ p t.world := by
  induction m generalizing s prog pt envs with
  | zero =>
    obtain rfl := Option.some.inj hrun
    exact ⟨prog, pt, hproc, htracks, hdrains⟩
  | succ m ih =>
    obtain ⟨u, hstep, hrest⟩ := Option.bind_eq_some_iff.mp hrun
    obtain ⟨job, st, k, r, w', hproc', hexec, rfl⟩ := step_exec_eq_some hstep
    cases hproc.symm.trans hproc'
    obtain ⟨next, hout, hk⟩ := htracks
    obtain ⟨φ, -, ho⟩ := hs.owned
    exact ih (fun k => henvs (k + 1)) (hs.step hstep) (getElem?_replace_self hproc) (hk r)
      (hholds.step ho.linked hout (.exec _ hexec))
      (hdrains.step hholds hregular (henvs 0) hout hexec) hrest

/-- A poll that has been started is at its start. -/
theorem Reachable.started_poll (hs : s.Reachable crypto) : ∃ s₁ : System,
    s.step crypto (.start .poll) = some s₁ ∧ s₁.Reachable crypto ∧ s₁.world = s.world ∧
      s₁.procs[s.procs.length]? = some ⟨.poll, Job.poll.program crypto, true⟩ ∧
        PollPoint.start.Holds s₁.world s.procs.length := by
  obtain ⟨φ, h⟩ := hs.sound
  have hstart : s.step crypto (.start .poll) =
      some ⟨s.world, s.procs ++ [⟨.poll, Job.poll.program crypto, true⟩]⟩ := rfl
  exact ⟨_, hstart, hs.step hstart, rfl, List.getElem?_concat_length, h.holds_start hs⟩

/-- **A round** leaves the locks as they were, and a smaller backlog or none. -/
theorem Reachable.round (hs : s.Reachable crypto) (hround : s.Round crypto t) :
    t.Reachable crypto ∧ (∀ r, t.world.locks r = s.world.locks r) ∧
      (t.world.backlog < s.world.backlog ∨ t.world.backlog = 0) := by
  obtain ⟨m, envs, x, henvs, hrun, hx⟩ := hround
  obtain ⟨s₁, hstart, hs₁, hworld, hproc, hholds⟩ := hs.started_poll
  obtain ⟨u, hu, halone⟩ := Option.bind_eq_some_iff.mp hrun
  obtain rfl : u = s₁ := Option.some.inj (hu.symm.trans hstart)
  have hlocked : s.world.Locked s.procs.length u.world := by
    refine ⟨congrArg World.db hworld, fun row => ?_⟩
    have hidle : u.world.Idle s.procs.length := hholds.1
    rw [locks_release, if_neg fun hlock => List.not_mem_nil ((hidle.locks row).mp hlock), hworld]
  obtain ⟨prog, pt, hproc', htracks, hdrains⟩ := hs₁.drains_alone hs.delivering.regular henvs hproc
    (tracks_poll crypto) hholds hlocked halone
  obtain rfl := (returned?_eq_some hproc').mp hx
  have ht : t.Reachable crypto := hs₁.trans (reaches_of_run halone)
  have hout : pt.out crypto = .ret x := htracks
  cases pt with
  | done y => exact ⟨ht, hdrains⟩
  | _ => cases hout

/-- **Several rounds** wear off the backlog. -/
theorem Reachable.rounds (hs : s.Reachable crypto) (hrounds : Rounds crypto n s t) :
    t.Reachable crypto ∧ (∀ r, t.world.locks r = s.world.locks r) ∧
      (s.world.backlog ≤ n → t.world.backlog = 0) := by
  induction hrounds with
  | none s => exact ⟨hs, fun _ => rfl, Nat.le_zero.mp⟩
  | more hround hrest ih =>
    obtain ⟨hu, hlocks, hless⟩ := hs.round hround
    obtain ⟨ht, hlocks', hzero⟩ := ih hu
    exact ⟨ht, fun row => (hlocks' row).trans (hlocks row), fun hle => hzero (by omega)⟩

/-- There is a time at which everything is due. -/
theorem exists_late (w : World) : ∃ now, w.Late now := by
  unfold World.Late
  generalize w.db.deliveries = deliveries
  obtain ⟨rows, hnodup⟩ := deliveries
  change ∃ now, ∀ d ∈ rows, ∀ time ∈ d.nextAttemptAt, time ≤ now
  clear hnodup
  induction rows with
  | nil => exact ⟨0, by simp⟩
  | cons d rows ih =>
    obtain ⟨now, hnow⟩ := ih
    refine ⟨max (d.nextAttemptAt.getD 0) now, fun d' hd' time htime => ?_⟩
    rcases List.mem_cons.mp hd' with rfl | hd'
    · rw [Option.mem_def.mp htime]
      exact le_max_left _ _
    · exact (hnow d' hd' time htime).trans (le_max_right _ _)

/-- **A round can be made**, whatever the environment contributes to it. -/
theorem Reachable.exists_round (hs : s.Reachable crypto) (envs : ℕ → Env)
    (henvs : ∀ k, s.world.Suits (envs k)) : ∃ t, s.Round crypto t := by
  obtain ⟨s₁, hstart, hs₁, -, hproc, hholds⟩ := hs.started_poll
  obtain ⟨m, -, t, x, hrun, hx⟩ := hs₁.exists_poll_returned hproc (tracks_poll crypto) hholds envs
  refine ⟨t, m, envs, x, henvs, ?_, (returned?_eq_some hx).mpr rfl⟩
  rw [run, hstart]
  exact hrun

theorem Reachable.exists_rounds (hs : s.Reachable crypto) (n : ℕ) : ∃ t, Rounds crypto n s t := by
  induction n generalizing s with
  | zero => exact ⟨s, .none s⟩
  | succ n ih =>
    obtain ⟨now, hlate⟩ := exists_late s.world
    obtain ⟨u, hround⟩ := hs.exists_round (fun _ => { now, http := .response 200 none })
      fun _ => ⟨hlate, by rintro error ⟨⟩⟩
    obtain ⟨t, hrest⟩ := ih (hs.round hround).1
    exact ⟨t, .more hround hrest⟩

/-- Only a poll that is under way holds a delivery. -/
theorem Reachable.polling_of_lock (hs : s.Reachable crypto) {i : Uuid}
    (hlock : s.world.locks ⟨.deliveries, i⟩ = some q) : s.Polling q := by
  obtain ⟨φ, h⟩ := hs.sound
  have hidle : ¬s.world.Idle q := fun hidle => List.not_mem_nil ((hidle.locks _).mp hlock)
  obtain ⟨⟨job, prog, alive⟩, hproc, rfl⟩ : s.Alive q := by
    by_contra hdead
    exact hidle (h.idle q hdead)
  cases hs.delivers hproc rfl with
  | request _ hquiet => exact absurd rfl (hquiet.locks _ hlock)
  | @poll pt _ _ htracks hholds =>
    cases prog with
    | op st k => exact ⟨st, k, hproc⟩
    | ret x =>
      have hout : pt.out crypto = .ret x := htracks
      cases pt with
      | done y => exact absurd hholds hidle
      | _ => cases hout

end System

/-- **The outbox drains.** From every state that can be reached the worker can make any number of
rounds, and after five rounds for each pending delivery, whatever the receivers have answered,
nothing is pending any more but what another poll, under way from the beginning, is holding. -/
theorem outbox_drains {crypto : Crypto} {s : System} (hs : s.Reachable crypto) :
    (∀ n, ∃ t, System.Rounds crypto n s t) ∧
    ∀ n t, System.Rounds crypto n s t → maxAttempts *
        (s.world.db.deliveries.rows.filter fun d => d.status = .pending).length ≤ n →
      ∀ d ∈ t.world.db.deliveries, d.status = .pending →
        ∃ q, s.world.locks d.ref = some q ∧ s.Polling q := by
  refine ⟨hs.exists_rounds, fun n t hrounds hn d hd hpending => ?_⟩
  obtain ⟨ht, hlocks, hzero⟩ := hs.rounds hrounds
  obtain ⟨q, hq⟩ := World.exists_lock ht.delivering.regular
    (hzero (s.world.backlog_le.trans hn)) hd hpending
  rw [hlocks] at hq
  exact ⟨q, hq, hs.polling_of_lock hq⟩

/-- An invoice has just been created. -/
theorem outbox_drains_enqueuing : ∃ s, run (System.step sampleCrypto) .init enqueuing = some s ∧
    (∃ d ∈ s.world.db.deliveries, d.status = .pending) ∧ ∃ t, System.Rounds sampleCrypto 5 s t ∧
      ∀ d ∈ t.world.db.deliveries, d.status ≠ .pending := by
  have hany : (run (System.step sampleCrypto) .init enqueuing).any (fun s =>
      decide ((s.world.db.deliveries.rows.filter fun d => d.status = .pending).length = 1) &&
        s.procs.all fun proc => !proc.isPoll) = true := by decide +kernel
  obtain ⟨s, hrun, hs⟩ := (Option.any_eq_true _ _).mp hany
  rw [Bool.and_eq_true, decide_eq_true_eq, List.all_eq_true] at hs
  obtain ⟨hone, hpolls⟩ := hs
  obtain ⟨hrounds, hdrained⟩ := outbox_drains (reaches_of_run hrun)
  obtain ⟨t, ht⟩ := hrounds 5
  refine ⟨s, hrun, ?_, t, ht, fun d hd hpending => ?_⟩
  · obtain ⟨d, hd⟩ := List.length_pos_iff_exists_mem.mp (hone.symm ▸ Nat.one_pos)
    obtain ⟨hd, hpending⟩ := List.mem_filter.mp hd
    exact ⟨d, hd, of_decide_eq_true hpending⟩
  · obtain ⟨q, -, st, k, hproc⟩ := hdrained 5 t ht (by rw [hone]; decide) d hd hpending
    have hnot := hpolls _ (List.mem_of_getElem? hproc)
    cases hnot

end TenantBilling
