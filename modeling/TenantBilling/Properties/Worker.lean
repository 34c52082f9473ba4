import TenantBilling.Properties.Prefixes

/-!
# The worker is in nobody's way

A poll of the webhook worker claims deliveries that no other session holds and updates only those it
has claimed, so it never waits (`TenantBilling.PollPoint.Holds.blockers_eq_nil`). What it has locked
and written is of no concern to a request, and no other poll touches it, so nobody waits for it
either (`TenantBilling.System.Reachable.not_waits_poll`). A batch has at most ten deliveries and
each takes five statements at most, which bounds the statements of a poll
(`TenantBilling.System.length_transcript_poll`).
-/

namespace TenantBilling

open Base World

/-! ### Who is waited for -/

/-- The write has an entry in a unique index that an insert can meet. -/
def Write.Indexed : Write → Prop
  | insertAttempt _ | updateAttempt .. | insertCustomer _ => True
  | _ => False

section Waiting

variable {w : World} {p q : Pid}

theorem indexed_of_mem_attemptWaits {conflicts : PaymentAttempt → Bool}
    (h : q ∈ w.attemptWaits p conflicts) : q ≠ p ∧ ∃ x ∈ w.writesOf q, x.Indexed := by
  obtain ⟨hne, x, hx, b, hb, -⟩ := mem_attemptWaits h
  refine ⟨hne, x, hx, ?_⟩
  cases x with
  | insertAttempt | updateAttempt => trivial
  | _ => cases hb

theorem indexed_of_mem_customerWaits {row : Customer} (h : q ∈ w.customerWaits p row) :
    q ≠ p ∧ ∃ x ∈ w.writesOf q, x.Indexed := by
  obtain ⟨⟨q', x⟩, hx, rfl⟩ := List.mem_map.mp h
  obtain ⟨hmem, hx⟩ := List.mem_filter.mp hx
  rw [Bool.and_eq_true, decide_eq_true_eq] at hx
  refine ⟨hx.1, x, mem_writesOf.mpr hmem, ?_⟩
  cases x with
  | insertCustomer => trivial
  | _ => cases hx.2

/-- **Whoever is waited for** has locked the row that the statement locks, or has written an entry
of a unique index. -/
theorem cases_of_mem_blockers {st : Stmt} (h : q ∈ w.blockers p st) :
    q ≠ p ∧ ((∃ r, st.Locks r ∧ w.locks r = some q) ∨ ∃ x ∈ w.writesOf q, x.Indexed) := by
  have hlock : ∀ {r : RowRef}, st.Locks r → q ∈ w.lockWaits p r →
      q ≠ p ∧ ((∃ r, st.Locks r ∧ w.locks r = some q) ∨ ∃ x ∈ w.writesOf q, x.Indexed) := by
    intro r hr hq
    obtain ⟨hlock, hne⟩ := mem_lockWaits.mp hq
    exact ⟨hne, Or.inl ⟨r, hr, hlock⟩⟩
  cases st with
  | lockInvoice id businessId =>
    simp only [blockers] at h
    split at h
    · split at h
      · exact hlock rfl h
      · cases h
    · cases h
  | updateInvoice | updateAttempt | deactivateEndpoint | updateDelivery => exact hlock rfl h
  | insertAttempt new =>
    simp only [blockers] at h
    split at h
    · cases h
    · split at h
      · split at h
        · cases h
        · exact (indexed_of_mem_attemptWaits h).imp_right Or.inr
      · exact (indexed_of_mem_attemptWaits h).imp_right Or.inr
  | insertCustomer businessId name email =>
    simp only [blockers] at h
    split at h
    · cases h
    · exact (indexed_of_mem_customerWaits h).imp_right Or.inr
  | _ => cases h

end Waiting

/-! ### Points of a poll -/

section Points

variable {crypto : Crypto} {w w' : World} {p : Pid} {pt : PollPoint} {st : Stmt}
  {next : st.Resp → PollPoint}

/-- **A poll never waits**: it updates only what it has locked. -/
theorem PollPoint.Holds.blockers_eq_nil (h : pt.Holds w p) (hout : pt.out crypto = .op st next) :
    w.blockers p st = [] := by
  cases pt with
  | flush past d handling todo =>
    cases hout
    refine lockWaits_eq_nil.mpr fun q hq => ?_
    have hlock := h.1.locked d (List.mem_append_right _ List.mem_cons_self)
    exact Option.some.inj (hq.symm.trans hlock)
  | done x => cases hout
  | _ =>
    cases hout
    rfl

/-- Its statement is executed, whatever the environment contributes. -/
theorem PollPoint.Holds.exists_exec (h : pt.Holds w p) (hout : pt.out crypto = .op st next)
    (env : Env) : ∃ r w', w.exec p env st = some (r, w') := by
  have hperform : ∃ x, w.perform p env st = some x := by
    cases pt with
    | flush past d handling todo =>
      cases hout
      simp only [perform]
      cases (handling.change d).bind <;> exact ⟨_, rfl⟩
    | done x => cases hout
    | _ =>
      cases hout
      exact ⟨_, rfl⟩
  obtain ⟨x, hx⟩ := hperform
  exact ⟨x.1, x.2, exec_eq_some.mpr ⟨h.blockers_eq_nil hout, hx⟩⟩

/-- What a poll has written is in no unique index. -/
theorem PollPoint.Holds.not_indexed (h : pt.Holds w p) : ∀ x ∈ w.writesOf p, ¬x.Indexed := by
  have hstores : ∀ {past : List Handled} {ws : List Write}, List.Forall₂ Handled.Stores past ws →
      ∀ x ∈ ws, ¬x.Indexed := by
    intro past ws hws
    induction hws with
    | nil => rintro _ ⟨⟩
    | cons hx _ ih =>
      obtain ⟨update, -, rfl⟩ := hx
      rintro y (_ | ⟨_, hy⟩)
      · exact id
      · exact ih y hy
  have hidle : w.Idle p → ∀ x ∈ w.writesOf p, ¬x.Indexed := by
    intro hidle x hx
    rw [hidle.writes] at hx
    cases hx
  cases pt with
  | start | claim now => exact hidle h.1
  | closing x | done x => exact hidle h
  | _ => exact hstores h.1.writes

/-- A poll locks deliveries only. -/
theorem PollPoint.table_of_locks {r : RowRef} (hout : pt.out crypto = .op st next)
    (hr : st.Locks r) : r.table = .deliveries := by
  cases pt with
  | claim now =>
    cases hout
    exact hr
  | flush past d handling todo =>
    cases hout
    exact congrArg RowRef.table hr
  | done x => cases hout
  | _ =>
    cases hout
    exact hr.elim

/-- How many statements of a poll are left at most. -/
def PollPoint.remaining : PollPoint → ℕ
  | start => 54
  | claim _ => 53
  | fetch _ _ todo => 5 * todo.length + 7
  | sign _ _ _ todo => 5 * todo.length + 6
  | post _ _ _ _ todo => 5 * todo.length + 5
  | stamp _ _ _ _ todo => 5 * todo.length + 4
  | flush _ _ _ todo => 5 * todo.length + 3
  | commit _ => 2
  | closing _ => 1
  | done _ => 0

theorem PollPoint.remaining_visit (past : List Handled) (todo : List WebhookDelivery) :
    (visit past todo).remaining = 5 * todo.length + 2 := by
  cases todo with
  | nil => rfl
  | cons d todo =>
    rw [visit, remaining, List.length_cons]
    omega

/-- The answer could have come from the server: a claim has not brought more rows than asked for. -/
def Brief : Exchange Stmt Stmt.Resp → Prop
  | ⟨.claimDeliveries _ limit, batch⟩ => List.length batch ≤ limit
  | _ => True

/-- **A poll comes nearer to its end with every statement.** -/
theorem PollPoint.remaining_next (hout : pt.out crypto = .op st next) {r : st.Resp}
    (hr : Brief ⟨st, r⟩) : (next r).remaining < pt.remaining := by
  cases pt with
  | claim now =>
    cases hout
    have hlength : List.length r ≤ 10 := hr
    have hlt : 5 * List.length r + 2 < 53 := by omega
    exact lt_of_eq_of_lt (remaining_visit [] _) hlt
  | fetch past d todo =>
    cases hout
    rcases r with _ | endpoint <;> simp only [remaining] <;> omega
  | sign past d endpoint todo =>
    cases hout
    simp only [remaining]
    omega
  | post past d endpoint time todo =>
    cases hout
    change (posted past d _ todo).remaining < _
    unfold posted
    split
    · simp only [remaining]
      omega
    · split <;> simp only [remaining] <;> omega
  | flush past d handling todo =>
    cases hout
    rcases r with e | ⟨⟨⟩⟩
    · simp only [remaining]
      omega
    · change (visit _ todo).remaining < _
      rw [remaining_visit]
      simp only [remaining]
      omega
  | stamp past d http error todo =>
    cases hout
    simp only [remaining]
    omega
  | start | commit past | closing x =>
    cases hout
    simp only [remaining]
    omega
  | done x => cases hout

theorem brief_of_answers {r : st.Resp} (h : w.Answers p st r w') : Brief ⟨st, r⟩ := by
  cases st with
  | claimDeliveries now limit =>
    cases h with
    | exec env h =>
      obtain ⟨rfl, -⟩ := Prod.mk.inj (Option.some.inj (exec_eq_some.mp h).2)
      exact List.length_take_le _ _
    | fail e h => cases h
  | _ => trivial

theorem PollPoint.length_add_remaining {l : List (Exchange Stmt Stmt.Resp)}
    (h : Walks (PollPoint.out crypto) .start l pt) (hl : ∀ x ∈ l, Brief x) :
    l.length + pt.remaining ≤ 54 := by
  induction h with
  | nil => exact le_rfl
  | @snoc l pt st next _ hout r ih =>
    have hnext := remaining_next hout
      (hl ⟨st, r⟩ (List.mem_append_right _ (List.mem_singleton_self _)))
    have hle := ih fun x hx => hl x (List.mem_append_left _ hx)
    rw [List.length_append, List.length_singleton]
    omega

end Points

/-! ### Polls among the others -/

section Runs

variable {crypto : Crypto} {s : System} {p q : Pid} {es : List Event}
  {prog : ServerProg (Except Exc Result)} {alive : Bool}

namespace System

/-- A poll has locked nothing but deliveries. -/
theorem table_of_locks_poll (hs : s.Reachable crypto)
    (hproc : s.procs[p]? = some ⟨.poll, prog, true⟩)
    {r : RowRef} (hr : s.world.locks r = some p) : r.table = .deliveries := by
  obtain ⟨es, hrun⟩ := hs.exists_run
  obtain ⟨-, -, -, hlocks⟩ := holds_walked
    (Q := fun w p (_ : PollPoint) => ∀ r, w.locks r = some p → r.table = .deliveries)
    (fun s φ _ h r hr => by cases (h.idle_new.locks r).mp hr)
    (fun s φ p pt st next r w' _ _ _ hpt hout hans row hrow => by
      rcases hans.effect.locks row hrow with hold | hst
      · exact hpt row hold
      · exact PollPoint.table_of_locks hout hst)
    (fun s t φ φ' e p pt _ _ _ _ hf hpt row hrow => hpt row ((hf.locks row).mp hrow))
    hrun hproc (tracks_poll crypto)
  exact hlocks rfl r hr

/-- A poll that has a statement left is at a point where it may issue it. -/
theorem Reachable.polling (hs : s.Reachable crypto)
    (hproc : s.procs[p]? = some ⟨.poll, prog, true⟩) :
    ∃ pt, Prog.Tracks (PollPoint.out crypto) pt prog ∧ pt.Holds s.world p := by
  cases hs.delivers hproc rfl with
  | poll htracks hholds => exact ⟨_, htracks, hholds⟩

/-- **A poll waits for nobody.** -/
theorem Reachable.not_waits (hs : s.Reachable crypto)
    (hproc : s.procs[p]? = some ⟨.poll, prog, true⟩) : ¬s.Waits p q := by
  obtain ⟨pt, htracks, hholds⟩ := hs.polling hproc
  unfold Waits blockers
  rw [hproc]
  cases prog with
  | ret x => exact List.not_mem_nil
  | op st k =>
    obtain ⟨next, hout, -⟩ := htracks
    dsimp only
    rw [hholds.blockers_eq_nil hout]
    exact List.not_mem_nil

/-- **Nobody waits for a poll.** -/
theorem Reachable.not_waits_poll (hs : s.Reachable crypto)
    (hproc : s.procs[p]? = some ⟨.poll, prog, true⟩) : ¬s.Waits q p := by
  intro hwaits
  obtain ⟨pt, -, hholds⟩ := hs.polling hproc
  unfold Waits blockers at hwaits
  split at hwaits
  case h_2 => cases hwaits
  case h_1 job st k hq =>
    obtain ⟨hne, ⟨r, hst, hlock⟩ | ⟨x, hx, hindexed⟩⟩ := cases_of_mem_blockers hwaits
    · have htable := table_of_locks_poll hs hproc hlock
      cases hs.delivers hq rfl with
      | poll htracks hholds' =>
        -- another poll updates only what it has locked itself
        obtain ⟨next, hout, -⟩ := htracks
        rw [hholds'.blockers_eq_nil hout] at hwaits
        cases hwaits
      | request hkeeps =>
        cases st with
        | updateDelivery | claimDeliveries => exact hkeeps.1 trivial
        | lockInvoice | updateInvoice | updateAttempt | deactivateEndpoint =>
          cases hst
          cases htable
        | _ => exact hst.elim
    · exact hholds.not_indexed x hx hindexed

/-- **A poll issues at most 54 statements**, in any run. -/
theorem length_transcript_poll (hrun : run (System.step crypto) .init es = some s)
    {pt : PollPoint}
    (hwalk : Walks (PollPoint.out crypto) .start (System.init.transcript crypto p es) pt) :
    (System.init.transcript crypto p es).length + pt.remaining ≤ 54 := by
  refine PollPoint.length_add_remaining hwalk fun x hx => ?_
  obtain ⟨w, w', hans⟩ := answers_of_mem_transcript hrun hx
  exact brief_of_answers hans

/-- **A poll that is left to itself returns**, whatever the environment contributes. -/
theorem Reachable.exists_poll_returned (hs : s.Reachable crypto)
    (hproc : s.procs[p]? = some ⟨.poll, prog, true⟩) {pt : PollPoint}
    (htracks : Prog.Tracks (PollPoint.out crypto) pt prog) (hholds : pt.Holds s.world p)
    (envs : ℕ → Env) : ∃ n ≤ pt.remaining, ∃ t x,
      run (System.step crypto) s (alone p n envs) = some t ∧
        t.procs[p]? = some ⟨.poll, .ret x, true⟩ := by
  induction hn : pt.remaining using Nat.strong_induction_on generalizing s prog pt envs with
  | _ n ih =>
    cases prog with
    | ret x => exact ⟨0, Nat.zero_le _, s, x, rfl, hproc⟩
    | op st k =>
      obtain ⟨next, hout, hk⟩ := htracks
      obtain ⟨r, w', hexec⟩ := hholds.exists_exec hout (envs 0)
      have hans : s.world.Answers p st r w' := .exec (envs 0) hexec
      have hstep : s.step crypto (.exec p (envs 0)) =
        some ⟨w', s.procs.set p ⟨.poll, k r, true⟩⟩ := by
        simp only [System.step, hproc, hexec]
        rfl
      have hlt := PollPoint.remaining_next hout (brief_of_answers hans)
      obtain ⟨φ, -, ho⟩ := hs.owned
      obtain ⟨m, hm, t, x, hrun, hx⟩ :=
        ih _ (hn ▸ hlt) (hs.step hstep) (getElem?_replace_self hproc)
        (hk r) (hholds.step ho.linked hout hans) (fun k => envs (k + 1)) rfl
      refine ⟨m + 1, hn ▸ Nat.succ_le_of_lt (lt_of_le_of_lt hm hlt), t, x, ?_, hx⟩
      change run (System.step crypto) s (.exec p (envs 0) :: alone p m fun k => envs (k + 1)) =
        some t
      rw [run, hstep]
      exact hrun

end System

/-- **A poll is in nobody's way and nobody is in its way.** In every state of every run, a poll
that has not been killed waits for no session and no session waits for it, so the deadlock detector
never aborts it; it has issued at most 54 statements, and left to itself it returns within that
bound, whatever the receivers, the clock and the server contribute. -/
theorem polls_unimpeded (crypto : Crypto) (es : List Event) (s : System)
    (hrun : run (System.step crypto) .init es = some s) (p : Pid)
    (prog : ServerProg (Except Exc Result)) (hproc : s.procs[p]? = some ⟨.poll, prog, true⟩) :
    (∀ q, ¬s.Waits p q ∧ ¬s.Waits q p) ∧ (∀ cycle, s.step crypto (.abort p cycle) = none) ∧
      ∀ envs : ℕ → Env, ∃ n, (System.init.transcript crypto p es).length + n ≤ 54 ∧ ∃ t x,
        run (System.step crypto) s (alone p n envs) = some t ∧ t.returned? p = some x := by
  have hs : s.Reachable crypto := reaches_of_run hrun
  refine ⟨fun q => ⟨hs.not_waits hproc, hs.not_waits_poll hproc⟩, fun cycle => ?_, fun envs => ?_⟩
  · refine if_neg fun hcycle => ?_
    obtain ⟨q, hq, -⟩ := Relation.TransGen.head'_iff.mp hcycle.transGen
    exact hs.not_waits hproc hq
  · obtain ⟨pt, hwalk, htracks, hholds⟩ := System.polled hrun hproc
    obtain ⟨n, hn, t, x, ht, hx⟩ := hs.exists_poll_returned hproc htracks (hholds rfl) envs
    have hlength := System.length_transcript_poll hrun hwalk
    exact ⟨n, by omega, t, x, ht, (returned?_eq_some hx).mpr rfl⟩

end Runs

/-! ### An example -/

/-- A poll has claimed a delivery and looked up its endpoint. -/
def claiming : List Event := enqueuing ++ .start .poll :: List.replicate 3 (.exec 3 {})

/-- A poll that has not been killed. -/
def Proc.isPoll : Proc → Bool
  | ⟨.poll, _, true⟩ => true
  | _ => false

theorem Proc.isPoll_iff {proc : Proc} :
    proc.isPoll = true ↔ ∃ prog, proc = ⟨.poll, prog, true⟩ := by
  constructor
  · intro h
    unfold isPoll at h
    split at h
    · exact ⟨_, rfl⟩
    · cases h
  · rintro ⟨prog, rfl⟩
    rfl

theorem polls_unimpeded_claiming : ∃ s prog,
    run (System.step sampleCrypto) .init claiming = some s ∧
    s.procs[3]? = some ⟨.poll, prog, true⟩ ∧ (∀ q, ¬s.Waits 3 q ∧ ¬s.Waits q 3) ∧
      ∀ envs : ℕ → Env, ∃ n ≤ 51, ∃ t x,
        run (System.step sampleCrypto) s (alone 3 n envs) = some t ∧ t.returned? 3 = some x := by
  have hany : (run (System.step sampleCrypto) .init claiming).any (fun s =>
      s.procs[3]?.any Proc.isPoll) = true := by decide +kernel
  have hlength : (System.init.transcript sampleCrypto 3 claiming).length = 3 := by decide +kernel
  obtain ⟨s, hrun, hany⟩ := (Option.any_eq_true _ _).mp hany
  obtain ⟨proc, hproc, hpoll⟩ := (Option.any_eq_true _ _).mp hany
  obtain ⟨prog, rfl⟩ := Proc.isPoll_iff.mp hpoll
  obtain ⟨hwaits, -, halone⟩ := polls_unimpeded sampleCrypto claiming s hrun 3 prog hproc
  refine ⟨s, prog, hrun, hproc, hwaits, fun envs => ?_⟩
  obtain ⟨n, hn, ht⟩ := halone envs
  exact ⟨n, by omega, ht⟩

end TenantBilling
