import TenantBilling.Properties.Onwards

/-!
# Payments that nobody interferes with

A payment is run alone while no other session has a statement left. It never has to wait
(`TenantBilling.World.Unopposed.blockers_eq_nil`), so it can be run to its end with any outcome of
its call (`TenantBilling.System.Unopposed.exists_end`), and what its own statements hand over from
point to point holds where it ends (`TenantBilling.System.Unopposed.run`).
-/

namespace TenantBilling

open Base World

/-- The other sessions deal with neither invoices nor attempts. -/
def World.Unopposed (w : World) (p : Pid) : Prop := ∀ q, q ≠ p → w.Aside q

/-- A session that has written and locked nothing deals with nothing. -/
theorem World.Idle.aside {w : World} {p : Pid} (h : w.Idle p) : w.Aside p where
  writes x hx := by
    rw [h.writes] at hx
    cases hx
  locks r hr := by cases (h.locks r).mp hr

theorem World.Aside.frame {w w' : World} {p : Pid} (h : w.Aside p) (hf : Frame p w w') :
    w'.Aside p where
  writes x hx := h.writes x (hf.writes ▸ hx)
  locks r hr := h.locks r ((hf.locks r).mp hr)

section World

variable {w w' : World} {p : Pid}

theorem World.Unopposed.answer (h : w.Unopposed p) {st : Stmt} {r : st.Resp}
    (hans : w.Answers p st r w') : w'.Unopposed p :=
  fun q hq => (h q hq).frame (hans.acts.frame hq.symm)

theorem World.Unopposed.lockWaits_eq_nil (h : w.Unopposed p) {r : RowRef}
    (hr : r.table = .invoices ∨ r.table = .attempts) : w.lockWaits p r = [] := by
  unfold lockWaits
  split
  case h_1 q hlock =>
    refine if_pos ?_
    by_contra hq
    obtain ⟨hinvoices, hattempts⟩ := (h q hq).locks r hlock
    rcases hr with hr | hr
    · exact hinvoices hr
    · exact hattempts hr
  case h_2 => rfl

/-- **The payment never waits.** -/
theorem World.Unopposed.blockers_eq_nil (h : w.Unopposed p) {crypto : Crypto} {c : PayCall}
    {pt : PayPoint} {st : Stmt} {next : st.Resp → PayPoint} (hout : pt.out crypto c = .op st next) :
    w.blockers p st = [] := by
  have hlock : ∀ b, w.blockers p (.lockInvoice c.invoiceId b) = [] := by
    intro b
    simp only [World.blockers]
    split
    · split
      · exact h.lockWaits_eq_nil (Or.inl rfl)
      · rfl
    · rfl
  cases pt with
  | lock => cases hout; exact hlock _
  | relock v a http result => cases hout; exact hlock _
  | markPaid a http result => cases hout; exact h.lockWaits_eq_nil (Or.inl rfl)
  | record v a http outcome => cases hout; exact h.lockWaits_eq_nil (Or.inr rfl)
  | insert v =>
    cases hout
    refine List.eq_nil_iff_forall_not_mem.mpr fun q hq => ?_
    obtain ⟨hne, x, hx, b, hb, -⟩ := touched_of_mem_blockers hq
    -- the writes of the others touch no attempt
    have hperipheral := (h q hne).writes x hx
    cases x with
    | insertAttempt row => exact hperipheral
    | updateAttempt id change now => exact hperipheral
    | _ => cases hb
  | done x g => cases hout
  | _ => cases hout; rfl

end World

/-- No other session has a statement left. -/
def System.Lone (s : System) (p : Pid) : Prop := ∀ q, q ≠ p → s.next? q = none

theorem System.next?_of_length_le {s : System} {q : Pid} (h : s.procs.length ≤ q) :
    s.next? q = none := by
  unfold System.next?
  rw [List.getElem?_eq_none h]

instance (s : System) (p : Pid) : Decidable (s.Lone p) :=
  decidable_of_iff (∀ q ∈ List.range s.procs.length, q ≠ p → (s.next? q).isNone) <| by
    refine ⟨fun h q hq => ?_, fun h q _ hq => Option.isNone_iff_eq_none.mpr (h q hq)⟩
    rcases lt_or_ge q s.procs.length with hlt | hge
    · exact Option.isNone_iff_eq_none.mp (h q (List.mem_range.mpr hlt) hq)
    · exact System.next?_of_length_le hge

/-- **A payment with no other session in its way**, at one of its points. -/
structure System.Unopposed (crypto : Crypto) (s : System) (φ : Pid → Phase) (p : Pid) (c : PayCall)
    (pt : PayPoint) : Prop where
  sound : s.Sound crypto φ
  alive : s.Alive p
  phase : φ p = .pay c pt
  unopposed : s.world.Unopposed p

section Runs

variable {crypto : Crypto} {s t : System} {φ : Pid → Phase} {p : Pid} {c : PayCall} {pt : PayPoint}
  {env : Env}

/-- Sessions that have no statement left deal with nothing. -/
theorem System.Sound.unopposed (h : s.Sound crypto φ) (hothers : s.Lone p) :
    s.world.Unopposed p := by
  intro q hq
  by_cases halive : s.Alive q
  · have hholds := h.alive q halive
    have hnone := hothers q hq
    cases hph : φ q with
    | other =>
      rw [hph] at hholds
      exact hholds
    | pay c pt =>
      rw [hph] at hholds
      cases pt with
      | done x g => exact World.Idle.aside hholds
      | _ =>
        obtain ⟨st, next, -, hnext⟩ := h.exists_next? halive hph (by rintro x g ⟨⟩)
        rw [hnone] at hnext
        cases hnext
    | transition c pt =>
      rw [hph] at hholds
      cases pt with
      | done x => exact World.Idle.aside hholds
      | _ =>
        have hnext := h.next?_of_out_transition halive hph rfl
        rw [hnone] at hnext
        cases hnext
  · exact (h.idle q halive).aside

namespace System.Unopposed

theorem step (h : s.Unopposed crypto φ p c pt) (hstep : s.step crypto (.exec p env) = some t) :
    ∃ st next r, pt.out crypto c = .op st next ∧ s.world.exec p env st = some (r, t.world) ∧
      t.Unopposed crypto (Function.update φ p (.pay c (next r))) p c (next r) := by
  obtain ⟨job, st, k, r, w', hproc, hexec, rfl⟩ := System.step_exec_eq_some hstep
  have hnext : s.next? p = some st := System.next?_eq_some.mpr ⟨job, k, hproc⟩
  obtain ⟨next, hout⟩ := h.sound.out_pay hnext h.phase
  have hph : (φ p).Next crypto st r (.pay c (next r)) := h.phase ▸ .pay hout r
  refine ⟨st, next, r, hout, hexec, ?_, ?_, Function.update_self .., ?_⟩
  · exact h.sound.answer hproc (.exec env hexec) hph
  · exact ⟨_, System.getElem?_replace_self hproc, rfl⟩
  · exact h.unopposed.answer (.exec env hexec)

/-- The next statement can be executed, whatever is answered over HTTP. -/
theorem exists_step (h : s.Unopposed crypto φ p c pt) (hdone : ∀ x g, pt ≠ .done x g)
    (http : HttpResult) :
    ∃ env t st, ∃ (next : st.Resp → PayPoint) (r : st.Resp), env.http = http ∧
      s.step crypto (.exec p env) = some t ∧ pt.out crypto c = .op st next ∧
        t.Unopposed crypto (Function.update φ p (.pay c (next r))) p c (next r) := by
  obtain ⟨st, next, hout, hnext⟩ := h.sound.exists_next? h.alive h.phase hdone
  obtain ⟨env, henv, r, w', hexec⟩ :=
    exists_exec_of_free s.world p http (h.unopposed.blockers_eq_nil hout)
  obtain ⟨t, ph, hstep, -⟩ := h.sound.exec hnext hexec
  obtain ⟨st', next', r', hout', -, ht⟩ := h.step hstep
  exact ⟨env, t, st', next', r', henv, hstep, hout', ht⟩

/-- **What the payment hands over** from point to point holds where a run of it alone has got. -/
theorem run (h : s.Unopposed crypto φ p c pt) {http : HttpResult} {I : World → PayPoint → Prop}
    (hI : ∀ (s : System) (φ : Pid → Phase) pt st (next : st.Resp → PayPoint) env r w',
      s.Unopposed crypto φ p c pt → pt.out crypto c = .op st next → env.http = http →
        s.world.exec p env st = some (r, w') → I s.world pt → I w' (next r))
    {n : ℕ} {envs : ℕ → Env} (henvs : ∀ k, (envs k).http = http)
    (hrun : Base.run (System.step crypto) s (alone p n envs) = some t) (hpt : I s.world pt) :
    ∃ φ' pt', t.Unopposed crypto φ' p c pt' ∧ I t.world pt' := by
  induction n generalizing s φ pt envs with
  | zero =>
    obtain rfl : s = t := Option.some.inj hrun
    exact ⟨φ, pt, h, hpt⟩
  | succ n ih =>
    obtain ⟨u, hstep, hrun⟩ := Option.bind_eq_some_iff.mp hrun
    obtain ⟨st, next, r, hout, hexec, hu⟩ := h.step hstep
    exact ih hu (fun k => henvs (k + 1)) hrun
      (hI s φ pt st next (envs 0) r u.world h hout (henvs 0) hexec hpt)

/-- **A run of the payment alone comes to an end.** -/
theorem exists_end (h : s.Unopposed crypto φ p c pt) (http : HttpResult) :
    ∃ n envs t, (∀ k, (envs k).http = http) ∧
      Base.run (System.step crypto) s (alone p n envs) = some t ∧ ∃ x, t.returned? p = some x := by
  induction hn : pt.remaining using Nat.strong_induction_on generalizing s φ pt with
  | _ n ih =>
    by_cases hdone : ∃ x g, pt = .done x g
    · obtain ⟨x, g, rfl⟩ := hdone
      exact ⟨0, fun _ => { http }, s, fun _ => rfl, rfl, x,
        h.sound.returned_of_done h.alive h.phase⟩
    · obtain ⟨env, u, st, next, r, henv, hstep, hout, hu⟩ :=
        h.exists_step (fun x g hpt => hdone ⟨x, g, hpt⟩) http
      obtain ⟨m, envs, t, henvs, hrun, hx⟩ := ih _ (hn ▸ PayPoint.remaining_next hout r) hu rfl
      refine ⟨m + 1, fun k => k.casesOn env envs, t, fun k => ?_, ?_, hx⟩
      · cases k with
        | zero => exact henv
        | succ k => exact henvs k
      · change Base.run (System.step crypto) s (.exec p env :: alone p m envs) = some t
        rw [Base.run, hstep]
        exact hrun

end System.Unopposed

end Runs

end TenantBilling
