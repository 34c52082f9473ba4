import TenantBilling.Invariant.Polling
import TenantBilling.Invariant.Ready
import TenantBilling.Invariant.Transcripts
import TenantBilling.Properties.Noninterference

/-!
# From a state on

What can be told of one session from a state on, when its program is the machine of its points:
what holds at its point is handed over by its own steps and left alone by those of the others, so
it holds as long as the session lives, and what holds when it returns stays so
(`TenantBilling.System.Reachable.holds_from`). A session that never has to wait comes to an end
when it is run alone, whatever the provider and the receivers answer
(`TenantBilling.System.Reachable.exists_returned`).
-/

namespace TenantBilling

open Base World

namespace System

variable {crypto : Crypto} {P : Type} {out : P → Node Stmt Stmt.Resp (Except Exc Result) P}

/-- **What holds of a session at its points**: its own steps hand it over, those of the others leave
it alone, and what it returns with is never undone. -/
structure Kept (crypto : Crypto) (out : P → Node Stmt Stmt.Resp (Except Exc Result) P)
    (Q : World → Pid → P → Prop) (R : World → Except Exc Result → Prop) : Prop where
  own : ∀ (s : System) (φ : Pid → Phase) (p : Pid) (pt : P) (st : Stmt) (next : st.Resp → P)
    (r : st.Resp) (w' : World), s.Sound crypto φ → s.Owned φ → s.Alive p → Q s.world p pt →
      out pt = .op st next → s.world.Answers p st r w' → Q w' p (next r)
  others : ∀ (s t : System) (φ φ' : Pid → Phase) (e : Event) (p : Pid) (pt : P),
    s.Sound crypto φ → s.Owned φ → s.Moves crypto φ e t φ' →
      (∀ q st r, s.Answered q st r t.world e → q ≠ p) → Frame p s.world t.world →
        Q s.world p pt → Q t.world p pt
  ret : ∀ w p pt x, Q w p pt → out pt = .ret x → R w x
  returned : ∀ (s t : System) (φ φ' : Pid → Phase) (e : Event) x, s.Sound crypto φ →
    s.Moves crypto φ e t φ' → R s.world x → R t.world x

/-- The session is at a point where something holds. -/
structure At (out : P → Node Stmt Stmt.Resp (Except Exc Result) P) (Q : World → Pid → P → Prop)
    (R : World → Except Exc Result → Prop) (s : System) (p : Pid) (proc : Proc) (pt : P) :
    Prop where
  found : s.procs[p]? = some proc
  tracks : Prog.Tracks out pt proc.prog
  holds : proc.alive = true → Q s.world p pt
  returned : ∀ x, proc.prog = .ret x → R s.world x

variable {Q : World → Pid → P → Prop} {R : World → Except Exc Result → Prop} {s t : System}
  {φ φ' : Pid → Phase} {e : Event} {p : Pid} {proc : Proc} {pt : P}

theorem At.of_alive (hkept : Kept crypto out Q R) (hproc : s.procs[p]? = some proc)
    (htracks : Prog.Tracks out pt proc.prog) (hQ : Q s.world p pt) : At out Q R s p proc pt where
  found := hproc
  tracks := htracks
  holds _ := hQ
  returned x hx := hkept.ret _ p pt x hQ (Prog.tracks_ret.mp (hx ▸ htracks))

/-- A move leaves the session at a point where this holds. -/
theorem At.move (hkept : Kept crypto out Q R) (h : s.Sound crypto φ) (ho : s.Owned φ)
    (hmove : s.Moves crypto φ e t φ') (hat : At out Q R s p proc pt) :
    ∃ proc' pt', At out Q R t p proc' pt' ∧ proc'.job = proc.job := by
  have hmove' := hmove
  cases hmove with
  | start job =>
    refine ⟨proc, pt, ⟨?_, hat.tracks, hat.holds, hat.returned⟩, rfl⟩
    exact (List.getElem?_append_left (List.getElem?_eq_some_iff.mp hat.found).1).trans hat.found
  | @kill q job prog hproc =>
    by_cases hq : q = p
    · subst hq
      obtain rfl := Option.some.inj (hat.found.symm.trans hproc)
      refine ⟨_, pt, ⟨getElem?_replace_self hproc, hat.tracks, by rintro ⟨⟩, fun x hx => ?_⟩, rfl⟩
      exact hkept.returned s _ φ φ _ x h hmove' (hat.returned x hx)
    · have hacts : Acts q .rollback s.world (s.world.release q) := .single .release
      refine ⟨proc, pt, ⟨(getElem?_replace_of_ne hq).trans hat.found, hat.tracks, fun halive => ?_,
        fun x hx => hkept.returned s _ φ φ _ x h hmove' (hat.returned x hx)⟩, rfl⟩
      exact hkept.others s _ φ φ _ p pt h ho hmove' (by rintro _ _ _ ⟨⟩) (hacts.frame hq)
        (hat.holds halive)
  | @answer _ q job st r w' k ph hproc hans hnext =>
    by_cases hq : q = p
    · subst hq
      obtain rfl := Option.some.inj (hat.found.symm.trans hproc)
      obtain ⟨next, hout, hk⟩ := hat.tracks
      have hQ := hkept.own s φ q pt st next r w' h ho ⟨_, hproc, rfl⟩
        (hat.holds rfl) hout hans.answers
      exact ⟨_, next r, .of_alive hkept (getElem?_replace_self hproc) (hk r) hQ, rfl⟩
    · refine ⟨proc, pt, ⟨(getElem?_replace_of_ne hq).trans hat.found, hat.tracks, fun halive => ?_,
        fun x hx => hkept.returned s _ φ _ _ x h hmove' (hat.returned x hx)⟩, rfl⟩
      refine hkept.others s _ φ _ _ p pt h ho hmove' (fun q' _ _ hans' => ?_)
        (hans.answers.acts.frame hq) (hat.holds halive)
      exact hans.pid_eq hans' ▸ hq

/-- **From a state on, the session is at a point where this holds.** -/
theorem Reachable.holds_from (hkept : Kept crypto out Q R) (hs : s.Reachable crypto)
    (hat : At out Q R s p proc pt) (ht : Reaches (System.step crypto) Always s t) :
    ∃ proc' pt', At out Q R t p proc' pt' ∧ proc'.job = proc.job := by
  obtain ⟨φ, h, ho⟩ := hs.owned
  obtain ⟨ψ, -, -, hat⟩ := Sound.reaches
    (I := fun u ψ => u.Owned ψ ∧ ∃ proc' pt', At out Q R u p proc' pt' ∧ proc'.job = proc.job) ht h
    ⟨ho, proc, pt, hat, rfl⟩ <| by
      rintro u ψ e v ψ' hu ⟨ho, proc', pt', hat, hjob⟩ - - hmove -
      obtain ⟨proc'', pt'', hat, hjob'⟩ := hat.move hkept hu ho hmove
      exact ⟨ho.move hu hmove, proc'', pt'', hat, hjob'.trans hjob⟩
  exact hat

/-- **A session that need not wait returns when it is run alone**, whatever is answered over
HTTP. -/
theorem Reachable.exists_returned (hkept : Kept crypto out Q R) (hs : s.Reachable crypto)
    {job : Job} {prog : ServerProg (Except Exc Result)} (hat : At out Q R s p ⟨job, prog, true⟩ pt)
    (http : HttpResult) {rank : P → ℕ}
    (hrank : ∀ pt st next, out pt = .op st next → ∀ r, rank (next r) < rank pt)
    (hfree : ∀ (s : System) (φ : Pid → Phase) pt st next, s.Sound crypto φ → s.Owned φ → s.Alive p →
      Q s.world p pt → out pt = .op st next → s.world.blockers p st = []) :
    ∃ n envs t, (∀ k, (envs k).http = http) ∧
      run (System.step crypto) s (alone p n envs) = some t ∧ ∃ x, t.returned? p = some x := by
  induction hn : rank pt using Nat.strong_induction_on generalizing s pt prog with
  | _ n ih =>
    cases prog with
    | ret x =>
      exact ⟨0, fun _ => { http }, s, fun _ => rfl, rfl, x, (returned?_eq_some hat.found).mpr rfl⟩
    | op st k =>
      obtain ⟨next, hout, hk⟩ := hat.tracks
      obtain ⟨φ, h, ho⟩ := hs.owned
      have halive : s.Alive p := ⟨_, hat.found, rfl⟩
      have hwait := hfree s φ pt st next h ho halive (hat.holds rfl) hout
      obtain ⟨env, henv, r, w', hexec⟩ := exists_exec_of_free s.world p http hwait
      have hstep : s.step crypto (.exec p env) = some ⟨w', s.procs.set p ⟨job, k r, true⟩⟩ := by
        simp only [System.step, hat.found, hexec]
        rfl
      have hQ := hkept.own s φ p pt st next r w' h ho halive (hat.holds rfl) hout (.exec env hexec)
      have hat' : At out Q R ⟨w', s.procs.set p ⟨job, k r, true⟩⟩ p ⟨job, k r, true⟩ (next r) :=
        .of_alive hkept (getElem?_replace_self hat.found) (hk r) hQ
      obtain ⟨m, envs, t, henvs, hrun, hx⟩ :=
        ih _ (hn ▸ hrank pt st next hout r) (hs.step hstep) hat' rfl
      -- the environment of this step comes first
      refine ⟨m + 1, fun k => k.casesOn env envs, t, fun k => ?_, ?_, hx⟩
      · cases k with
        | zero => exact henv
        | succ k => exact henvs k
      · change run (System.step crypto) s (.exec p env :: alone p m envs) = some t
        rw [run, hstep]
        exact hrun

end System

end TenantBilling
