import TenantBilling.Base.Transcript
import TenantBilling.Invariant.Each
import TenantBilling.Invariant.Tenants

/-!
# What the sessions have been told

The transcript of a session in a run is the list of the statements it has issued, each with its
answer (`TenantBilling.System.transcript`). A session whose program tracks a machine is at the
point to which its transcript leads the machine, and what the steps of the machine hand over, and
the other sessions leave alone, holds there (`TenantBilling.System.holds_walked`).
-/

namespace TenantBilling

open Base World

namespace System

variable (crypto : Crypto)

/-- What an event tells a session: its statement and the answer. -/
def exchange? (s : System) (p : Pid) : Event → Option (Exchange Stmt Stmt.Resp)
  | .exec q env =>
    match s.procs[q]? with
    | some ⟨_, .op st _, true⟩ =>
      if q = p then (s.world.exec q env st).map fun x => ⟨st, x.1⟩ else none
    | _ => none
  | .abort q _ =>
    match s.procs[q]? with
    | some ⟨_, .op st _, true⟩ =>
      if q = p then (s.world.fail q .deadlockDetected st).map fun x => ⟨st, x.1⟩ else none
    | _ => none
  | _ => none

/-- **The transcript of a session** in a run. -/
def transcript (p : Pid) : System → List Event → List (Exchange Stmt Stmt.Resp)
  | _, [] => []
  | s, e :: es =>
    match s.step crypto e with
    | some t => (s.exchange? p e).toList ++ transcript p t es
    | none => []

variable {crypto} {s t u : System} {φ φ' : Pid → Phase} {e : Event} {es : List Event} {p q : Pid}

/-- A longer run extends the transcripts. -/
theorem transcript_append (hrun : run (step crypto) s es = some t) (fs : List Event) :
    s.transcript crypto p (es ++ fs) = s.transcript crypto p es ++ t.transcript crypto p fs := by
  induction es generalizing s with
  | nil =>
    obtain rfl := Option.some.inj hrun
    rfl
  | cons e es ih =>
    obtain ⟨u, hu, hrun⟩ := Option.bind_eq_some_iff.mp hrun
    simp only [List.cons_append, transcript, hu]
    rw [ih hrun, List.append_assoc]

theorem transcript_concat (hrun : run (step crypto) s es = some t)
    (hstep : t.step crypto e = some u) :
    s.transcript crypto p (es ++ [e]) = s.transcript crypto p es ++ (t.exchange? p e).toList := by
  rw [transcript_append hrun]
  simp [transcript, hstep]

theorem Answered.exchange? {st : Stmt} {r : st.Resp} {w' : World} {job : Job}
    {k : st.Resp → ServerProg (Except Exc Result)} (hans : s.Answered q st r w' e)
    (hproc : s.procs[q]? = some ⟨job, .op st k, true⟩) :
    s.exchange? p e = if q = p then some ⟨st, r⟩ else none := by
  cases hans with
  | exec env h => simp [System.exchange?, hproc, h]
  | abort cycle _ h => simp [System.exchange?, hproc, h]

/-- Runs are followed step by step, with the phases of the sessions. -/
theorem run_induction {I : List Event → System → (Pid → Phase) → Prop}
    (hrun : run (step crypto) .init es = some s) (hinit : I [] .init fun _ => .other)
    (hmove : ∀ es s φ e t φ', run (step crypto) .init es = some s → s.Sound crypto φ → I es s φ →
      s.step crypto e = some t → s.Moves crypto φ e t φ' → t.Sound crypto φ' → I (es ++ [e]) t φ') :
    ∃ φ, s.Sound crypto φ ∧ I es s φ := by
  induction es using List.reverseRecOn generalizing s with
  | nil =>
    obtain rfl := Option.some.inj hrun
    exact ⟨_, sound_init, hinit⟩
  | append_singleton es e ih =>
    rw [run_append] at hrun
    obtain ⟨t, ht, hstep⟩ := Option.bind_eq_some_iff.mp hrun
    have hstep : t.step crypto e = some s := by simpa [run] using hstep
    obtain ⟨φ, h, hI⟩ := ih ht
    obtain ⟨φ', hm⟩ := moves_of_step h.tracks hstep
    exact ⟨φ', h.move hm, hmove es t φ e s φ' ht h hI hstep hm (h.move hm)⟩

/-- A session that has not been started has been told nothing. -/
theorem transcript_of_absent (hrun : run (step crypto) .init es = some s)
    (habsent : s.procs[p]? = none) : transcript crypto p .init es = [] := by
  obtain ⟨-, -, hI⟩ := run_induction
    (I := fun es s _ => ∀ p, s.procs[p]? = none → transcript crypto p .init es = [])
    hrun (fun _ _ => rfl) <| by
      rintro es s φ e t φ' hrun - hI hstep hmove - p hp
      rw [transcript_concat hrun hstep]
      cases hmove with
      | start job =>
        have hlen := List.getElem?_eq_none_iff.mp hp
        rw [hI p (List.getElem?_eq_none_iff.mpr (le_trans (by simp) hlen))]
        rfl
      | kill hproc =>
        rw [hI p (List.getElem?_eq_none_iff.mpr (by simpa using List.getElem?_eq_none_iff.mp hp))]
        rfl
      | @answer _ q job st r w' k ph hproc hans hnext =>
        have hlen := List.getElem?_eq_none_iff.mp hp
        rw [List.length_set] at hlen
        have hne : q ≠ p := fun heq =>
          Nat.not_lt.mpr hlen (heq ▸ (List.getElem?_eq_some_iff.mp hproc).1)
        rw [hI p (List.getElem?_eq_none_iff.mpr hlen), hans.exchange? hproc, if_neg hne]
        rfl
  exact hI p habsent

/-- **A session is where its transcript has led it**, and what its own steps hand over and the
steps of the others leave alone holds there. -/
theorem holds_walked {P : Type} {out : P → Node Stmt Stmt.Resp (Except Exc Result) P} {start : P}
    {Q : World → Pid → P → Prop}
    (hstart : ∀ (s : System) (φ : Pid → Phase), s.Reachable crypto → s.Sound crypto φ →
      Q s.world s.procs.length start)
    (hown : ∀ (s : System) (φ : Pid → Phase) (p : Pid) (pt : P) (st : Stmt) (next : st.Resp → P)
      (r : st.Resp) (w' : World), s.Sound crypto φ → s.Owned φ → s.Alive p → Q s.world p pt →
        out pt = .op st next → s.world.Answers p st r w' → Q w' p (next r))
    (hframe : ∀ (s t : System) (φ φ' : Pid → Phase) (e : Event) (p : Pid) (pt : P),
      s.Sound crypto φ → s.Owned φ → s.Moves crypto φ e t φ' →
        (∀ q st r, s.Answered q st r t.world e → q ≠ p) → Frame p s.world t.world →
          Q s.world p pt → Q t.world p pt)
    (hrun : run (step crypto) .init es = some s) {proc : Proc} (hproc : s.procs[p]? = some proc)
    (htracks : Prog.Tracks out start (proc.job.program crypto)) :
    ∃ pt, Walks out start (transcript crypto p .init es) pt ∧ Prog.Tracks out pt proc.prog ∧
      (proc.alive = true → Q s.world p pt) := by
  obtain ⟨-, -, -, hwalk⟩ := run_induction
    (I := fun es s φ => s.Owned φ ∧
      ∀ p proc, s.procs[p]? = some proc → Prog.Tracks out start (proc.job.program crypto) →
        ∃ pt, Walks out start (transcript crypto p .init es) pt ∧ Prog.Tracks out pt proc.prog ∧
          (proc.alive = true → Q s.world p pt))
    hrun ⟨owned_init, fun p proc hproc => by cases hproc⟩ <| by
      rintro es s φ e t φ' hrun h ⟨ho, hI⟩ hstep hmove -
      refine ⟨ho.move h hmove, fun q proc hproc htracks => ?_⟩
      -- the step is of the session itself, of another one, or starts it
      have hmove' := hmove
      rw [transcript_concat hrun hstep]
      cases hmove with
      | start job =>
        rw [show s.exchange? q (.start job) = none from rfl, Option.toList_none, List.append_nil]
        rcases getElem?_start hproc with ⟨-, hproc⟩ | ⟨rfl, rfl⟩
        · exact hI q proc hproc htracks
        -- the session itself starts, with an empty transcript
        · rw [transcript_of_absent hrun (List.getElem?_eq_none le_rfl)]
          exact ⟨start, .nil, htracks, fun _ => hstart s φ (reaches_of_run hrun) h⟩
      | @kill p' job prog hproc' =>
        rw [show s.exchange? q (.kill p') = none from rfl, Option.toList_none, List.append_nil]
        rcases getElem?_replace hproc' hproc with ⟨hne, hproc⟩ | ⟨rfl, rfl⟩
        · obtain ⟨pt, hwalk, hpt, hQ⟩ := hI q proc hproc htracks
          have hacts : Acts p' .rollback s.world (s.world.release p') := .single .release
          refine ⟨pt, hwalk, hpt, fun halive => ?_⟩
          exact hframe s _ φ φ _ q pt h ho hmove' (by rintro _ _ _ ⟨⟩) (hacts.frame hne) (hQ halive)
        · obtain ⟨pt, hwalk, hpt, -⟩ := hI p' _ hproc' htracks
          exact ⟨pt, hwalk, hpt, by rintro ⟨⟩⟩
      | @answer _ p' job st r w' k ph hproc' hans hnext =>
        rw [hans.exchange? hproc']
        rcases getElem?_replace hproc' hproc with ⟨hne, hproc⟩ | ⟨rfl, rfl⟩
        · obtain ⟨pt, hwalk, hpt, hQ⟩ := hI q proc hproc htracks
          rw [if_neg hne]
          refine ⟨pt, by simpa using hwalk, hpt, fun halive => ?_⟩
          refine hframe s _ φ _ _ q pt h ho hmove' (fun q' _ _ hans' => ?_)
            (hans.answers.acts.frame hne) (hQ halive)
          exact hans.pid_eq hans' ▸ hne
        · obtain ⟨pt, hwalk, ⟨next, hout, hrest⟩, hQ⟩ := hI p' _ hproc' htracks
          rw [if_pos rfl]
          -- the session itself has been answered, and goes on from the answer
          refine ⟨next r, hwalk.snoc hout r, hrest r, fun _ => ?_⟩
          exact hown s φ p' pt st next r w' h ho ⟨_, hproc', rfl⟩ (hQ rfl) hout hans.answers
  exact hwalk p proc hproc htracks

end System

end TenantBilling
