import Mathlib.Logic.Function.Basic
import TenantBilling.Invariant.Others

/-!
# The moves of the system

One step of the system, seen with the phases of its sessions: a program starts at the
phase of its job, moves to the next phase when its statement is answered, or ends
(`TenantBilling.System.Moves`). This is all that the proofs about runs use of
`TenantBilling.System.step`.
-/

namespace TenantBilling

open Base World

/-- Where the program of a job begins. -/
def Job.phase : Job → Phase
  | request business (.pay invoiceId cardToken idempotencyKey) =>
    let c : PayCall := ⟨business, invoiceId, cardToken, idempotencyKey⟩
    .pay c (PayPoint.start c)
  | request business (.finalize invoiceId) => .transition ⟨business, invoiceId, .open⟩ .read
  | request business (.void invoiceId) => .transition ⟨business, invoiceId, .void⟩ .read
  | request business (.uncollectible invoiceId) =>
    .transition ⟨business, invoiceId, .uncollectible⟩ .read
  | _ => .other

/-- A payment begins with the cache check, or is refused for its empty key. -/
theorem Job.phase_eq_pay {job : Job} {c : PayCall} {pt : PayPoint} (h : job.phase = .pay c pt) :
    pt = .lookup ∨ ∃ x, pt = .closing x .nothing := by
  cases job with
  | poll => cases h
  | request business req =>
    cases req with
    | pay i token key =>
      rw [← (Phase.pay.inj h).2]
      unfold PayPoint.start
      split
      · exact Or.inr ⟨_, rfl⟩
      · exact Or.inl rfl
    | _ => cases h

section Moves

variable (crypto : Crypto)

/-- The next phase, once a statement has been answered. -/
inductive Phase.Next : Phase → (st : Stmt) → st.Resp → Phase → Prop where
  | pay {c : PayCall} {pt : PayPoint} {st : Stmt} {next : st.Resp → PayPoint}
    (hout : pt.out crypto c = .op st next) (r : st.Resp) :
    Phase.Next (.pay c pt) st r (.pay c (next r))
  | transition {c : TransitionCall} {pt : TransitionPoint} {st : Stmt}
    {next : st.Resp → TransitionPoint} (hout : pt.out c = .op st next) (r : st.Resp) :
    Phase.Next (.transition c pt) st r (.transition c (next r))
  | other {st : Stmt} (h : st.Peripheral) (r : st.Resp) : Phase.Next .other st r .other

/-- An event that answers the statement of a session. -/
inductive System.Answered (s : System) (p : Pid) (st : Stmt) (r : st.Resp) (w' : World) :
    Event → Prop where
  | exec (env : Env) (h : s.world.exec p env st = some (r, w')) : Answered s p st r w' (.exec p env)
  | abort (cycle : List Pid) (hcycle : IsCycle s.Waits (p :: cycle))
    (h : s.world.fail p .deadlockDetected st = some (r, w')) : Answered s p st r w' (.abort p cycle)

/-- **One step of the system, and of the phases.** -/
inductive System.Moves (s : System) (φ : Pid → Phase) : Event → System → (Pid → Phase) → Prop where
  | start (job : Job) :
    Moves s φ (.start job) ⟨s.world, s.procs ++ [⟨job, job.program crypto, true⟩]⟩
      (Function.update φ s.procs.length job.phase)
  | answer {e : Event} {p : Pid} {job : Job} {st : Stmt} {r : st.Resp} {w' : World}
    {k : st.Resp → ServerProg (Except Exc Result)} {ph : Phase}
    (hproc : s.procs[p]? = some ⟨job, .op st k, true⟩) (hans : s.Answered p st r w' e)
    (hnext : (φ p).Next crypto st r ph) :
    Moves s φ e ⟨w', s.procs.set p ⟨job, k r, true⟩⟩ (Function.update φ p ph)
  | kill {p : Pid} {job : Job} {prog : ServerProg (Except Exc Result)}
    (hproc : s.procs[p]? = some ⟨job, prog, true⟩) :
    Moves s φ (.kill p) ⟨s.world.release p, s.procs.set p ⟨job, prog, false⟩⟩ φ

variable {crypto}

theorem System.Answered.answers {s : System} {p : Pid} {st : Stmt} {r : st.Resp} {w' : World}
    {e : Event} (h : s.Answered p st r w' e) : s.world.Answers p st r w' := by
  cases h with
  | exec env h => exact .exec env h
  | abort cycle _ h => exact .fail _ h

/-- The phase knows the statement that the program is about to issue. -/
theorem Phase.Tracks.exists_next {ph : Phase} {job : Job} {st : Stmt}
    {k : st.Resp → ServerProg (Except Exc Result)} {alive : Bool}
    (h : ph.Tracks crypto ⟨job, .op st k, alive⟩) (r : st.Resp) :
    ∃ ph', ph.Next crypto st r ph' := by
  cases ph with
  | pay c pt =>
    obtain ⟨-, next, hout, -⟩ := h
    exact ⟨.pay c (next r), .pay hout r⟩
  | transition c pt =>
    obtain ⟨-, next, hout, -⟩ := h
    exact ⟨.transition c (next r), .transition hout r⟩
  | other => exact ⟨.other, .other h.2.1 r⟩

theorem Phase.Next.tracks {ph ph' : Phase} {job : Job} {st : Stmt} {r : st.Resp}
    {k : st.Resp → ServerProg (Except Exc Result)} {alive : Bool}
    (hnext : ph.Next crypto st r ph') (h : ph.Tracks crypto ⟨job, .op st k, alive⟩) :
    ph'.Tracks crypto ⟨job, k r, alive⟩ := by
  cases hnext with
  | pay hout r => exact ⟨h.1, Prog.Tracks.next h.2 hout r⟩
  | transition hout r => exact ⟨h.1, Prog.Tracks.next h.2 hout r⟩
  | other _ r => exact ⟨h.1, h.2.next r⟩

theorem Job.tracks_phase (job : Job) (alive : Bool) :
    job.phase.Tracks crypto ⟨job, job.program crypto, alive⟩ := by
  cases job with
  | poll => exact ⟨trivial, @peripheral_program crypto .poll trivial⟩
  | request business req =>
    cases req with
    | pay invoiceId cardToken idempotencyKey =>
      exact ⟨rfl, tracks_pay crypto ⟨business, invoiceId, cardToken, idempotencyKey⟩⟩
    | finalize invoiceId =>
      exact ⟨⟨_, rfl, rfl⟩, tracks_transition ⟨business, invoiceId, .open⟩⟩
    | void invoiceId => exact ⟨⟨_, rfl, rfl⟩, tracks_transition ⟨business, invoiceId, .void⟩⟩
    | uncollectible invoiceId =>
      exact ⟨⟨_, rfl, rfl⟩, tracks_transition ⟨business, invoiceId, .uncollectible⟩⟩
    | _ => exact ⟨trivial, @peripheral_program crypto (.request business _) trivial⟩

/-- **Every step is a move.** -/
theorem System.moves_of_step {s t : System} {φ : Pid → Phase} {e : Event}
    (htracks : ∀ p proc, s.procs[p]? = some proc → (φ p).Tracks crypto proc)
    (h : s.step crypto e = some t) : ∃ φ', s.Moves crypto φ e t φ' := by
  cases e with
  | start job =>
    obtain rfl := Option.some.inj h
    exact ⟨_, .start job⟩
  | exec p env =>
    simp only [step] at h
    split at h
    case h_1 job st k hproc =>
      obtain ⟨⟨r, w'⟩, hexec, rfl⟩ := Option.map_eq_some_iff.mp h
      obtain ⟨ph, hnext⟩ := (htracks p _ hproc).exists_next r
      exact ⟨_, .answer hproc (.exec env hexec) hnext⟩
    case h_2 => cases h
  | abort p cycle =>
    simp only [step] at h
    split at h
    case isFalse => cases h
    case isTrue hcycle =>
      split at h
      case h_1 job st k hproc =>
        obtain ⟨⟨r, w'⟩, hfail, rfl⟩ := Option.map_eq_some_iff.mp h
        obtain ⟨ph, hnext⟩ := (htracks p _ hproc).exists_next r
        exact ⟨_, .answer hproc (.abort cycle hcycle hfail) hnext⟩
      case h_2 => cases h
  | kill p =>
    simp only [step] at h
    split at h
    case h_1 job prog hproc =>
      obtain rfl := Option.some.inj h
      exact ⟨_, .kill hproc⟩
    case h_2 => cases h

end Moves

end TenantBilling
