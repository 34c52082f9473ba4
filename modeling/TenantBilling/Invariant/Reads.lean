import TenantBilling.Invariant.Transcripts

/-!
# What the sessions have read

What a session goes by when it decides is what it has been told, so it is read off its transcript.
Two things are: the state in which it has loaded an invoice (`TenantBilling.stateLoaded?`), and the
endpoints which the transaction under way has read as active (`TenantBilling.endpointsRead?`). Both
are functions of the transcript alone, and say nothing of the programs. What the programs make of
them is said here once: a payment or a transition that is about to write a state has checked the
state it has loaded (`TenantBilling.System.update_checked`), and the endpoints that a payment goes
by when it settles are those it has read (`TenantBilling.PayPoint.Read`).
-/

namespace TenantBilling

open Base World

/-! ### Transcripts and phases -/

namespace System

variable {crypto : Crypto} {s t : System} {φ φ' : Pid → Phase} {e : Event} {es : List Event}
  {p : Pid}

/-- **What the transcripts tell of the phases** is kept by a step if every answer hands it over. -/
theorem transcripts_move {R : List (Exchange Stmt Stmt.Resp) → Phase → Prop}
    (hrun : run (step crypto) .init es = some s) (hR : ∀ p, R (transcript crypto p .init es) (φ p))
    (hstart : ∀ job, R [] (Job.phase job))
    (hnext : ∀ p st r w' ph, s.Alive p → s.world.Answers p st r w' → (φ p).Next crypto st r ph →
      R (transcript crypto p .init es) (φ p) → R (transcript crypto p .init es ++ [⟨st, r⟩]) ph)
    (hstep : s.step crypto e = some t) (hmove : s.Moves crypto φ e t φ') :
    ∀ p, R (transcript crypto p .init (es ++ [e])) (φ' p) := by
  intro p
  rw [transcript_concat hrun hstep]
  cases hmove with
  | start job =>
    rw [show s.exchange? p (.start job) = none from rfl, Option.toList_none, List.append_nil]
    by_cases hp : p = s.procs.length
    · subst hp
      rw [Function.update_self, transcript_of_absent hrun (List.getElem?_eq_none le_rfl)]
      exact hstart job
    · rw [Function.update_of_ne hp]
      exact hR p
  | @kill q job prog hproc =>
    rw [show s.exchange? p (.kill q) = none from rfl, Option.toList_none, List.append_nil]
    exact hR p
  | @answer _ q job st r w' k ph hproc hans hph =>
    rw [hans.exchange? hproc]
    by_cases hq : q = p
    · subst hq
      rw [if_pos rfl, Function.update_self]
      exact hnext q st r w' ph ⟨_, hproc, rfl⟩ hans.answers hph (hR q)
    · rw [if_neg hq, Option.toList_none, List.append_nil, Function.update_of_ne (Ne.symm hq)]
      exact hR p

end System

/-! ### The state of an invoice -/

/-- What a session has loaded of the state of an invoice, after another statement: the first row it
gets of the invoice counts, whatever later ones say, and a rollback expires it. -/
def Stmt.loading (i : Uuid) : (st : Stmt) → st.Resp → Option InvoiceState → Option InvoiceState
  | .rollback, _, _ => none
  | .lockInvoice _ _, .ok (some v), loaded => if v.id = i then loaded.or (some v.state) else loaded
  | .select (.invoice _ _), some (v, _), loaded =>
    if v.id = i then loaded.or (some v.state) else loaded
  | _, _, loaded => loaded

/-- **The state in which a session has loaded an invoice**, by its transcript. -/
def stateLoaded? (i : Uuid) (told : List (Exchange Stmt Stmt.Resp)) : Option InvoiceState :=
  told.foldl (fun loaded x => x.1.loading i x.2 loaded) none

section Loaded

variable {crypto : Crypto} {told : List (Exchange Stmt Stmt.Resp)} {i : Uuid}

theorem stateLoaded?_concat (st : Stmt) (r : st.Resp) :
    stateLoaded? i (told ++ [⟨st, r⟩]) = st.loading i r (stateLoaded? i told) := by
  rw [stateLoaded?, List.foldl_append]
  rfl

/-- The session has loaded the invoice, and the check of its state has passed. -/
def Invoice.CheckedFor (v : Invoice) (target : InvoiceState)
    (told : List (Exchange Stmt Stmt.Resp)) : Prop :=
  stateLoaded? v.id told = some v.state ∧ target ∈ allowedTransitions v.state

/-- What a payment has loaded at a point. -/
def PayPoint.HasLoaded (c : PayCall) (told : List (Exchange Stmt Stmt.Resp)) : PayPoint → Prop
  | lookup | lock => ∀ i, stateLoaded? i told = none
  | insert v | reserve v _ | send v _ | receive v _ | refetch v _ _ _ | record v _ _ _
  | relock v _ _ _ => v.CheckedFor .paid told
  | markPaid _ _ _ => ∃ v : Invoice, v.id = c.invoiceId ∧ v.CheckedFor .paid told
  | _ => True

/-- What a transition has loaded at a point. -/
def TransitionPoint.HasLoaded (c : TransitionCall) (told : List (Exchange Stmt Stmt.Resp)) :
    TransitionPoint → Prop
  | read => ∀ i, stateLoaded? i told = none
  | update v => v.CheckedFor c.target told
  | _ => True

/-- What a session has loaded at a phase. -/
def Phase.HasLoaded (told : List (Exchange Stmt Stmt.Resp)) : Phase → Prop
  | .pay c pt => pt.HasLoaded c told
  | .transition c pt => pt.HasLoaded c told
  | .other => True

/-- A statement that gives the session no row of an invoice. -/
theorem Invoice.CheckedFor.concat {v : Invoice} {target : InvoiceState}
    (h : v.CheckedFor target told) {st : Stmt} {r : st.Resp}
    (hst : st.loading v.id r (some v.state) = some v.state) :
    v.CheckedFor target (told ++ [⟨st, r⟩]) :=
  ⟨by rw [stateLoaded?_concat, h.1, hst], h.2⟩

/-- The first row of an invoice, if the check of its state passes. -/
theorem Invoice.checkedFor_first {v : Invoice} {target : InvoiceState}
    (hnone : ∀ i, stateLoaded? i told = none) {st : Stmt} {r : st.Resp}
    (hst : st.loading v.id r none = some v.state)
    (hcheck : assertTransitionAllowed v.state target = .ok ()) :
    v.CheckedFor target (told ++ [⟨st, r⟩]) :=
  ⟨by rw [stateLoaded?_concat, hnone, hst], assertTransitionAllowed_eq_ok.mp hcheck⟩

theorem PayPoint.HasLoaded.step {c : PayCall} {pt : PayPoint} {st : Stmt}
    {next : st.Resp → PayPoint} {w : World} {p : Pid} (h : pt.HasLoaded c told)
    (hholds : pt.Holds crypto w p c)
    (hout : pt.out crypto c = .op st next) (r : st.Resp) :
    (next r).HasLoaded c (told ++ [⟨st, r⟩]) := by
  cases pt with
  | lookup =>
    cases hout
    rcases r with _ | a
    · exact fun i => (stateLoaded?_concat ..).trans (h i)
    · dsimp only
      split <;> trivial
  | lock =>
    cases hout
    rcases r with e | _ | v
    · trivial
    · trivial
    · dsimp only
      split
      case h_1 => trivial
      case h_2 hcheck => exact Invoice.checkedFor_first h (if_pos rfl) hcheck
  | insert v =>
    cases hout
    rcases r with e | a
    · cases e <;> trivial
    · exact h.concat rfl
  | reserve v a => cases hout; exact h.concat rfl
  | send v a => cases hout; exact h.concat rfl
  | receive v a =>
    cases hout
    dsimp only
    split
    case h_1 => exact h.concat rfl
    case h_2 => exact h.concat rfl
    case h_3 => trivial
  | refetch v a http outcome =>
    cases hout
    rcases r with _ | row
    · trivial
    · exact h.concat rfl
  | record v a http outcome =>
    cases hout
    rcases r with e | _
    · trivial
    · dsimp only [PayPoint.recorded]
      split
      · trivial
      · split
        · exact h.concat rfl
        · trivial
  | relock v a http result =>
    cases hout
    rcases r with e | _ | row
    · trivial
    · trivial
    · dsimp only
      split
      case h_1 => trivial
      case h_2 =>
        -- the row is given, but the session keeps what it has loaded before
        refine ⟨v, hholds.1.id, h.concat ?_⟩
        change (if row.id = v.id then _ else _) = _
        split <;> rfl
  | undo errorMsg =>
    cases hout
    dsimp only
    split <;> trivial
  | relookup =>
    cases hout
    rcases r with _ | a
    · trivial
    · dsimp only
      split <;> trivial
  | markPaid a http result =>
    cases hout
    cases r <;> trivial
  | listEndpoints a http result =>
    cases hout
    dsimp only
    split <;> trivial
  | outbox a http result endpoints now =>
    cases hout
    cases r <;> trivial
  | refresh a http =>
    cases hout
    cases r <;> trivial
  | done x g => cases hout
  | _ => cases hout; trivial

theorem TransitionPoint.HasLoaded.step {c : TransitionCall} {pt : TransitionPoint} {st : Stmt}
    {next : st.Resp → TransitionPoint} (h : pt.HasLoaded c told) (hout : pt.out c = .op st next)
    (r : st.Resp) : (next r).HasLoaded c (told ++ [⟨st, r⟩]) := by
  cases pt with
  | read =>
    cases hout
    rcases r with _ | ⟨v, items⟩
    · trivial
    · dsimp only
      split
      case h_1 => trivial
      case h_2 hcheck => exact Invoice.checkedFor_first h (if_pos rfl) hcheck
  | update v =>
    cases hout
    cases r <;> trivial
  | reselect v =>
    cases hout
    cases r <;> trivial
  | done x => cases hout
  | _ => cases hout; trivial

end Loaded

namespace System

variable {crypto : Crypto} {s : System} {es : List Event} {p : Pid}

theorem hasLoaded_phase (job : Job) : (Job.phase job).HasLoaded [] := by
  cases hph : job.phase with
  | pay c pt =>
    rcases Job.phase_eq_pay hph with rfl | ⟨x, rfl⟩ <;> first | exact fun _ => rfl | trivial
  | transition c pt =>
    cases job with
    | poll => cases hph
    | request business req =>
      cases req with
      | finalize i | void i | uncollectible i =>
        cases hph
        exact fun _ => rfl
      | pay i token key =>
        unfold Job.phase at hph
        cases hph
      | _ => cases hph
  | other => trivial

/-- **What is written has been checked**: a session that is about to write a state of an invoice has
loaded the invoice, and the check of the state it has loaded has passed. -/
theorem update_checked (hrun : run (step crypto) .init es = some s) {i : Uuid}
    {target : InvoiceState} (hnext : s.next? p = some (.updateInvoice i target)) :
    ∃ state, stateLoaded? i (transcript crypto p .init es) = some state ∧
      target ∈ allowedTransitions state := by
  obtain ⟨φ, h, hI⟩ := run_induction (I := fun es _ φ => ∀ p,
      (φ p).HasLoaded (transcript crypto p .init es)) hrun (fun _ => trivial) <| by
    rintro es s φ e t φ' hrun h hI hstep hmove -
    refine transcripts_move hrun hI hasLoaded_phase ?_ hstep hmove
    intro p st r w' ph halive _ hph hp
    have hholds := h.alive p halive
    generalize φ p = pre at hph hp hholds
    cases hph with
    | pay hout r => exact PayPoint.HasLoaded.step hp hholds hout r
    | transition hout r => exact TransitionPoint.HasLoaded.step hp hout r
    | other _ r => trivial
  obtain ⟨job, k, hproc⟩ := next?_eq_some.mp hnext
  have htracks := h.tracks p _ hproc
  have hloaded := hI p
  generalize φ p = ph at htracks hloaded
  cases ph with
  | pay c pt =>
    obtain ⟨-, next, hout, -⟩ := htracks
    cases pt with
    | markPaid a http result =>
      cases hout
      obtain ⟨v, hid, hchecked⟩ := hloaded
      exact ⟨v.state, hid ▸ hchecked.1, hchecked.2⟩
    | _ => cases hout
  | transition c pt =>
    obtain ⟨-, next, hout, -⟩ := htracks
    cases pt with
    | update v =>
      cases hout
      exact ⟨v.state, hloaded.1, hloaded.2⟩
    | _ => cases hout
  | other => exact absurd htracks.2.1 id

end System

/-! ### The endpoints of a business -/

/-- The endpoints of the business that a transaction has read as active, after another statement. -/
def Stmt.reading (b : Uuid) : (st : Stmt) → st.Resp → Option (List WebhookEndpoint) →
    Option (List WebhookEndpoint)
  | .commit, _, _ => none
  | .rollback, _, _ => none
  | .select (.activeEndpoints b'), endpoints, read => if b' = b then some endpoints else read
  | _, _, read => read

/-- **The endpoints of the business that the transaction under way has read as active**; there are
none if it has not read them. -/
def endpointsRead? (b : Uuid) (told : List (Exchange Stmt Stmt.Resp)) :
    Option (List WebhookEndpoint) :=
  told.foldl (fun read x => x.1.reading b x.2 read) none

section Reads

variable {crypto : Crypto} {told : List (Exchange Stmt Stmt.Resp)} {b : Uuid}

theorem endpointsRead?_concat (st : Stmt) (r : st.Resp) :
    endpointsRead? b (told ++ [⟨st, r⟩]) = st.reading b r (endpointsRead? b told) := by
  rw [endpointsRead?, List.foldl_append]
  rfl

/-- A query has been read that is the last statement. -/
theorem endpointsRead?_select (r : (Stmt.select (.activeEndpoints b)).Resp) :
    endpointsRead? b (told ++ [⟨.select (.activeEndpoints b), r⟩]) = some r :=
  (endpointsRead?_concat ..).trans (if_pos rfl)

/-- What a payment has read at a point. -/
def PayPoint.Read (b : Uuid) (told : List (Exchange Stmt Stmt.Resp)) : PayPoint → Prop
  | readClock _ _ _ endpoints | outbox _ _ _ endpoints _ | settle _ _ (.ok _) endpoints =>
    endpointsRead? b told = some endpoints
  | _ => True

/-- What a session has read at a phase. -/
def Phase.Read (told : List (Exchange Stmt Stmt.Resp)) : Phase → Prop
  | .pay c pt => pt.Read c.business.id told
  | _ => True

theorem PayPoint.Read.step {c : PayCall} {pt : PayPoint} {st : Stmt} {next : st.Resp → PayPoint}
    (h : pt.Read c.business.id told) (hout : pt.out crypto c = .op st next) (r : st.Resp) :
    (next r).Read c.business.id (told ++ [⟨st, r⟩]) := by
  cases pt with
  | listEndpoints a http result =>
    cases hout
    dsimp only
    split
    · exact endpointsRead?_select r
    · exact endpointsRead?_select r
  | readClock a http result endpoints =>
    cases hout
    exact (endpointsRead?_concat ..).trans h
  | outbox a http result endpoints now =>
    cases hout
    cases r with
    | error e => trivial
    | ok u => exact (endpointsRead?_concat ..).trans h
  | record v a http outcome =>
    cases hout
    cases r with
    | error e => trivial
    | ok u =>
      dsimp only [PayPoint.recorded]
      split
      · trivial
      · split <;> trivial
  | _ =>
    cases hout
    try (dsimp only; repeat' split)
    all_goals trivial

end Reads

namespace System

variable {crypto : Crypto} {s t : System} {φ φ' : Pid → Phase} {e : Event} {es : List Event}

/-- At its start a session has read nothing. -/
theorem read_phase (job : Job) : (Job.phase job).Read [] := by
  cases hph : job.phase with
  | pay c pt => rcases Job.phase_eq_pay hph with rfl | ⟨x, rfl⟩ <;> trivial
  | _ => trivial

/-- **What the sessions have read** is kept by every step. -/
theorem read_move (hrun : run (step crypto) .init es = some s)
    (hread : ∀ p, (φ p).Read (transcript crypto p .init es)) (hstep : s.step crypto e = some t)
    (hmove : s.Moves crypto φ e t φ') :
    ∀ p, (φ' p).Read (transcript crypto p .init (es ++ [e])) := by
  refine transcripts_move (R := fun told ph => ph.Read told) hrun hread read_phase ?_ hstep hmove
  intro p st r w' ph _ _ hph hp
  generalize φ p = pre at hph hp
  cases hph with
  | pay hout r => exact PayPoint.Read.step hp hout r
  | _ => trivial

/-- Every payment has read what its point says. -/
theorem phases_read (hrun : run (step crypto) .init es = some s) :
    ∃ φ, s.Sound crypto φ ∧ s.Owned φ ∧ ∀ p, (φ p).Read (transcript crypto p .init es) := by
  refine run_induction (I := fun es s φ => s.Owned φ ∧ ∀ p,
    (φ p).Read (transcript crypto p .init es)) hrun ⟨owned_init, fun _ => trivial⟩ ?_
  rintro es s φ e t φ' hrun h ⟨ho, hI⟩ hstep hmove -
  exact ⟨ho.move h hmove, read_move hrun hI hstep hmove⟩

end System

end TenantBilling
