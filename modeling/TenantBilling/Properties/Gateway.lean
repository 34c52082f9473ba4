import TenantBilling.Properties.Directories
import TenantBilling.Properties.Later
import TenantBilling.Properties.TenantWrites

/-!
# Behind the gateway

What holds of the system behind its authentication, whatever the order of events. What the
dependency returns is what it would have returned at once, at some moment since the request
arrived (`TenantBilling.Gateway.authentication_atomic`). Each session of a request belongs to one
arrival that was let in, so a row of a business is only ever written in a session whose
credentials were those of the business, but for the account that the worker keeps of deliveries
(`TenantBilling.Gateway.writes_authorised`).
-/

namespace TenantBilling

open Base World

/-- A column of a list in which an element is replaced by one that has the same there. -/
theorem map_set_of_eq {α β : Type} {f : α → β} {l : List α} {n : ℕ} {x y : α} (hx : l[n]? = some x)
    (h : f y = f x) : (l.set n y).map f = l.map f := by
  obtain ⟨hlt, rfl⟩ := List.getElem?_eq_some_iff.mp hx
  rw [List.map_set, h, ← List.getElem_map f (h := by simpa using hlt), List.set_getElem_self]

/-! ### The jobs of the system -/

/-- The job that an event begins. -/
def Event.begins : Event → List Job
  | start job => [job]
  | _ => []

namespace System

/-- What the sessions run, in order of arrival. -/
def jobs (s : System) : List Job := s.procs.map Proc.job

variable {crypto : Crypto} {s t : System} {φ φ' : Pid → Phase} {e : Event} {p : Pid}

theorem jobs_getElem? {job : Job} :
    s.jobs[p]? = some job ↔ ∃ proc, s.procs[p]? = some proc ∧ proc.job = job := by
  rw [jobs, List.getElem?_map, Option.map_eq_some_iff]

theorem length_jobs (s : System) : s.jobs.length = s.procs.length := List.length_map _

theorem Moves.jobs (hmove : s.Moves crypto φ e t φ') : t.jobs = s.jobs ++ e.begins := by
  cases hmove with
  | start job => exact List.map_append
  | kill hproc =>
    rw [show Event.begins _ = [] from rfl, List.append_nil]
    exact map_set_of_eq hproc rfl
  | answer hproc hans hnext =>
    have hnone : e.begins = [] := by cases hans <;> rfl
    rw [hnone, List.append_nil]
    exact map_set_of_eq hproc rfl

/-- A step of the system starts the sessions that its event begins, and no others. -/
theorem Reachable.jobs (hs : s.Reachable crypto) (hstep : s.step crypto e = some t) :
    t.jobs = s.jobs ++ e.begins := by
  obtain ⟨φ, h⟩ := hs.sound
  obtain ⟨φ', hmove⟩ := System.moves_of_step h.tracks hstep
  exact hmove.jobs

end System

/-! ### Who changes a row -/

section Changes

variable {crypto : Crypto} {db : Database} {s t : System} {e : Event} {r : RowRef}

/-- The only writes of a session that registers nothing are updates of deliveries. -/
theorem Write.Registers.updateDelivery {x : Write} (h : x.Registers none) :
    ∃ i change, x = .updateDelivery i change := by
  cases x with
  | updateDelivery i change => exact ⟨i, change, rfl⟩
  | insertCustomer row => cases h
  | insertEndpoint row => cases h
  | _ => exact h.elim

/-- What the worker writes changes deliveries that are there. -/
theorem row_applyAll_registers {ws : List Write} (h : ∀ x ∈ ws, x.Registers none)
    (hrow : (db.applyAll ws).row r ≠ db.row r) : ∃ d, db.row r = some (.delivery d) := by
  have hins : ∀ x ∈ ws, r ∉ x.inserted := by
    intro x hx
    obtain ⟨i, change, rfl⟩ := (h x hx).updateDelivery
    exact List.not_mem_nil
  have hupd : ∃ x ∈ ws, r ∈ x.updated := by
    by_contra hnone
    refine hrow (Database.row_applyAll (fun x hx hr => hnone ⟨x, hx, hr⟩) fun x hx hr => ?_)
    exact absurd hr (hins x hx)
  obtain ⟨x, hx, hr⟩ := hupd
  obtain ⟨i, change, rfl⟩ := (h x hx).updateDelivery
  obtain rfl := List.mem_singleton.mp hr
  cases hfind : db.deliveries.find? i with
  | none =>
    have hnone : db.row ⟨.deliveries, i⟩ = none := Option.map_eq_none_iff.mpr hfind
    rw [hnone] at hrow
    exact absurd (Database.row_applyAll_eq_none hins hnone) hrow
  | some d => exact ⟨d, Option.map_eq_some_iff.mpr ⟨d, hfind, rfl⟩⟩

/-- **A committed row changes when a session commits that may change it**: that of a request of
the business whose row it is, or that of the worker, which only writes deliveries that are
there. -/
theorem System.Reachable.changes (hs : s.Reachable crypto) (hstep : s.step crypto e = some t)
    (hrow : t.world.db.row r ≠ s.world.db.row r) :
    ∃ (p : Pid) (job : Job) (k : Stmt.commit.Resp → ServerProg (Except Exc Result)),
      e.pid? = some p ∧ s.procs[p]? = some ⟨job, .op .commit k, true⟩ ∧
        (job = .poll ∧ (∃ d, s.world.db.row r = some (.delivery d)) ∨
          ∃ business req, job = .request business req ∧ t.world.db.Owns business.id r ∧
            (s.world.db.row r ≠ none → s.world.db.Owns business.id r)) := by
  obtain ⟨φ, h, ho⟩ := hs.owned
  obtain ⟨φ', hmove⟩ := System.moves_of_step h.tracks hstep
  cases hmove with
  | start job => exact absurd rfl hrow
  | kill hproc => exact absurd rfl hrow
  | @answer _ p job st x w' k ph hproc hans hnext =>
    by_cases hst : st = .commit
    case neg => exact absurd (congrArg (·.row r) (hans.answers.effect.db hst)) hrow
    subst hst
    obtain rfl := answers_commit hans.answers
    have hpid : e.pid? = some p := by cases hans <;> rfl
    refine ⟨p, job, k, hpid, hproc, ?_⟩
    cases job with
    | poll =>
      refine Or.inl ⟨rfl, ?_⟩
      cases ho.sides p _ hproc rfl with
      | phase hnot => exact absurd trivial hnot
      | poll hprog hwrites => exact row_applyAll_registers hwrites hrow
    | request business req =>
      refine Or.inr ⟨business, req, rfl, ?_⟩
      exact Database.Admits.owns (h.consistent.fits p) (ho.admits h hproc rfl) hrow

end Changes

/-- The business that the dependency of a request has returned. -/
def Arrival.accepted? (a : Arrival) : Option Business :=
  match a.prog with
  | .ret (.ok business) => some business
  | _ => none

theorem Arrival.accepted?_eq_some {a : Arrival} {business : Business} :
    a.accepted? = some business ↔ a.prog = .ret (.ok business) := by
  unfold accepted?
  split
  case h_1 business' h => simp [h]
  case h_2 h => simpa using h business

/-! ### The moves of the gateway -/

namespace Gateway

/-- The directories in effect since as many had been replaced. -/
def timeline (g : Gateway) (age : ℕ) : Timeline := ⟨g.past.drop age, g.directory⟩

variable (crypto : Crypto)

/-- **One step of the gateway.** -/
inductive Moves (g : Gateway) : GatewayEvent → Gateway → Prop where
  | arrive (credentials : Option Credentials) (req : Request) :
    Moves g (.arrive credentials req)
      { g with arrivals := g.arrivals ++
          [⟨credentials, req, g.past.length, getCurrentBusiness crypto credentials, none⟩] }
  | look {n : ℕ} {a : Arrival} {q : AuthQuery}
    {k : q.Result → AuthProg (Except HttpException Business)} (ha : g.arrivals[n]? = some a)
    (hprog : a.prog = .op q k) :
    Moves g (.look n)
      { g with arrivals := g.arrivals.set n { a with prog := k (g.directory.eval q) } }
  | enter {n : ℕ} {a : Arrival} {business : Business} {s : System} (ha : g.arrivals[n]? = some a)
    (hprog : a.prog = .ret (.ok business)) (hnew : a.session = none)
    (hstep : g.system.step crypto (.start (.request business a.req)) = some s) :
    Moves g (.enter n)
      { g with
        arrivals := g.arrivals.set n { a with session := some g.system.procs.length }
        system := s }
  | administer {d : Directory} (hkeeps : g.directory.Keeps d) :
    Moves g (.administer d) { g with past := g.past ++ [g.directory], directory := d }
  | inner {e : Event} {s : System} (hreq : ¬e.StartsRequest)
    (hstep : g.system.step crypto e = some s) : Moves g (.inner e) { g with system := s }

variable {crypto} {g g' : Gateway} {e : GatewayEvent}

/-- Every step of the gateway is one of its moves. -/
theorem moves_of_step (h : g.step crypto e = some g') : g.Moves crypto e g' := by
  cases e with
  | arrive credentials req =>
    obtain rfl := Option.some.inj h
    exact .arrive credentials req
  | look n =>
    simp only [step] at h
    split at h
    case h_1 credentials req age q k session ha =>
      obtain rfl := Option.some.inj h
      exact .look ha rfl
    case h_2 => cases h
  | enter n =>
    simp only [step] at h
    split at h
    case h_1 credentials req age business ha =>
      obtain ⟨s, hstep, rfl⟩ := Option.map_eq_some_iff.mp h
      exact .enter ha rfl rfl hstep
    case h_2 => cases h
  | administer d =>
    simp only [step] at h
    split at h
    case isTrue hkeeps =>
      obtain rfl := Option.some.inj h
      exact .administer hkeeps
    case isFalse => cases h
  | inner e =>
    simp only [step] at h
    split at h
    case isTrue => cases h
    case isFalse hreq =>
      obtain ⟨s, hstep, rfl⟩ := Option.map_eq_some_iff.mp h
      exact .inner hreq hstep

/-- One state of the gateway comes after another. -/
structure Onward (g g' : Gateway) : Prop where
  past : g.past <+: g'.past
  rely : ∀ age ≤ g.past.length, Timeline.setting.rely (g.timeline age) (g'.timeline age)
  jobs : g.system.jobs <+: g'.system.jobs

theorem Onward.of_same (hpast : g'.past = g.past) (hdir : g'.directory = g.directory)
    (hjobs : g.system.jobs <+: g'.system.jobs) : g.Onward g' := by
  refine ⟨hpast ▸ List.prefix_rfl, fun age _ => ?_, hjobs⟩
  rw [timeline, timeline, hpast, hdir]
  exact Timeline.setting.refl _

/-- The gateway only goes on: what was in effect stays in its past, and sessions keep their jobs. -/
theorem Moves.onward (hmove : g.Moves crypto e g') (hs : g.system.Reachable crypto) :
    g.Onward g' := by
  cases hmove with
  | arrive credentials req => exact .of_same rfl rfl List.prefix_rfl
  | look ha hprog => exact .of_same rfl rfl List.prefix_rfl
  | enter ha hprog hnew hstep => exact .of_same rfl rfl ⟨_, (hs.jobs hstep).symm⟩
  | inner hreq hstep => exact .of_same rfl rfl ⟨_, (hs.jobs hstep).symm⟩
  | administer hkeeps =>
    refine ⟨List.prefix_append _ _, fun age hage => ⟨?_, hkeeps⟩, List.prefix_rfl⟩
    simp only [Timeline.all, timeline]
    rw [List.drop_append_of_le_length hage]
    exact List.prefix_append _ _

/-! ### Arrivals -/

/-- What holds of a request that has arrived. -/
structure Holds (crypto : Crypto) (g : Gateway) (a : Arrival) : Prop where
  age : a.age ≤ g.past.length
  ensures : Prog.Ensures Timeline.setting (fun t x => Decides crypto a.credentials t.all x)
    (g.timeline a.age) a.prog
  /-- A request with a session has been let in. -/
  session : ∀ p, a.session = some p → ∃ business, a.prog = .ret (.ok business) ∧
    g.system.jobs[p]? = some (.request business a.req)

/-- What is known of an arrival is kept while the gateway goes on. -/
theorem Holds.onward {a : Arrival} (h : Holds crypto g a) (hon : g.Onward g') :
    Holds crypto g' a := by
  refine ⟨h.age.trans hon.past.length_le, h.ensures.rely (hon.rely _ h.age), fun p hp => ?_⟩
  obtain ⟨business, hprog, hjob⟩ := h.session p hp
  refine ⟨business, hprog, ?_⟩
  obtain ⟨jobs, hjobs⟩ := hon.jobs
  rw [← hjobs, List.getElem?_append_left (List.getElem?_eq_some_iff.mp hjob).1, hjob]

/-- The sessions that the requests have been given. -/
def sessions (g : Gateway) : List (Option Pid) := g.arrivals.map Arrival.session

/-- **The invariant of the gateway**: each request of the system is one that has been let in, and
one that has been let in is one request of the system. -/
structure Sound (crypto : Crypto) (g : Gateway) : Prop where
  reachable : g.system.Reachable crypto
  holds : ∀ (n : ℕ) (a : Arrival), g.arrivals[n]? = some a → Holds crypto g a
  entered : ∀ (p : Pid) (business : Business) (req : Request),
    g.system.jobs[p]? = some (.request business req) → ∃ n : ℕ, g.sessions[n]? = some (some p)
  once : ∀ (n n' : ℕ) (p : Pid), g.sessions[n]? = some (some p) →
    g.sessions[n']? = some (some p) → n = n'

theorem sound_init (crypto : Crypto) (d : Directory) : (init d).Sound crypto where
  reachable := Relation.ReflTransGen.refl
  holds n a h := by cases h
  entered p business req h := by cases h
  once n n' p h := by cases h

/-- An element of a list in which one has been replaced. -/
theorem getElem?_set_eq_some {α : Type} {l : List α} {n m : ℕ} {x y : α}
    (h : (l.set n x)[m]? = some y) : n ≠ m ∧ l[m]? = some y ∨ n = m ∧ y = x := by
  rw [List.getElem?_set] at h
  split at h
  case isTrue hnm =>
    split at h
    · exact Or.inr ⟨hnm, (Option.some.inj h).symm⟩
    · cases h
  case isFalse hnm => exact Or.inl ⟨hnm, h⟩

/-- An element of a list to which one has been added. -/
theorem getElem?_concat_eq_some {α : Type} {l : List α} {m : ℕ} {x y : α}
    (h : (l ++ [x])[m]? = some y) : l[m]? = some y ∨ m = l.length ∧ y = x := by
  rcases Nat.lt_or_ge m l.length with hlt | hge
  · exact Or.inl ((List.getElem?_append_left hlt).symm.trans h)
  · rw [List.getElem?_append_right hge] at h
    rw [List.getElem?_singleton] at h
    split at h
    · exact Or.inr ⟨by omega, (Option.some.inj h).symm⟩
    · cases h

/-- A move keeps what is known of every arrival, and establishes it of a new one. -/
theorem Moves.holds (hmove : g.Moves crypto e g') (hs : g.system.Reachable crypto)
    (h : ∀ (n : ℕ) (a : Arrival), g.arrivals[n]? = some a → Holds crypto g a) :
    ∀ (n : ℕ) (a : Arrival), g'.arrivals[n]? = some a → Holds crypto g' a := by
  have hon := hmove.onward hs
  intro n a ha
  cases hmove with
  | arrive credentials req =>
    rcases getElem?_concat_eq_some ha with ha | ⟨-, rfl⟩
    · exact (h n a ha).onward hon
    · exact ⟨le_rfl, Timeline.ensures_getCurrentBusiness .., fun p hp => by cases hp⟩
  | @look m a' q k ha' hprog =>
    rcases getElem?_set_eq_some ha with ⟨-, ha⟩ | ⟨rfl, rfl⟩
    · exact (h n a ha).onward hon
    · obtain ⟨hage, hens, hsession⟩ := h m a' ha'
      rw [hprog] at hens
      refine ⟨hage, hens.answer ⟨rfl, rfl⟩, fun p hp => ?_⟩
      obtain ⟨business, hret, -⟩ := hsession p hp
      cases hprog.symm.trans hret
  | @enter m a' business s ha' hprog hnew hstep =>
    rcases getElem?_set_eq_some ha with ⟨-, ha⟩ | ⟨rfl, rfl⟩
    · exact (h n a ha).onward hon
    · obtain ⟨hage, hens, -⟩ := (h m a' ha').onward hon
      refine ⟨hage, hens, fun p hp => ⟨business, hprog, ?_⟩⟩
      obtain rfl := Option.some.inj hp
      rw [hs.jobs hstep, ← System.length_jobs]
      exact List.getElem?_concat_length
  | administer hkeeps => exact (h n a ha).onward hon
  | inner hreq hstep => exact (h n a ha).onward hon

/-- **A move gives one request the next session, or none.** -/
theorem Moves.sessions (hmove : g.Moves crypto e g') (hs : g.system.Reachable crypto) :
    (∃ (n : ℕ) (job : Job), g.sessions[n]? = some none ∧
        g'.sessions = g.sessions.set n (some g.system.jobs.length) ∧
        g'.system.jobs = g.system.jobs ++ [job]) ∨
      (∀ (n : ℕ) (p : Pid), g'.sessions[n]? = some (some p) ↔ g.sessions[n]? = some (some p)) ∧
        ∀ (p : Pid) (business : Business) (req : Request),
          g'.system.jobs[p]? = some (.request business req) →
            g.system.jobs[p]? = some (.request business req) := by
  cases hmove with
  | arrive credentials req =>
    refine Or.inr ⟨fun n p => ?_, fun _ _ _ hjob => hjob⟩
    simp only [Gateway.sessions, List.map_append, List.map_singleton]
    constructor
    · intro hn
      rcases getElem?_concat_eq_some hn with hn | ⟨-, hn⟩
      · exact hn
      · cases hn
    · intro hn
      rwa [List.getElem?_append_left (List.getElem?_eq_some_iff.mp hn).1]
  | @look n a q k ha hprog =>
    have hsame : (g.arrivals.set n { a with prog := k (g.directory.eval q) }).map Arrival.session =
        g.sessions := map_set_of_eq ha rfl
    refine Or.inr ⟨fun m p => ?_, fun _ _ _ hjob => hjob⟩
    rw [← hsame]
    rfl
  | @enter n a business s ha hprog hnew hstep =>
    refine Or.inl ⟨n, .request business a.req, ?_, ?_, hs.jobs hstep⟩
    · rw [Gateway.sessions, List.getElem?_map, ha, Option.map_some, hnew]
    · rw [System.length_jobs]
      exact List.map_set
  | administer hkeeps => exact Or.inr ⟨fun _ _ => Iff.rfl, fun _ _ _ hjob => hjob⟩
  | @inner e s hreq hstep =>
    refine Or.inr ⟨fun _ _ => Iff.rfl, fun p business req hjob => ?_⟩
    rw [hs.jobs hstep] at hjob
    cases e with
    | start job =>
      rcases getElem?_concat_eq_some hjob with hjob | ⟨-, rfl⟩
      · exact hjob
      · exact absurd trivial hreq
    | _ => rwa [show Event.begins _ = [] from rfl, List.append_nil] at hjob

/-- A session of an arrival has been started. -/
theorem Sound.session_lt (h : g.Sound crypto) {n : ℕ} {p : Pid}
    (hn : g.sessions[n]? = some (some p)) : p < g.system.jobs.length := by
  rw [Gateway.sessions, List.getElem?_map] at hn
  obtain ⟨a, ha, hp⟩ := Option.map_eq_some_iff.mp hn
  obtain ⟨business, -, hjob⟩ := (h.holds n a ha).session p hp
  exact (List.getElem?_eq_some_iff.mp hjob).1

/-- **Every move keeps the invariant.** -/
theorem Sound.move (h : g.Sound crypto) (hmove : g.Moves crypto e g')
    (hs : g'.system.Reachable crypto) : g'.Sound crypto := by
  refine ⟨hs, hmove.holds h.reachable h.holds, ?_, ?_⟩
  all_goals
    rcases hmove.sessions h.reachable with ⟨m, job, hm, hsessions, hjobs⟩ | ⟨hsessions, hjobs⟩
  · intro p business req hjob
    rw [hjobs] at hjob
    rw [hsessions]
    rcases getElem?_concat_eq_some hjob with hjob | ⟨rfl, -⟩
    · -- the session was given earlier, so to another request
      obtain ⟨n, hn⟩ := h.entered p business req hjob
      have hne : m ≠ n := by
        rintro rfl
        cases hm.symm.trans hn
      exact ⟨n, by rw [List.getElem?_set_ne hne, hn]⟩
    · exact ⟨m, List.getElem?_set_self (List.getElem?_eq_some_iff.mp hm).1⟩
  · intro p business req hjob
    obtain ⟨n, hn⟩ := h.entered p business req (hjobs p business req hjob)
    exact ⟨n, (hsessions n p).mpr hn⟩
  · intro n n' p hn hn'
    rw [hsessions] at hn hn'
    rcases getElem?_set_eq_some hn with ⟨-, hn⟩ | ⟨rfl, hp⟩ <;>
      rcases getElem?_set_eq_some hn' with ⟨-, hn'⟩ | ⟨rfl, hp'⟩
    · exact h.once n n' p hn hn'
    · exact absurd (h.session_lt hn) (by rw [Option.some.inj hp']; exact Nat.lt_irrefl _)
    · exact absurd (h.session_lt hn') (by rw [Option.some.inj hp]; exact Nat.lt_irrefl _)
    · rfl
  · intro n n' p hn hn'
    exact h.once n n' p ((hsessions n p).mp hn) ((hsessions n' p).mp hn')

/-- The system stays as it is, or takes a step of its own. -/
theorem Moves.system (hmove : g.Moves crypto e g') :
    g'.system = g.system ∨ ∃ e', g.system.step crypto e' = some g'.system := by
  cases hmove with
  | enter ha hprog hnew hstep => exact Or.inr ⟨_, hstep⟩
  | inner hreq hstep => exact Or.inr ⟨_, hstep⟩
  | _ => exact Or.inl rfl

/-- **The gateway keeps its account of the arrivals.** -/
theorem Sound.step (h : g.Sound crypto) (hstep : g.step crypto e = some g') : g'.Sound crypto := by
  have hmove := moves_of_step hstep
  refine h.move hmove ?_
  rcases hmove.system with heq | ⟨e', hstep'⟩
  · rw [heq]
    exact h.reachable
  · exact h.reachable.step hstep'

theorem Reachable.sound (hg : g.Reachable crypto) : g.Sound crypto := by
  obtain ⟨d, hreach⟩ := hg
  exact hreach.invariant (sound_init crypto d) fun u e v hu _ hstep => hu.step hstep

/-! ### What is returned -/

/-- **Authentication is atomic.** The two selects of the dependency are answered at different
times, while the operator goes on, and still what it returns is what one of the directories says
that were in effect since the request arrived: the business whose active key the token verifies
against, or the one refusal if there is none. -/
theorem authentication_atomic (hg : g.Reachable crypto) {n : ℕ} {a : Arrival}
    {x : Except HttpException Business} (ha : g.arrivals[n]? = some a) (hx : a.prog = .ret x) :
    Decides crypto a.credentials (g.since a) x := by
  have hens := (hg.sound.holds n a ha).ensures
  rw [hx] at hens
  exact hens.returned

/-! ### Who writes -/

/-- **The session is authorised**: it runs the request of one arrival, and a directory that was in
effect since that arrived admits its credentials as the business. -/
def Authorised (crypto : Crypto) (g : Gateway) (p : Pid) (b : Uuid) : Prop :=
  ∃ (n : ℕ) (a : Arrival) (business : Business), g.arrivals[n]? = some a ∧ a.session = some p ∧
    (∀ n' : ℕ, g.sessions[n']? = some (some p) → n' = n) ∧
      g.system.jobs[p]? = some (.request business a.req) ∧ business.id = b ∧
        ∃ d ∈ g.since a, d.Admits crypto a.credentials b

/-- The session of an arrival, by the number of the arrival. -/
theorem sessions_getElem? {n : ℕ} {p : Pid} :
    g.sessions[n]? = some (some p) ↔ ∃ a, g.arrivals[n]? = some a ∧ a.session = some p := by
  rw [sessions, List.getElem?_map, Option.map_eq_some_iff]

/-- A request of a business runs in an authorised session. -/
theorem Sound.authorised (h : g.Sound crypto) {p : Pid} {business : Business} {req : Request}
    (hjob : g.system.jobs[p]? = some (.request business req)) :
    g.Authorised crypto p business.id := by
  obtain ⟨n, hn⟩ := h.entered p business req hjob
  obtain ⟨a, ha, hp⟩ := sessions_getElem?.mp hn
  obtain ⟨-, hens, hsession⟩ := h.holds n a ha
  obtain ⟨business', hprog, hjob'⟩ := hsession p hp
  obtain ⟨rfl, rfl⟩ := Job.request.inj (Option.some.inj (hjob.symm.trans hjob'))
  rw [hprog] at hens
  exact ⟨n, a, business, ha, hp, fun n' hn' => h.once n' n p hn' hn, hjob, rfl, hens.returned⟩

/-- A committed row changes with a commit of a session of the system. -/
theorem Sound.changes (h : g.Sound crypto) (hmove : g.Moves crypto e g') {r : RowRef}
    (hrow : g'.system.world.db.row r ≠ g.system.world.db.row r) :
    ∃ (e' : Event) (p : Pid) (job : Job) (k : Stmt.commit.Resp → ServerProg (Except Exc Result)),
      e = .inner e' ∧ e'.pid? = some p ∧ g.system.procs[p]? = some ⟨job, .op .commit k, true⟩ ∧
        (job = .poll ∧ (∃ d, g.system.world.db.row r = some (.delivery d)) ∨
          ∃ business req, job = .request business req ∧ g'.system.world.db.Owns business.id r ∧
            (g.system.world.db.row r ≠ none → g.system.world.db.Owns business.id r)) := by
  cases hmove with
  | arrive credentials req => exact absurd rfl hrow
  | look ha hprog => exact absurd rfl hrow
  | administer hkeeps => exact absurd rfl hrow
  | enter ha hprog hnew hstep =>
    obtain rfl := Option.some.inj hstep
    exact absurd rfl hrow
  | @inner e' s hreq hstep =>
    obtain ⟨p, job, k, hpid, hproc, hcase⟩ := h.reachable.changes hstep hrow
    exact ⟨e', p, job, k, rfl, hpid, hproc, hcase⟩

/-- **Nothing is written but under a key.** Whenever a committed row is inserted or changed, it is
by the step of a session that is authorised for the business whose row it is, or by the worker,
which only keeps account of deliveries that are there. -/
theorem writes_authorised (hg : g.Reachable crypto) (hstep : g.step crypto e = some g') {r : RowRef}
    (hrow : g'.system.world.db.row r ≠ g.system.world.db.row r) :
    ∃ (e' : Event) (p : Pid), e = .inner e' ∧ e'.pid? = some p ∧
      (g.system.jobs[p]? = some .poll ∧ (∃ d, g.system.world.db.row r = some (.delivery d)) ∨
        ∃ b, g.Authorised crypto p b ∧ g'.system.world.db.Owns b r ∧
          (g.system.world.db.row r ≠ none → g.system.world.db.Owns b r)) := by
  have h := hg.sound
  obtain ⟨e', p, job, k, rfl, hpid, hproc, hcase⟩ := h.changes (moves_of_step hstep) hrow
  have hjob : g.system.jobs[p]? = some job := System.jobs_getElem?.mpr ⟨_, hproc, rfl⟩
  refine ⟨e', p, rfl, hpid, ?_⟩
  rcases hcase with ⟨rfl, hd⟩ | ⟨business, req, rfl, hown⟩
  · exact Or.inl ⟨hjob, hd⟩
  · exact Or.inr ⟨business.id, h.authorised hjob, hown⟩

end Gateway

/-! ### A gateway to try -/

section Sample

/-- The row of the key `sk_live_Zm9v`, which is active or not. -/
def sampleKey (isActive : Bool) : ApiKey :=
  ⟨0, 1, (sampleCrypto.sha256 "").toVarchar, ⟨"sk_live_Zm9v", by decide⟩, isActive, 0, none⟩

/-- The directory of one business with one key. -/
def sampleDirectory (isActive : Bool) : Directory where
  businesses := ⟨[sampleBusiness], List.nodup_singleton _⟩
  apiKeys := ⟨[sampleKey isActive], List.nodup_singleton _⟩
  hashUnique := List.nodup_singleton _
  owned k hk := by
    obtain rfl := List.mem_singleton.mp hk
    exact List.mem_singleton_self 1

/-- A request arrives with the key of the business, which is revoked between the two selects of the
dependency. -/
def entering : List GatewayEvent :=
  [.arrive (some ⟨"BEARER", " sk_live_Zm9v"⟩) (.createCustomer "Ada" "ada@example.com"), .look 0,
    .administer (sampleDirectory false), .look 0]

theorem reachable_of_run {d : Directory} {g : Gateway} {es : List GatewayEvent}
    (h : run (Gateway.step sampleCrypto) (.init d) es = some g) : g.Reachable sampleCrypto :=
  ⟨d, reaches_of_run h⟩

/-- A key is revoked between the two selects of an arrival, which is let in: the directory that
decides is the one of before. -/
theorem authentication_atomic_entering :
    ∃ (g : Gateway) (a : Arrival), g.Reachable sampleCrypto ∧ g.arrivals[0]? = some a ∧
      g.past.length = 1 ∧ Decides sampleCrypto a.credentials (g.since a) (.ok sampleBusiness) := by
  have hany : (run (Gateway.step sampleCrypto) (.init (sampleDirectory true)) entering).any
      (fun g => g.past.length = 1 && g.arrivals[0]?.any fun a =>
        a.accepted? = some sampleBusiness) = true := by
    decide +kernel
  obtain ⟨g, hrun, hg⟩ := (Option.any_eq_true _ _).mp hany
  rw [Bool.and_eq_true, decide_eq_true_iff] at hg
  obtain ⟨a, ha, hx⟩ := (Option.any_eq_true _ _).mp hg.2
  have hret := Arrival.accepted?_eq_some.mp (of_decide_eq_true hx)
  exact ⟨g, a, reachable_of_run hrun, ha, hg.1,
    Gateway.authentication_atomic (reachable_of_run hrun) ha hret⟩

/-- The request goes on to its commit. -/
def committing : List GatewayEvent := entering ++ [.enter 0, .inner (.exec 0 {})]

/-- The commit of an admitted request inserts a customer. -/
theorem writes_authorised_committing :
    ∃ g g' : Gateway, g.step sampleCrypto (.inner (.exec 0 {})) = some g' ∧
      ∃ (e' : Event) (p : Pid), GatewayEvent.inner (.exec 0 {}) = .inner e' ∧ e'.pid? = some p ∧
        (g.system.jobs[p]? = some .poll ∧
            (∃ d, g.system.world.db.row ⟨.customers, 0⟩ = some (.delivery d)) ∨
          ∃ b, g.Authorised sampleCrypto p b ∧ g'.system.world.db.Owns b ⟨.customers, 0⟩ ∧
            (g.system.world.db.row ⟨.customers, 0⟩ ≠ none →
              g.system.world.db.Owns b ⟨.customers, 0⟩)) := by
  have hany : (run (Gateway.step sampleCrypto) (.init (sampleDirectory true)) committing).any
      (fun g => (g.step sampleCrypto (.inner (.exec 0 {}))).any fun g' =>
        (g.system.world.db.row ⟨.customers, 0⟩).isNone &&
          (g'.system.world.db.row ⟨.customers, 0⟩).isSome) = true := by
    decide +kernel
  obtain ⟨g, hrun, hg⟩ := (Option.any_eq_true _ _).mp hany
  obtain ⟨g', hstep, hrow⟩ := (Option.any_eq_true _ _).mp hg
  rw [Bool.and_eq_true] at hrow
  refine ⟨g, g', hstep, Gateway.writes_authorised (reachable_of_run hrun) hstep fun heq => ?_⟩
  rw [heq, Option.isNone_iff_eq_none.mp hrow.1] at hrow
  cases hrow.2

end Sample

end TenantBilling
