import TenantBilling.Properties.Responses

/-!
# Emails are unique

Two requests may create a customer with one email at the same time. Neither looks for the other:
the unique index makes the second insert wait for the first transaction, and refuse the customer
if it has committed. So the customers of a business have different emails, whether committed or
about to be (`TenantBilling.World.Emails`), and each insert that is not refused keeps it so.

What the client is told agrees with this (`TenantBilling.emails_unique`): of any number of requests
for one email one is answered with a customer, and those that are answered with a conflict are so
because there is such a customer, who is there for good.
-/

namespace TenantBilling

open Base World

/-- **The customers of a business have different emails**, those that are about to be committed
included. -/
structure World.Emails (w : World) : Prop where
  committed : ∀ c ∈ w.db.customers, ∀ d ∈ w.db.customers, c.sameEmail d = true → c = d
  inflight : ∀ p c, (p, .insertCustomer c) ∈ w.inflight → ∀ d ∈ w.db.customers,
    c.sameEmail d = false
  apart : ∀ p q c d, (p, .insertCustomer c) ∈ w.inflight → (q, .insertCustomer d) ∈ w.inflight →
    c.sameEmail d = true → p = q ∧ c = d

section Emails

variable {w w' : World} {p : Pid} {st : Stmt} {r : st.Resp}

theorem Customer.sameEmail_comm (c d : Customer) : c.sameEmail d = d.sameEmail c := by
  simp only [Customer.sameEmail, eq_comm]

/-- Two customers are in each other's way if they have one email with one business. -/
theorem Customer.sameEmail_iff {c d : Customer} :
    c.sameEmail d = true ↔ c.businessId = d.businessId ∧ c.email = d.email := by
  simp [Customer.sameEmail]

/-- A customer that is there after a transaction was there before, or is inserted by it. -/
theorem Database.mem_customers_applyAll {db : Database} {ws : List Write} {c : Customer}
    (h : c ∈ (db.applyAll ws).customers) : c ∈ db.customers ∨ .insertCustomer c ∈ ws := by
  induction ws generalizing db with
  | nil => exact Or.inl h
  | cons x ws ih =>
    rcases ih h with h | h
    · cases x with
      | insertCustomer row =>
        rcases Table.of_mem_insert h with h | rfl
        · exact Or.inl h
        · exact Or.inr List.mem_cons_self
      | _ => exact Or.inl h
    · exact Or.inr (List.mem_cons_of_mem _ h)

/-- A customer that a session has inserted is among those that it sees. -/
theorem World.Consistent.mem_customers_view (h : w.Consistent) {c : Customer}
    (hc : (p, .insertCustomer c) ∈ w.inflight) : c ∈ (w.view p).customers := by
  obtain ⟨row, hrow, hev⟩ := (h.fits p).row_applyAll (mem_writesOf.mpr hc)
    (List.mem_singleton_self _)
  obtain ⟨c', hc', rfl⟩ := Option.map_eq_some_iff.mp hrow
  obtain rfl : c' = c := hev
  exact (Table.find?_eq_some.mp hc').1

/-- Emails stay apart where nothing is inserted. -/
theorem World.Emails.of_subset (h : w.Emails) (hdb : w'.db = w.db)
    (hinflight : ∀ q c, (q, .insertCustomer c) ∈ w'.inflight →
      (q, .insertCustomer c) ∈ w.inflight) :
    w'.Emails := by
  refine ⟨hdb ▸ h.committed, fun q c hc => hdb ▸ h.inflight q c (hinflight q c hc), ?_⟩
  exact fun q q' c d hc hd => h.apart q q' c d (hinflight q c hc) (hinflight q' d hd)

/-- A commit keeps the emails apart: what it brings was told apart when it was inserted. -/
theorem World.Emails.commit (h : w.Emails) (p : Pid) : (w.commit p).Emails := by
  have hmem : ∀ {c}, c ∈ (w.commit p).db.customers →
      c ∈ w.db.customers ∨ (p, .insertCustomer c) ∈ w.inflight := by
    intro c hc
    exact (Database.mem_customers_applyAll hc).imp_right mem_writesOf.mp
  have hother : ∀ {q c}, (q, .insertCustomer c) ∈ (w.commit p).inflight →
      (q, .insertCustomer c) ∈ w.inflight ∧ q ≠ p := by
    intro q c hc
    rw [inflight_commit] at hc
    exact mem_inflight_release.mp hc
  refine ⟨fun c hc d hd hsame => ?_, fun q c hc d hd => ?_, fun q q' c d hc hd => ?_⟩
  · rcases hmem hc with hc | hc
    · rcases hmem hd with hd | hd
      · exact h.committed c hc d hd hsame
      · rw [Customer.sameEmail_comm, h.inflight p d hd c hc] at hsame
        cases hsame
    · rcases hmem hd with hd | hd
      · rw [h.inflight p c hc d hd] at hsame
        cases hsame
      · exact (h.apart p p c d hc hd hsame).2
  · obtain ⟨hc, hne⟩ := hother hc
    rcases hmem hd with hd | hd
    · exact h.inflight q c hc d hd
    · by_contra hsame
      exact hne (h.apart q p c d hc hd (by simpa using hsame)).1
  · exact h.apart q q' c d (hother hc).1 (hother hd).1

/-- What is done for any other statement inserts no customer. -/
theorem World.Act.emails (hact : Act p st w w')
    (hst : ∀ b name email, st ≠ .insertCustomer b name email) (h : w.Emails) : w'.Emails := by
  cases hact with
  | write x hwrites =>
    refine h.of_subset rfl fun q c hc => ?_
    rcases List.mem_append.mp hc with hc | hc
    · exact hc
    · obtain ⟨rfl, rfl⟩ := Prod.mk.inj (List.mem_singleton.mp hc)
      cases st with
      | insertCustomer b name email => exact absurd rfl (hst b name email)
      | _ => exact hwrites.elim
  | release => exact h.of_subset rfl fun q c hc => (mem_inflight_release.mp hc).1
  | commit => exact h.commit p
  | _ => exact h.of_subset rfl fun q c hc => hc

theorem World.mem_write_customer {q : Pid} {c d : Customer}
    (h : (q, .insertCustomer d) ∈ (w.write p (.insertCustomer c)).inflight) :
    (q, .insertCustomer d) ∈ w.inflight ∨ q = p ∧ d = c := by
  rcases List.mem_append.mp h with h | h
  · exact Or.inl h
  · obtain ⟨hq, hx⟩ := Prod.mk.inj (List.mem_singleton.mp h)
    exact Or.inr ⟨hq, Write.insertCustomer.inj hx⟩

/-- **A customer is inserted next to no other with its email.** -/
theorem World.Emails.insert {b : Uuid} {name email : String} {c : Customer} (h : w.Emails)
    (hcons : w.Consistent) (hinsert : w.InsertCustomerAnswer p b name email w' (.ok c)) :
    w'.Emails := by
  obtain ⟨rfl, -, hview, hwaits⟩ := hinsert
  have hnew : ∀ {q d}, (q, .insertCustomer d) ∈ w.inflight → c.sameEmail d = false := by
    intro q d hd
    by_cases hq : q = p
    · subst hq
      exact hview d (hcons.mem_customers_view hd)
    · -- the insert would have waited for the other session
      by_contra hsame
      have hmem : q ∈ w.customerWaits p c := by
        refine List.mem_map.mpr ⟨(q, .insertCustomer d), List.mem_filter.mpr ⟨hd, ?_⟩, rfl⟩
        rw [Bool.not_eq_false, Customer.sameEmail_comm] at hsame
        simp [hq, hsame]
      rw [hwaits] at hmem
      cases hmem
  refine ⟨h.committed, fun q d hd e he => ?_, fun q q' d e hd he hsame => ?_⟩
  · rcases mem_write_customer hd with hd | ⟨rfl, rfl⟩
    · exact h.inflight q d hd e he
    · exact hview e ((w.db.grows_applyAll _).customer he)
  · rcases mem_write_customer hd with hold | ⟨rfl, rfl⟩
    · rcases mem_write_customer he with hold' | ⟨rfl, rfl⟩
      · exact h.apart q q' d e hold hold' hsame
      · rw [Customer.sameEmail_comm, hnew hold] at hsame
        cases hsame
    · rcases mem_write_customer he with hold' | ⟨rfl, rfl⟩
      · rw [hnew hold'] at hsame
        cases hsame
      · exact ⟨rfl, rfl⟩

/-- **The answer to any statement keeps the emails apart**, since an insert is refused, or waits,
for one that is there. -/
theorem World.Answers.emails (hans : w.Answers p st r w') (hcons : w.Consistent) (h : w.Emails) :
    w'.Emails := by
  by_cases hst : ∃ b name email, st = .insertCustomer b name email
  · obtain ⟨b, name, email, rfl⟩ := hst
    have hinsert := answers_insertCustomer hans
    rcases r with e | c
    · obtain rfl := hinsert
      exact h.of_subset rfl fun q c hc => (mem_inflight_release.mp hc).1
    · exact h.insert hcons hinsert
  · have hother : ∀ b name email, st ≠ .insertCustomer b name email :=
      fun b name email hs => hst ⟨b, name, email, hs⟩
    have hacts := hans.acts
    clear hans
    induction hacts with
    | refl => exact h
    | tail _ hact ih => exact hact.emails hother ih

end Emails

/-! ### Runs -/

section Runs

variable {crypto : Crypto} {s t : System} {φ φ' : Pid → Phase} {e : Event} {p q : Pid}

/-- A customer that has been committed was committed by one session. -/
def World.Registered (w : World) : Prop :=
  ∀ m ∈ w.history, ∀ c, .insertCustomer c ∈ m.writes → c ∈ w.db.customers ∧
    ∀ m' ∈ w.history, .insertCustomer c ∈ m'.writes → m'.pid = m.pid

theorem World.Registered.commit {w : World} (h : w.Registered) (hcons : w.Consistent) (p : Pid) :
    (w.commit p).Registered := by
  have hgrows : ∀ {c}, c ∈ w.db.customers → c ∈ (w.commit p).db.customers :=
    fun hc => (w.db.grows_applyAll _).customer hc
  have hfresh : ∀ {c}, .insertCustomer c ∈ w.writesOf p → c ∉ w.db.customers := by
    intro c hc hmem
    have hnone := (hcons.fits p).fresh _ hc ⟨.customers, c.id⟩ (List.mem_singleton_self _)
    have hrow : w.db.row ⟨.customers, c.id⟩ = some (.customer c) :=
      congrArg (Option.map Row.customer) (Table.find?_key hmem)
    rw [hrow] at hnone
    cases hnone
  intro m hm c hc
  rcases List.mem_append.mp hm with hm | hm
  · obtain ⟨hmem, hone⟩ := h m hm c hc
    refine ⟨hgrows hmem, fun m' hm' hc' => ?_⟩
    rcases List.mem_append.mp hm' with hm' | hm'
    · exact hone m' hm' hc'
    · obtain rfl := List.mem_singleton.mp hm'
      exact absurd hmem (hfresh hc')
  · obtain rfl := List.mem_singleton.mp hm
    refine ⟨hcons.mem_customers_view (mem_writesOf.mp hc), fun m' hm' hc' => ?_⟩
    rcases List.mem_append.mp hm' with hm' | hm'
    · exact absurd (h m' hm' c hc').1 (hfresh hc)
    · exact congrArg Commit.pid (List.mem_singleton.mp hm')

/-- What is known of the customers in every state. -/
structure Registry (s : System) : Prop where
  emails : s.world.Emails
  registered : s.world.Registered

/-- The registry is kept by every step. -/
theorem Registry.move (h : s.Sound crypto φ) (hI : Registry s) (hmove : s.Moves crypto φ e t φ') :
    Registry t := by
  constructor
  · cases hmove with
    | start job => exact hI.emails
    | kill hproc =>
      exact hI.emails.of_subset rfl fun q c hc => (mem_inflight_release.mp hc).1
    | answer hproc hans hnext => exact hans.answers.emails h.consistent hI.emails
  · rcases hmove.db_or with ⟨hdb, hhistory⟩ | ⟨q, -, -, -, -, -, hw⟩
    · intro m hm c hc
      rw [hhistory] at hm
      rw [hdb, hhistory]
      exact hI.registered m hm c hc
    · rw [hw]
      exact hI.registered.commit h.consistent q

theorem System.Reachable.registry (hs : s.Reachable crypto) : Registry s := by
  have hinit : Registry .init :=
    ⟨⟨(fun c hc => absurd hc (Table.not_mem_empty c)), (fun _ _ hc => by cases hc),
      fun _ _ _ _ hc => by cases hc⟩, fun m hm => by cases hm⟩
  obtain ⟨φ, -, hI⟩ := System.Sound.reaches (I := fun u _ => Registry u) hs System.sound_init hinit
    fun _ _ _ _ _ hu hIu _ _ hmove _ => hIu.move hu hmove
  exact hI

/-! ### What clients are told -/

/-- What a request to create a customer tells of it: its session has committed the customer, or
there is one with the email. -/
def Request.TellsEmail (p : Pid) (b : Uuid) (email : String) (w : World) (x : Except Exc Result) :
    Prop :=
  (∀ y, x = .ok y → ∃ c, y = .customer c ∧ c.businessId = b ∧ c.email.text = email ∧
    ∃ m ∈ w.history, m.pid = p ∧ .insertCustomer c ∈ m.writes) ∧
  ∀ err, x = .error (.app err) →
    err = .conflict ("A customer with email '" ++ email ++ "' already exists") ∧
      ∃ c ∈ w.db.customersOf b, c.email.text = email

theorem Request.TellsEmail.later {w w' : World} {b : Uuid} {email : String} {x : Except Exc Result}
    (h : Request.TellsEmail p b email w x) (hlater : w.Later w') :
    Request.TellsEmail p b email w' x := by
  obtain ⟨hok, herr⟩ := h
  refine ⟨fun y hy => ?_, fun err hx => ?_⟩
  · obtain ⟨c, hc, hb, hemail, m, hm, hpid, hwrites⟩ := hok y hy
    exact ⟨c, hc, hb, hemail, m, hlater.history m hm, hpid, hwrites⟩
  · obtain ⟨hmessage, c, hc, hemail⟩ := herr err hx
    exact ⟨hmessage, c, hlater.db.mem_customersOf hc, hemail⟩

/-- What a job tells of the email of a customer. -/
def Job.TellsEmail (p : Pid) (job : Job) (w : World) (x : Except Exc Result) : Prop :=
  ∀ business name email, job = .request business (.createCustomer name email) →
    Request.TellsEmail p business.id email w x

/-- A request for a new customer ensures what its property says of its answer. -/
theorem ensures_email {w : World} (crypto : Crypto) (business : Business) (name email : String)
    (hwrites : w.writesOf p = []) :
    Prog.Ensures (System.among p) (Request.TellsEmail p business.id email) w
      (Job.program crypto (.request business (.createCustomer name email))) := by
  have hraise : ∀ {w e σ}, (∀ err, e ≠ .app err) → Prog.Ensures (System.among p)
      (fun w (x : Except Exc Result × Session) => Request.TellsEmail p business.id email w x.1) w
        (.ret (.error e, σ)) := by
    rintro w e σ hne w' -
    exact ⟨by rintro _ ⟨⟩, fun err herr => absurd (Except.error.inj herr) (hne err)⟩
  refine ensures_getDb (fun w w' x hlater hx => hx.later hlater) (Prog.ensures_op.mpr ?_)
  rintro w₁ (e | c) w₂ ⟨hf, -⟩ htold
  · cases e with
    | integrity text =>
      -- the customer that the insert has met is committed, since the session has written nothing
      have hview : w₁.view p = w₁.db := by rw [World.view, hf.writes, hwrites]; rfl
      obtain ⟨c, hc, hb, hemail⟩ : ∃ c ∈ w₁.db.customers, c.businessId = business.id ∧
          c.email.text = email := by
        rcases htold.answered with ⟨env, hexec⟩ | hfail
        · exact hview ▸ exec_insertCustomer_integrity hexec
        · cases hfail
      have hmem : c ∈ w₁.db.customersOf business.id := List.mem_filter.mpr ⟨hc, decide_eq_true hb⟩
      refine Prog.ensures_op.mpr fun w₃ _ w₄ hrely htold' => ?_
      rintro w₅ ⟨-, hlater⟩
      refine ⟨by rintro _ ⟨⟩, ?_⟩
      rintro _ ⟨⟩
      have hlater' := ((htold.later.trans hrely.2).trans htold'.later).trans hlater
      exact ⟨rfl, c, hlater'.db.mem_customersOf hmem, hemail⟩
    | _ => exact hraise (by rintro err ⟨⟩)
  · obtain ⟨rfl, ⟨now, hrow⟩, -, -⟩ := answers_insertCustomer htold.answers
    refine ensures_commit (writesOf_write_self (hf.writes.trans hwrites))
      fun w₃ w₄ _ _ _ hhistory => ?_
    rintro w₅ ⟨-, hlater⟩
    obtain ⟨-, hb, -, hemail⟩ := customerRow_fields hrow
    refine ⟨?_, by rintro _ ⟨⟩⟩
    rintro _ ⟨⟩
    exact ⟨c, rfl, hb, hemail, _, hlater.history _ hhistory, rfl, List.mem_singleton_self _⟩

theorem ensuring_email (crypto : Crypto) : System.Ensuring crypto Job.TellsEmail where
  later p job w w' x hlater h business name email hjob := (h business name email hjob).later hlater
  program p job w hidle := by
    cases job with
    | poll => exact Prog.ensures_of_forall fun w x => by rintro _ _ _ ⟨⟩
    | request business req =>
      cases req with
      | createCustomer name email =>
        refine (ensures_email crypto business name email hidle.writes).imp ?_
        rintro w' x hx _ _ _ ⟨⟩
        exact hx
      | _ => exact Prog.ensures_of_forall fun w x => by rintro _ _ _ ⟨⟩

/-- The session serves a request to create a customer. -/
def System.Registering (s : System) (p : Pid) (business : Business) (name email : String) : Prop :=
  ∃ proc, s.procs[p]? = some proc ∧ proc.job = .request business (.createCustomer name email)

/-- What a request for a new customer has returned is borne out. -/
theorem System.Reachable.tellsEmail (hs : s.Reachable crypto) {business : Business}
    {name email : String} {x : Except Exc Result} (h : s.Registering p business name email)
    (hret : s.returned? p = some x) :
    Request.TellsEmail p business.id email s.world x := by
  obtain ⟨⟨job, prog, alive⟩, hproc, hjob⟩ := h
  obtain rfl : prog = .ret x := (returned?_eq_some hproc).mp hret
  exact hs.ensures (ensuring_email crypto) hproc business name email hjob

end Runs

/-- **Emails are unique.** In every state the customers of a business have different emails. Of any
number of requests for one email, whatever their interleaving, at most one is answered with a
customer, and one that is refused with a domain error is refused with a conflict that names the
email, because a customer with it is there. -/
theorem emails_unique {crypto : Crypto} {s : System} (hs : s.Reachable crypto) :
    (∀ c ∈ s.world.db.customers, ∀ d ∈ s.world.db.customers,
      c.businessId = d.businessId → c.email = d.email → c = d) ∧
    (∀ p q business name name' email y y', s.Registering p business name email →
      s.Registering q business name' email → s.returned? p = some (.ok y) →
        s.returned? q = some (.ok y') → p = q) ∧
    ∀ p business name email err, s.Registering p business name email →
      s.returned? p = some (.error (.app err)) →
        err = .conflict ("A customer with email '" ++ email ++ "' already exists") ∧
          ∃ c ∈ s.world.db.customersOf business.id, c.email.text = email := by
  have hregistry := hs.registry
  have hunique : ∀ c ∈ s.world.db.customers, ∀ d ∈ s.world.db.customers,
      c.businessId = d.businessId → c.email = d.email → c = d := fun c hc d hd hb hemail =>
    hregistry.emails.committed c hc d hd (Customer.sameEmail_iff.mpr ⟨hb, hemail⟩)
  refine ⟨hunique, ?_, fun p business name email err hp hret => ?_⟩
  · intro p q business name name' email y y' hp hq hret hret'
    obtain ⟨c, -, hb, hemail, m, hm, rfl, hwrites⟩ := (hs.tellsEmail hp hret).1 y rfl
    obtain ⟨d, -, hb', hemail', m', hm', rfl, hwrites'⟩ := (hs.tellsEmail hq hret').1 y' rfl
    obtain ⟨hc, hone⟩ := hregistry.registered m hm c hwrites
    obtain ⟨hd, -⟩ := hregistry.registered m' hm' d hwrites'
    obtain rfl := hunique c hc d hd (hb.trans hb'.symm) (Varchar.ext (hemail.trans hemail'.symm))
    exact (hone m' hm' hwrites').symm
  · exact (hs.tellsEmail hp hret).2 err rfl

/-- What the driver quotes of the index that keeps emails apart. -/
def emailTaken : String :=
  "duplicate key value violates unique constraint \"uq_customers_business_email\"\nDETAIL:  Key " ++
    "(business_id, email)=(" ++ Uuid.str sampleBusiness.id ++ ", ada@example.com) already exists."

/-- Two requests create a customer with one email; the second is inserting while the first has not
committed. -/
def registeringTwice : List Event :=
  [.request (.createCustomer "Ada" "ada@example.com"),
    .request (.createCustomer "Ada L." "ada@example.com")] ++
    Event.steps 0 3 ++ [.exec 1 { errorText := emailTaken }] ++ Event.steps 1 2

/-- The request to create a customer that the process serves. -/
def Proc.registering? (proc : Proc) : Option (Business × String × String) :=
  match proc.job with
  | .request business (.createCustomer name email) => some (business, name, email)
  | _ => none

theorem Proc.registering?_eq_some {proc : Proc} {business : Business} {name email : String}
    (h : proc.registering? = some (business, name, email)) :
    proc.job = .request business (.createCustomer name email) := by
  unfold registering? at h
  split at h
  case h_1 hjob =>
    obtain ⟨rfl, htexts⟩ := Prod.mk.inj (Option.some.inj h)
    obtain ⟨rfl, rfl⟩ := Prod.mk.inj htexts
    exact hjob
  case h_2 => cases h

/-- The domain error that a route has raised. -/
def raised? : Except Exc Result → Option AppError
  | .error (.app err) => some err
  | _ => none

theorem raised?_eq_some {x : Except Exc Result} {err : AppError} (h : raised? x = some err) :
    x = .error (.app err) := by
  unfold raised? at h
  split at h
  case h_1 => rw [Option.some.inj h]
  case h_2 => cases h

/-- The second of the two is refused, for the customer of the first. -/
theorem emails_unique_registering : ∃ s err,
    run (System.step sampleCrypto) .init registeringTwice = some s ∧
    s.returned? 1 = some (.error (.app err)) ∧
      ∃ c ∈ s.world.db.customersOf sampleBusiness.id, c.email.text = "ada@example.com" := by
  have hany : (run (System.step sampleCrypto) .init registeringTwice).any (fun s =>
      (s.procs[1]?.any fun proc =>
        proc.registering? = some (sampleBusiness, "Ada L.", "ada@example.com")) &&
        (s.returned? 1).any fun x => (raised? x).isSome) = true := by decide +kernel
  obtain ⟨s, hrun, hs⟩ := (Option.any_eq_true _ _).mp hany
  obtain ⟨hcall, hraised⟩ := Bool.and_eq_true_iff.mp hs
  obtain ⟨proc, hproc, hcall⟩ := (Option.any_eq_true _ _).mp hcall
  obtain ⟨x, hret, hx⟩ := (Option.any_eq_true _ _).mp hraised
  obtain ⟨err, hx⟩ := Option.isSome_iff_exists.mp hx
  obtain rfl := raised?_eq_some hx
  obtain ⟨-, -, hconflict⟩ := emails_unique (reaches_of_run hrun)
  have hserves : s.Registering 1 sampleBusiness "Ada L." "ada@example.com" :=
    ⟨proc, hproc, Proc.registering?_eq_some (of_decide_eq_true hcall)⟩
  exact ⟨s, err, hrun, hret, (hconflict 1 _ _ _ err hserves hret).2⟩

end TenantBilling
