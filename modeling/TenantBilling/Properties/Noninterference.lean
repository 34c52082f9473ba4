import TenantBilling.Invariant.Scoped
import TenantBilling.Properties.Conditions

/-!
# What a business can see of the others

A request is run alone from two states that agree on the rows of its business, with the same
contributions of the environment. Every statement of it is about rows of the business, so the
two runs answer it alike step for step (`TenantBilling.Lockstep`), and both the response and
the rows of the business are the same afterwards.

The exception is the cache check of a payment. It looks for an attempt by the invoice and the
idempotency key before anything is known of the invoice, and what it finds is returned. So a
payment of an invoice of another business is refused unless an attempt on it has been made
under the same key, in which case the response tells of it (`TenantBilling.noninterference`,
`TenantBilling.not_noninterference`).
-/

namespace TenantBilling

open Base World

/-! ### Running alone -/

/-- The next statements of a session are executed, each with its contribution of the
environment, and nothing else happens. -/
def alone (p : Pid) : ℕ → (ℕ → Env) → List Event
  | 0, _ => []
  | n + 1, envs => .exec p (envs 0) :: alone p n fun k => envs (k + 1)

/-- A request of the business arrives and is run alone to its end, which is reached in the
state `t` and with the response. -/
def System.RunsAlone (crypto : Crypto) (s : System) (business : Business) (req : Request)
    (envs : ℕ → Env) (t : System) (response : Response) : Prop :=
  ∃ n, run (System.step crypto) s (.start (.request business req) :: alone s.procs.length n envs) =
    some t ∧ (t.returned? s.procs.length).map req.respond = some response

/-- What the cache check of a payment finds: nothing, an attempt for another card token, or the
attempt that is to be returned. -/
def Database.replay (db : Database) (invoiceId : Uuid) (idempotencyKey : String)
    (requestHash : Varchar 64) : Option (Option PaymentAttempt) :=
  (db.attemptByKey invoiceId idempotencyKey).map fun a =>
    if a.requestHash = requestHash then some a else none

/-- The request does not ask by its key for an attempt on an invoice of another business, or it
finds the same in both databases. -/
def Request.Blind (crypto : Crypto) (b : Uuid) (db db' : Database) : Request → Prop
  | pay i token key =>
    key = "" ∨ db.HasInvoice b i ∨
      db.replay i key (hashRequestBody crypto token) =
        db'.replay i key (hashRequestBody crypto token)
  | _ => True

section Runs

variable {crypto : Crypto} {s t u v : System} {φ : Pid → Phase} {p q : Pid} {env : Env}
  {business : Business} {req : Request}

theorem System.step_exec_eq_some (h : s.step crypto (.exec p env) = some t) :
    ∃ (job : Job) (st : Stmt) (k : st.Resp → ServerProg (Except Exc Result)) (r : st.Resp)
      (w : World), s.procs[p]? = some ⟨job, .op st k, true⟩ ∧ s.world.exec p env st = some (r, w) ∧
        t = ⟨w, s.procs.set p ⟨job, k r, true⟩⟩ := by
  simp only [System.step] at h
  split at h
  case h_1 job st k hproc =>
    obtain ⟨⟨r, w⟩, hexec, rfl⟩ := Option.map_eq_some_iff.mp h
    exact ⟨job, st, k, r, w, hproc, hexec, rfl⟩
  case h_2 => cases h

/-! ### Two runs in step -/

/-- The two sessions run the same request of the business and are at the same place in it, have
written the same, and the databases agree on the business. -/
structure Lockstep (crypto : Crypto) (business : Business) (req : Request) (s : System) (p : Pid)
    (u : System) (q : Pid) : Prop where
  left : s.Reachable crypto
  right : u.Reachable crypto
  proc : ∃ prog, s.procs[p]? = some ⟨.request business req, prog, true⟩ ∧
    u.procs[q]? = some ⟨.request business req, prog, true⟩
  writes : s.world.writesOf p = u.world.writesOf q
  agrees : s.world.db.Agrees business.id u.world.db
  pays : ∀ i token key, req = .pay i token key → s.world.db.HasInvoice business.id i

theorem System.Reachable.step {e : Event} (h : s.Reachable crypto)
    (hstep : s.step crypto e = some t) : t.Reachable crypto :=
  h.tail ⟨e, trivial, hstep⟩

theorem System.Sound.keyed_view (h : s.Sound crypto φ) (p : Pid) : (s.world.view p).Keyed :=
  h.unique_view PaymentAttempt.sameKey_comm (fun _ _ _ hbc hac => hbc.sameKey.symm.trans hac) h.keys
    fun _ _ hres => hres.noSameKey

/-- **The two runs stay in step.** -/
theorem Lockstep.step (h : Lockstep crypto business req s p u q)
    (hs : s.step crypto (.exec p env) = some t) (hu : u.step crypto (.exec q env) = some v) :
    Lockstep crypto business req t p v q := by
  obtain ⟨prog, hproc, hproc'⟩ := h.proc
  obtain ⟨job, st, k, r, w, hp, hexec, rfl⟩ := System.step_exec_eq_some hs
  obtain ⟨rfl, rfl, -⟩ := Proc.mk.inj (Option.some.inj (hproc.symm.trans hp))
  obtain ⟨job', st', k', r', w', hq, hexec', rfl⟩ := System.step_exec_eq_some hu
  cases hproc'.symm.trans hq
  obtain ⟨φ, hsound, howned⟩ := h.left.owned
  obtain ⟨ψ, hsound', howned'⟩ := h.right.owned
  -- what the two sessions see agrees on the business, so the statement is answered alike
  have hfits' := hsound'.consistent.fits q
  have hadmits' := howned'.admits hsound' hproc' rfl
  rw [← h.writes] at hfits' hadmits'
  have hviews : (s.world.view p).Agrees business.id (u.world.view q) := by
    rw [World.view, World.view, ← h.writes]
    exact h.agrees.applyAll howned.linked howned'.linked (hsound.consistent.fits p) hfits'
      (howned.admits hsound hproc rfl) hadmits'
  have hscoped := howned.scoped hsound hproc h.pays
  obtain ⟨rfl, hwrites⟩ := exec_alike h.writes hviews (hsound.keyed_view p) (hsound'.keyed_view q)
    hscoped r w r' w' hexec hexec'
  have hagrees : w.db.Agrees business.id w'.db := by
    by_cases hst : st = .commit
    · subst hst
      rw [answers_commit (.exec env hexec), answers_commit (.exec env hexec')]
      exact hviews
    · rw [World.Effect.db (Answers.effect (.exec env hexec)) hst,
        World.Effect.db (Answers.effect (.exec env hexec')) hst]
      exact h.agrees
  have hgrows : s.world.db.Grows w.db := by
    obtain ⟨φ', hmove⟩ := System.moves_of_step hsound.tracks hs
    exact hsound.grows hmove
  exact
    { left := h.left.step hs
      right := h.right.step hu
      proc := ⟨k r, System.getElem?_replace_self hproc, System.getElem?_replace_self hproc'⟩
      writes := hwrites
      agrees := hagrees
      pays := fun i token key heq => (h.pays i token key heq).grows hgrows }

theorem returned?_eq_some {x : Except Exc Result} {job : Job}
    {prog : ServerProg (Except Exc Result)}
    {alive : Bool} (hproc : s.procs[p]? = some ⟨job, prog, alive⟩) :
    s.returned? p = some x ↔ prog = .ret x := by
  cases prog <;> simp [System.returned?, hproc]

/-- A program that has returned does not go on. -/
theorem not_step_of_returned {x : Except Exc Result} (h : s.returned? p = some x) :
    s.step crypto (.exec p env) = none := by
  cases hstep : s.step crypto (.exec p env) with
  | none => rfl
  | some t =>
    obtain ⟨job, st, k, r, w, hproc, -⟩ := System.step_exec_eq_some hstep
    cases (returned?_eq_some hproc).mp h

theorem Lockstep.returned? (h : Lockstep crypto business req s p u q) :
    s.returned? p = u.returned? q := by
  obtain ⟨prog, hproc, hproc'⟩ := h.proc
  exact Option.ext fun x => by rw [returned?_eq_some hproc, returned?_eq_some hproc']

/-- Two runs in step end in step. -/
theorem Lockstep.run {n m : ℕ} {envs : ℕ → Env} {x y : Except Exc Result}
    (h : Lockstep crypto business req s p u q)
    (hs : Base.run (System.step crypto) s (alone p n envs) = some t) (hx : t.returned? p = some x)
    (hu : Base.run (System.step crypto) u (alone q m envs) = some v) (hy : v.returned? q = some y) :
    Lockstep crypto business req t p v q := by
  induction n generalizing s u m envs with
  | zero =>
    obtain rfl := Option.some.inj hs
    cases m with
    | zero =>
      obtain rfl := Option.some.inj hu
      exact h
    | succ m =>
      rw [alone, Base.run, not_step_of_returned (h.returned?.symm.trans hx)] at hu
      cases hu
  | succ n ih =>
    obtain ⟨s', hs', hs⟩ := Option.bind_eq_some_iff.mp hs
    cases m with
    | zero =>
      obtain rfl := Option.some.inj hu
      rw [not_step_of_returned (h.returned?.trans hy)] at hs'
      cases hs'
    | succ m =>
      obtain ⟨u', hu', hu⟩ := Option.bind_eq_some_iff.mp hu
      exact ih (h.step hs' hu') hs hu

/-- The two runs begin in step. -/
theorem Lockstep.start (hs : s.Reachable crypto) (hu : u.Reachable crypto)
    (hagrees : s.world.db.Agrees business.id u.world.db)
    (hpay : ∀ i token key, req = .pay i token key → s.world.db.HasInvoice business.id i)
    (hs' : s.step crypto (.start (.request business req)) = some t)
    (hu' : u.step crypto (.start (.request business req)) = some v) :
    Lockstep crypto business req t s.procs.length v u.procs.length := by
  have hnone : ∀ {s : System}, s.Reachable crypto → s.world.writesOf s.procs.length = [] := by
    intro s hs
    obtain ⟨φ, hsound⟩ := hs.sound
    refine (hsound.idle _ ?_).writes
    rintro ⟨proc, hproc, -⟩
    exact absurd (List.getElem?_eq_some_iff.mp hproc).1 (Nat.lt_irrefl _)
  have hleft := hs.step hs'
  have hright := hu.step hu'
  obtain rfl := Option.some.inj hs'
  obtain rfl := Option.some.inj hu'
  exact ⟨hleft, hright, ⟨_, List.getElem?_concat_length, List.getElem?_concat_length⟩,
    (hnone hs).trans (hnone hu).symm, hagrees, hpay⟩

/-! ### Payments of other businesses' invoices -/

/-- What a payment returns whose invoice is not one of its business, by what its cache check
finds. -/
def PayCall.foreignResult (c : PayCall) (found : Option (Option PaymentAttempt)) :
    Except Exc Result :=
  if c.idempotencyKey = "" then .error (.http 422 "Idempotency-Key header is required")
  else match found with
    | none => .error (.app (.notFound ("Invoice " ++ Uuid.str c.invoiceId ++ " not found") none))
    | some none => .error (.app .idempotencyConflict)
    | some (some a) => .ok (.attempt a true)

/-- The places such a payment can be at. -/
def PayPoint.Foreign (c : PayCall) (found : Option (Option PaymentAttempt)) : PayPoint → Prop
  | lookup => c.idempotencyKey ≠ ""
  | lock => c.idempotencyKey ≠ "" ∧ found = none
  | closing x _ | done x _ => x = c.foreignResult found
  | _ => False

variable {c : PayCall} {pt : PayPoint} {found : Option (Option PaymentAttempt)}

theorem PayPoint.foreign_start (c : PayCall) (found : Option (Option PaymentAttempt)) :
    (PayPoint.start c).Foreign c found := by
  unfold PayPoint.start
  split
  case isTrue hkey => exact (if_pos hkey).symm
  case isFalse hkey => exact hkey

/-- A payment of an invoice that is not one of its business changes nothing, and goes by nothing
but the cache check. -/
theorem PayPoint.Foreign.step (hforeign : pt.Foreign c found) (h : s.Sound crypto φ)
    (hph : φ p = .pay c pt) (hinvoice : ¬s.world.db.HasInvoice c.business.id c.invoiceId)
    (hfound : s.world.db.replay c.invoiceId c.idempotencyKey (c.requestHash crypto) = found)
    (hstep : s.step crypto (.exec p env) = some t) :
    t.world.db = s.world.db ∧
      ∃ φ' pt', t.Sound crypto φ' ∧ φ' p = .pay c pt' ∧ pt'.Foreign c found := by
  obtain ⟨φ', hmove⟩ := System.moves_of_step h.tracks hstep
  have hsound := h.move hmove
  cases hmove with
  | @answer _ _ job st r w k ph hproc hans hnext =>
    have hholds := h.alive _ ⟨_, hproc, rfl⟩
    cases hans with
    | exec _ hexec =>
    have hans := Answers.exec env hexec
    rw [hph] at hnext hholds
    cases hnext with
    | @pay _ _ _ next hout _ =>
      refine ⟨?_, _, next r, hsound, Function.update_self .., ?_⟩
      · refine World.Effect.db hans.effect ?_
        rintro rfl
        cases pt <;> first | exact hforeign.elim | cases hout
      cases pt with
      | lookup =>
        cases hout
        obtain ⟨⟨env', hr⟩, -⟩ := answers_select hans
        rw [World.Idle.view hholds] at hr
        have hr : r = s.world.db.attemptByKey c.invoiceId c.idempotencyKey := hr
        rw [Database.replay, ← hr] at hfound
        -- the cache check is by invoice and key, so it finds attempts of others too
        rcases r with _ | a
        · exact ⟨hforeign, hfound.symm⟩
        · have hfound : some (if a.requestHash = c.requestHash crypto then some a else none) =
            found := hfound
          dsimp only
          split
          case isTrue hne =>
            rw [if_neg hne] at hfound
            change _ = c.foreignResult found
            rw [← hfound, PayCall.foreignResult, if_neg hforeign]
          case isFalse heq =>
            rw [if_pos (not_not.mp heq)] at hfound
            change _ = c.foreignResult found
            rw [← hfound, PayCall.foreignResult, if_neg hforeign]
      | lock =>
        cases hout
        obtain ⟨hkey, rfl⟩ := hforeign
        have hlock := answers_lockInvoice hans
        obtain ⟨x, rfl⟩ := exec_lockInvoice hexec
        cases x with
        | none =>
          change _ = c.foreignResult none
          rw [PayCall.foreignResult, if_neg hkey]
        | some x =>
          obtain ⟨-, -, hfind, hb⟩ := hlock
          rw [World.Idle.view hholds] at hfind
          -- the lock is by business, so the invoice is not found
          exact absurd ⟨x, hfind, by simpa [Invoice.belongsTo] using hb⟩ hinvoice
      | closing x g =>
        cases hout
        exact hforeign
      | done x g => cases hout
      | _ => exact hforeign.elim

theorem PayPoint.Foreign.run {n : ℕ} {envs : ℕ → Env} {x : Except Exc Result}
    (hforeign : pt.Foreign c found) (h : s.Sound crypto φ)
    (hph : φ p = .pay c pt) (hinvoice : ¬s.world.db.HasInvoice c.business.id c.invoiceId)
    (hfound : s.world.db.replay c.invoiceId c.idempotencyKey (c.requestHash crypto) = found)
    (hrun : Base.run (System.step crypto) s (alone p n envs) = some t)
    (hx : t.returned? p = some x) :
    t.world.db = s.world.db ∧ x = c.foreignResult found := by
  induction n generalizing s φ pt envs with
  | zero =>
    obtain rfl := Option.some.inj hrun
    obtain ⟨g, rfl⟩ := h.done_of_returned hx hph
    exact ⟨rfl, hforeign⟩
  | succ n ih =>
    obtain ⟨s', hs', hrun⟩ := Option.bind_eq_some_iff.mp hrun
    obtain ⟨hdb, φ', pt', h', hph', hforeign'⟩ := hforeign.step h hph hinvoice hfound hs'
    rw [← hdb] at hinvoice hfound ⊢
    exact ih hforeign' h' hph' hinvoice hfound hrun

/-- **A payment of an invoice of another business, run alone**, changes nothing and returns what
its cache check finds. -/
theorem System.RunsAlone.foreign {i : Uuid} {token key : String} {envs : ℕ → Env}
    {response : Response} (h : s.RunsAlone crypto business (.pay i token key) envs t response)
    (hreach : s.Reachable crypto)
    (hinvoice : ¬s.world.db.HasInvoice business.id i) :
    t.world.db = s.world.db ∧ response = (Request.pay i token key).respond
      (PayCall.foreignResult ⟨business, i, token, key⟩
        (s.world.db.replay i key (hashRequestBody crypto token))) := by
  obtain ⟨n, hrun, hresponse⟩ := h
  obtain ⟨x, hx, rfl⟩ := Option.map_eq_some_iff.mp hresponse
  obtain ⟨s', hs', hrun⟩ := Option.bind_eq_some_iff.mp hrun
  obtain rfl := Option.some.inj hs'
  obtain ⟨φ, hsound⟩ := hreach.sound
  obtain ⟨hdb, rfl⟩ := PayPoint.Foreign.run (c := ⟨business, i, token, key⟩)
    (PayPoint.foreign_start _ _) (hsound.start _) (Function.update_self ..) hinvoice rfl hrun hx
  exact ⟨hdb, rfl⟩

/-! ### What the responses tell -/

theorem PaymentStatus.value_injective : Function.Injective PaymentStatus.value := by
  intro x y h
  cases x <;> cases y <;> first | rfl | exact absurd h (by decide)

/-- An attempt is known by what a response shows of it, and the hash of its request. -/
theorem PaymentAttempt.read_injective {a a' : PaymentAttempt} (h : a.read = a'.read)
    (hhash : a.requestHash = a'.requestHash) : a = a' := by
  have htext : ∀ n, Function.Injective fun x : Varchar n => x.text := fun _ _ _ => Varchar.ext
  have hval : Function.Injective fun z : BigInt => z.val := by
    intro x y hxy
    cases x
    cases y
    congr
  simp only [PaymentAttempt.read, PaymentAttemptRead.mk.injEq] at h
  obtain ⟨hid, hinvoice, hstatus, hamount, htoken, hpsp, hcode, hkey, hcreated, hupdated⟩ := h
  have hstatus := PaymentStatus.value_injective hstatus
  have hamount := hval hamount
  have htoken := htext _ htoken
  have hpsp := Option.map_injective (htext _) hpsp
  have hcode := Option.map_injective (htext _) hcode
  have hkey := htext _ hkey
  cases a
  cases a'
  congr

theorem Database.requestHash_of_replay {db : Database} {i : Uuid} {key : String} {hash : Varchar 64}
    {a : PaymentAttempt} (h : db.replay i key hash = some (some a)) : a.requestHash = hash := by
  obtain ⟨a', -, ha'⟩ := Option.map_eq_some_iff.mp h
  split at ha'
  case isTrue hhash =>
    obtain rfl := Option.some.inj ha'
    exact hhash
  case isFalse => cases ha'

/-- The response tells what the cache check has found. -/
theorem PayCall.foreignResult_injective {found found' : Option (Option PaymentAttempt)} {i : Uuid}
    {token key : String} {hash : Varchar 64} (hkey : key ≠ "")
    (hhash : ∀ a, found = some (some a) → a.requestHash = hash)
    (hhash' : ∀ a, found' = some (some a) → a.requestHash = hash)
    (h : (Request.pay i token key).respond (PayCall.foreignResult ⟨business, i, token, key⟩ found) =
      (Request.pay i token key).respond (PayCall.foreignResult ⟨business, i, token, key⟩ found')) :
    found = found' := by
  simp only [PayCall.foreignResult, if_neg hkey] at h
  rcases found with _ | _ | a
  · rcases found' with _ | _ | a'
    · rfl
    · exact absurd (show 404 = 409 from congrArg Response.status h) (by decide)
    · cases show _ = _ from congrArg Response.body h
  · rcases found' with _ | _ | a'
    · exact absurd (show 409 = 404 from congrArg Response.status h) (by decide)
    · rfl
    · cases show _ = _ from congrArg Response.body h
  · rcases found' with _ | _ | a'
    · cases show _ = _ from congrArg Response.body h
    · cases show _ = _ from congrArg Response.body h
    · have hread : a.read = a'.read := Body.attempt.inj (congrArg Response.body h)
      rw [PaymentAttempt.read_injective hread ((hhash a rfl).trans (hhash' a' rfl).symm)]

/-- **Noninterference, and where it ends.** A request run alone from two states that agree on the
rows of its business, with the same contributions of the environment, gets the same response and
leaves the same rows of the business, if and only if it does not find, by its idempotency key,
different attempts on an invoice of another business. -/
theorem noninterference {envs : ℕ → Env} {response response' : Response}
    (hs : s.Reachable crypto) (hu : u.Reachable crypto)
    (hagrees : s.world.db.Agrees business.id u.world.db)
    (hleft : s.RunsAlone crypto business req envs t response)
    (hright : u.RunsAlone crypto business req envs v response') :
    (response = response' ∧ t.world.db.Agrees business.id v.world.db) ↔
      req.Blind crypto business.id s.world.db u.world.db := by
  by_cases hpay : ∀ i token key, req = .pay i token key → s.world.db.HasInvoice business.id i
  · have hblind : req.Blind crypto business.id s.world.db u.world.db := by
      cases req with
      | pay i token key => exact Or.inr (Or.inl (hpay i token key rfl))
      | _ => trivial
    refine iff_of_true ?_ hblind
    obtain ⟨n, hrun, hresponse⟩ := hleft
    obtain ⟨m, hrun', hresponse'⟩ := hright
    obtain ⟨x, hx, rfl⟩ := Option.map_eq_some_iff.mp hresponse
    obtain ⟨y, hy, rfl⟩ := Option.map_eq_some_iff.mp hresponse'
    obtain ⟨s', hs', hrun⟩ := Option.bind_eq_some_iff.mp hrun
    obtain ⟨u', hu', hrun'⟩ := Option.bind_eq_some_iff.mp hrun'
    have hend := (Lockstep.start hs hu hagrees hpay hs' hu').run hrun hx hrun' hy
    have hxy : x = y := Option.some.inj (hx.symm.trans (hend.returned?.trans hy))
    exact ⟨by rw [hxy], hend.agrees⟩
  · push Not at hpay
    obtain ⟨i, token, key, rfl, hinvoice⟩ := hpay
    obtain ⟨hdb, rfl⟩ := hleft.foreign hs hinvoice
    obtain ⟨hdb', rfl⟩ := hright.foreign hu fun hi => hinvoice (hagrees.hasInvoice.mpr hi)
    rw [hdb, hdb', and_iff_left hagrees]
    constructor
    · intro hresponse
      by_cases hkey : key = ""
      · exact Or.inl hkey
      · exact Or.inr (Or.inr (PayCall.foreignResult_injective hkey
          (fun a => Database.requestHash_of_replay)
            (fun a => Database.requestHash_of_replay) hresponse))
    · rintro (hkey | hi | hfound)
      · simp only [PayCall.foreignResult, if_pos hkey]
      · exact absurd hi hinvoice
      · rw [hfound]

end Runs

/-! ### Two businesses -/

section Sample

/-- No customer, invoice or endpoint is of the business. -/
def Database.Unknown (db : Database) (b : Uuid) : Prop :=
  (∀ c ∈ db.customers.rows, c.businessId ≠ b) ∧ (∀ v ∈ db.invoices.rows, v.businessId ≠ b) ∧
    ∀ e ∈ db.endpoints.rows, e.businessId ≠ b

instance (db : Database) (b : Uuid) : Decidable (db.Unknown b) :=
  inferInstanceAs (Decidable (_ ∧ _ ∧ _))

/-- A business that is not known has no rows. -/
theorem Database.Unknown.not_hasRow {db : Database} {b : Uuid} (h : db.Unknown b) (row : Row) :
    ¬db.HasRow b row := by
  obtain ⟨hcustomer, hinvoice, hendpoint⟩ := h
  have hnone : ∀ i, ¬db.HasInvoice b i := by
    rintro i ⟨v, hv, hb⟩
    exact hinvoice v (Table.find?_eq_some.mp hv).1 hb
  intro hrow
  cases row with
  | customer c => exact hcustomer c (Database.hasRow_customer.mp hrow).1 hrow.2
  | invoice v => exact hinvoice v (Database.hasRow_invoice.mp hrow).1 hrow.2
  | lineItem li => exact hnone _ hrow.2
  | attempt a => exact hnone _ hrow.2
  | endpoint e => exact hendpoint e (Database.hasRow_endpoint.mp hrow).1 hrow.2
  | delivery d =>
    obtain ⟨e, he, hb⟩ := hrow.2
    exact hendpoint e (Table.find?_eq_some.mp he).1 hb

theorem Database.Unknown.agrees {db db' : Database} {b : Uuid} (h : db.Unknown b)
    (h' : db'.Unknown b) : db.Agrees b db' := fun row =>
  iff_of_false (h.not_hasRow row) (h'.not_hasRow row)

/-- One business has finalized its invoice, and a payment of it is in progress. -/
def attempting : System :=
  (run (System.step sampleCrypto) .init (drafting ++ [.request (.finalize 0)] ++ Event.steps 2 5 ++
    [.request (.pay 0 "tok_visa" "k1")] ++ Event.steps 3 4)).get (by decide +kernel)

theorem attempting_reachable : attempting.Reachable sampleCrypto :=
  reaches_of_run (Option.some_get _).symm

/-- Another business. -/
def strangerBusiness : Business := ⟨2⟩

theorem attempting_agrees :
    attempting.world.db.Agrees strangerBusiness.id System.init.world.db :=
  Database.Unknown.agrees (by decide +kernel) (by decide +kernel)

/-- Its request is run alone, with the statements it takes. -/
def strangersRun (s : System) (req : Request) (n : ℕ) : Option System :=
  run (System.step sampleCrypto) s (.start (.request strangerBusiness req) ::
    alone s.procs.length n fun _ => { ids := fun k => k + 7 })

/-- The other business creates a customer, with and without the rows of the first. -/
theorem noninterference_creating :
    (⟨201, .customer ⟨7, "Bob", "bob@example.com", 0, 0⟩⟩ =
        (⟨201, .customer ⟨7, "Bob", "bob@example.com", 0, 0⟩⟩ : Response) ∧
      ((strangersRun attempting (.createCustomer "Bob" "bob@example.com") 3).get
          (by decide +kernel)).world.db.Agrees strangerBusiness.id
        ((strangersRun .init (.createCustomer "Bob" "bob@example.com") 3).get
          (by decide +kernel)).world.db) ↔
      Request.Blind sampleCrypto strangerBusiness.id attempting.world.db System.init.world.db
        (.createCustomer "Bob" "bob@example.com") :=
  noninterference attempting_reachable Relation.ReflTransGen.refl attempting_agrees
    ⟨3, (Option.some_get _).symm, by decide +kernel⟩
      ⟨3, (Option.some_get _).symm, by decide +kernel⟩

/-- The other business pays an invoice that is not its own, under the key of the payment in
progress, and is told of it. -/
theorem not_noninterference :
    ¬∀ (business : Business) (req : Request) (envs : ℕ → Env) (s t u v : System)
      (response response' : Response), s.Reachable sampleCrypto → u.Reachable sampleCrypto →
      s.world.db.Agrees business.id u.world.db →
      s.RunsAlone sampleCrypto business req envs t response →
      u.RunsAlone sampleCrypto business req envs v response' →
      response = response' ∧ t.world.db.Agrees business.id v.world.db := by
  intro h
  have hresponse := h strangerBusiness (.pay 0 "tok_visa" "k1") (fun _ => { ids := fun k => k + 7 })
    attempting ((strangersRun attempting (.pay 0 "tok_visa" "k1") 2).get (by decide +kernel))
    .init ((strangersRun .init (.pay 0 "tok_visa" "k1") 3).get (by decide +kernel))
    ⟨202, .attempt ⟨0, 0, "pending", 500, "tok_visa", none, none, "k1", 0, 0⟩⟩
    ⟨404, .detail "Invoice not found"⟩
    attempting_reachable Relation.ReflTransGen.refl attempting_agrees
    ⟨2, (Option.some_get _).symm, by decide +kernel⟩
      ⟨3, (Option.some_get _).symm, by decide +kernel⟩
  exact absurd (congrArg Response.status hresponse.1) (by decide)

end Sample

end TenantBilling
