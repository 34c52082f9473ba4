import TenantBilling.Invariant.Sound

/-!
# What the commits do

The committed rows change by commits only, and a commit of invoices or attempts is one of
five (`TenantBilling.Commits`): a payment reserves its attempt, settles it as a success
or otherwise, a transition changes the state of its invoice, or another program inserts
drafts. Every statement about the committed states of invoices and attempts is proved
along these five.
-/

namespace TenantBilling

open Base World

namespace Database

/-- The committed state of an invoice. -/
def stateOf (db : Database) (i : Uuid) : Option InvoiceState :=
  (db.invoices.find? i).map Invoice.state

/-- A charge of the invoice has been recorded as successful. -/
def Charged (db : Database) (i : Uuid) : Prop :=
  ∃ a ∈ db.attempts, a.invoiceId = i ∧ a.status = .succeeded

instance (db : Database) (i : Uuid) : Decidable (db.Charged i) :=
  decidable_of_iff (∃ a ∈ db.attempts.rows, a.invoiceId = i ∧ a.status = .succeeded) Iff.rfl

variable {db : Database}

theorem stateOf_ne_none {i : Uuid} : db.stateOf i ≠ none ↔ db.invoices.find? i ≠ none := by
  simp [stateOf]

theorem stateOf_updateInvoice (db : Database) (i : Uuid) (state : InvoiceState) (now : Timestamp)
    (j : Uuid) : (db.apply (.updateInvoice i state now)).stateOf j =
      if j = i then (db.stateOf i).map fun _ => state else db.stateOf j := by
  unfold stateOf
  rw [find?_apply_updateInvoice]
  split
  · simp only [Option.map_map]
    rfl
  · rfl

/-- Of the invoices another program changes only the set: it inserts drafts. -/
theorem stateOf_peripheral {x : Write} (hx : x.Peripheral) (i : Uuid) :
    (db.apply x).stateOf i = db.stateOf i ∨
      db.stateOf i = none ∧ (db.apply x).stateOf i = some .draft := by
  cases x with
  | insertAttempt row => exact hx.elim
  | updateInvoice j state now => exact hx.elim
  | updateAttempt j update now => exact hx.elim
  | insertInvoice row =>
    unfold stateOf
    change (Option.map _ ((db.invoices.insert row).find? i) = _) ∨
      _ ∧ Option.map _ ((db.invoices.insert row).find? i) = _
    by_cases hrow : row.id = i
    · cases hfind : db.invoices.find? i with
      | some v => rw [Table.find?_insert_of_some hfind]; exact Or.inl rfl
      | none =>
        subst hrow
        have hmem : row ∈ db.invoices.insert row :=
          (Table.mem_insert (Table.free_iff.mpr hfind)).mpr (Or.inr rfl)
        rw [Table.find?_key hmem]
        exact Or.inr ⟨rfl, congrArg some hx⟩
    · rw [Table.find?_insert_of_ne hrow]
      exact Or.inl rfl
  | _ => exact Or.inl rfl

theorem stateOf_peripherals {ws : List Write} (hws : ∀ x ∈ ws, x.Peripheral) (i : Uuid) :
    (db.applyAll ws).stateOf i = db.stateOf i ∨
      db.stateOf i = none ∧ (db.applyAll ws).stateOf i = some .draft := by
  induction ws generalizing db with
  | nil => exact Or.inl rfl
  | cons x ws ih =>
    have hrest := @ih (db.apply x) fun y hy => hws y (List.mem_cons_of_mem _ hy)
    rcases @stateOf_peripheral db x (hws x List.mem_cons_self) i with hx | ⟨hnone, hx⟩
    · rw [hx] at hrest
      exact hrest
    · rw [hx] at hrest
      rcases hrest with hrest | ⟨hrest, -⟩
      · exact Or.inr ⟨hnone, hrest⟩
      · cases hrest

/-- The outbox rows of a payment are no invoices. -/
theorem stateOf_outbox {c : PayCall} {a : PaymentAttempt}
    {outcome : Except PspError PspChargeResult}
    {endpoints : List WebhookEndpoint} {rest : List Write} (h : c.Outbox a outcome endpoints rest)
    (i : Uuid) : (db.applyAll rest).stateOf i = db.stateOf i := by
  rcases h with ⟨-, rfl⟩ | ⟨-, result, now, env, -, rfl⟩
  · rfl
  · rfl

end Database

/-! ### The five commits -/

section Commits

variable (crypto : Crypto) (w : World) (p : Pid) (db' : Database)

/-- **What a commit of a session makes of the invoices and attempts**, by its phases before
and after. -/
inductive Commits : Phase → Phase → Prop where
  | reserve {c : PayCall} {v : Invoice} {a : PaymentAttempt}
    (hholds : (PayPoint.reserve v a).Holds crypto w p c)
    (hattempts : db'.attempts = w.db.attempts.insert a)
    (hstate : ∀ i, db'.stateOf i = w.db.stateOf i) :
    Commits (.pay c (.reserve v a)) (.pay c (.send v a))
  | paid {c : PayCall} {a : PaymentAttempt} {http : HttpResult} {result : PspChargeResult}
    {endpoints : List WebhookEndpoint} {update : AttemptUpdate} {now now' : Timestamp}
    {rest : List Write}
    (hgood : (Progress.answered a http).Holds crypto w p c)
    (houtcome : chargeOutcome http = some (.ok result)) (hresult : result.Succeeded)
    (hbind : (succeededChange result).bind = .ok update)
    (hrest : c.Outbox a (.ok result) endpoints rest)
    (htx : w.HasTx p [c.invoiceRef, a.ref]
      ([.updateAttempt a.id update now, .updateInvoice c.invoiceId .paid now'] ++ rest))
    (hattempts : db'.attempts =
      w.db.attempts.update a.id (·.update update now) (·.update_id update now))
    (hstate : ∀ i, db'.stateOf i = if i = c.invoiceId then some .paid else w.db.stateOf i) :
    Commits (.pay c (.settle a http (.ok result) endpoints)) (.pay c (.refresh a http))
  | unpaid {c : PayCall} {a : PaymentAttempt} {http : HttpResult}
    {outcome : Except PspError PspChargeResult} {endpoints : List WebhookEndpoint}
    {update : AttemptUpdate} {now : Timestamp} {rest : List Write}
    (hgood : (Progress.answered a http).Holds crypto w p c)
    (houtcome : chargeOutcome http = some outcome) (hpays : ¬Pays outcome)
    (hbind : (outcomeChange outcome).bind = .ok update)
    (hrest : c.Outbox a outcome endpoints rest)
    (htx : w.HasTx p [a.ref] ([.updateAttempt a.id update now] ++ rest))
    (hattempts : db'.attempts =
      w.db.attempts.update a.id (·.update update now) (·.update_id update now))
    (hstate : ∀ i, db'.stateOf i = w.db.stateOf i) :
    Commits (.pay c (.settle a http outcome endpoints)) (.pay c (.refresh a http))
  | transition {c : TransitionCall} {v : Invoice} {x : Invoice × List InvoiceLineItem}
    {now : Timestamp} (hchecked : c.Checked w v)
    (htx : w.HasTx p [⟨.invoices, c.invoiceId⟩] [.updateInvoice c.invoiceId c.target now])
    (hattempts : db'.attempts = w.db.attempts)
    (hstate : ∀ i, db'.stateOf i = if i = c.invoiceId then some c.target else w.db.stateOf i) :
    Commits (.transition c (.commit v x)) (.transition c (.closing (.ok (.invoice x))))
  | other (hwrites : ∀ x ∈ w.writesOf p, x.Peripheral)
    (hattempts : db'.attempts = w.db.attempts)
    (hstate : ∀ i, db'.stateOf i = w.db.stateOf i ∨
      w.db.stateOf i = none ∧ db'.stateOf i = some .draft) :
    Commits .other .other

variable {crypto w p}

/-- **Every commit is one of the five.** -/
theorem Phase.Next.commits {ph ph' : Phase} {r : Stmt.commit.Resp}
    (hnext : ph.Next crypto .commit r ph') (hholds : ph.Holds crypto w p)
    (hgood : ph.HoldsForGood crypto w p)
    (hexist : ∀ a ∈ w.db.attempts, w.db.invoices.find? a.invoiceId ≠ none) :
    Commits crypto w p (w.view p) ph ph' := by
  cases hnext with
  | other hst r =>
    refine .other hholds.writes ?_ fun i => ?_
    · exact applyAll_attempts_of_peripheral hholds.writes
    · exact Database.stateOf_peripherals hholds.writes i
  | @transition c pt _ _ hout r =>
    cases pt with
    | commit v x =>
      cases hout
      obtain ⟨hchecked, now, htx⟩ := hholds
      refine .transition hchecked htx ?_ fun i => ?_
      · rw [htx.view]
        rfl
      · rw [htx.view]
        refine (Database.stateOf_updateInvoice w.db c.invoiceId c.target now i).trans ?_
        -- the row of the invoice is there, or there is no state to change
        split
        case isTrue =>
          obtain ⟨v', hv'⟩ := Option.ne_none_iff_exists'.mp hchecked.exist
          rw [Database.stateOf, hv']
          rfl
        case isFalse => rfl
    | _ => cases hout
  | @pay c pt _ _ hout r =>
    cases pt with
    | reserve v a =>
      cases hout
      have htx := hholds.1
      refine .reserve hholds ?_ fun i => ?_
      · rw [htx.view]
        rfl
      · rw [htx.view]
        rfl
    | settle a http outcome endpoints =>
      cases hout
      obtain ⟨rest, hrest, houtcome, update, now, hbind, hcase⟩ := hholds
      obtain ⟨hcharges, hmade, hfind⟩ := hgood
      -- the outcome pays, with an UPDATE of the invoice, or it does not
      rcases hcase with ⟨hpays, now', htx⟩ | ⟨hpays, htx⟩
      · cases outcome with
        | error e => exact hpays.elim
        | ok result =>
          rw [outcomeChange, if_pos (show result.Succeeded from hpays)] at hbind
          refine .paid ⟨hcharges, hmade, hfind⟩ houtcome hpays hbind hrest htx ?_ fun i => ?_
          · rw [htx.view]
            exact applyAll_attempts_of_peripheral hrest.peripheral
          · rw [htx.view, Database.applyAll, List.foldl_append]
            refine (Database.stateOf_outbox hrest i).trans ?_
            refine (Database.stateOf_updateInvoice _ c.invoiceId .paid now' i).trans ?_
            split
            case isTrue =>
              have hex := hexist a (Table.find?_eq_some.mp hfind).1
              rw [hmade.invoiceId] at hex
              obtain ⟨v', hv'⟩ := Option.ne_none_iff_exists'.mp hex
              change Option.map _ (w.db.stateOf c.invoiceId) = _
              rw [Database.stateOf, hv']
              rfl
            case isFalse => rfl
      · refine .unpaid ⟨hcharges, hmade, hfind⟩ houtcome hpays hbind hrest htx ?_ fun i => ?_
        · rw [htx.view]
          exact applyAll_attempts_of_peripheral hrest.peripheral
        · rw [htx.view, Database.applyAll, List.foldl_append]
          exact Database.stateOf_outbox hrest i
    | _ => cases hout

/-- A commit makes an attempt a committed one only by inserting it. -/
theorem Commits.committed? {db' : Database} {ph ph' : Phase} (h : Commits crypto w p db' ph ph') :
    ph'.committed? = ph.committed? ∨
      ∃ a, w.writesOf p = [.insertAttempt a] ∧ ph.committed? = none ∧ ph'.committed? = some a := by
  cases h with
  | reserve hholds _ _ => exact Or.inr ⟨_, hholds.1.writes, rfl, rfl⟩
  | paid => exact Or.inl rfl
  | unpaid => exact Or.inl rfl
  | transition => exact Or.inl rfl
  | other => exact Or.inl rfl

end Commits

/-! ### The charges they record -/

section Charged

variable {crypto : Crypto} {w : World} {p : Pid} {a : PaymentAttempt} {db' : Database}

/-- An attempt that is inserted as pending is no successful charge. -/
theorem charged_insert {db db' : Database} (hpending : a.status = .pending)
    (h : db'.attempts = db.attempts.insert a) (i : Uuid) : db'.Charged i ↔ db.Charged i := by
  constructor
  · rintro ⟨b, hb, hi, hs⟩
    rw [h] at hb
    rcases Table.of_mem_insert hb with hb | rfl
    · exact ⟨b, hb, hi, hs⟩
    · rw [hpending] at hs
      cases hs
  · rintro ⟨b, hb, hi, hs⟩
    exact ⟨b, h ▸ Table.mem_insert_of_mem hb, hi, hs⟩

/-- An update of a pending attempt. -/
theorem charged_update {db db' : Database} {update : AttemptUpdate} {now : Timestamp}
    (hfind : db.attempts.find? a.id = some a) (hpending : a.status = .pending)
    (h : db'.attempts = db.attempts.update a.id (·.update update now) (·.update_id update now))
    (i : Uuid) : db'.Charged i ↔
      db.Charged i ∨ i = a.invoiceId ∧ update.status = some .succeeded := by
  have hupdated : (a.update update now).status = .succeeded ↔ update.status = some .succeeded := by
    cases hs : update.status <;> simp [PaymentAttempt.update, hs, hpending]
  constructor
  · rintro ⟨b, hb, rfl, hs⟩
    rw [h] at hb
    obtain ⟨b', hb', rfl⟩ := Table.mem_update.mp hb
    split at hs
    case isTrue hid =>
      obtain rfl : b' = a := Table.eq_of_key_eq hb' (Table.find?_eq_some.mp hfind).1 hid
      rw [if_pos rfl]
      exact Or.inr ⟨rfl, hupdated.mp hs⟩
    case isFalse hid =>
      rw [if_neg hid]
      exact Or.inl ⟨b', hb', rfl, hs⟩
  · rintro (⟨b, hb, rfl, hs⟩ | ⟨rfl, hs⟩)
    · refine ⟨b, ?_, rfl, hs⟩
      rw [h]
      refine Table.mem_update.mpr ⟨b, hb, (if_neg fun hid => ?_).symm⟩
      obtain rfl : b = a := Table.eq_of_key_eq hb (Table.find?_eq_some.mp hfind).1 hid
      rw [hpending] at hs
      cases hs
    · refine ⟨a.update update now, ?_, rfl, hupdated.mpr hs⟩
      rw [h]
      exact Table.mem_update.mpr ⟨a, (Table.find?_eq_some.mp hfind).1, (if_pos rfl).symm⟩

theorem not_succeeded_of_not_pays {outcome : Except PspError PspChargeResult}
    {update : AttemptUpdate}
    (hpays : ¬Pays outcome) (hbind : (outcomeChange outcome).bind = .ok update) :
    update.status ≠ some .succeeded := by
  rw [AttemptChange.bind_status hbind]
  cases outcome with
  | error e => simp [outcomeChange, unknownChange]
  | ok result =>
    rw [outcomeChange, if_neg (show ¬result.Succeeded from hpays)]
    simp [failedChange]

/-- A charge is recorded as successful under the lock of its invoice. -/
theorem Commits.charged {ph ph' : Phase} (h : Commits crypto w p db' ph ph') {i : Uuid}
    (hi : db'.Charged i) : w.db.Charged i ∨ w.locks ⟨.invoices, i⟩ = some p := by
  cases h with
  | reserve hholds hattempts _ =>
    exact Or.inl ((charged_insert hholds.2.2.2.made.status hattempts i).mp hi)
  | @paid c _ _ _ _ _ _ _ _ hgood _ _ _ _ htx hattempts _ =>
    rcases (charged_update hgood.2.2 hgood.2.1.status hattempts i).mp hi with hi | ⟨rfl, -⟩
    · exact Or.inl hi
    · rw [hgood.2.1.invoiceId]
      exact Or.inr ((htx.locks c.invoiceRef).mpr List.mem_cons_self)
  | unpaid hgood _ hpays hbind _ _ hattempts _ =>
    rcases (charged_update hgood.2.2 hgood.2.1.status hattempts i).mp hi with hi | ⟨-, hs⟩
    · exact Or.inl hi
    · exact absurd hs (not_succeeded_of_not_pays hpays hbind)
  | transition _ _ hattempts _ =>
    obtain ⟨a, ha, hrest⟩ := hi
    exact Or.inl ⟨a, hattempts ▸ ha, hrest⟩
  | other _ hattempts _ =>
    obtain ⟨a, ha, hrest⟩ := hi
    exact Or.inl ⟨a, hattempts ▸ ha, hrest⟩

end Charged

/-! ### The moves and the committed rows -/

section Moves

variable {crypto : Crypto} {s t : System} {φ φ' : Pid → Phase} {e : Event} {p : Pid} {env : Env}

namespace System

/-- **A move leaves the committed rows alone, or it is one of the five commits.** -/
theorem Sound.commit_or (h : s.Sound crypto φ) (hmove : s.Moves crypto φ e t φ') :
    (t.world.db = s.world.db ∧ t.world.history = s.world.history ∧
        ∀ q, (φ' q).committed? = (φ q).committed?) ∨
      ∃ p ph, s.Alive p ∧ t.world = s.world.commit p ∧ φ' = Function.update φ p ph ∧
        Commits crypto s.world p t.world.db (φ p) ph := by
  cases hmove with
  | start job =>
    refine Or.inl ⟨rfl, rfl, fun q => ?_⟩
    by_cases hq : q = s.procs.length
    · rw [hq, Function.update_self, h.absent _ (List.getElem?_eq_none le_rfl)]
      cases job with
      | poll => rfl
      | request business req =>
        cases req with
        | pay i token key =>
          change (PayPoint.start _).progress.attempt? = none
          unfold PayPoint.start
          split <;> rfl
        | _ => rfl
    · rw [Function.update_of_ne hq]
  | kill hproc => exact Or.inl ⟨rfl, rfl, fun q => rfl⟩
  | @answer _ p _ st _ _ _ ph hproc hans hnext =>
    have hp : s.Alive p := ⟨_, hproc, rfl⟩
    by_cases hst : st = .commit
    · subst hst
      obtain rfl := answers_commit hans.answers
      exact Or.inr ⟨p, ph, hp, rfl, rfl, hnext.commits (h.alive p hp) (h.forGood p) h.invoice⟩
    · have heffect := hans.answers.effect
      refine Or.inl ⟨heffect.db hst, heffect.history hst, fun q => ?_⟩
      by_cases hq : q = p
      · subst hq
        rw [Function.update_self]
        rcases hnext.committed? (h.alive q hp) (h.forGood q) hans.answers with heq | ⟨_, _, _, _,
          h', _⟩
        · exact heq
        · exact absurd h' hst
      · rw [Function.update_of_ne hq]

/-- What has been committed stays in the history. -/
theorem Sound.mem_history (h : s.Sound crypto φ) (hmove : s.Moves crypto φ e t φ') {m : Commit}
    (hm : m ∈ s.world.history) : m ∈ t.world.history := by
  rcases h.commit_or hmove with ⟨-, hhistory, -⟩ | ⟨q, ph, -, ht, -, -⟩
  · rwa [hhistory]
  · rw [ht]
    exact List.mem_append_left _ hm

/-- The row of an attempt is left alone by the steps of the other sessions. -/
theorem Sound.find?_attempt_answer (h : s.Sound crypto φ) {q : Pid} {st : Stmt} {r : st.Resp}
    {w' : World} (hans : s.world.Answers q st r w') (hne : q ≠ p) {a : PaymentAttempt}
    (ha : (φ p).committed? = some a) :
    w'.db.attempts.find? a.id = s.world.db.attempts.find? a.id := by
  by_cases hst : st = .commit
  · subst hst
    rw [answers_commit hans]
    refine h.find?_attempt_view ha hne ?_
    obtain ⟨row, hrow, -⟩ := (h.forGood p).row ha
    rw [hrow]
    simp
  · rw [hans.effect.db hst]

/-- The target of a transition is none of a payment. -/
theorem Sound.target_ne_paid (h : s.Sound crypto φ) {p : Pid} {c : TransitionCall}
    {pt : TransitionPoint} (hp : s.Alive p) (hph : φ p = .transition c pt) : c.target ≠ .paid := by
  obtain ⟨proc, hproc, -⟩ := hp
  have htracks := h.tracks p proc hproc
  rw [hph] at htracks
  obtain ⟨⟨req, -, hreq⟩, -⟩ := htracks
  cases req <;> simp only [Request.transition?, reduceCtorEq, Option.some.injEq,
    Prod.mk.injEq] at hreq
  all_goals
    rw [← hreq.2]
    simp

/-- The next statement of a session. -/
def next? (s : System) (p : Pid) : Option Stmt :=
  match s.procs[p]? with
  | some ⟨_, .op st _, true⟩ => some st
  | _ => none

theorem next?_eq_some {st : Stmt} :
    s.next? p = some st ↔ ∃ job k, s.procs[p]? = some ⟨job, .op st k, true⟩ := by
  unfold next?
  split
  case h_1 job st' k hproc =>
    rw [hproc]
    constructor
    · intro h
      obtain rfl := Option.some.inj h
      exact ⟨job, k, rfl⟩
    · rintro ⟨job', k', h⟩
      cases h
      rfl
  case h_2 hproc =>
    constructor
    · rintro ⟨⟩
    · rintro ⟨job', k', h⟩
      exact absurd h (hproc job' st k')

theorem mem_blockers {q : Pid} :
    q ∈ s.blockers p ↔ ∃ st, s.next? p = some st ∧ q ∈ s.world.blockers p st := by
  constructor
  · intro hq
    unfold blockers at hq
    split at hq
    case h_1 job st k hproc => exact ⟨st, next?_eq_some.mpr ⟨job, k, hproc⟩, hq⟩
    case h_2 => cases hq
  · rintro ⟨st, hst, hq⟩
    obtain ⟨job, k, hproc⟩ := next?_eq_some.mp hst
    simpa only [blockers, hproc] using hq

theorem alive_of_next? {st : Stmt} (h : s.next? p = some st) : s.Alive p := by
  obtain ⟨job, k, hproc⟩ := next?_eq_some.mp h
  exact ⟨_, hproc, rfl⟩

/-- A payment issues the statement of its point. -/
theorem Sound.out_pay (h : s.Sound crypto φ) {st : Stmt} (hnext : s.next? p = some st) {c : PayCall}
    {pt : PayPoint} (hph : φ p = .pay c pt) : ∃ next, pt.out crypto c = .op st next := by
  obtain ⟨job, k, hproc⟩ := next?_eq_some.mp hnext
  have htracks := h.tracks p _ hproc
  rw [hph] at htracks
  obtain ⟨-, next, hout, -⟩ := htracks
  exact ⟨next, hout⟩

/-- A program that is at a point issues the statement of the point. -/
theorem next?_of_tracks {π : Type} {out : π → Node Stmt Stmt.Resp (Except Exc Result) π} {pt : π}
    {job : Job} {prog : ServerProg (Except Exc Result)}
    (hproc : s.procs[p]? = some ⟨job, prog, true⟩)
    (htracks : Prog.Tracks out pt prog) {st : Stmt} {next : st.Resp → π}
    (hout : out pt = .op st next) : s.next? p = some st := by
  cases prog with
  | ret x =>
    have hret : out pt = .ret x := htracks
    rw [hout] at hret
    cases hret
  | op st' k =>
    obtain ⟨next', hout', -⟩ := htracks
    rw [hout] at hout'
    obtain ⟨rfl, -⟩ := Node.op.inj hout'
    exact next?_eq_some.mpr ⟨job, k, hproc⟩

theorem Sound.next?_of_out (h : s.Sound crypto φ) (hp : s.Alive p) {c : PayCall} {pt : PayPoint}
    (hph : φ p = .pay c pt) {st : Stmt} {next : st.Resp → PayPoint}
    (hout : pt.out crypto c = .op st next) : s.next? p = some st := by
  obtain ⟨⟨job, prog, alive⟩, hproc, halive⟩ := hp
  obtain rfl : alive = true := halive
  have htracks := h.tracks p _ hproc
  rw [hph] at htracks
  exact next?_of_tracks hproc htracks.2 hout

theorem Sound.next?_of_out_transition (h : s.Sound crypto φ) (hp : s.Alive p) {c : TransitionCall}
    {pt : TransitionPoint} (hph : φ p = .transition c pt) {st : Stmt}
    {next : st.Resp → TransitionPoint} (hout : pt.out c = .op st next) : s.next? p = some st := by
  obtain ⟨⟨job, prog, alive⟩, hproc, halive⟩ := hp
  obtain rfl : alive = true := halive
  have htracks := h.tracks p _ hproc
  rw [hph] at htracks
  exact next?_of_tracks hproc htracks.2 hout

/-- A transition issues the statement of its point. -/
theorem Sound.out_transition (h : s.Sound crypto φ) {st : Stmt} (hnext : s.next? p = some st)
    {c : TransitionCall} {pt : TransitionPoint} (hph : φ p = .transition c pt) :
    ∃ next, pt.out c = .op st next := by
  obtain ⟨job, k, hproc⟩ := next?_eq_some.mp hnext
  have htracks := h.tracks p _ hproc
  rw [hph] at htracks
  obtain ⟨-, next, hout, -⟩ := htracks
  exact ⟨next, hout⟩

/-- Any other program issues a peripheral statement. -/
theorem Sound.peripheral (h : s.Sound crypto φ) {st : Stmt} (hnext : s.next? p = some st)
    (hph : φ p = .other) : st.Peripheral := by
  obtain ⟨job, k, hproc⟩ := next?_eq_some.mp hnext
  have htracks := h.tracks p _ hproc
  rw [hph] at htracks
  exact htracks.2.1

/-- An uncommitted change of an invoice's state was there before, or has just been made. -/
theorem Moves.updateInvoice (hmove : s.Moves crypto φ e t φ') {i : Uuid}
    {state : InvoiceState} {now : Timestamp}
    (h : .updateInvoice i state now ∈ t.world.writesOf p) :
    .updateInvoice i state now ∈ s.world.writesOf p ∨
      ∃ env, e = .exec p env ∧ s.next? p = some (.updateInvoice i state) := by
  cases hmove with
  | start job => exact Or.inl h
  | @kill p' job prog hproc =>
    rw [writesOf_release] at h
    split at h
    · cases h
    · exact Or.inl h
  | @answer _ p' _ st r w' _ _ hproc hans hnext =>
    by_cases hp : p' = p
    · subst hp
      rcases hans.answers.effect.writes _ h with hold | hnew
      · exact Or.inl hold
      · obtain rfl : st = .updateInvoice i state := by
          cases st <;> first | exact hnew.elim | (obtain ⟨rfl, rfl⟩ := hnew; rfl)
        cases hans with
        | exec env hexec => exact Or.inr ⟨env, rfl, next?_eq_some.mpr ⟨_, _, hproc⟩⟩
        | abort cycle _ hfail =>
          rw [acts_of_fail hfail, writesOf_release, if_pos rfl] at h
          cases h
    · rw [(hans.answers.acts.frame hp).writes] at h
      exact Or.inl h

/-- A statement that is no commit leaves the committed rows alone. -/
theorem Moves.db_of_next (hmove : s.Moves crypto φ (.exec p env) t φ') {st : Stmt}
    (hnext : s.next? p = some st) (hst : st ≠ .commit) : t.world.db = s.world.db := by
  obtain ⟨job', k', hproc'⟩ := next?_eq_some.mp hnext
  cases hmove with
  | answer hproc hans hnext =>
    cases hans with
    | exec env hexec =>
      rw [hproc'] at hproc
      cases hproc
      exact (Answers.exec env hexec).effect.db hst

end System

end Moves

end TenantBilling
