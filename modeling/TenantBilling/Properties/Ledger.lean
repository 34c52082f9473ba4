import TenantBilling.Abstract.Ledger
import TenantBilling.Properties.AtRest

/-!
# The service keeps a ledger for every invoice

Whatever the requests, crashes and deadlocks, an invoice with its attempts and its calls of the
provider is a ledger (`TenantBilling.System.ledger`), and every step of the service is a step of
this ledger or none (`TenantBilling.refines_ledger`). The acts of the ledger are what the service
has recorded: the attempts in the order of their commits, the calls in the order in which the
provider has received them, the states in the order in which they have been written.

So the payments of an invoice come one after the other, although their requests are interleaved and
no lock is held during a call (`TenantBilling.payments_serial`).
-/

namespace TenantBilling

open Base World

/-! ### The ledger of an invoice -/

/-- The keys under which the provider has been called for the invoice, in the order of the calls. -/
def System.calledOn (s : System) (i : Uuid) : List String :=
  (s.chargesOn i).map Charge.idempotencyKey

/-- The keys of the attempts on the invoice that a transaction has inserted. -/
def Commit.reservedOn (m : Commit) (i : Uuid) : List String :=
  m.writes.filterMap fun
    | .insertAttempt a => if a.invoiceId = i then some a.idempotencyKey.text else none
    | _ => none

/-- The keys of the attempts on the invoice, in the order of their commits. -/
def System.reservedOn (s : System) (i : Uuid) : List String :=
  s.world.history.flatMap (·.reservedOn i)

/-- The stage of a payment, by the status of its attempt and whether the provider has
been called. -/
def PaymentStatus.stage (status : PaymentStatus) (called : Bool) : Stage :=
  match status with
  | .pending => if called then .called else .reserved
  | .succeeded => .succeeded
  | .failed => .failed

/-- The stage of the payment of an invoice under a key. -/
def System.stage (s : System) (i : Uuid) (key : String) : Stage :=
  ((s.world.db.attemptByKey i key).map fun a => a.status.stage (decide (key ∈ s.calledOn i))).getD
    .absent

/-- **The ledger that the service keeps** for an invoice. -/
def System.ledger (s : System) (i : Uuid) : Ledger String := ⟨s.world.db.stateOf i, s.stage i⟩

/-- The acts are what the service has recorded of the invoice. -/
structure System.Shows (s : System) (i : Uuid) (acts : List (Ledger.Act String)) : Prop where
  reserves : Ledger.reserves acts = s.reservedOn i
  calls : Ledger.calls acts = s.calledOn i
  moves : Ledger.moves acts = s.world.statesOf i

section Moves

variable {crypto : Crypto} {s t : System} {φ φ' : Pid → Phase} {e : Event} {p q : Pid} {i : Uuid}
  {key : String} {a : PaymentAttempt}

theorem System.Sound.stage_eq (h : s.Sound crypto φ) (ha : a ∈ s.world.db.attempts)
    (hi : a.invoiceId = i) (hkey : a.idempotencyKey.text = key) :
    s.stage i key = a.status.stage (decide (key ∈ s.calledOn i)) := by
  unfold System.stage
  rw [(Database.attemptByKey_eq_some h.keys).mpr ⟨ha, hi, hkey⟩]
  rfl

theorem System.stage_eq_absent
    (h : ∀ a ∈ s.world.db.attempts, a.invoiceId = i → a.idempotencyKey.text ≠ key) :
    s.stage i key = .absent := by
  have hnone : s.world.db.attemptByKey i key = none := by
    refine List.find?_eq_none.mpr fun a ha => ?_
    simpa using h a ha
  unfold System.stage
  rw [hnone]
  rfl

/-- The stage of a payment depends on its attempt, and on whether it has been called. -/
theorem System.Sound.stage_congr (h : s.Sound crypto φ) (ht : t.Sound crypto φ')
    (hrows : ∀ a : PaymentAttempt, a.invoiceId = i → a.idempotencyKey.text = key →
      (a ∈ t.world.db.attempts ↔ a ∈ s.world.db.attempts))
    (hcalled : key ∈ t.calledOn i ↔ key ∈ s.calledOn i) :
    t.stage i key = s.stage i key := by
  have hfound : t.world.db.attemptByKey i key = s.world.db.attemptByKey i key := by
    refine Option.ext fun a => ?_
    rw [Database.attemptByKey_eq_some ht.keys, Database.attemptByKey_eq_some h.keys]
    constructor
    · rintro ⟨ha, hi, hkey⟩
      exact ⟨(hrows a hi hkey).mp ha, hi, hkey⟩
    · rintro ⟨ha, hi, hkey⟩
      exact ⟨(hrows a hi hkey).mpr ha, hi, hkey⟩
  unfold System.stage
  simp only [hfound, hcalled]

/-! ### The calls -/

/-- **The calls for an invoice change** only when one of its payments makes its call. -/
theorem System.Moves.calledOn_or (h : s.Sound crypto φ) (hmove : s.Moves crypto φ e t φ')
    (i : Uuid) :
    t.calledOn i = s.calledOn i ∨ ∃ p c v a, φ p = .pay c (.send v a) ∧ c.invoiceId = i ∧
      t.world.charges ≠ s.world.charges ∧ t.calledOn i = s.calledOn i ++ [c.idempotencyKey] := by
  have hfilter := hmove.chargesOn_of_charges h i
  rcases h.charges_or hmove with hch | ⟨p, c, v, a, -, hph, -, hch⟩ | ⟨p, env, -, -, hw⟩
  · refine Or.inl (congrArg (List.map _) ?_)
    rwa [← hch] at hfilter
  · have hcall := hmove.payCall? (h.payCall?_eq_some.mpr ⟨_, hph⟩)
    have hon : t.chargesOn i = s.chargesOn i ++
      if c.invoiceId = i then [c.charge p a none] else [] := by
      unfold System.chargesOn
      rw [hch, List.filter_append, hfilter, List.filter_singleton]
      simp [System.chargesOn, PayCall.charge, hcall]
    by_cases hi : c.invoiceId = i
    · rw [if_pos hi] at hon
      refine Or.inr ⟨p, c, v, a, hph, hi, (by rw [hch]; simp), ?_⟩
      unfold System.calledOn
      rw [hon, List.map_append]
      rfl
    · rw [if_neg hi, List.append_nil] at hon
      exact Or.inl (congrArg (List.map _) hon)
  · have hcharges : t.world.charges = s.world.charges.map (Charge.answer p env.http) := by
      rw [hw]
      rfl
    have hcomp : ((fun x : Charge => (t.payCall? x.pid).any fun c => c.invoiceId = i) ∘
        Charge.answer p env.http) = fun x => (t.payCall? x.pid).any fun c => c.invoiceId = i := by
      funext x
      simp only [Function.comp_apply, Charge.answer_pid]
    refine Or.inl ?_
    unfold System.calledOn
    conv_lhs => unfold System.chargesOn
    rw [hcharges, List.filter_map, hcomp, hfilter, List.map_map]
    refine List.map_congr_left fun x _ => ?_
    simp only [Function.comp_apply, Charge.answer]
    split <;> rfl

/-- A payment that is about to make its call has not made it. -/
theorem System.Sound.not_called (h : s.Sound crypto φ) (ha : a ∈ s.world.db.attempts)
    {b : PaymentAttempt} (hb : (φ p).committed? = some b) (hid : b.id = a.id)
    (hnone : s.world.chargesOf p = []) : a.idempotencyKey.text ∉ s.calledOn a.invoiceId := by
  intro hmem
  obtain ⟨x, hx, hkey⟩ := List.mem_map.mp hmem
  obtain ⟨d, row, hd, hrow, hrid, hri, hrkey, -⟩ := h.row_of_charge hx
  have hsame : row = a := by
    refine h.keys row hrow a ha ?_
    simp [PaymentAttempt.sameKey, hri, Varchar.ext_iff, hrkey, hkey]
  have hpid : x.pid = p := h.owner _ _ d b hd hb (by rw [← hrid, hid, hsame])
  have hcharge : x ∈ s.world.chargesOf p :=
    List.mem_filter.mpr ⟨(List.mem_filter.mp hx).1, by simpa using hpid⟩
  rw [hnone] at hcharge
  cases hcharge

/-- No call has been made under a key that no attempt has. -/
theorem System.Sound.not_called_of_new (h : s.Sound crypto φ)
    (hnew : ∀ a ∈ s.world.db.attempts, a.invoiceId = i → a.idempotencyKey.text ≠ key) :
    key ∉ s.calledOn i := by
  intro hmem
  obtain ⟨x, hx, hkey⟩ := List.mem_map.mp hmem
  obtain ⟨-, row, -, hrow, -, hri, hrkey, -⟩ := h.row_of_charge hx
  exact hnew row hrow hri (hrkey.trans hkey)

/-- A payment that has its answer has made its call. -/
theorem System.Sound.called (h : s.Sound crypto φ) {c : PayCall} {pt : PayPoint} {x : Charge}
    (hph : φ p = .pay c pt) (hx : x ∈ s.world.chargesOf p)
    (hkey : x.idempotencyKey = c.idempotencyKey) :
    c.idempotencyKey ∈ s.calledOn c.invoiceId := by
  obtain ⟨hmem, hpid⟩ := List.mem_filter.mp hx
  refine List.mem_map.mpr ⟨x, List.mem_filter.mpr ⟨hmem, ?_⟩, hkey⟩
  rw [of_decide_eq_true hpid, h.payCall?_eq_some.mpr ⟨pt, hph⟩]
  simp

/-! ### The steps -/

theorem Commit.reservedOn_nil {m : Commit} (h : ∀ x ∈ m.writes, x.Peripheral) (i : Uuid) :
    m.reservedOn i = [] := by
  refine List.filterMap_eq_nil_iff.mpr fun x hx => ?_
  cases x with
  | insertAttempt => exact (h _ hx).elim
  | _ => rfl

/-- What a move makes of an invoice: its ledger is as it was, and nothing has been recorded. -/
structure System.Unseen (i : Uuid) (s t : System) : Prop where
  ledger : t.ledger i = s.ledger i
  reserved : t.reservedOn i = s.reservedOn i
  called : t.calledOn i = s.calledOn i
  states : t.world.statesOf i = s.world.statesOf i

theorem System.Unseen.follows {acts : List (Ledger.Act String)} (h : s.Unseen i t)
    (hI : s.Shows i acts) :
    ∃ acts', Trace Ledger.Step (s.ledger i) acts' (t.ledger i) ∧ t.Shows i (acts ++ acts') := by
  refine ⟨[], ?_, ?_⟩
  · rw [h.ledger]
    exact .nil
  · rw [List.append_nil]
    exact ⟨by rw [h.reserved, hI.reserves], by rw [h.called, hI.calls], by rw [h.states, hI.moves]⟩

/-- One act of the ledger, and what is recorded of it. -/
theorem System.Shows.act {acts : List (Ledger.Act String)} (hI : s.Shows i acts)
    (act : Ledger.Act String) (hstep : Ledger.Step (s.ledger i) act (t.ledger i))
    (hreserved : t.reservedOn i = s.reservedOn i ++ Ledger.reserves [act])
    (hcalled : t.calledOn i = s.calledOn i ++ Ledger.calls [act])
    (hstates : t.world.statesOf i = s.world.statesOf i ++ Ledger.moves [act]) :
    ∃ acts', Trace Ledger.Step (s.ledger i) acts' (t.ledger i) ∧ t.Shows i (acts ++ acts') := by
  refine ⟨[act], .single hstep, ?_, ?_, ?_⟩
  · rw [hreserved, ← hI.reserves]
    exact List.filterMap_append
  · rw [hcalled, ← hI.calls]
    exact List.filterMap_append
  · rw [hstates, ← hI.moves]
    exact List.filterMap_append

/-- A call is an act of the ledger. -/
theorem System.Shows.call {acts : List (Ledger.Act String)} (h : s.Sound crypto φ)
    (ht : t.Sound crypto φ') (hI : s.Shows i acts) (hdb : t.world.db = s.world.db)
    (hhistory : t.world.history = s.world.history) {c : PayCall} {v : Invoice}
    (hph : φ p = .pay c (.send v a)) (hi : c.invoiceId = i)
    (hcalled : t.calledOn i = s.calledOn i ++ [c.idempotencyKey]) :
    ∃ acts', Trace Ledger.Step (s.ledger i) acts' (t.ledger i) ∧ t.Shows i (acts ++ acts') := by
  have hgood := h.forGood p
  rw [hph] at hgood
  obtain ⟨hnone, hmade, hfind⟩ := hgood
  obtain ⟨hai, hakey, -, -, hastatus⟩ := hmade.fields
  have ha := (Table.find?_eq_some.mp hfind).1
  have hnot := h.not_called ha (by rw [hph]; rfl) rfl hnone
  rw [hai, hi, hakey] at hnot
  have hbefore := h.stage_eq ha (hai.trans hi) hakey
  rw [hastatus, decide_eq_false hnot] at hbefore
  have hafter := ht.stage_eq (hdb ▸ ha) (hai.trans hi) hakey
  rw [hastatus, hcalled,
    decide_eq_true (List.mem_append_right _ (List.mem_singleton_self _))] at hafter
  have hledger : t.ledger i = (s.ledger i).put c.idempotencyKey .called := by
    refine Ledger.ext (congrArg (·.stateOf i) hdb) (funext fun key => ?_)
    by_cases hkey : key = c.idempotencyKey
    · rw [hkey, Ledger.put_stage]
      exact hafter
    · rw [Ledger.put_stage_of_ne _ _ hkey]
      refine h.stage_congr ht (fun _ _ _ => by rw [hdb]) ?_
      rw [hcalled, List.mem_append, List.mem_singleton]
      exact or_iff_left hkey
  refine hI.act (.call c.idempotencyKey) ?_ ?_ hcalled ?_
  · rw [hledger]
    exact .call hbefore
  · rw [System.reservedOn, hhistory]
    exact (List.append_nil _).symm
  · rw [World.statesOf, hhistory]
    exact (List.append_nil _).symm

/-! ### The commits -/

theorem System.reservedOn_commit (ht : t.world = s.world.commit p) (i : Uuid) :
    t.reservedOn i = s.reservedOn i ++ Commit.reservedOn ⟨p, s.world.writesOf p⟩ i := by
  rw [System.reservedOn, ht, history_commit, List.flatMap_append, List.flatMap_singleton]
  rfl

theorem System.statesOf_commit (ht : t.world = s.world.commit p) (i : Uuid) :
    t.world.statesOf i = s.world.statesOf i ++ Commit.statesOf ⟨p, s.world.writesOf p⟩ i := by
  rw [World.statesOf, ht, history_commit, List.flatMap_append, List.flatMap_singleton]
  rfl

theorem System.Moves.calledOn_commit (h : s.Sound crypto φ) (hmove : s.Moves crypto φ e t φ')
    (ht : t.world = s.world.commit p) (i : Uuid) : t.calledOn i = s.calledOn i := by
  rcases hmove.calledOn_or h i with hcalled | ⟨-, -, -, -, -, -, hne, -⟩
  · exact hcalled
  · exact absurd (by rw [ht]; rfl) hne

/-- A commit that has nothing to do with the payments of the invoice nor with its state. -/
theorem System.Unseen.of_commit (h : s.Sound crypto φ) (hmove : s.Moves crypto φ e t φ')
    (ht : t.world = s.world.commit p) (hrows : ∀ a : PaymentAttempt, a.invoiceId = i →
      (a ∈ t.world.db.attempts ↔ a ∈ s.world.db.attempts))
    (hstate : t.world.db.stateOf i = s.world.db.stateOf i)
    (hreserved : Commit.reservedOn ⟨p, s.world.writesOf p⟩ i = [])
    (hstates : Commit.statesOf ⟨p, s.world.writesOf p⟩ i = []) : s.Unseen i t := by
  have hcalled := hmove.calledOn_commit h ht i
  refine ⟨Ledger.ext hstate (funext fun key => ?_), ?_, hcalled, ?_⟩
  · exact h.stage_congr (h.move hmove) (fun a hi _ => hrows a hi) (by rw [hcalled])
  · rw [reservedOn_commit ht, hreserved, List.append_nil]
  · rw [statesOf_commit ht, hstates, List.append_nil]

/-- A payment in progress has a pending attempt. -/
theorem System.Sound.exists_pending (h : s.Sound crypto φ) (hpending : (s.stage i key).Pending) :
    ∃ a ∈ s.world.db.attempts, a.invoiceId = i ∧ a.status = .pending := by
  cases hfind : s.world.db.attemptByKey i key with
  | none =>
    rw [System.stage, hfind] at hpending
    exact hpending.elim
  | some a =>
    obtain ⟨ha, hi, -⟩ := (Database.attemptByKey_eq_some h.keys).mp hfind
    refine ⟨a, ha, hi, ?_⟩
    rw [System.stage, hfind] at hpending
    change (a.status.stage _).Pending at hpending
    cases hs : a.status with
    | pending => rfl
    | _ =>
      rw [hs] at hpending
      exact hpending.elim

/-- **The commit of an attempt** reserves the payment. -/
theorem System.Shows.reserve {acts : List (Ledger.Act String)} (h : s.Sound crypto φ)
    (hmove : s.Moves crypto φ e t φ') (hI : s.Shows i acts) (ht : t.world = s.world.commit p)
    {c : PayCall} {v : Invoice} (hφ : φ' p = .pay c (.send v a))
    (hholds : (PayPoint.reserve v a).Holds crypto s.world p c) (hi : c.invoiceId = i)
    (hattempts : t.world.db.attempts = s.world.db.attempts.insert a)
    (hstate : t.world.db.stateOf i = s.world.db.stateOf i) :
    ∃ acts', Trace Ledger.Step (s.ledger i) acts' (t.ledger i) ∧ t.Shows i (acts ++ acts') := by
  have hsound := h.move hmove
  obtain ⟨htx, hv, hfind, hreserving⟩ := hholds
  obtain ⟨hai, hakey, -, -, hastatus⟩ := hreserving.made.fields
  have hcalled := hmove.calledOn_commit h ht i
  -- the unique index has let the key in
  have hnew : ∀ d ∈ s.world.db.attempts,
    d.invoiceId = i → d.idempotencyKey.text ≠ c.idempotencyKey := by
    intro d hd hdi hdkey
    have hsame := hreserving.noSameKey d hd
    simp [PaymentAttempt.sameKey, hai, hi, hdi, Varchar.ext_iff, hakey, hdkey] at hsame
  -- the partial index has let a pending attempt in
  have hfree : ∀ j, ¬(s.stage i j).Pending := by
    intro j hj
    obtain ⟨d, hd, hdi, hdp⟩ := h.exists_pending hj
    have hsame := hreserving.noSamePending d hd
    simp [PaymentAttempt.samePending, hai, hi, hdi, hastatus, hdp] at hsame
  have hledger : t.ledger i = (s.ledger i).put c.idempotencyKey .reserved := by
    refine Ledger.ext hstate (funext fun key => ?_)
    by_cases hkey : key = c.idempotencyKey
    · rw [hkey, Ledger.put_stage]
      have hgood := hsound.forGood p
      rw [hφ] at hgood
      refine (hsound.stage_eq (Table.find?_eq_some.mp hgood.2.2).1 (hai.trans hi) hakey).trans ?_
      rw [hastatus, hcalled, decide_eq_false (h.not_called_of_new hnew)]
      rfl
    · rw [Ledger.put_stage_of_ne _ _ hkey]
      refine h.stage_congr hsound (fun d _ hdkey => ⟨fun hd => ?_, fun hd => ?_⟩) (by rw [hcalled])
      · rcases Table.of_mem_insert (hattempts ▸ hd) with hd | rfl
        · exact hd
        · exact absurd (hdkey.symm.trans hakey) hkey
      · exact hattempts ▸ Table.mem_insert_of_mem hd
  refine hI.act (.reserve c.idempotencyKey) ?_ ?_ ?_ ?_
  · rw [hledger]
    refine .reserve ?_ hfree (System.stage_eq_absent hnew)
    change s.world.db.stateOf i = some .open
    rw [Database.stateOf, ← hi, hfind, Option.map_some, hv.isOpen]
  · rw [System.reservedOn_commit ht, htx.writes]
    simp [Commit.reservedOn, Ledger.reserves, hai, hi, hakey]
  · exact hcalled.trans (List.append_nil _).symm
  · rw [System.statesOf_commit ht, htx.writes]
    rfl

/-- **The commit of an outcome** changes the stage of a payment that has been called. -/
theorem System.Sound.stage_settle (h : s.Sound crypto φ) (hsound : t.Sound crypto φ') {c : PayCall}
    {pt : PayPoint} {http : HttpResult} {update : AttemptUpdate} {now : Timestamp}
    (hph : φ p = .pay c pt) (hgood : (Progress.answered a http).Holds crypto s.world p c)
    (hattempts : t.world.db.attempts =
      s.world.db.attempts.update a.id (·.update update now) (·.update_id update now))
    (hcalled : t.calledOn i = s.calledOn i) (hi : c.invoiceId = i) :
    s.stage i c.idempotencyKey = .called ∧
      t.stage i = Function.update (s.stage i) c.idempotencyKey
        ((update.status.getD .pending).stage true) := by
  obtain ⟨hcharges, hmade, hfind⟩ := hgood
  obtain ⟨hai, hakey, -, -, hastatus⟩ := hmade.fields
  have ha := (Table.find?_eq_some.mp hfind).1
  have hmem : c.idempotencyKey ∈ s.calledOn i := by
    rw [← hi]
    exact h.called hph (by rw [hcharges]; exact List.mem_singleton_self _) rfl
  constructor
  · rw [h.stage_eq ha (hai.trans hi) hakey, hastatus, decide_eq_true hmem]
    rfl
  funext key
  by_cases hkey : key = c.idempotencyKey
  · rw [hkey, Function.update_self]
    have hrow : a.update update now ∈ t.world.db.attempts := by
      rw [hattempts]
      exact Table.mem_update.mpr ⟨a, ha, (if_pos rfl).symm⟩
    refine (hsound.stage_eq hrow (hai.trans hi) hakey).trans ?_
    rw [hcalled, decide_eq_true hmem]
    change (update.status.getD a.status).stage true = _
    rw [hastatus]
  · rw [Function.update_of_ne hkey]
    refine h.stage_congr hsound (fun d _ hdkey => ?_) (by rw [hcalled])
    exact mem_attempts_update hfind hattempts (P := fun d => d.idempotencyKey.text = key)
      (fun _ => id) (fun hk => hkey (hk.symm.trans hakey)) hdkey

/-- What the writes of a payment's second commit record of an invoice. -/
theorem recorded_settle {rest : List Write} (hrest : ∀ x ∈ rest, x.Peripheral) (id : Uuid)
    (update : AttemptUpdate) (now : Timestamp) (ws : List Write) (p : Pid) (i : Uuid) :
    Commit.reservedOn ⟨p, ([.updateAttempt id update now] ++ ws) ++ rest⟩ i =
        Commit.reservedOn ⟨p, ws⟩ i ∧
      Commit.statesOf ⟨p, ([.updateAttempt id update now] ++ ws) ++ rest⟩ i =
        Commit.statesOf ⟨p, ws⟩ i := by
  have hreserved := Commit.reservedOn_nil (m := ⟨p, rest⟩) hrest i
  have hstates := statesOf_nil (m := ⟨p, rest⟩) hrest i
  simp only [Commit.reservedOn, Commit.statesOf] at hreserved hstates
  simp [Commit.reservedOn, Commit.statesOf, List.filterMap_append, hreserved, hstates]

/-- **A commit is an act of the ledger**, or leaves it as it is. -/
theorem System.Shows.commit {acts : List (Ledger.Act String)} (h : s.Sound crypto φ)
    (hmove : s.Moves crypto φ e t φ') (hI : s.Shows i acts) (hp : s.Alive p)
    (ht : t.world = s.world.commit p) {ph : Phase} (hφ : φ' = Function.update φ p ph)
    (hcommits : Commits crypto s.world p t.world.db (φ p) ph) :
    ∃ acts', Trace Ledger.Step (s.ledger i) acts' (t.ledger i) ∧ t.Shows i (acts ++ acts') := by
  have hsound := h.move hmove
  have hcalled := hmove.calledOn_commit h ht i
  generalize hpre : φ p = pre at hcommits
  cases hcommits with
  | @reserve c v a hholds hattempts hstate =>
    by_cases hi : c.invoiceId = i
    · exact hI.reserve h hmove ht (by rw [hφ, Function.update_self]) hholds hi hattempts (hstate i)
    · have hai : a.invoiceId ≠ i := fun ha => hi (hholds.2.2.2.made.invoiceId.symm.trans ha)
      refine System.Unseen.follows
        (.of_commit h hmove ht (fun d hdi => ⟨fun hd => ?_, fun hd => ?_⟩) (hstate i) ?_ ?_) hI
      · rcases Table.of_mem_insert (hattempts ▸ hd) with hd | rfl
        · exact hd
        · exact absurd hdi hai
      · exact hattempts ▸ Table.mem_insert_of_mem hd
      · rw [hholds.1.writes]
        simp [Commit.reservedOn, hai]
      · rw [hholds.1.writes]
        rfl
  | @paid c a http result endpoints update now now' rest hgood houtcome hresult hbind hrest htx
      hattempts hstate =>
    obtain ⟨hreserved, hstates⟩ := recorded_settle hrest.peripheral a.id update now
      [.updateInvoice c.invoiceId .paid now'] p i
    by_cases hi : c.invoiceId = i
    · obtain ⟨hbefore, hafter⟩ := h.stage_settle hsound hpre hgood hattempts hcalled hi
      rw [AttemptChange.bind_status hbind] at hafter
      refine hI.act (.succeed c.idempotencyKey) ?_ ?_ (hcalled.trans (List.append_nil _).symm) ?_
      · have hledger : t.ledger i =
            { (s.ledger i).put c.idempotencyKey .succeeded with state := some .paid } :=
          Ledger.ext ((hstate i).trans (if_pos hi.symm)) hafter
        rw [hledger]
        exact .succeed hbefore
      · rw [System.reservedOn_commit ht, htx.writes]
        exact congrArg _ hreserved
      · rw [System.statesOf_commit ht, htx.writes]
        refine congrArg _ (hstates.trans ?_)
        simp [Commit.statesOf, Ledger.moves, hi]
    · refine System.Unseen.follows (.of_commit h hmove ht (fun d hdi => ?_)
        ((hstate i).trans (if_neg (Ne.symm hi))) ?_ ?_) hI
      · exact mem_attempts_update hgood.2.2 hattempts (P := fun d => d.invoiceId = i) (fun _ => id)
          (fun ha => hi (hgood.2.1.invoiceId.symm.trans ha)) hdi
      · rw [htx.writes]
        exact hreserved
      · rw [htx.writes]
        refine hstates.trans ?_
        simp [Commit.statesOf, hi]
  | @unpaid c a http outcome endpoints update now rest hgood houtcome hpays hbind hrest htx
      hattempts hstate =>
    obtain ⟨hreserved, hstates⟩ := recorded_settle hrest.peripheral a.id update now [] p i
    rw [List.append_nil, ← htx.writes] at hreserved hstates
    by_cases hi : c.invoiceId = i
    · obtain ⟨hbefore, hafter⟩ := h.stage_settle hsound hpre hgood hattempts hcalled hi
      rw [AttemptChange.bind_status hbind] at hafter
      cases outcome with
      | error e =>
        -- the outcome is not known, and the payment stays as it is
        have hledger : t.ledger i = s.ledger i := by
          refine Ledger.ext (hstate i) (hafter.trans ?_)
          exact Function.update_eq_self_iff.mpr hbefore.symm
        refine System.Unseen.follows ⟨hledger, ?_, hcalled, ?_⟩ hI
        · rw [System.reservedOn_commit ht, hreserved]
          exact List.append_nil _
        · rw [System.statesOf_commit ht, hstates]
          exact List.append_nil _
      | ok result =>
        rw [outcomeChange, if_neg (show ¬result.Succeeded from hpays)] at hafter
        refine hI.act (.fail c.idempotencyKey) ?_ ?_ (hcalled.trans (List.append_nil _).symm) ?_
        · have hledger : t.ledger i = (s.ledger i).put c.idempotencyKey .failed :=
            Ledger.ext (hstate i) hafter
          rw [hledger]
          exact .fail hbefore
        · rw [System.reservedOn_commit ht]
          exact congrArg _ hreserved
        · rw [System.statesOf_commit ht]
          exact congrArg _ hstates
    · refine System.Unseen.follows
        (.of_commit h hmove ht (fun d hdi => ?_) (hstate i) hreserved hstates) hI
      exact mem_attempts_update hgood.2.2 hattempts (P := fun d => d.invoiceId = i) (fun _ => id)
        (fun ha => hi (hgood.2.1.invoiceId.symm.trans ha)) hdi
  | @transition c v x now hchecked htx hattempts hstate =>
    by_cases hi : c.invoiceId = i
    · refine hI.act (.move c.target) ?_ ?_ (hcalled.trans (List.append_nil _).symm) ?_
      · have hledger : t.ledger i = { s.ledger i with state := some c.target } := by
          refine Ledger.ext ((hstate i).trans (if_pos hi.symm)) (funext fun key => ?_)
          exact h.stage_congr hsound (fun _ _ _ => by rw [hattempts]) (by rw [hcalled])
        rw [hledger]
        refine .move ?_ (h.target_ne_paid hp hpre)
        exact Database.stateOf_ne_none.mpr (hi ▸ hchecked.exist)
      · rw [System.reservedOn_commit ht, htx.writes]
        rfl
      · rw [System.statesOf_commit ht, htx.writes]
        simp [Commit.statesOf, Ledger.moves, hi]
    · refine System.Unseen.follows (.of_commit h hmove ht (fun d _ => by rw [hattempts])
        ((hstate i).trans (if_neg (Ne.symm hi))) ?_ ?_) hI
      · rw [htx.writes]
        rfl
      · rw [htx.writes]
        simp [Commit.statesOf, hi]
  | other hwrites hattempts hstate =>
    have hreserved := Commit.reservedOn_nil (m := ⟨p, s.world.writesOf p⟩) hwrites i
    have hstates := statesOf_nil (m := ⟨p, s.world.writesOf p⟩) hwrites i
    rcases hstate i with hsame | ⟨hnone, hdraft⟩
    · exact System.Unseen.follows
        (.of_commit h hmove ht (fun d _ => by rw [hattempts]) hsame hreserved hstates) hI
    · refine hI.act .create ?_ ?_ (hcalled.trans (List.append_nil _).symm) ?_
      · have hledger : t.ledger i = { s.ledger i with state := some .draft } := by
          refine Ledger.ext hdraft (funext fun key => ?_)
          exact h.stage_congr hsound (fun _ _ _ => by rw [hattempts]) (by rw [hcalled])
        rw [hledger]
        exact .create hnone
      · rw [System.reservedOn_commit ht, hreserved]
        rfl
      · rw [System.statesOf_commit ht, hstates]
        rfl

/-- **Every move is an act of the ledger**, or leaves it as it is. -/
theorem System.Shows.move {acts : List (Ledger.Act String)} (h : s.Sound crypto φ)
    (hmove : s.Moves crypto φ e t φ') (hI : s.Shows i acts) :
    ∃ acts', Trace Ledger.Step (s.ledger i) acts' (t.ledger i) ∧ t.Shows i (acts ++ acts') := by
  have hsound := h.move hmove
  rcases h.commit_or hmove with ⟨hdb, hhistory, -⟩ | ⟨p, ph, hp, ht, hφ, hcommits⟩
  · rcases hmove.calledOn_or h i with hcalled | ⟨p, c, v, a, hph, hi, -, hcalled⟩
    · refine System.Unseen.follows ⟨Ledger.ext (congrArg (·.stateOf i) hdb) (funext fun key => ?_),
        ?_, hcalled, ?_⟩ hI
      · exact h.stage_congr hsound (fun _ _ _ => by rw [hdb]) (by rw [hcalled])
      · rw [System.reservedOn, hhistory]
        rfl
      · rw [World.statesOf, hhistory]
        rfl
    · exact hI.call h hsound hdb hhistory hph hi hcalled
  · exact hI.commit h hmove hp ht hφ hcommits

/-- What is kept along a run: the acts so far are those that have been recorded. -/
def System.Recording (crypto : Crypto) (i : Uuid) (s : System) (acts : List (Ledger.Act String)) :
    Prop :=
  (∃ φ, s.Sound crypto φ) ∧ s.Shows i acts

theorem System.shows_init (crypto : Crypto) (i : Uuid) : System.Recording crypto i .init [] :=
  ⟨⟨_, System.sound_init⟩, rfl, rfl, rfl⟩

/-- The system and the ledger of an invoice, step by step. -/
theorem System.follows_ledger (crypto : Crypto) (i : Uuid) :
    Refines (System.step crypto) Always Ledger.Step (System.ledger · i)
      (System.Recording crypto i) := by
  refine ⟨fun u acts e v ⟨⟨ψ, hu⟩, hI⟩ _ hstep => ?_⟩
  obtain ⟨ψ', hmove⟩ := System.moves_of_step hu.tracks hstep
  obtain ⟨acts', htrace, hI'⟩ := hI.move hu hmove
  exact ⟨acts', htrace, ⟨ψ', hu.move hmove⟩, hI'⟩

/-- **The service refines the ledgers**: in every state it can get into, an invoice with its
attempts and its calls is a ledger that has come about by steps of ledgers, and the acts are the
attempts, the calls and the states that have been recorded, each in their order. -/
theorem refines_ledger (hs : s.Reachable crypto) (i : Uuid) :
    ∃ acts, Trace Ledger.Step Ledger.empty acts (s.ledger i) ∧ s.Shows i acts := by
  obtain ⟨acts, htrace, -, hI⟩ := (System.follows_ledger crypto i).reaches hs
    (System.shows_init crypto i)
  exact ⟨acts, htrace, hI⟩

theorem refines_ledger_killedAfterCall : ∃ acts,
    Trace Ledger.Step Ledger.empty acts (killedAfterCall.ledger 0) ∧
      Ledger.calls acts = ["k1"] := by
  have hcalled : killedAfterCall.calledOn 0 = ["k1"] := by decide +kernel
  have hs : killedAfterCall.Reachable sampleCrypto := reaches_of_run (Option.some_get _).symm
  obtain ⟨acts, htrace, hshows⟩ := refines_ledger hs 0
  exact ⟨acts, htrace, hshows.calls.trans hcalled⟩

/-- What the stages say of the attempts. -/
theorem System.Sound.exists_of_stage (h : s.Sound crypto φ) (hne : s.stage i key ≠ .absent) :
    ∃ a ∈ s.world.db.attempts, a.invoiceId = i ∧ a.idempotencyKey.text = key ∧
      s.stage i key = a.status.stage (decide (key ∈ s.calledOn i)) := by
  cases hfind : s.world.db.attemptByKey i key with
  | none =>
    rw [System.stage, hfind] at hne
    exact absurd rfl hne
  | some a =>
    obtain ⟨ha, hi, hkey⟩ := (Database.attemptByKey_eq_some h.keys).mp hfind
    exact ⟨a, ha, hi, hkey, h.stage_eq ha hi hkey⟩

theorem PaymentStatus.stage_settled {status : PaymentStatus} {called : Bool} :
    (status.stage called).Settled ↔ status ≠ .pending := by
  cases status <;> cases called <;> simp [PaymentStatus.stage, Stage.Settled]

theorem PaymentStatus.stage_pending {status : PaymentStatus} {called : Bool} :
    (status.stage called).Pending ↔ status = .pending := by
  cases status <;> cases called <;> simp [PaymentStatus.stage, Stage.Pending]

/-- The payments of an invoice, of which those under the keys of `done` are settled, and those
under the keys of `rest` are in progress. -/
structure PaymentsSerial (s : System) (i : Uuid) (done rest : List String) : Prop where
  reserved : s.reservedOn i = done ++ rest
  called : s.calledOn i = done ∨ s.calledOn i = done ++ rest
  nodup : (done ++ rest).Nodup
  one : rest.length ≤ 1
  settled : ∀ key ∈ done, ∃ a ∈ s.world.db.attempts, a.invoiceId = i ∧ a.idempotencyKey.text = key ∧
    a.status ≠ .pending
  pending : ∀ key ∈ rest, ∃ a ∈ s.world.db.attempts, a.invoiceId = i ∧ a.idempotencyKey.text = key ∧
    a.status = .pending

/-- **The payments of an invoice come one after the other**, although their requests are
interleaved and no lock is held during a call: the provider has been called for the attempts in
the order of their commits, once for each, and the outcome of each call has been committed before
the next attempt. -/
theorem payments_serial (hs : s.Reachable crypto) (i : Uuid) :
    ∃ done rest, PaymentsSerial s i done rest := by
  obtain ⟨acts, htrace, ⟨φ, h⟩, hI⟩ :=
    (System.follows_ledger crypto i).reaches hs (System.shows_init crypto i)
  obtain ⟨done, rest, hserial⟩ := Ledger.serial htrace
  refine ⟨done, rest, hI.reserves.symm.trans hserial.reserves, ?_, hserial.nodup, hserial.one,
    fun key hkey => ?_, fun key hkey => ?_⟩
  · have hcalls : s.calledOn i = _ := hI.calls.symm.trans hserial.calls
    have hone := hserial.one
    cases rest with
    | nil => exact Or.inl (hcalls.trans (List.append_nil _))
    | cons k rest =>
      obtain rfl : rest = [] := List.eq_nil_of_length_eq_zero (by simpa using hone)
      rw [List.filter_singleton] at hcalls
      cases hd : decide ((s.ledger i).stage k = .called) with
      | false =>
        rw [hd] at hcalls
        exact Or.inl (hcalls.trans (List.append_nil _))
      | true =>
        rw [hd] at hcalls
        exact Or.inr hcalls
  · have hsettled : (s.stage i key).Settled := hserial.settled key hkey
    obtain ⟨a, ha, hi, hakey, hstage⟩ := h.exists_of_stage fun habsent => by
      rw [habsent] at hsettled
      exact hsettled
    exact ⟨a, ha, hi, hakey, PaymentStatus.stage_settled.mp (hstage ▸ hsettled)⟩
  · have hpending : (s.stage i key).Pending := hserial.pending key hkey
    obtain ⟨a, ha, hi, hakey, hstage⟩ := h.exists_of_stage fun habsent => by
      rw [habsent] at hpending
      exact hpending
    exact ⟨a, ha, hi, hakey, PaymentStatus.stage_pending.mp (hstage ▸ hpending)⟩

/-- The invoice is finalized and a first payment is declined. Of the next two, one has called the
provider and waits for the answer; the other one, which comes in between, is refused. -/
def payingNext : List Event :=
  drafting ++ [.request (.finalize 0)] ++ Event.steps 2 5 ++
    [.request (.pay 0 "tok_visa" "k1")] ++ Event.steps 3 5 ++
    [.exec 3 { http := sampleReply "failed" "ch_1" }] ++ Event.steps 3 6 ++
    [.request (.pay 0 "tok_visa" "k2"), .request (.pay 0 "tok_visa" "k3")] ++ Event.steps 4 2 ++
    Event.steps 5 1 ++ [.exec 4 { ids := fun n => n + 1 }] ++ Event.steps 4 1 ++ Event.steps 5 1 ++
    [.exec 5 { ids := fun n => n + 2,
               errorText := "uq_payment_attempts_one_pending_per_invoice " ++ Uuid.str 0 }] ++
    Event.steps 4 1 ++ Event.steps 5 2

theorem payments_serial_payingNext : ∃ s, run (System.step sampleCrypto) .init payingNext = some s ∧
    PaymentsSerial s 0 ["k1"] ["k2"] ∧ s.calledOn 0 = ["k1", "k2"] ∧ s.raised? 5 ≠ none := by
  obtain ⟨s, hrun, hany⟩ := (Option.any_eq_true _ _).mp (by decide +kernel :
    (run (System.step sampleCrypto) .init payingNext).any (fun s => s.reservedOn 0 = ["k1", "k2"] ∧
      s.calledOn 0 = ["k1", "k2"] ∧ (s.raised? 5).isSome ∧
        ∀ a ∈ s.world.db.attempts.rows, a.idempotencyKey.text = "k2" → a.status = .pending) = true)
  obtain ⟨hreserved, hcalled, hraised, hpending⟩ := of_decide_eq_true hany
  obtain ⟨done, rest, hserial⟩ := payments_serial (reaches_of_run hrun) 0
  have heq : done ++ rest = ["k1"] ++ ["k2"] := hserial.reserved.symm.trans hreserved
  -- the second attempt is not among those that are settled
  obtain ⟨k, rfl⟩ : ∃ k, rest = [k] := by
    refine List.length_eq_one_iff.mp (le_antisymm hserial.one (Nat.pos_of_ne_zero fun hzero => ?_))
    rw [List.eq_nil_of_length_eq_zero hzero, List.append_nil] at heq
    obtain ⟨a, ha, -, hkey, hsettled⟩ := hserial.settled "k2" (by simp [heq])
    exact hsettled (hpending a ha hkey)
  obtain ⟨rfl, hk⟩ := List.append_inj' heq rfl
  rw [hk] at hserial
  exact ⟨s, hrun, hserial, hcalled, Option.ne_none_iff_isSome.mpr hraised⟩

end Moves

end TenantBilling
