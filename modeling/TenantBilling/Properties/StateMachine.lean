import TenantBilling.Invariant.Reads
import TenantBilling.Properties.Conditions

/-!
# The state machine of the invoices

Whether the committed states of an invoice move along the table of allowed transitions.
Every change of state is checked against a state that the request has read
(`TenantBilling.System.update_checked`), but what it overwrites is the state that is there
when its `UPDATE` is executed: in between, another request may have moved the invoice on
(`TenantBilling.not_allowed_states`). If the `UPDATE` finds what the request has read, the
committed states follow the table (`TenantBilling.allowed_states`), for the row is locked
from then on until the commit.
-/

namespace TenantBilling

open Base World

/-- The states of an invoice that a transaction has written. -/
def Commit.statesOf (m : Commit) (i : Uuid) : List InvoiceState :=
  m.writes.filterMap fun
    | .updateInvoice j state _ => if j = i then some state else none
    | _ => none

/-- The states of an invoice that have been committed since it was inserted, in order. -/
def World.statesOf (w : World) (i : Uuid) : List InvoiceState := w.history.flatMap (·.statesOf i)

/-- The committed state of the invoice has a transition to the state in the table. -/
def Allows (db : Database) (i : Uuid) (target : InvoiceState) : Prop :=
  ∃ state, db.stateOf i = some state ∧ target ∈ allowedTransitions state

/-- **An `UPDATE` finds the state that its session has loaded**: what is committed when the server
executes it is what the request has read. -/
def FindsLoaded (crypto : Crypto) (x : List Event × System) : Event → Prop
  | .exec p _ =>
    match x.2.next? p with
    | some (.updateInvoice i _) =>
      x.2.world.db.stateOf i = stateLoaded? i (System.transcript crypto p .init x.1)
    | _ => True
  | _ => True

instance (crypto : Crypto) (x : List Event × System) : ∀ e, Decidable (FindsLoaded crypto x e)
  | .exec p _ => by
    unfold FindsLoaded
    dsimp only
    split <;> infer_instance
  | .start _ | .abort .. | .kill _ => inferInstanceAs (Decidable True)

section Runs

variable {crypto : Crypto} {s t : System} {φ φ' : Pid → Phase} {e : Event}

theorem statesOf_nil {m : Commit} (h : ∀ x ∈ m.writes, x.Peripheral) (i : Uuid) :
    m.statesOf i = [] := by
  refine List.filterMap_eq_nil_iff.mpr fun x hx => ?_
  cases x with
  | updateInvoice => exact (h _ hx).elim
  | _ => rfl

/-- The committed states of the invoices so far, and what is about to be committed. -/
structure Follows (w : World) : Prop where
  chain : ∀ i, List.IsChain (fun state state' => state' ∈ allowedTransitions state)
    (.draft :: w.statesOf i)
  last : ∀ i state, w.db.stateOf i = some state → (.draft :: w.statesOf i).getLast? = some state
  fresh : ∀ i, w.db.stateOf i = none → w.statesOf i = []
  updates : WhilePending Allows w

/-- A commit that writes no state of the invoice. -/
theorem Follows.skip {w w' : World} (hI : Follows w) {i : Uuid}
    (hstates : w'.statesOf i = w.statesOf i) (hstate : w'.db.stateOf i = w.db.stateOf i ∨
      w.db.stateOf i = none ∧ w'.db.stateOf i = some .draft) :
    List.IsChain (fun state state' => state' ∈ allowedTransitions state) (.draft :: w'.statesOf i) ∧
      (∀ state, w'.db.stateOf i = some state → (.draft :: w'.statesOf i).getLast? = some state) ∧
        (w'.db.stateOf i = none → w'.statesOf i = []) := by
  rw [hstates]
  rcases hstate with hstate | ⟨hnone, hdraft⟩
  · rw [hstate]
    exact ⟨hI.chain i, hI.last i, hI.fresh i⟩
  · rw [hdraft, hI.fresh i hnone]
    exact ⟨List.isChain_singleton _, fun state hs => hs, (by simp)⟩

/-- A commit that writes the next state of the invoice. -/
theorem Follows.write {w w' : World} (hI : Follows w) {i : Uuid} {state : InvoiceState}
    (hstates : w'.statesOf i = w.statesOf i ++ [state]) (hnew : w'.db.stateOf i = some state)
    (hold : Allows w.db i state) :
    List.IsChain (fun state state' => state' ∈ allowedTransitions state) (.draft :: w'.statesOf i) ∧
      (∀ state, w'.db.stateOf i = some state → (.draft :: w'.statesOf i).getLast? = some state) ∧
        (w'.db.stateOf i = none → w'.statesOf i = []) := by
  obtain ⟨old, hold, hallowed⟩ := hold
  rw [hstates, hnew, ← List.cons_append]
  refine ⟨?_, fun state' hs => ?_, (by simp)⟩
  · refine (hI.chain i).append (List.isChain_singleton _) fun x hx y hy => ?_
    rw [hI.last i _ hold] at hx
    rwa [← Option.some.inj hx, ← Option.some.inj hy]
  · rw [List.getLast?_append]
    exact hs

/-- **Where the loaded state is found, the table allows the new one**: it is the one that has been
checked. -/
theorem FindsLoaded.allows {es : List Event} (h : FindsLoaded crypto (es, s) e)
    (hrun : run (System.step crypto) .init es = some s) : WhenUpdating Allows s e := by
  cases e with
  | exec p env =>
    dsimp only [WhenUpdating]
    split
    case h_1 i target hnext =>
      simp only [FindsLoaded, hnext] at h
      obtain ⟨state, hloaded, hallowed⟩ := System.update_checked hrun hnext
      exact ⟨state, h.trans hloaded, hallowed⟩
    case h_2 => trivial
  | _ => trivial

/-- **One step**: an `UPDATE` that the table allows is still allowed when it is committed, because
the row has been locked since. -/
theorem Follows.move (h : s.Sound crypto φ) (hI : Follows s.world) (hC : WhenUpdating Allows s e)
    (hmove : s.Moves crypto φ e t φ') : Follows t.world := by
  have hupdates : WhilePending Allows t.world := by
    refine hI.updates.move h hC hmove (fun _ _ _ => id) ?_
    rintro p q ph i state hlock hne hcommits ⟨old, hold, hallowed⟩
    rcases hcommits.stateOf_of_lock hlock hne with hi | ⟨hnone, -⟩
    · exact ⟨old, hi.trans hold, hallowed⟩
    · rw [hnone] at hold
      cases hold
  suffices hall : ∀ i, List.IsChain (fun state state' => state' ∈ allowedTransitions state)
      (.draft :: t.world.statesOf i) ∧
        (∀ state, t.world.db.stateOf i = some state →
          (.draft :: t.world.statesOf i).getLast? = some state) ∧
          (t.world.db.stateOf i = none → t.world.statesOf i = []) from
    ⟨fun i => (hall i).1, fun i => (hall i).2.1, fun i => (hall i).2.2, hupdates⟩
  intro i
  -- without a commit nothing is recorded
  rcases h.commit_or hmove with ⟨hdb, hhistory, -⟩ | ⟨p, ph, hp, ht, -, hcommits⟩
  · refine hI.skip ?_ (Or.inl (by rw [hdb]))
    rw [World.statesOf, hhistory, World.statesOf]
  have hstates : ∀ states, Commit.statesOf ⟨p, s.world.writesOf p⟩ i = states →
      t.world.statesOf i = s.world.statesOf i ++ states := by
    intro states hcommit
    rw [World.statesOf, ht, history_commit, List.flatMap_append, List.flatMap_singleton, hcommit]
    rfl
  have hskip : Commit.statesOf ⟨p, s.world.writesOf p⟩ i = [] →
      t.world.statesOf i = s.world.statesOf i :=
        fun hnil => (hstates [] hnil).trans (List.append_nil _)
  generalize hph : φ p = ph' at hcommits
  cases hcommits with
  | reserve hholds hattempts hstate =>
    refine hI.skip (hskip ?_) (Or.inl (hstate i))
    rw [hholds.1.writes]
    rfl
  | unpaid hgood houtcome hpays hbind hrest htx hattempts hstate =>
    refine hI.skip (hskip ?_) (Or.inl (hstate i))
    rw [htx.writes]
    exact statesOf_nil (m := ⟨p, _⟩) hrest.peripheral i
  | other hwrites hattempts hstate => exact hI.skip (hskip (statesOf_nil hwrites i)) (hstate i)
  | @paid c a _ _ _ update now now' rest hgood houtcome hresult hbind hrest htx hattempts hstate =>
    have hmem : .updateInvoice c.invoiceId .paid now' ∈ s.world.writesOf p := by
      rw [htx.writes]
      simp
    have hnil : Commit.statesOf ⟨p, rest⟩ i = [] := statesOf_nil hrest.peripheral i
    -- of the commit's writes only that of the payment's invoice sets a state
    have hcommit : Commit.statesOf ⟨p, s.world.writesOf p⟩ i =
        if c.invoiceId = i then [.paid] else [] := by
      rw [htx.writes, Commit.statesOf, List.filterMap_append]
      refine Eq.trans (congrArg _ hnil) ?_
      split
      case isTrue hi => simp [hi]
      case isFalse hi => simp [hi]
    -- the invoice itself takes a step of the table, the others stay
    by_cases hi : c.invoiceId = i
    · subst hi
      rw [if_pos rfl] at hcommit
      refine hI.write (hstates _ hcommit) ?_ (hI.updates p _ _ _ hmem)
      rw [hstate, if_pos rfl]
    · rw [if_neg hi] at hcommit
      refine hI.skip (hskip hcommit) (Or.inl ?_)
      rw [hstate, if_neg (Ne.symm hi)]
  | @transition c v x now hchecked htx hattempts hstate =>
    have hmem : .updateInvoice c.invoiceId c.target now ∈ s.world.writesOf p := by
      rw [htx.writes]
      exact List.mem_singleton_self _
    have hcommit : Commit.statesOf ⟨p, s.world.writesOf p⟩ i =
        if c.invoiceId = i then [c.target] else [] := by
      rw [htx.writes, Commit.statesOf]
      split
      case isTrue hi => simp [hi]
      case isFalse hi => simp [hi]
    by_cases hi : c.invoiceId = i
    · subst hi
      rw [if_pos rfl] at hcommit
      refine hI.write (hstates _ hcommit) ?_ (hI.updates p _ _ _ hmem)
      rw [hstate, if_pos rfl]
    · rw [if_neg hi] at hcommit
      refine hI.skip (hskip hcommit) (Or.inl ?_)
      rw [hstate, if_neg (Ne.symm hi)]

/-- **The committed states of every invoice follow the table**, from draft to the state it is
in, in every run in which each `UPDATE` of a state finds the state its request has read. -/
theorem allowed_states {x : List Event × System}
    (hreach : Reaches (record (System.step crypto)) (FindsLoaded crypto) ([], .init) x) (i : Uuid) :
    List.IsChain (fun state state' => state' ∈ allowedTransitions state)
        (.draft :: x.2.world.statesOf i) ∧
      ∀ state, x.2.world.db.stateOf i = some state →
        (.draft :: x.2.world.statesOf i).getLast? = some state := by
  have hinit : Follows World.init :=
    ⟨fun i => List.isChain_singleton _, (fun i state h => by cases h), fun i _ => rfl,
      fun p i state now h => by cases h⟩
  obtain ⟨-, φ, -, hI⟩ := hreach.recorded
    (I := fun _ u => ∃ φ, u.Sound crypto φ ∧ Follows u.world) ⟨_, System.sound_init, hinit⟩ <| by
      rintro es u e v hrun ⟨φ, hu, hI⟩ hC hstep
      obtain ⟨φ', hmove⟩ := System.moves_of_step hu.tracks hstep
      exact ⟨φ', hu.move hmove, hI.move hu (hC.allows hrun) hmove⟩
  exact ⟨hI.chain i, hI.last i⟩

/-- The invoice is finalized and voided, and a late `uncollectible` is refused. -/
def voidingFirst : List Event × System :=
  (runIf (record (System.step sampleCrypto)) (FindsLoaded sampleCrypto) ([], .init)
    (drafting ++ [.request (.finalize 0)] ++ Event.steps 2 5 ++
      [.request (.void 0)] ++ Event.steps 3 5 ++
      [.request (.uncollectible 0)] ++ Event.steps 4 2)).get (by decide +kernel)

/-- The state after it. -/
def voidedFirst : System := voidingFirst.2

theorem reaches_voidingFirst : Reaches (record (System.step sampleCrypto))
    (FindsLoaded sampleCrypto) ([], .init) voidingFirst :=
  reaches_of_runIf (Option.some_get _).symm

theorem allowed_voidedFirst :
    voidedFirst.world.statesOf 0 = [.open, .void] ∧
      List.IsChain (fun state state' => state' ∈ allowedTransitions state)
        (.draft :: voidedFirst.world.statesOf 0) := by
  rw [voidedFirst]
  exact ⟨by decide +kernel, (allowed_states reaches_voidingFirst 0).1⟩

theorem voidedFirst_reachable : voidedFirst.Reachable sampleCrypto := by
  rw [voidedFirst]
  exact reaches_of_run reaches_voidingFirst.run_recorded

/-- A `void` and an `uncollectible` request both read the open invoice, then both write. -/
def voidingUncollectible : List Event :=
  drafting ++ [.request (.finalize 0)] ++ Event.steps 2 5 ++
    [.request (.void 0), .request (.uncollectible 0)] ++ Event.steps 3 1 ++ Event.steps 4 1 ++
    Event.steps 3 4 ++ Event.steps 4 4

/-- Without the condition an invoice may leave a terminal state. -/
theorem not_allowed_states : ¬∀ s : System, s.Reachable sampleCrypto → ∀ i,
    List.IsChain (fun state state' => state' ∈ allowedTransitions state)
      (.draft :: s.world.statesOf i) := by
  intro h
  have hchain :=
    h ((run (System.step sampleCrypto) .init voidingUncollectible).get (by decide +kernel))
    (reaches_of_run (Option.some_get _).symm) 0
  revert hchain
  decide +kernel

end Runs

end TenantBilling
