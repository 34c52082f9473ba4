import TenantBilling.Invariant.Moves

/-!
# The invariant of the system is kept

Every move keeps `TenantBilling.System.Sound`: the session that steps hands over what it
knows, the others keep what they know, and the rows of `payment_attempts` keep to the
unique indexes. With it comes the invariant rule the results about runs are proved with
(`TenantBilling.System.Reaches.sound`).
-/

namespace TenantBilling

open Base World

section Step

variable {crypto : Crypto} {w w' : World} {p q : Pid} {st : Stmt} {r : st.Resp}

/-! ### The session that steps -/

theorem Phase.Next.handsOver {ph ph' : Phase} (hnext : ph.Next crypto st r ph')
    (hcons : w.Consistent) (hexist : ∀ a ∈ w.db.attempts, w.db.invoices.find? a.invoiceId ≠ none)
    (hholds : ph.Holds crypto w p) (hgood : ph.HoldsForGood crypto w p)
    (hans : w.Answers p st r w') : ph'.Holds crypto w' p ∧ ph'.HoldsForGood crypto w' p := by
  have hcharges : ¬st.IsCharge → w'.chargesOf p = w.chargesOf p := by
    intro hst
    unfold chargesOf
    rw [hans.effect.charges hst]
  cases hnext with
  | pay hout r => exact PayPoint.HandsOver.step hcons hexist ⟨hholds, hgood⟩ hout hans
  | transition hout r =>
    exact ⟨hholds.step hout hans, (hcharges (TransitionPoint.not_isCharge hout)).trans hgood⟩
  | other hst r => exact ⟨hholds.step hst hans, (hcharges hst.not_isCharge).trans hgood⟩

/-- A payment commits one attempt, and does so once. -/
theorem Phase.Next.committed? {ph ph' : Phase} (hnext : ph.Next crypto st r ph')
    (hholds : ph.Holds crypto w p) (hgood : ph.HoldsForGood crypto w p)
    (hans : w.Answers p st r w') :
    ph'.committed? = ph.committed? ∨
      ∃ c v a, ph = .pay c (.reserve v a) ∧ st = .commit ∧ ph' = .pay c (.send v a) := by
  cases hnext with
  | transition hout r => exact Or.inl rfl
  | other hst r => exact Or.inl rfl
  | @pay c pt _ next hout _ =>
    cases pt with
    | reserve v a =>
      cases hout
      exact Or.inr ⟨c, v, a, rfl, rfl, rfl⟩
    | lookup =>
      cases hout
      rcases r with _ | a
      · exact Or.inl rfl
      · dsimp only
        split <;> exact Or.inl rfl
    | lock =>
      cases hout
      rcases r with e | _ | v
      · exact Or.inl rfl
      · exact Or.inl rfl
      · dsimp only
        split <;> exact Or.inl rfl
    | insert v =>
      cases hout
      rcases r with e | a
      · cases e <;> exact Or.inl rfl
      · exact Or.inl rfl
    | undo errorMsg =>
      cases hout
      dsimp only
      split <;> exact Or.inl rfl
    | relookup =>
      cases hout
      rcases r with _ | a
      · exact Or.inl rfl
      · dsimp only
        split <;> exact Or.inl rfl
    | receive v a =>
      cases hout
      dsimp only
      split <;> exact Or.inl rfl
    | refetch v a http outcome =>
      cases hout
      obtain ⟨⟨env, hr⟩, -⟩ := answers_select hans
      -- the row is read again after the call: it is the one committed before
      obtain rfl : r = some a := by
        rw [hr, hholds.1.view]
        exact hgood.2.2
      exact Or.inl (by simp [committed?, PayPoint.progress, PaymentAttempt.orLoaded])
    | record v a http outcome =>
      cases hout
      rcases r with e | _
      · exact Or.inl rfl
      · cases outcome with
        | error e => exact Or.inl rfl
        | ok result =>
          dsimp only [PayPoint.recorded]
          split <;> exact Or.inl rfl
    | relock v a http result =>
      cases hout
      rcases r with e | _ | row
      · exact Or.inl rfl
      · exact Or.inl rfl
      · dsimp only
        split <;> exact Or.inl rfl
    | markPaid a http result =>
      cases hout
      rcases r with e | _ <;> exact Or.inl rfl
    | listEndpoints a http result =>
      cases hout
      rcases r with _ | ⟨e, es⟩ <;> exact Or.inl rfl
    | outbox a http result endpoints now =>
      cases hout
      rcases r with e | _ <;> exact Or.inl rfl
    | refresh a http =>
      cases hout
      rcases r with _ | row <;> exact Or.inl rfl
    | done x g => cases hout
    | _ =>
      cases hout
      exact Or.inl rfl

end Step

/-! ### The commits -/

section Commit

variable {crypto : Crypto} {s : System} {φ : Pid → Phase} {p : Pid}

theorem System.Sound.mayWrite (h : s.Sound crypto φ) (p : Pid) :
    ∀ x ∈ s.world.writesOf p, (φ p).MayWrite x := by
  by_cases hp : s.Alive p
  · exact (h.alive p hp).mayWrite
  · intro x hx
    rw [(h.idle p hp).writes] at hx
    cases hx

theorem Phase.MayWrite.advances {ph : Phase} {x : Write} (h : ph.MayWrite x) : x.Advances := by
  cases x with
  | updateAttempt id update now => exact h.1
  | _ => trivial

/-- A session that writes an attempt is alive and about to commit it. -/
theorem System.Sound.reserving (h : s.Sound crypto φ) {a : PaymentAttempt}
    (ha : .insertAttempt a ∈ s.world.writesOf p) :
    ∃ c v, φ p = .pay c (.reserve v a) ∧ (PayPoint.reserve v a).Holds crypto s.world p c := by
  obtain ⟨c, v, hph⟩ := h.mayWrite p _ ha
  refine ⟨c, v, hph, ?_⟩
  by_cases hp : s.Alive p
  · have hholds := h.alive p hp
    rw [hph] at hholds
    exact hholds
  · rw [(h.idle p hp).writes] at ha
    cases ha

/-- **Where the attempts come from that a commit leaves**: each was there, perhaps pending,
or it is the one the session has inserted. -/
theorem System.Sound.attempts_view (h : s.Sound crypto φ) {b : PaymentAttempt}
    (hb : b ∈ (s.world.view p).attempts) :
    ∃ a, a.Advances b ∧ (a ∈ s.world.db.attempts ∨ .insertAttempt a ∈ s.world.writesOf p) :=
  mem_attempts_applyAll (fun x hx => (h.mayWrite p x hx).advances) hb

/-- A commit leaves the attempts of the other sessions alone. -/
theorem System.Sound.find?_attempt_view (h : s.Sound crypto φ) {q : Pid} {a : PaymentAttempt}
    (ha : (φ q).committed? = some a) (hne : p ≠ q) (hfind : s.world.db.attempts.find? a.id ≠ none) :
    (s.world.view p).attempts.find? a.id = s.world.db.attempts.find? a.id := by
  refine Database.find?_attempts_eq (Database.row_applyAll ?_ ?_)
  · intro x hx hr
    have hmay := h.mayWrite p x hx
    cases x with
    | updateAttempt id update now =>
      obtain ⟨-, b, hb, rfl⟩ := hmay
      have hid : a.id = b.id := congrArg RowRef.id (List.mem_singleton.mp hr)
      exact hne (h.owner p q b a hb ha hid.symm)
    | updateInvoice | deactivateEndpoint | updateDelivery => cases List.mem_singleton.mp hr
    | _ => cases hr
  · intro x _ _
    simpa [Database.row] using hfind

theorem find?_view_ne_none {w : World} {i : Uuid} (h : w.db.invoices.find? i ≠ none) :
    (w.view p).invoices.find? i ≠ none :=
  find?_invoices_ne_none.mp (row_applyAll_ne_none (find?_invoices_ne_none.mpr h))

/-- What is known of a payment for good includes that its attempt is a row. -/
theorem Phase.HoldsForGood.row {ph : Phase} {w : World} {q : Pid} (h : ph.HoldsForGood crypto w q)
    {a : PaymentAttempt} (ha : ph.committed? = some a) :
    ∃ b, w.db.attempts.find? a.id = some b ∧ a.Advances b := by
  cases ph with
  | transition c pt => cases ha
  | other => cases ha
  | pay c pt =>
    change pt.progress.Holds crypto w q c at h
    change pt.progress.attempt? = some a at ha
    cases hg : pt.progress with
    | nothing =>
      rw [hg] at ha
      cases ha
    | reserved a' =>
      rw [hg] at h ha
      obtain rfl := Option.some.inj ha
      exact ⟨a', h.2.2, .refl a'⟩
    | called a' =>
      rw [hg] at h ha
      obtain rfl := Option.some.inj ha
      exact ⟨a', h.2.2, .refl a'⟩
    | answered a' http =>
      rw [hg] at h ha
      obtain rfl := Option.some.inj ha
      exact ⟨a', h.2.2, .refl a'⟩
    | settled a' http =>
      rw [hg] at h ha
      obtain rfl := Option.some.inj ha
      obtain ⟨-, hmade, update, now, -, hfind⟩ := h
      exact ⟨_, hfind, rfl, rfl, rfl, fun _ => hmade.status⟩

/-- The rows that a commit leaves, compared by an entry in a unique index. -/
theorem System.Sound.unique_view (h : s.Sound crypto φ)
    {entry : PaymentAttempt → PaymentAttempt → Bool} (hsymm : ∀ a b, entry a b = entry b a)
    (hback : ∀ a b c : PaymentAttempt, b.Advances c → entry a c = true → entry a b = true)
    (hunique : ∀ a ∈ s.world.db.attempts, ∀ b ∈ s.world.db.attempts, entry a b = true → a = b)
    (hinsert : ∀ c a, Reserving crypto s.world c a → ∀ b ∈ s.world.db.attempts, entry a b = false) :
    ∀ a ∈ (s.world.view p).attempts, ∀ b ∈ (s.world.view p).attempts, entry a b = true → a = b := by
  intro a ha b hb hab
  obtain ⟨a', haa', ha'⟩ := h.attempts_view ha
  obtain ⟨b', hbb', hb'⟩ := h.attempts_view hb
  have hentry : entry a' b' = true := by
    rw [hsymm]
    refine hback _ _ _ haa' ?_
    rw [hsymm]
    exact hback _ _ _ hbb' hab
  -- rows with one key are one row
  refine Table.eq_of_key_eq ha hb (haa'.id.symm.trans (Eq.trans ?_ hbb'.id))
  have hcross : ∀ {x y : PaymentAttempt}, .insertAttempt x ∈ s.world.writesOf p →
      y ∈ s.world.db.attempts → entry x y = true → x.id = y.id := by
    intro x y hx hy hxy
    obtain ⟨c, v, -, hholds⟩ := h.reserving hx
    rw [hinsert c x hholds.2.2.2 y hy] at hxy
    cases hxy
  rcases ha' with ha' | ha'
  · rcases hb' with hb' | hb'
    · rw [hunique a' ha' b' hb' hentry]
    · exact (hcross hb' ha' (hsymm a' b' ▸ hentry)).symm
  · rcases hb' with hb' | hb'
    · exact hcross ha' hb' hentry
    · obtain ⟨c, v, hph, -⟩ := h.reserving ha'
      obtain ⟨c', v', hph', -⟩ := h.reserving hb'
      rw [hph] at hph'
      cases hph'
      rfl

/-- A session that is about to commit an attempt still is after the commit of another: the
other one does not hold the lock of the invoice. -/
theorem System.Sound.reserving_commit (h : s.Sound crypto φ) {q : Pid} (hne : p ≠ q) {c : PayCall}
    {v : Invoice} {a : PaymentAttempt} (hq : (PayPoint.reserve v a).Holds crypto s.world q c) :
    Reserving crypto (s.world.commit p) c a := by
  have hres := hq.2.2.2
  have hlock : s.world.locks c.invoiceRef = some q :=
    (hq.1.locks _).mpr (List.mem_singleton_self _)
  have hother : ∀ b, .insertAttempt b ∈ s.world.writesOf p → a.invoiceId ≠ b.invoiceId := by
    intro b hb hab
    obtain ⟨c', v', -, hholds⟩ := h.reserving hb
    have hlock' : s.world.locks c'.invoiceRef = some p :=
      (hholds.1.locks _).mpr (List.mem_singleton_self _)
    have hinvoice : c.invoiceId = c'.invoiceId := by
      rw [← hres.made.invoiceId, ← hholds.2.2.2.made.invoiceId, hab]
    have hrow : c.invoiceRef = c'.invoiceRef := by
      rw [PayCall.invoiceRef, PayCall.invoiceRef, hinvoice]
    rw [hrow, hlock'] at hlock
    exact hne (Option.some.inj hlock)
  refine ⟨hres.made, fun b hb => ?_, fun b hb => ?_⟩
  · obtain ⟨b', hbb', hb' | hb'⟩ := h.attempts_view hb
    · rw [hbb'.sameKey]
      exact hres.noSameKey b' hb'
    · rw [hbb'.sameKey]
      simp [PaymentAttempt.sameKey, hother b' hb']
  · by_contra hab
    have hab' : a.samePending b = true := by simpa using hab
    obtain ⟨b', hbb', hb' | hb'⟩ := h.attempts_view hb
    · have hfalse := hres.noSamePending b' hb'
      rw [hbb'.samePending hab'] at hfalse
      cases hfalse
    · refine hother b' hb' (Eq.trans ?_ hbb'.invoiceId.symm)
      simp only [PaymentAttempt.samePending, Bool.and_eq_true, decide_eq_true_eq] at hab'
      exact hab'.1.1

end Commit

/-! ### The moves -/

section Moves

variable {crypto : Crypto} {s t : System} {φ φ' : Pid → Phase} {p : Pid}

namespace System

theorem sound_init : init.Sound crypto fun _ => .other where
  tracks p proc h := by cases h
  absent p _ := rfl
  alive p h := by
    obtain ⟨proc, hproc, -⟩ := h
    cases hproc
  idle p _ := ⟨rfl, fun r => by simp [init, World.init]⟩
  forGood p := rfl
  consistent := consistent_init
  owner p q a b ha _ _ := by cases ha
  owned a ha := absurd ha (Table.not_mem_empty a)
  keys a ha := absurd ha (Table.not_mem_empty a)
  pending a ha := absurd ha (Table.not_mem_empty a)
  invoice a ha := absurd ha (Table.not_mem_empty a)

/-- A program that has just started is the last one. -/
theorem getElem?_start {procs : List Proc} {proc proc' : Proc} {q : Pid}
    (h : (procs ++ [proc])[q]? = some proc') :
    q ≠ procs.length ∧ procs[q]? = some proc' ∨ q = procs.length ∧ proc' = proc := by
  rcases lt_trichotomy q procs.length with hlt | rfl | hgt
  · rw [List.getElem?_append_left hlt] at h
    exact Or.inl ⟨hlt.ne, h⟩
  · rw [List.getElem?_concat_length] at h
    exact Or.inr ⟨rfl, (Option.some.inj h).symm⟩
  · rw [List.getElem?_eq_none (List.length_append ▸ hgt)] at h
    cases h

/-- What only the database tells is kept by a step that leaves it alone. -/
theorem Sound.owned_of_committed? (h : s.Sound crypto φ) {db : Database}
    (hdb : db.attempts = s.world.db.attempts)
    (hcommitted : ∀ q a, (φ q).committed? = some a → (φ' q).committed? = some a) :
    ∀ a ∈ db.attempts, ∃ p b, (φ' p).committed? = some b ∧ b.id = a.id := by
  intro a ha
  rw [hdb] at ha
  obtain ⟨q, b, hb, hid⟩ := h.owned a ha
  exact ⟨q, b, hcommitted q b hb, hid⟩

theorem Sound.start (h : s.Sound crypto φ) (job : Job) :
    Sound crypto ⟨s.world, s.procs ++ [⟨job, job.program crypto, true⟩]⟩
      (Function.update φ s.procs.length job.phase) := by
  set n := s.procs.length with hn
  have hother : φ n = .other := h.absent n (List.getElem?_eq_none hn.ge)
  have hdead : ¬s.Alive n := by
    rintro ⟨proc, hproc, -⟩
    rw [List.getElem?_eq_none hn.ge] at hproc
    cases hproc
  have hidle := h.idle n hdead
  have hcharges : s.world.chargesOf n = [] := by
    have hgood := h.forGood n
    rw [hother] at hgood
    exact hgood
  -- the new session knows what it needs to
  have hnew : job.phase.Holds crypto s.world n ∧ job.phase.HoldsForGood crypto s.world n ∧
      job.phase.committed? = none := by
    have haside : s.world.Aside n := by
      refine ⟨fun x hx => ?_, fun r hr => ?_⟩
      · rw [hidle.writes] at hx
        cases hx
      · exact absurd ((hidle.locks r).mp hr) List.not_mem_nil
    have hpay : ∀ c, (PayPoint.start c).HandsOver crypto s.world n c ∧
        (PayPoint.start c).progress.attempt? = none := by
      intro c
      refine ⟨handsOver_start hidle hcharges, ?_⟩
      unfold PayPoint.start
      split <;> rfl
    cases job with
    | poll => exact ⟨haside, hcharges, rfl⟩
    | request business req =>
      cases req with
      | pay i token key =>
        obtain ⟨⟨hholds, hgood⟩, hnone⟩ := hpay ⟨business, i, token, key⟩
        exact ⟨hholds, hgood, hnone⟩
      | finalize i => exact ⟨hidle, hcharges, rfl⟩
      | void i => exact ⟨hidle, hcharges, rfl⟩
      | uncollectible i => exact ⟨hidle, hcharges, rfl⟩
      | _ => exact ⟨haside, hcharges, rfl⟩
  have hcommitted : ∀ q a, (φ q).committed? = some a →
      (Function.update φ n job.phase q).committed? = some a := by
    intro q a ha
    by_cases hq : q = n
    · rw [hq, hother] at ha
      cases ha
    · rwa [Function.update_of_ne hq]
  have hback : ∀ q a, (Function.update φ n job.phase q).committed? = some a →
      (φ q).committed? = some a := by
    intro q a ha
    by_cases hq : q = n
    · subst hq
      rw [Function.update_self, hnew.2.2] at ha
      cases ha
    · rwa [Function.update_of_ne hq] at ha
  refine ⟨fun q proc hproc => ?_, fun q hq => ?_, fun q hq => ?_, fun q hq => ?_, fun q => ?_,
    h.consistent, fun q q' a b ha hb => h.owner q q' a b (hback q a ha) (hback q' b hb),
    h.owned_of_committed? rfl hcommitted, h.keys, h.pending, h.invoice⟩
  · rcases getElem?_start hproc with ⟨hq, hproc⟩ | ⟨rfl, rfl⟩
    · rw [Function.update_of_ne hq]
      exact h.tracks q proc hproc
    · rw [Function.update_self]
      exact job.tracks_phase true
  · have hlen : n + 1 ≤ q := by simpa [hn] using List.getElem?_eq_none_iff.mp hq
    rw [Function.update_of_ne (Nat.ne_of_gt hlen)]
    exact h.absent q (List.getElem?_eq_none (Nat.le_of_succ_le hlen))
  · obtain ⟨proc, hproc, halive⟩ := hq
    rcases getElem?_start hproc with ⟨hq, hproc⟩ | ⟨rfl, rfl⟩
    · rw [Function.update_of_ne hq]
      exact h.alive q ⟨proc, hproc, halive⟩
    · rw [Function.update_self]
      exact hnew.1
  · refine h.idle q ?_
    rintro ⟨proc, hproc, halive⟩
    refine hq ⟨proc, ?_, halive⟩
    have hlt := (List.getElem?_eq_some_iff.mp hproc).1
    rw [List.getElem?_append_left hlt]
    exact hproc
  · by_cases hqn : q = n
    · subst hqn
      rw [Function.update_self]
      exact hnew.2.1
    · rw [Function.update_of_ne hqn]
      exact h.forGood q

/-- The processes after one of them has been replaced. -/
theorem getElem?_replace {procs : List Proc} {proc proc' proc'' : Proc} {q : Pid}
    (hproc : procs[p]? = some proc) (h : (procs.set p proc')[q]? = some proc'') :
    p ≠ q ∧ procs[q]? = some proc'' ∨ p = q ∧ proc'' = proc' := by
  rw [List.getElem?_set] at h
  split at h
  case isTrue hpq =>
    rw [if_pos (List.getElem?_eq_some_iff.mp hproc).1] at h
    exact Or.inr ⟨hpq, (Option.some.inj h).symm⟩
  case isFalse hpq => exact Or.inl ⟨hpq, h⟩

theorem getElem?_replace_of_ne {procs : List Proc} {proc' : Proc} {q : Pid} (hpq : p ≠ q) :
    (procs.set p proc')[q]? = procs[q]? := by
  rw [List.getElem?_set, if_neg hpq]

theorem getElem?_replace_self {procs : List Proc} {proc proc' : Proc}
    (hproc : procs[p]? = some proc) : (procs.set p proc')[p]? = some proc' := by
  rw [List.getElem?_set, if_pos rfl, if_pos (List.getElem?_eq_some_iff.mp hproc).1]

theorem Sound.kill (h : s.Sound crypto φ) {job : Job} {prog : ServerProg (Except Exc Result)}
    (hproc : s.procs[p]? = some ⟨job, prog, true⟩) :
    Sound crypto ⟨s.world.release p, s.procs.set p ⟨job, prog, false⟩⟩ φ := by
  have hacts : Acts p .rollback s.world (s.world.release p) := .single .release
  have hframe : ∀ q, p ≠ q → Frame q s.world (s.world.release p) := fun q hpq => hacts.frame hpq
  refine ⟨fun q proc hq => ?_, fun q hq => ?_, fun q hq => ?_, fun q hq => ?_, fun q => ?_,
    h.consistent.release, h.owner, h.owned, h.keys, h.pending, h.invoice⟩
  · rcases getElem?_replace hproc hq with ⟨-, hq⟩ | ⟨rfl, rfl⟩
    · exact h.tracks q proc hq
    · have htracks := h.tracks p _ hproc
      cases hph : φ p with
      | _ => rw [hph] at htracks; exact htracks
  · by_cases hpq : p = q
    · subst hpq
      rw [getElem?_replace_self hproc] at hq
      cases hq
    · exact h.absent q ((getElem?_replace_of_ne hpq).symm.trans hq)
  · obtain ⟨proc, hq, halive⟩ := hq
    rcases getElem?_replace hproc hq with ⟨hpq, hq⟩ | ⟨rfl, rfl⟩
    · exact (h.alive q ⟨proc, hq, halive⟩).frame (hframe q hpq) (fun _ _ _ hv => hv)
        (fun _ hv => hv) fun _ _ _ _ hres => ⟨hres.made, hres.noSameKey, hres.noSamePending⟩
    · cases halive
  · by_cases hpq : p = q
    · subst hpq
      exact idle_release s.world p
    · refine HasTx.frame (h.idle q ?_) (hframe q hpq)
      rintro ⟨proc, hq', halive⟩
      refine hq ⟨proc, ?_, halive⟩
      exact (getElem?_replace_of_ne hpq).trans hq'
  · exact (h.forGood q).frame rfl fun _ _ => rfl

/-- The attempt that a step makes a committed one. -/
theorem Sound.fresh_attempt (h : s.Sound crypto φ) {c : PayCall} {v : Invoice} {a : PaymentAttempt}
    (hp : s.Alive p) (hph : φ p = .pay c (.reserve v a)) {q : Pid} {b : PaymentAttempt}
    (hb : (φ q).committed? = some b) : a.id ≠ b.id := by
  intro hid
  have hholds := h.alive p hp
  rw [hph] at hholds
  have hmem : (p, Write.insertAttempt a) ∈ s.world.inflight := by
    rw [← mem_writesOf, hholds.1.writes]
    exact List.mem_singleton_self _
  have hnone := h.consistent.fresh _ _ hmem ⟨.attempts, a.id⟩ (List.mem_singleton_self _)
  obtain ⟨row, hrow, -⟩ := (h.forGood q).row hb
  rw [← hid] at hrow
  simp [Database.row, hrow] at hnone

theorem Sound.answer (h : s.Sound crypto φ) {job : Job} {st : Stmt} {r : st.Resp}
    {w' : World} {k : st.Resp → ServerProg (Except Exc Result)} {ph : Phase}
    (hproc : s.procs[p]? = some ⟨job, .op st k, true⟩) (hans : s.world.Answers p st r w')
    (hnext : (φ p).Next crypto st r ph) :
    Sound crypto ⟨w', s.procs.set p ⟨job, k r, true⟩⟩ (Function.update φ p ph) := by
  have hp : s.Alive p := ⟨_, hproc, rfl⟩
  have hframe : ∀ q, p ≠ q → Frame q s.world w' := fun q hpq => hans.acts.frame hpq
  obtain ⟨hholds, hgood⟩ :=
    hnext.handsOver h.consistent h.invoice (h.alive p hp) (h.forGood p) hans
  have hstep := hnext.committed? (h.alive p hp) (h.forGood p) hans
  -- the database is the same, or it is the view of the session that commits
  have hdb : w'.db = s.world.db ∨ st = .commit ∧ w' = s.world.commit p := by
    by_cases hst : st = .commit
    · subst hst
      exact Or.inr ⟨rfl, answers_commit hans⟩
    · exact Or.inl (hans.effect.db hst)
  have hcommitted : ∀ q a, (φ q).committed? = some a →
      (Function.update φ p ph q).committed? = some a := by
    intro q a ha
    by_cases hq : q = p
    · subst hq
      rw [Function.update_self]
      rcases hstep with heq | ⟨c, v, b, hph, -, -⟩
      · rw [heq, ha]
      · rw [hph] at ha
        cases ha
    · rwa [Function.update_of_ne hq]
  have hback : ∀ q a, (Function.update φ p ph q).committed? = some a →
      (φ q).committed? = some a ∨ q = p ∧ ∃ c v, φ p = .pay c (.reserve v a) := by
    intro q a ha
    by_cases hq : q = p
    · subst hq
      rw [Function.update_self] at ha
      rcases hstep with heq | ⟨c, v, b, hph, -, rfl⟩
      · exact Or.inl (heq ▸ ha)
      · obtain rfl := Option.some.inj ha
        exact Or.inr ⟨rfl, c, v, hph⟩
    · rw [Function.update_of_ne hq] at ha
      exact Or.inl ha
  have hexist : ∀ i, s.world.db.invoices.find? i ≠ none → w'.db.invoices.find? i ≠ none := by
    intro i hi
    rcases hdb with hdb | ⟨-, rfl⟩
    · rwa [hdb]
    · exact find?_view_ne_none hi
  refine ⟨fun q proc hq => ?_, fun q hq => ?_, fun q hq => ?_, fun q hq => ?_, fun q => ?_,
    hans.acts.consistent h.consistent, fun q q' a b ha hb hid => ?_, ?_, ?_, ?_, ?_⟩
  · rcases getElem?_replace hproc hq with ⟨hpq, hq⟩ | ⟨rfl, rfl⟩
    · rw [Function.update_of_ne hpq.symm]
      exact h.tracks q proc hq
    · rw [Function.update_self]
      exact hnext.tracks (h.tracks p _ hproc)
  · by_cases hpq : p = q
    · subst hpq
      rw [getElem?_replace_self hproc] at hq
      cases hq
    · rw [Function.update_of_ne (Ne.symm hpq)]
      exact h.absent q ((getElem?_replace_of_ne hpq).symm.trans hq)
  · obtain ⟨proc, hq, halive⟩ := hq
    rcases getElem?_replace hproc hq with ⟨hpq, hq⟩ | ⟨rfl, rfl⟩
    · rw [Function.update_of_ne hpq.symm]
      have hqholds := h.alive q ⟨proc, hq, halive⟩
      refine hqholds.frame (hframe q hpq) (fun i v hlock hv => ?_) hexist fun c v a hph hres => ?_
      · rcases hdb with hdb | ⟨-, rfl⟩
        · rwa [hdb]
        · rw [Database.find?_invoices_eq (h.consistent.row_commit hlock hpq ?_), hv]
          simp [Database.row, hv]
      · rcases hdb with hdb | ⟨-, rfl⟩
        · exact ⟨hres.made, hdb ▸ hres.noSameKey, hdb ▸ hres.noSamePending⟩
        · rw [hph] at hqholds
          exact h.reserving_commit hpq hqholds
    · rw [Function.update_self]
      exact hholds
  · by_cases hpq : p = q
    · subst hpq
      exact absurd ⟨_, getElem?_replace_self hproc, rfl⟩ hq
    · refine HasTx.frame (h.idle q ?_) (hframe q hpq)
      rintro ⟨proc, hq', halive⟩
      refine hq ⟨proc, ?_, halive⟩
      exact (getElem?_replace_of_ne hpq).trans hq'
  · by_cases hpq : p = q
    · subst hpq
      rw [Function.update_self]
      exact hgood
    · rw [Function.update_of_ne (Ne.symm hpq)]
      refine (h.forGood q).frame (hframe q hpq).charges fun a ha => ?_
      rcases hdb with hdb | ⟨-, rfl⟩
      · rw [hdb]
      · refine h.find?_attempt_view ha hpq ?_
        obtain ⟨row, hrow, -⟩ := (h.forGood q).row ha
        rw [hrow]
        simp
  · rcases hback q a ha with ha | ⟨hqp, c, v, hph⟩
    · rcases hback q' b hb with hb | ⟨-, c, v, hph⟩
      · exact h.owner q q' a b ha hb hid
      · exact absurd hid.symm (h.fresh_attempt hp hph ha)
    · rcases hback q' b hb with hb | ⟨hqp', -⟩
      · exact absurd hid (h.fresh_attempt hp hph hb)
      · rw [hqp, hqp']
  · rcases hdb with hdb | ⟨rfl, rfl⟩
    · exact h.owned_of_committed? (congrArg _ hdb) hcommitted
    · intro a ha
      obtain ⟨a', haa', ha' | ha'⟩ := h.attempts_view ha
      · obtain ⟨q, b, hb, hid⟩ := h.owned a' ha'
        exact ⟨q, b, hcommitted q b hb, hid.trans haa'.id⟩
      · obtain ⟨c, v, hph, -⟩ := h.reserving ha'
        rw [hph] at hnext
        cases hnext with
        | pay hout r =>
          cases hout
          refine ⟨p, a', ?_, haa'.id⟩
          rw [Function.update_self]
          rfl
  · rcases hdb with hdb | ⟨-, rfl⟩
    · exact hdb ▸ h.keys
    · exact h.unique_view PaymentAttempt.sameKey_comm
        (fun a b c hbc hac => hbc.sameKey.symm.trans hac) h.keys fun c a hres => hres.noSameKey
  · rcases hdb with hdb | ⟨-, rfl⟩
    · exact hdb ▸ h.pending
    · exact h.unique_view PaymentAttempt.samePending_comm
        (fun a b c hbc hac => hbc.samePending hac) h.pending fun c a hres => hres.noSamePending
  · rcases hdb with hdb | ⟨-, rfl⟩
    · exact hdb ▸ h.invoice
    · intro a ha
      obtain ⟨a', haa', ha' | ha'⟩ := h.attempts_view ha
      · rw [← haa'.invoiceId]
        exact hexist _ (h.invoice a' ha')
      · obtain ⟨c, v, -, hres⟩ := h.reserving ha'
        refine hexist _ ?_
        rw [← haa'.invoiceId, hres.2.2.2.made.invoiceId, hres.2.2.1]
        simp

/-- **Every move keeps the invariant.** -/
theorem Sound.move (h : s.Sound crypto φ) {e : Event} (hmove : s.Moves crypto φ e t φ') :
    t.Sound crypto φ' := by
  cases hmove with
  | start job => exact h.start job
  | answer hproc hans hnext => exact h.answer hproc hans.answers hnext
  | kill hproc => exact h.kill hproc

/-- **The invariant rule of the system**: what holds at the start, with the phases of the
sessions, and is kept by every admitted move of a sound state, holds in every state
reached. -/
theorem Sound.reaches {C : System → Event → Prop} {I : System → (Pid → Phase) → Prop}
    (hreach : Reaches (step crypto) C s t) (h : s.Sound crypto φ) (hI : I s φ)
    (hmove : ∀ u ψ e v ψ', u.Sound crypto ψ → I u ψ → C u e → u.step crypto e = some v →
      u.Moves crypto ψ e v ψ' → v.Sound crypto ψ' → I v ψ') : ∃ φ', t.Sound crypto φ' ∧ I t φ' := by
  refine hreach.invariant (I := fun u => ∃ ψ, u.Sound crypto ψ ∧ I u ψ) ⟨φ, h, hI⟩ ?_
  rintro u e v ⟨ψ, hu, hIu⟩ hC hstep
  obtain ⟨ψ', hm⟩ := moves_of_step hu.tracks hstep
  exact ⟨ψ', hu.move hm, hmove u ψ e v ψ' hu hIu hC hstep hm (hu.move hm)⟩

/-- Every state the service can get into is sound. -/
theorem Reachable.sound (h : s.Reachable crypto) : ∃ φ, s.Sound crypto φ := by
  obtain ⟨φ, hs, -⟩ := Sound.reaches (I := fun _ _ => True) h sound_init trivial
    fun _ _ _ _ _ _ _ _ _ _ _ => trivial
  exact ⟨φ, hs⟩

end System

end Moves

end TenantBilling
