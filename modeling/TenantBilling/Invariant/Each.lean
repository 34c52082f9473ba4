import TenantBilling.Invariant.Sound
import TenantBilling.World.Posts

/-!
# What holds of each session

The invariant rules for what is said of one session at a time. A move concerns the program
of one session; to the others it is a change of the world that leaves their writes, their
locks and their calls alone (`TenantBilling.World.Frame`). So a property of a session and its
process (`TenantBilling.System.Moves.each`), or of a session and its phase
(`TenantBilling.System.Moves.phases`), is kept by every move if it is kept by the session's
own answers, by its end, and by such changes. What is recorded for good, the committed
transactions and the posts, changes only with the session that commits or posts
(`TenantBilling.System.Moves.db_or`, `TenantBilling.System.Moves.posts_or`).
-/

namespace TenantBilling

open Base World

/-- The session has committed a transaction. -/
def World.Committed (w : World) (p : Pid) : Prop := ∃ m ∈ w.history, m.pid = p

section Each

variable {crypto : Crypto} {s t : System} {φ φ' : Pid → Phase} {e : Event}

namespace System

/-- The event answers the statement of one session. -/
theorem Answered.pid_eq {p q : Pid} {st st' : Stmt} {r : st.Resp} {r' : st'.Resp} {w w' : World}
    (h : s.Answered p st r w e) (h' : s.Answered q st' r' w' e) : p = q := by
  cases h <;> cases h' <;> rfl

/-- **The rule for processes.** -/
theorem Moves.each (hmove : s.Moves crypto φ e t φ') {Q : World → Pid → Proc → Prop}
    (h : ∀ p proc, s.procs[p]? = some proc → Q s.world p proc)
    (hstart : ∀ job : Job, t.world = s.world →
      Q t.world s.procs.length ⟨job, job.program crypto, true⟩)
    (hanswer : ∀ p job st k r, s.procs[p]? = some ⟨job, .op st k, true⟩ →
      s.Answered p st r t.world e → Q s.world p ⟨job, .op st k, true⟩ →
        Q t.world p ⟨job, k r, true⟩)
    (hkill : ∀ p job prog, t.world = s.world.release p → Q s.world p ⟨job, prog, true⟩ →
      Q t.world p ⟨job, prog, false⟩)
    (hframe : ∀ q proc, (∀ p st r, s.Answered p st r t.world e → p ≠ q) →
      Frame q s.world t.world → Q s.world q proc → Q t.world q proc) :
    ∀ p proc, t.procs[p]? = some proc → Q t.world p proc := by
  intro p proc hproc
  cases hmove with
  | start job =>
    rcases getElem?_start hproc with ⟨-, hproc⟩ | ⟨rfl, rfl⟩
    · exact h p proc hproc
    · exact hstart job rfl
  | @kill p' job prog hproc' =>
    rcases getElem?_replace hproc' hproc with ⟨hp, hproc⟩ | ⟨rfl, rfl⟩
    · have hacts : Acts p' .rollback s.world (s.world.release p') := .single .release
      exact hframe p proc (by rintro _ _ _ ⟨⟩) (hacts.frame hp) (h p proc hproc)
    · exact hkill p' job prog rfl (h p' _ hproc')
  | @answer _ p' job st r w' k ph hproc' hans hnext =>
    rcases getElem?_replace hproc' hproc with ⟨hp, hproc⟩ | ⟨rfl, rfl⟩
    · refine hframe p proc (fun q _ _ hans' => ?_) (hans.answers.acts.frame hp) (h p proc hproc)
      exact hans.pid_eq hans' ▸ hp
    · exact hanswer p' job st k r hproc' hans (h p' _ hproc')

/-- **The rule for phases.** -/
theorem Moves.phases (hmove : s.Moves crypto φ e t φ')
    {Q : World → Pid → Phase → Prop} (h : ∀ p, Q s.world p (φ p))
    (hstart : ∀ job : Job, t.world = s.world → Q t.world s.procs.length job.phase)
    (hanswer : ∀ p st r ph, s.Alive p → s.Answered p st r t.world e → (φ p).Next crypto st r ph →
      Q s.world p (φ p) → Q t.world p ph)
    (hkill : ∀ p, t.world = s.world.release p → Q s.world p (φ p) → Q t.world p (φ p))
    (hframe : ∀ q, (∀ p st r, s.Answered p st r t.world e → p ≠ q) →
      Frame q s.world t.world → Q s.world q (φ q) → Q t.world q (φ q)) :
    ∀ p, Q t.world p (φ' p) := by
  intro p
  cases hmove with
  | start job =>
    by_cases hp : p = s.procs.length
    · rw [hp, Function.update_self]
      exact hstart job rfl
    · rw [Function.update_of_ne hp]
      exact h p
  | @kill p' job prog hproc' =>
    by_cases hp : p' = p
    · subst hp
      exact hkill p' rfl (h p')
    · have hacts : Acts p' .rollback s.world (s.world.release p') := .single .release
      exact hframe p (by rintro _ _ _ ⟨⟩) (hacts.frame hp) (h p)
  | @answer _ p' job st r w' k ph hproc' hans hnext =>
    by_cases hp : p' = p
    · subst hp
      rw [Function.update_self]
      exact hanswer p' st r ph ⟨_, hproc', rfl⟩ hans hnext (h p')
    · rw [Function.update_of_ne (Ne.symm hp)]
      refine hframe p (fun q _ _ hans' => ?_) (hans.answers.acts.frame hp) (h p)
      exact hans.pid_eq hans' ▸ hp

/-! ### What is recorded -/

/-- Only a session's own commit makes it one that has committed. -/
theorem Answered.committed {p q : Pid} {st : Stmt} {r : st.Resp} {w' : World}
    (h : s.Answered p st r w' e) (hq : w'.Committed q) :
    s.world.Committed q ∨ q = p ∧ st = .commit := by
  by_cases hst : st = .commit
  · subst hst
    obtain rfl := answers_commit h.answers
    obtain ⟨m, hm, rfl⟩ := hq
    rcases List.mem_append.mp hm with hm | hm
    · exact Or.inl ⟨m, hm, rfl⟩
    · exact Or.inr ⟨congrArg Commit.pid (List.mem_singleton.mp hm), rfl⟩
  · rw [World.Committed, h.answers.effect.history hst] at hq
    exact Or.inl hq

/-- A session has committed before the move, or commits with it. -/
theorem Moves.committed (hmove : s.Moves crypto φ e t φ') {q : Pid} (hq : t.world.Committed q) :
    s.world.Committed q ∨ ∃ r, s.Answered q .commit r t.world e := by
  cases hmove with
  | start job => exact Or.inl hq
  | kill hproc => exact Or.inl hq
  | answer hproc hans hnext =>
    rcases hans.committed hq with hq | ⟨rfl, rfl⟩
    · exact Or.inl hq
    · exact Or.inr ⟨_, hans⟩

/-- **A move commits the transaction of the session it answers**, or none. -/
theorem Moves.db_or (hmove : s.Moves crypto φ e t φ') :
    (t.world.db = s.world.db ∧ t.world.history = s.world.history) ∨
      ∃ p u job k, s.procs[p]? = some ⟨job, .op .commit k, true⟩ ∧
        s.Answered p .commit u t.world e ∧ t.world = s.world.commit p := by
  cases hmove with
  | start job => exact Or.inl ⟨rfl, rfl⟩
  | kill hproc => exact Or.inl ⟨rfl, rfl⟩
  | @answer _ p job st r _ k _ hproc hans hnext =>
    by_cases hst : st = .commit
    · subst hst
      exact Or.inr ⟨p, r, job, k, hproc, hans, answers_commit hans.answers⟩
    · exact Or.inl ⟨hans.answers.effect.db hst, hans.answers.effect.history hst⟩

/-- **A move makes the post of the session it answers**, or none. -/
theorem Moves.posts_or (hmove : s.Moves crypto φ e t φ') :
    t.world.posts = s.world.posts ∨
      ∃ p id url body headers http job k,
        s.procs[p]? = some ⟨job, .op (.post id url body headers) k, true⟩ ∧
        s.Answered p (.post id url body headers) http t.world e ∧ t.world =
           { s.world with posts := s.world.posts ++ [⟨p, id, url, body, headers, http⟩] } := by
  cases hmove with
  | start job => exact Or.inl rfl
  | kill hproc => exact Or.inl rfl
  | @answer _ p job st r _ k _ hproc hans hnext =>
    cases st with
    | post id url body headers =>
      exact Or.inr ⟨p, id, url, body, headers, r, job, k, hproc, hans, answers_post hans.answers⟩
    | _ => exact Or.inl (hans.answers.posts id)

/-- **A move locks rows for the session it answers**, as its statement does. -/
theorem Moves.locks_or (hmove : s.Moves crypto φ e t φ') {row : RowRef} {p : Pid}
    (h : t.world.locks row = some p) : s.world.locks row = some p ∨
      ∃ st r job k, s.procs[p]? = some ⟨job, .op st k, true⟩ ∧ s.Answered p st r t.world e ∧
        st.Locks row := by
  cases hmove with
  | start job => exact Or.inl h
  | @kill p' job prog hproc =>
    rw [World.locks_release] at h
    split at h
    · cases h
    · exact Or.inl h
  | @answer _ p' job st r _ k _ hproc hans hnext =>
    by_cases hp : p' = p
    · subst hp
      rcases hans.answers.effect.locks row h with hold | hst
      · exact Or.inl hold
      · exact Or.inr ⟨st, r, job, k, hproc, hans, hst⟩
    · exact Or.inl (((hans.answers.acts.frame hp).locks row).mp h)

/-- Who has committed or posted has been started. -/
structure Started (s : System) : Prop where
  history : ∀ m ∈ s.world.history, m.pid < s.procs.length
  posts : ∀ x ∈ s.world.posts, x.pid < s.procs.length

theorem Started.move (hI : s.Started) (hmove : s.Moves crypto φ e t φ') : t.Started := by
  have hlength : s.procs.length ≤ t.procs.length := by
    cases hmove with
    | start job => simp
    | kill hproc => simp
    | answer hproc hans hnext => simp
  have hanswered : ∀ p st r, s.Answered p st r t.world e → p < s.procs.length := by
    intro p st r hans
    cases hmove with
    | start job => cases hans
    | kill hproc => cases hans
    | answer hproc hans' hnext => exact hans'.pid_eq hans ▸ (List.getElem?_eq_some_iff.mp hproc).1
  refine ⟨fun m hm => lt_of_lt_of_le ?_ hlength, fun x hx => lt_of_lt_of_le ?_ hlength⟩
  · rcases hmove.committed ⟨m, hm, rfl⟩ with ⟨m', hm', hpid⟩ | ⟨r, hans⟩
    · exact hpid ▸ hI.history m' hm'
    · exact hanswered _ _ _ hans
  · rcases hmove.posts_or with hposts | ⟨p, id, url, body, headers, http, -, -, -, hans, ht⟩
    · exact hI.posts x (hposts ▸ hx)
    · rw [ht] at hx
      rcases List.mem_append.mp hx with hx | hx
      · exact hI.posts x hx
      · rw [List.mem_singleton.mp hx]
        exact hanswered _ _ _ hans

theorem Reachable.started (hs : s.Reachable crypto) : s.Started := by
  have hinit : System.init.Started := ⟨by rintro _ ⟨⟩, by rintro _ ⟨⟩⟩
  obtain ⟨-, -, hI⟩ := Sound.reaches (I := fun u _ => u.Started) hs sound_init hinit
    fun _ _ _ _ _ _ hu _ _ hmove _ => hu.move hmove
  exact hI

end System

end Each

end TenantBilling
