import TenantBilling.Properties.DeliveryStates
import TenantBilling.Properties.Onwards

/-!
# Earlier states of a run

Every beginning of the transcript of a session is its transcript in an earlier state of the run
(`TenantBilling.System.exists_prefix`), and there the session was the same and was alive
(`TenantBilling.System.before_run`). So what is known of a session at the point it has reached is
known of every point it has passed. What a session has posted is part of what it has been told
(`TenantBilling.System.postsOf_transcript`).
-/

namespace TenantBilling

open Base World

/-- The deliveries posted in a transcript, with the answers. -/
def postedIn (l : List (Exchange Stmt Stmt.Resp)) : List (Uuid × HttpResult) :=
  l.filterMap fun
    | ⟨.post id _ _ _, http⟩ => some (id, http)
    | _ => none

theorem postedIn_append (l l' : List (Exchange Stmt Stmt.Resp)) :
    postedIn (l ++ l') = postedIn l ++ postedIn l' := List.filterMap_append

namespace System

variable {crypto : Crypto} {s t : System} {φ φ' : Pid → Phase} {e : Event} {es : List Event}
  {p : Pid} {job : Job} {prog : ServerProg (Except Exc Result)}

/-- Whoever is alive after a step has just been started, or was alive before. -/
theorem Moves.before (hmove : s.Moves crypto φ e t φ')
    (hproc : t.procs[p]? = some ⟨job, prog, true⟩) :
    s.procs[p]? = none ∨ ∃ prog, s.procs[p]? = some ⟨job, prog, true⟩ := by
  cases hmove with
  | start job' =>
    rcases getElem?_start hproc with ⟨-, hproc⟩ | ⟨rfl, -⟩
    · exact Or.inr ⟨prog, hproc⟩
    · exact Or.inl (List.getElem?_eq_none le_rfl)
  | @kill q job' prog' hq =>
    rcases getElem?_replace hq hproc with ⟨-, hproc⟩ | ⟨-, heq⟩
    · exact Or.inr ⟨prog, hproc⟩
    · cases heq
  | @answer _ q job' st r w' k ph hq hans hnext =>
    rcases getElem?_replace hq hproc with ⟨-, hproc⟩ | ⟨rfl, heq⟩
    · exact Or.inr ⟨prog, hproc⟩
    · cases heq
      exact Or.inr ⟨_, hq⟩

/-- Sessions are only added. -/
theorem Moves.length_le (hmove : s.Moves crypto φ e t φ') : s.procs.length ≤ t.procs.length := by
  cases hmove with
  | start job => simp
  | kill hproc => simp
  | answer hproc hans hnext => simp

/-- What has been committed stays so. -/
theorem Moves.mem_history (hmove : s.Moves crypto φ e t φ') {m : Commit}
    (hm : m ∈ s.world.history) : m ∈ t.world.history := by
  rcases hmove.db_or with ⟨-, hhistory⟩ | ⟨p, u, job, k, -, -, ht⟩
  · rwa [hhistory]
  · rw [ht]
    exact List.mem_append_left _ hm

/-- **Whoever is alive was alive** in every state since it was started. -/
theorem before_run (hs : s.Reachable crypto) (hrun : run (step crypto) s es = some t)
    (hproc : t.procs[p]? = some ⟨job, prog, true⟩) (hstarted : p < s.procs.length) :
    ∃ prog, s.procs[p]? = some ⟨job, prog, true⟩ := by
  induction es generalizing s with
  | nil =>
    obtain rfl := Option.some.inj hrun
    exact ⟨prog, hproc⟩
  | cons e es ih =>
    obtain ⟨u, hu, hrun⟩ := Option.bind_eq_some_iff.mp hrun
    obtain ⟨hreach, φ, φ', -, hmove⟩ := hs.moves hu
    obtain ⟨prog', hproc'⟩ := ih hreach hrun (lt_of_lt_of_le hstarted hmove.length_le)
    rcases hmove.before hproc' with hnone | hfound
    · exact absurd hstarted (Nat.not_lt.mpr (List.getElem?_eq_none_iff.mp hnone))
    · exact hfound

/-- A session that a move tells something is answered by it. -/
theorem Moves.exchanged (hmove : s.Moves crypto φ e t φ') {x : Exchange Stmt Stmt.Resp}
    (hx : s.exchange? p e = some x) : ∃ job k, s.procs[p]? = some ⟨job, .op x.1 k, true⟩ ∧
      s.Answered p x.1 x.2 t.world e := by
  cases hmove with
  | start job => cases hx
  | kill hproc => cases hx
  | @answer _ q job st r w' k ph hproc hans hnext =>
    rw [hans.exchange? hproc] at hx
    split at hx
    case isFalse => cases hx
    case isTrue hq =>
      obtain rfl := hq
      obtain rfl := Option.some.inj hx
      exact ⟨job, k, hproc, hans⟩

/-- **Every beginning of a transcript** is that of an earlier state, in which the session is about
to be told what comes next. -/
theorem exists_prefix (hrun : run (step crypto) .init es = some s)
    {l l' : List (Exchange Stmt Stmt.Resp)} {x : Exchange Stmt Stmt.Resp}
    (hl : System.init.transcript crypto p es = l ++ x :: l') :
    ∃ es₁ e es₂ s₁ t₁ job k, es = es₁ ++ e :: es₂ ∧ run (step crypto) .init es₁ = some s₁ ∧
      s₁.step crypto e = some t₁ ∧ System.init.transcript crypto p es₁ = l ∧
        s₁.procs[p]? = some ⟨job, .op x.1 k, true⟩ ∧ s₁.Answered p x.1 x.2 t₁.world e := by
  induction es using List.reverseRecOn generalizing s l' with
  | nil => exact absurd hl (by simp [transcript])
  | append_singleton es e ih =>
    rw [run_append] at hrun
    obtain ⟨t, ht, hstep⟩ := Option.bind_eq_some_iff.mp hrun
    have hstep : t.step crypto e = some s := by simpa [run] using hstep
    rw [transcript_concat ht hstep] at hl
    -- the exchange is an earlier one, or the one of this event
    have hearlier : ∀ {l' : List (Exchange Stmt Stmt.Resp)},
        System.init.transcript crypto p es = l ++ x :: l' → ∃ es₁ e' es₂ s₁ t₁ job k,
          es ++ [e] = es₁ ++ e' :: es₂ ∧ run (step crypto) .init es₁ = some s₁ ∧
            s₁.step crypto e' = some t₁ ∧ System.init.transcript crypto p es₁ = l ∧
              s₁.procs[p]? = some ⟨job, .op x.1 k, true⟩ ∧
                s₁.Answered p x.1 x.2 t₁.world e' := by
      intro l' hl
      obtain ⟨es₁, e', es₂, s₁, t₁, job, k, rfl, hrest⟩ := ih ht hl
      exact ⟨es₁, e', es₂ ++ [e], s₁, t₁, job, k, by simp, hrest⟩
    cases hex : t.exchange? p e with
    | none =>
      rw [hex] at hl
      exact hearlier (by simpa using hl)
    | some y =>
      rw [hex, Option.toList_some] at hl
      rcases List.eq_nil_or_concat l' with rfl | ⟨l'', z, rfl⟩
      · obtain ⟨hl₁, hy⟩ := List.append_inj' hl rfl
        obtain rfl := List.singleton_inj.mp hy
        obtain ⟨-, φ, φ', -, hmove⟩ := Reachable.moves (reaches_of_run ht) hstep
        obtain ⟨job, k, hproc, hans⟩ := hmove.exchanged hex
        exact ⟨es, e, [], t, s, job, k, rfl, ht, hstep, hl₁, hproc, hans⟩
      · have hl' : System.init.transcript crypto p es ++ [y] = (l ++ x :: l'') ++
          [z] := by simpa using hl
        exact hearlier (List.append_inj' hl' rfl).1

/-- What a session has been told it has been answered. -/
theorem answers_of_mem_transcript (hrun : run (step crypto) .init es = some s)
    {x : Exchange Stmt Stmt.Resp} (hx : x ∈ System.init.transcript crypto p es) :
    ∃ w w', World.Answers w p x.1 x.2 w' := by
  obtain ⟨l, l', hl⟩ := List.append_of_mem hx
  obtain ⟨es₁, e, es₂, s₁, t₁, job, k, -, -, -, -, -, hans⟩ := exists_prefix hrun hl
  exact ⟨s₁.world, t₁.world, hans.answers⟩

/-- **What a session has posted** it has been told. -/
theorem postsOf_transcript (hrun : run (step crypto) .init es = some s) (p : Pid) :
    (s.world.postsOf p).map (fun x => (x.deliveryId, x.result)) =
      postedIn (System.init.transcript crypto p es) := by
  obtain ⟨-, -, h⟩ := run_induction (I := fun es s _ => ∀ p,
      (s.world.postsOf p).map (fun x => (x.deliveryId, x.result)) =
        postedIn (System.init.transcript crypto p es)) hrun (fun _ => rfl) <| by
    intro es s φ e t φ' hrun _ ih hstep hmove _ p
    rw [transcript_concat hrun hstep, postedIn_append, ← ih p]
    cases hmove with
    | start job => exact (List.append_nil _).symm
    | kill hproc => exact (List.append_nil _).symm
    | @answer _ q job st r w' k ph hproc hans hnext =>
      rw [hans.exchange? hproc]
      cases st with
      | post id url body headers =>
        obtain rfl := answers_post hans.answers
        change List.map _ (List.filter _ (_ ++ _)) = _
        rw [List.filter_append, List.map_append]
        by_cases hq : q = p
        · subst hq
          simp [postedIn, World.postsOf]
        · simp [postedIn, World.postsOf, hq]
      | _ =>
        have hposts : w'.postsOf p = s.world.postsOf p := by
          rw [World.postsOf, hans.answers.posts id]
          rfl
        change (w'.postsOf p).map _ = _
        rw [hposts]
        split <;> exact (List.append_nil _).symm
  exact h p

end System

end TenantBilling
