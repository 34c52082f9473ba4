import Mathlib.Algebra.GroupWithZero.Nat
import Mathlib.Algebra.Order.BigOperators.Group.List
import Mathlib.Algebra.Order.Group.Nat
import Mathlib.Data.List.Perm.Subperm
import TenantBilling.Base.Table

/-!
# What the rows of a table stand for

A row of a table may stand for something, given by a partial function on rows, and the table has an
account of what its rows stand for (`Base.Table.account`), with repetitions. Two tables are compared
along their keys: where each row that stands for something has a row of the same key on the other
side that stands for the same, the one account is contained in the other
(`Base.Table.account_subperm`), and a row that stood for nothing and now stands for something comes
on top of it (`Base.Table.cons_account_subperm`). Where the keys stay the same, a sum over the rows
gets smaller with the rows (`Base.Table.sum_lt_sum`).
-/

namespace Base

namespace Table

variable {κ ρ ρ' σ : Type} {key : ρ → κ} {key' : ρ' → κ}

/-- What the rows of a table stand for, in their order. -/
def account (t : Table key) (g : ρ → Option σ) : List σ := t.rows.filterMap g

theorem mem_account {t : Table key} {g : ρ → Option σ} {x : σ} :
    x ∈ t.account g ↔ ∃ r ∈ t, g r = some x := List.mem_filterMap

variable [DecidableEq κ] {t : Table key} {u : Table key'} {g : ρ → Option σ} {g' : ρ' → Option σ}

/-- What the row of a key stands for. -/
def accountAt (t : Table key) (g : ρ → Option σ) (k : κ) : Option σ := (t.find? k).bind g

/-- The account, read along the keys. -/
theorem account_eq (t : Table key) (g : ρ → Option σ) :
    t.account g = (t.rows.map key).filterMap (t.accountAt g) := by
  rw [List.filterMap_map]
  refine List.filterMap_congr fun r hr => ?_
  rw [Function.comp_apply, accountAt, find?_key hr, Option.bind_some]

/-- **Different keys**, the rows of which stand for something, are part of the account. -/
theorem filterMap_accountAt_subperm {ks : List κ} (hnodup : ks.Nodup)
    (h : ∀ k ∈ ks, ∃ x, u.accountAt g' k = some x) :
    (ks.filterMap (u.accountAt g')).Subperm (u.account g') := by
  have hsub : ks.Subperm (u.rows.map key') := by
    refine List.Nodup.subperm hnodup fun k hk => ?_
    obtain ⟨x, hx⟩ := h k hk
    obtain ⟨r, hr, -⟩ := Option.bind_eq_some_iff.mp hx
    obtain ⟨hmem, hkey⟩ := find?_eq_some.mp hr
    exact hkey ▸ List.mem_map_of_mem hmem
  obtain ⟨ks', hperm, hks'⟩ := hsub
  rw [account_eq]
  exact ⟨_, hperm.filterMap _, hks'.filterMap _⟩

/-- The keys of the rows that stand for something. -/
def meaning (key : ρ → κ) (g : ρ → Option σ) (l : List ρ) : List κ :=
  (l.filter fun r => (g r).isSome).map key

omit [DecidableEq κ] in
theorem mem_meaning {l : List ρ} {k : κ} :
    k ∈ meaning key g l ↔ ∃ r ∈ l, (∃ x, g r = some x) ∧ key r = k := by
  simp only [meaning, List.mem_map, List.mem_filter, Option.isSome_iff_exists, and_assoc]

/-- Where each row is matched by the row of its key, what the rows stand for is read along keys. -/
theorem filterMap_eq {l : List ρ} (h : ∀ r ∈ l, ∀ x, g r = some x → u.accountAt g'
    (key r) = some x) : l.filterMap g = (meaning key g l).filterMap (u.accountAt g') := by
  rw [meaning, List.filterMap_map, List.filterMap_filter]
  refine List.filterMap_congr fun r hr => ?_
  cases hg : g r with
  | none => rfl
  | some x => exact (h r hr x hg).symm

theorem exists_of_mem_meaning {l : List ρ}
    (h : ∀ r ∈ l, ∀ x, g r = some x → u.accountAt g' (key r) = some x) {k : κ}
    (hk : k ∈ meaning key g l) : ∃ x, u.accountAt g' k = some x := by
  obtain ⟨r, hr, ⟨x, hx⟩, rfl⟩ := mem_meaning.mp hk
  exact ⟨x, h r hr x hx⟩

/-- **Rows with different keys** stand for a part of the account, where each of them is matched by
the row of its key. -/
theorem filterMap_subperm {l : List ρ} (hnodup : (l.map key).Nodup)
    (h : ∀ r ∈ l, ∀ x, g r = some x → u.accountAt g' (key r) = some x) :
    (l.filterMap g).Subperm (u.account g') := by
  rw [filterMap_eq h]
  exact filterMap_accountAt_subperm (hnodup.sublist (List.filter_sublist.map key))
    fun k hk => exists_of_mem_meaning h hk

theorem account_subperm (h : ∀ r ∈ t, ∀ x, g r = some x → u.accountAt g' (key r) = some x) :
    (t.account g).Subperm (u.account g') :=
  filterMap_subperm t.nodup h

/-- **A row that stood for nothing and now stands for something** comes on top of the account. -/
theorem cons_account_subperm
    (h : ∀ r ∈ t, ∀ x, g r = some x → u.accountAt g' (key r) = some x) {k : κ} {x : σ}
    (hold : t.accountAt g k = none) (hnew : u.accountAt g' k = some x) :
    (x :: t.account g).Subperm (u.account g') := by
  have hnot : k ∉ meaning key g t.rows := by
    intro hk
    obtain ⟨r, hr, ⟨y, hy⟩, rfl⟩ := mem_meaning.mp hk
    rw [accountAt, find?_key hr, Option.bind_some, hy] at hold
    cases hold
  have hcons : x :: t.account g = (k :: meaning key g t.rows).filterMap (u.accountAt g') := by
    rw [List.filterMap_cons_some hnew, account, filterMap_eq h]
  rw [hcons]
  refine filterMap_accountAt_subperm (List.nodup_cons.mpr
    ⟨hnot, t.nodup.sublist (List.filter_sublist.map key)⟩) fun j hj => ?_
  rcases List.mem_cons.mp hj with rfl | hj
  · exact ⟨x, hnew⟩
  · exact exists_of_mem_meaning h hj

/-- **A table that has come from another one** stands for what that one did, and for what its rows
with new keys do. -/
theorem account_subperm_append {t u : Table key} {g g' : ρ → Option σ}
    (h : ∀ r ∈ u, ∀ x, g' r = some x → ∀ r', t.find? (key r) = some r' → g r' = some x) :
    (u.account g').Subperm
      ((u.rows.filter fun r => (t.find? (key r)).isNone).filterMap g' ++ t.account g) := by
  have hsplit : (u.account g').Perm
      ((u.rows.filter fun r => (t.find? (key r)).isNone).filterMap g' ++
        (u.rows.filter fun r => !(t.find? (key r)).isNone).filterMap g') := by
    rw [← List.filterMap_append]
    exact ((List.filter_append_perm _ u.rows).filterMap g').symm
  refine hsplit.subperm.trans (List.subperm_append_left _ |>.mpr ?_)
  refine filterMap_subperm (u.nodup.sublist (List.filter_sublist.map key)) fun r hr x hx => ?_
  obtain ⟨hr, hfound⟩ := List.mem_filter.mp hr
  cases hfind : t.find? (key r) with
  | none =>
    rw [hfind] at hfound
    cases hfound
  | some r' => exact (congrArg (·.bind g) hfind).trans (h r hr x hx r' hfind)

/-! ### Sums over the rows -/

section Sums

variable {t u : Table key}

theorem keys_update (t : Table key) (k : κ) (f : ρ → ρ) (hf : ∀ r, key (f r) = key r) :
    (t.update k f hf).rows.map key = t.rows.map key := by
  rw [update, List.map_map]
  refine List.map_congr_left fun r _ => ?_
  rw [Function.comp_apply]
  split
  · exact hf r
  · rfl

/-- **A sum over the rows gets smaller** where no row counts more than before and one
counts less. -/
theorem sum_lt_sum (hkeys : u.rows.map key = t.rows.map key) (f : ρ → ℕ)
    (hle : ∀ r ∈ t, ∀ r', u.find? (key r) = some r' → f r' ≤ f r)
    (hlt : ∃ r ∈ t, ∀ r', u.find? (key r) = some r' → f r' < f r) :
    (u.rows.map f).sum < (t.rows.map f).sum := by
  -- the rows of one table, read under the keys of the other one
  set value : κ → ℕ := fun k => ((u.find? k).map f).getD 0 with hvalue
  have hrows : u.rows.map f = t.rows.map fun r => value (key r) := by
    have hread : u.rows.map f = (u.rows.map key).map value := by
      rw [List.map_map]
      refine List.map_congr_left fun r hr => ?_
      rw [Function.comp_apply, hvalue]
      dsimp only
      rw [find?_key hr]
      rfl
    rw [hread, hkeys, List.map_map]
    rfl
  have hfound : ∀ r ∈ t, ∃ r', u.find? (key r) = some r' ∧ value (key r) = f r' := by
    intro r hr
    have hmem : key r ∈ u.rows.map key := hkeys ▸ List.mem_map_of_mem hr
    obtain ⟨r', hr', hkey⟩ := List.mem_map.mp hmem
    have hfind : u.find? (key r) = some r' := find?_eq_some.mpr ⟨hr', hkey⟩
    refine ⟨r', hfind, ?_⟩
    rw [hvalue]
    dsimp only
    rw [hfind]
    rfl
  rw [hrows]
  refine List.sum_lt_sum _ _ (fun r hr => ?_) ?_
  · obtain ⟨r', hr', heq⟩ := hfound r hr
    exact heq ▸ hle r hr r' hr'
  · obtain ⟨r, hr, hless⟩ := hlt
    obtain ⟨r', hr', heq⟩ := hfound r hr
    exact ⟨r, hr, heq ▸ hless r' hr'⟩

end Sums

end Table

end Base
