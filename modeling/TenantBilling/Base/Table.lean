import Mathlib.Data.List.Nodup
import Mathlib.Data.List.Sort

/-!
# Tables with a primary key

`Base.Table key` is a list of rows no two of which have the same `key`: the
primary key is part of the type, so a table with two rows of one key cannot be
built. Rows are only ever added (`Base.Table.insert`, which leaves the table
alone where the key is taken) or rewritten in place without changing their key
(`Base.Table.update`), and a row is found by its key (`Base.Table.find?`).

The order of the rows is the order of insertion. It is kept so that tables can be
evaluated; what the lemmas say is about membership and lookup.
-/

namespace Base

/-- A list of rows with pairwise different keys. -/
structure Table {κ ρ : Type} (key : ρ → κ) where
  /-- The rows, in order of insertion. -/
  rows : List ρ
  /-- The key is a primary key. -/
  nodup : (rows.map key).Nodup

namespace Table

section Membership

variable {κ ρ : Type} {key : ρ → κ}

instance : Membership ρ (Table key) := ⟨fun t r => r ∈ t.rows⟩

theorem mem_rows {t : Table key} {r : ρ} : r ∈ t.rows ↔ r ∈ t := Iff.rfl

/-- The table without rows. -/
def empty : Table key := ⟨[], List.nodup_nil⟩

@[simp] theorem not_mem_empty (r : ρ) : r ∉ (empty : Table key) := List.not_mem_nil

/-- Two rows with one key are the same row. -/
theorem eq_of_key_eq {t : Table key} {r r' : ρ} (hr : r ∈ t) (hr' : r' ∈ t)
    (h : key r = key r') : r = r' :=
  List.inj_on_of_nodup_map t.nodup hr hr' h

end Membership

variable {κ ρ : Type} [DecidableEq κ] {key : ρ → κ}

/-! ### Lookup -/

/-- The row with a key, if there is one. -/
def find? (t : Table key) (k : κ) : Option ρ := t.rows.find? fun r => key r = k

/-- A key finds the row that has it. -/
theorem find?_eq_some {t : Table key} {k : κ} {r : ρ} : t.find? k = some r ↔ r ∈ t ∧ key r = k := by
  constructor
  · intro h
    exact ⟨List.mem_of_find?_eq_some h, by simpa using List.find?_some h⟩
  · rintro ⟨hr, rfl⟩
    cases h : t.find? (key r) with
    | none => simpa using List.find?_eq_none.mp h r hr
    | some r' =>
      have hk : key r' = key r := by simpa using List.find?_some h
      rw [eq_of_key_eq (List.mem_of_find?_eq_some h) hr hk]

theorem find?_eq_none {t : Table key} {k : κ} : t.find? k = none ↔ ∀ r ∈ t, key r ≠ k := by
  simp [find?, mem_rows]

theorem find?_key {t : Table key} {r : ρ} (h : r ∈ t) : t.find? (key r) = some r :=
  find?_eq_some.mpr ⟨h, rfl⟩

@[simp] theorem find?_empty (k : κ) : (empty : Table key).find? k = none := rfl

/-- A key is free when no row has it. -/
def Free (t : Table key) (k : κ) : Prop := ∀ r ∈ t, key r ≠ k

instance (t : Table key) (k : κ) : Decidable (t.Free k) :=
  inferInstanceAs (Decidable (∀ r ∈ t.rows, key r ≠ k))

/-! ### Adding a row -/

/-- The table with a row added, where its key is free. -/
def insert (t : Table key) (r : ρ) : Table key :=
  if h : t.Free (key r) then
    ⟨t.rows ++ [r], by
      rw [List.map_append, List.map_singleton]
      refine List.Nodup.append t.nodup (List.nodup_singleton _) ?_
      rintro k hk hk'
      obtain ⟨r', hr', rfl⟩ := List.mem_map.mp hk
      exact h r' hr' (by simpa using hk')⟩
  else t

/-- A new row is inserted next to the ones that are there. -/
theorem mem_insert {t : Table key} {r r' : ρ} (h : t.Free (key r)) :
    r' ∈ t.insert r ↔ r' ∈ t ∨ r' = r := by
  rw [insert, dif_pos h, ← mem_rows, List.mem_append, List.mem_singleton, mem_rows]

theorem mem_insert_of_mem {t : Table key} {r r' : ρ} (h : r' ∈ t) : r' ∈ t.insert r := by
  by_cases hf : t.Free (key r)
  · exact (mem_insert hf).mpr (Or.inl h)
  · rwa [insert, dif_neg hf]

/-- Whatever is there after an insert was there or has been inserted. -/
theorem of_mem_insert {t : Table key} {r r' : ρ} (h : r' ∈ t.insert r) : r' ∈ t ∨ r' = r := by
  by_cases hf : t.Free (key r)
  · exact (mem_insert hf).mp h
  · rw [insert, dif_neg hf] at h
    exact Or.inl h

theorem find?_insert_of_ne {t : Table key} {r : ρ} {k : κ} (h : key r ≠ k) :
    (t.insert r).find? k = t.find? k := by
  refine Option.ext fun r' => ?_
  rw [find?_eq_some, find?_eq_some]
  constructor
  · rintro ⟨hr', rfl⟩
    rcases of_mem_insert hr' with hr' | rfl
    · exact ⟨hr', rfl⟩
    · exact absurd rfl h
  · rintro ⟨hr', rfl⟩
    exact ⟨mem_insert_of_mem hr', rfl⟩

/-- Adding a row does not change what is found under a key already there. -/
theorem find?_insert_of_some {t : Table key} {r r' : ρ} {k : κ} (h : t.find? k = some r') :
    (t.insert r).find? k = some r' := by
  obtain ⟨hr', rfl⟩ := find?_eq_some.mp h
  exact find?_key (mem_insert_of_mem hr')

/-- An insert is found under its key if nothing else was. -/
theorem find?_insert (t : Table key) (r : ρ) (k : κ) :
    (t.insert r).find? k = (t.find? k).or (if key r = k then some r else none) := by
  cases h : t.find? k with
  | some r' => exact find?_insert_of_some h
  | none =>
    rw [Option.none_or]
    split
    case isTrue hk =>
      have hfree : t.Free (key r) := by
        rw [hk]
        exact find?_eq_none.mp h
      rw [← hk]
      exact find?_key ((mem_insert hfree).mpr (Or.inr rfl))
    case isFalse hk => rw [find?_insert_of_ne hk, h]

/-- A new row comes last. -/
theorem rows_insert {t : Table key} {r : ρ} (h : t.Free (key r)) :
    (t.insert r).rows = t.rows ++ [r] := by
  rw [insert, dif_pos h]

/-- The table with several rows added, one after the other. -/
def insertAll (t : Table key) (rs : List ρ) : Table key := rs.foldl insert t

@[simp] theorem insertAll_nil (t : Table key) : t.insertAll [] = t := rfl

@[simp] theorem insertAll_cons (t : Table key) (r : ρ) (rs : List ρ) :
    t.insertAll (r :: rs) = (t.insert r).insertAll rs := rfl

/-- New rows come last, in their order. -/
theorem rows_insertAll {t : Table key} {rs : List ρ} (hfree : ∀ r ∈ rs, t.Free (key r))
    (hnodup : (rs.map key).Nodup) : (t.insertAll rs).rows = t.rows ++ rs := by
  induction rs generalizing t with
  | nil => exact (List.append_nil _).symm
  | cons r rs ih =>
    have hr := hfree r List.mem_cons_self
    obtain ⟨hnot, hnodup⟩ := List.nodup_cons.mp hnodup
    rw [insertAll_cons, ih ?_ hnodup, rows_insert hr, List.append_assoc, List.singleton_append]
    intro r' hr' r'' hr'' hkey
    rcases (mem_insert hr).mp hr'' with hr'' | rfl
    · exact hfree r' (List.mem_cons_of_mem _ hr') r'' hr'' hkey
    · exact hnot (hkey ▸ List.mem_map_of_mem hr')

theorem mem_insertAll_of_mem {t : Table key} {rs : List ρ} {r : ρ} (h : r ∈ t) :
    r ∈ t.insertAll rs := by
  induction rs generalizing t with
  | nil => exact h
  | cons r' rs ih => exact ih (mem_insert_of_mem h)

theorem of_mem_insertAll {t : Table key} {rs : List ρ} {r : ρ} (h : r ∈ t.insertAll rs) :
    r ∈ t ∨ r ∈ rs := by
  induction rs generalizing t with
  | nil => exact Or.inl h
  | cons r' rs ih =>
    rcases ih h with h | h
    · rcases of_mem_insert h with h | rfl
      · exact Or.inl h
      · exact Or.inr List.mem_cons_self
    · exact Or.inr (List.mem_cons_of_mem _ h)

theorem find?_insertAll_of_ne {t : Table key} {rs : List ρ} {k : κ} (h : ∀ r ∈ rs, key r ≠ k) :
    (t.insertAll rs).find? k = t.find? k := by
  induction rs generalizing t with
  | nil => rfl
  | cons r rs ih =>
    rw [insertAll_cons, ih fun r' hr' => h r' (List.mem_cons_of_mem _ hr')]
    exact find?_insert_of_ne (h r List.mem_cons_self)

theorem find?_insertAll_of_some {t : Table key} {rs : List ρ} {k : κ} {r : ρ}
    (h : t.find? k = some r) : (t.insertAll rs).find? k = some r := by
  obtain ⟨hr, rfl⟩ := find?_eq_some.mp h
  exact find?_key (mem_insertAll_of_mem hr)

/-- What is found after the rows have been added depends on what was found before. -/
theorem find?_insertAll_congr {t u : Table key} {rs : List ρ} {k : κ} (h : t.find? k = u.find? k) :
    (t.insertAll rs).find? k = (u.insertAll rs).find? k := by
  induction rs generalizing t u with
  | nil => exact h
  | cons r rs ih => exact ih (by rw [find?_insert, find?_insert, h])

theorem free_iff {t : Table key} {k : κ} : t.Free k ↔ t.find? k = none := find?_eq_none.symm

/-! ### Rewriting a row -/

/-- The table with the row of key `k` rewritten by a function that keeps keys. -/
def update (t : Table key) (k : κ) (f : ρ → ρ) (hf : ∀ r, key (f r) = key r) : Table key :=
  ⟨t.rows.map fun r => if key r = k then f r else r, by
    have hk : ∀ r, key (if key r = k then f r else r) = key r := by
      intro r
      split
      · exact hf r
      · rfl
    simpa [List.map_map, Function.comp_def, hk] using t.nodup⟩

variable {t : Table key} {k : κ} {f : ρ → ρ} {hf : ∀ r, key (f r) = key r}

/-- **The rows after an update** are the old ones, with the one of the key changed. -/
theorem mem_update {r : ρ} :
    r ∈ t.update k f hf ↔ ∃ r' ∈ t, r = if key r' = k then f r' else r' := by
  rw [← mem_rows, update, List.mem_map]
  simp only [mem_rows, eq_comm]

theorem find?_update_of_ne {j : κ} (h : j ≠ k) : (t.update k f hf).find? j = t.find? j := by
  refine Option.ext fun r => ?_
  rw [find?_eq_some, find?_eq_some, mem_update]
  constructor
  · rintro ⟨⟨r', hr', rfl⟩, rfl⟩
    split at h
    case isTrue hk => exact absurd ((hf r').trans hk) h
    case isFalse hk => rw [if_neg hk]; exact ⟨hr', rfl⟩
  · rintro ⟨hr, rfl⟩
    exact ⟨⟨r, hr, by rw [if_neg h]⟩, rfl⟩

theorem find?_update_self : (t.update k f hf).find? k = (t.find? k).map f := by
  cases h : t.find? k with
  | none =>
    rw [Option.map_none, find?_eq_none]
    intro r hr
    obtain ⟨r', hr', rfl⟩ := mem_update.mp hr
    have hne := find?_eq_none.mp h r' hr'
    rwa [if_neg hne]
  | some r =>
    obtain ⟨hr, rfl⟩ := find?_eq_some.mp h
    rw [Option.map_some, find?_eq_some, mem_update]
    exact ⟨⟨r, hr, by rw [if_pos rfl]⟩, hf r⟩

/-- An update changes what is found under its key and nothing else. -/
theorem find?_update (j : κ) :
    (t.update k f hf).find? j = if j = k then (t.find? k).map f else t.find? j := by
  split
  case isTrue h => rw [h, find?_update_self]
  case isFalse h => exact find?_update_of_ne h

/-! ### Selecting rows -/

omit [DecidableEq κ] in
theorem nodup_rows (t : Table key) : t.rows.Nodup := t.nodup.of_map

omit [DecidableEq κ] in
/-- Two tables that have the same rows of a kind list them in some order. -/
theorem perm_filter {t u : Table key} {P : ρ → Bool}
    (h : ∀ r, r ∈ t ∧ P r = true ↔ r ∈ u ∧ P r = true) :
    (t.rows.filter P).Perm (u.rows.filter P) := by
  refine (List.perm_ext_iff_of_nodup (t.nodup_rows.filter P) (u.nodup_rows.filter P)).mpr fun r =>
    ?_
  rw [List.mem_filter, List.mem_filter]
  exact h r

omit [DecidableEq κ] in
/-- Rows listed in an order that tells different keys apart are listed in one way only. -/
theorem insertionSort_eq_of_perm {t : Table key} {r : ρ → ρ → Prop} [DecidableRel r] [Std.Total r]
    [IsTrans ρ r] {l l' : List ρ} (hperm : l.Perm l') (hmem : ∀ a ∈ l, a ∈ t)
    (hantisymm : ∀ a b, r a b → r b a → key a = key b) :
    l.insertionSort r = l'.insertionSort r := by
  refine List.Perm.eq_of_pairwise (fun a b ha hb hab hba => ?_) (List.pairwise_insertionSort r l)
    (List.pairwise_insertionSort r l') ?_
  · have ha := (List.mem_insertionSort r).mp ha
    have hb := hperm.mem_iff.mpr ((List.mem_insertionSort r).mp hb)
    exact eq_of_key_eq (hmem a ha) (hmem b hb) (hantisymm a b hab hba)
  · exact (List.perm_insertionSort r l).trans (hperm.trans (List.perm_insertionSort r l').symm)

end Table

end Base
