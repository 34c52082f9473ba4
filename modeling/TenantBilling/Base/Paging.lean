import Mathlib.Algebra.Order.Group.Nat
import Mathlib.Data.List.Nodup
import Mathlib.Data.List.Perm.Basic
import Mathlib.Data.List.Sort
import Mathlib.Order.Basic

/-!
# Paging through an arrangement

A list of rows is shown in pages of `n` rows, greatest key first. Where several rows have one key
nothing decides between them, and each page may be cut out of another arrangement:
`Base.Arranged key rows l` says that `l` has the rows in an order that the keys admit, and
`Base.block n k l` is the `k`-th page of it.

What decides is whether the rows of one key stay together. In every arrangement they stand at the
places from `Base.before` to `Base.upTo`; a page boundary strictly between these splits them.

* Where no boundary does (`Base.Unsplit`), the `k`-th page consists of the same rows in every
  arrangement (`Base.Arranged.block_eq_filter`), so pages of different arrangements show every row
  once and in order (`Base.Unsplit.perm_pages`, `Base.Unsplit.pairwise_pages`).
* Where one does, two arrangements show one row on both sides of it (`Base.exists_shown_twice`).
-/

namespace Base

variable {α κ : Type}

/-! ### Pages of a list -/

/-- The `k`-th page of `n` rows. -/
def block (n k : ℕ) (l : List α) : List α := (l.drop (k * n)).take n

/-- The first `m` pages one after the other, each of its own list. -/
def pages (n m : ℕ) (l : ℕ → List α) : List α := (List.range m).flatMap fun k => block n k (l k)

/-- The row at a place is on the page of that place. -/
theorem mem_block {n k i : ℕ} {l : List α} {a : α} (ha : l[i]? = some a) (hle : k * n ≤ i)
    (hlt : i < (k + 1) * n) : a ∈ block n k l := by
  rw [Nat.succ_mul] at hlt
  refine List.mem_of_getElem? (i := i - k * n) ?_
  rw [block, List.getElem?_take_of_lt (by omega), List.getElem?_drop, Nat.add_sub_of_le hle]
  exact ha

/-- What a filter keeps, if it goes by the place alone. -/
theorem take_drop_eq_filter {l : List α} {P : α → Prop} [DecidablePred P] {i n : ℕ}
    (h : ∀ j (hj : j < l.length), P l[j] ↔ i ≤ j ∧ j < i + n) :
    (l.drop i).take n = l.filter fun a => P a := by
  induction l generalizing i n with
  | nil => simp
  | cons a l ih =>
    have hhead : P a ↔ i ≤ 0 ∧ 0 < i + n := h 0 (Nat.succ_pos _)
    have htail : ∀ j (hj : j < l.length), P l[j] ↔ i ≤ j + 1 ∧ j + 1 < i + n :=
      fun j hj => h (j + 1) (Nat.succ_lt_succ hj)
    rcases i with _ | i
    · rcases n with _ | n
      · have hnone : ∀ b ∈ a :: l, ¬P b := by
          intro b hb hP
          obtain ⟨j, hj, rfl⟩ := List.mem_iff_getElem.mp hb
          exact absurd ((h j hj).mp hP).2 (by omega)
        rw [List.take_zero, List.filter_eq_nil_iff.mpr]
        simpa using hnone
      · have hP : P a := hhead.mpr ⟨le_rfl, by omega⟩
        have hrest := ih (i := 0) (n := n) fun j hj => (htail j hj).trans (by omega)
        rw [List.filter_cons_of_pos (by simpa using hP), ← hrest]
        rfl
    · have hP : ¬P a := fun hP => absurd (hhead.mp hP).1 (by omega)
      have hrest := ih (i := i) (n := n) fun j hj => (htail j hj).trans (by omega)
      rw [List.filter_cons_of_neg (by simpa using hP), ← hrest]
      rfl

/-- The rows sorted into classes, class after class. -/
theorem perm_flatMap_filter (f : α → ℕ) (l : List α) (m : ℕ) :
    ((List.range m).flatMap fun k => l.filter fun a => f a = k).Perm
      (l.filter fun a => f a < m) := by
  induction m with
  | zero => simp
  | succ m ih =>
    have hlt : (l.filter fun a => f a < m + 1).filter (fun a => f a < m) =
        l.filter fun a => f a < m := by
      rw [List.filter_filter]
      refine List.filter_congr fun a _ => ?_
      simpa using fun h => Nat.lt_succ_of_lt h
    have heq : (l.filter fun a => f a < m + 1).filter (fun a => !decide (f a < m)) =
        l.filter fun a => f a = m := by
      rw [List.filter_filter]
      refine List.filter_congr fun a _ => ?_
      rw [← decide_not, ← Bool.decide_and]
      exact decide_eq_decide.mpr (by omega)
    have hsplit := List.filter_append_perm (fun a => decide (f a < m))
      (l.filter fun a => f a < m + 1)
    rw [hlt, heq] at hsplit
    rw [List.range_succ, List.flatMap_append, List.flatMap_singleton]
    exact (ih.append_right _).trans hsplit

/-- How many rows have a property that no row has after one without it. -/
theorem lt_countP_iff {P : α → Prop} [DecidablePred P] {l : List α}
    (h : l.Pairwise fun a b => P b → P a) {i : ℕ} :
    i < l.countP (fun a => P a) ↔ ∃ hi : i < l.length, P l[i] := by
  induction l generalizing i with
  | nil => simp
  | cons a l ih =>
    obtain ⟨hhead, htail⟩ := List.pairwise_cons.mp h
    by_cases ha : P a
    · rw [List.countP_cons_of_pos (by simpa using ha)]
      rcases i with _ | i
      · simpa using ha
      · simpa using ih htail
    · have hnone : ∀ b ∈ l, ¬P b := fun b hb hP => ha (hhead b hb hP)
      have hzero : (a :: l).countP (fun a => P a) = 0 := by
        refine List.countP_eq_zero.mpr fun b hb => ?_
        rcases List.mem_cons.mp hb with rfl | hb
        · simpa using ha
        · simpa using hnone b hb
      rw [hzero]
      refine ⟨fun hlt => absurd hlt (Nat.not_lt_zero i), ?_⟩
      rintro ⟨hi, hP⟩
      rcases List.mem_cons.mp (List.getElem_mem hi) with heq | hmem
      · exact absurd (heq ▸ hP) ha
      · exact absurd hP (hnone _ hmem)

/-! ### Arrangements -/

variable [LinearOrder κ] {key : α → κ} {rows l : List α} {n : ℕ}

/-- **An arrangement of the rows**: all of them, greatest key first. -/
structure Arranged (key : α → κ) (rows l : List α) : Prop where
  perm : l.Perm rows
  sorted : l.Pairwise fun a b => key b ≤ key a

/-- How many rows have a greater key. -/
def before (key : α → κ) (rows : List α) (t : κ) : ℕ := rows.countP fun a => t < key a

/-- How many rows have this key or a greater one. -/
def upTo (key : α → κ) (rows : List α) (t : κ) : ℕ := rows.countP fun a => t ≤ key a

/-- **No page boundary splits the rows of one key.** -/
def Unsplit (key : α → κ) (n : ℕ) (rows : List α) : Prop :=
  ∀ a ∈ rows, ∀ k, ¬(before key rows (key a) < k * n ∧ k * n < upTo key rows (key a))

/-- The rows with a greater key stand before this place. -/
theorem Arranged.lt_before_iff (h : Arranged key rows l) {t : κ} {i : ℕ} :
    i < before key rows t ↔ ∃ hi : i < l.length, t < key l[i] := by
  rw [before, ← h.perm.countP_eq]
  exact lt_countP_iff (h.sorted.imp fun hle hlt => hlt.trans_le hle)

/-- The rows with this key or a greater one stand up to this place. -/
theorem Arranged.lt_upTo_iff (h : Arranged key rows l) {t : κ} {i : ℕ} :
    i < upTo key rows t ↔ ∃ hi : i < l.length, t ≤ key l[i] := by
  rw [upTo, ← h.perm.countP_eq]
  exact lt_countP_iff (h.sorted.imp fun hle ht => ht.trans hle)

/-- **The rows of a key stand from one place to the other.** -/
theorem Arranged.key_eq_iff (h : Arranged key rows l) {t : κ} {i : ℕ} (hi : i < l.length) :
    key l[i] = t ↔ before key rows t ≤ i ∧ i < upTo key rows t := by
  have hbefore : before key rows t ≤ i ↔ key l[i] ≤ t := by
    rw [← not_lt, h.lt_before_iff, ← not_lt]
    exact not_congr (exists_prop_of_true hi)
  have hupTo : i < upTo key rows t ↔ t ≤ key l[i] := h.lt_upTo_iff.trans (exists_prop_of_true hi)
  rw [hbefore, hupTo, le_antisymm_iff]

/-- A row stands where the rows of its key stand. -/
theorem Arranged.place (h : Arranged key rows l) {i : ℕ} (hi : i < l.length) :
    before key rows (key l[i]) ≤ i ∧ i < upTo key rows (key l[i]) :=
  (h.key_eq_iff hi).mp rfl

/-! ### Unsplit keys -/

theorem upTo_eq_add (key : α → κ) (rows : List α) (t : κ) :
    upTo key rows t = before key rows t + rows.countP (fun a => key a = t) := by
  induction rows with
  | nil => rfl
  | cons a rows ih =>
    simp only [upTo, before, List.countP_cons, decide_eq_true_eq] at ih ⊢
    rw [ih]
    rcases lt_trichotomy t (key a) with hlt | rfl | hgt
    · simp only [hlt, hlt.le, hlt.ne', if_true, if_false]
      omega
    · simp only [lt_irrefl, le_rfl, if_true, if_false]
      omega
    · simp only [hgt.not_ge, hgt.not_gt, hgt.ne, if_false]
      omega

/-- Rows with pairwise different keys are not split. -/
theorem unsplit_of_nodup (h : (rows.map key).Nodup) (n : ℕ) : Unsplit key n rows := by
  rintro a - k ⟨hbefore, hupTo⟩
  have hone : rows.countP (fun b => key b = key a) ≤ 1 := by
    have hcount := List.nodup_iff_count_le_one.mp h (key a)
    rwa [List.count, List.countP_map] at hcount
  rw [upTo_eq_add] at hupTo
  omega

/-- **Every arrangement has the same rows on a page**, if no boundary splits the rows of a key. -/
theorem Arranged.block_eq_filter (h : Arranged key rows l) (hn : 0 < n) (hun : Unsplit key n rows)
    (k : ℕ) : block n k l = l.filter fun a => before key rows (key a) / n = k := by
  refine take_drop_eq_filter fun j hj => ?_
  obtain ⟨hbefore, hupTo⟩ := h.place hj
  have hmem : l[j] ∈ rows := h.perm.subset (List.getElem_mem hj)
  set b := before key rows (key l[j])
  have hdiv : j / n = b / n := by
    refine le_antisymm ?_ (Nat.div_le_div_right hbefore)
    by_contra hlt
    -- the first boundary after the place of the first of them
    refine hun l[j] hmem (b / n + 1) ⟨?_, ?_⟩
    · exact Nat.lt_mul_of_div_lt (Nat.lt_succ_self _) hn
    · have hle : (b / n + 1) * n ≤ j := (Nat.le_div_iff_mul_le hn).mp (not_le.mp hlt)
      exact hle.trans_lt hupTo
  rw [← hdiv, Nat.div_eq_iff hn]
  omega

/-- The arrangements of the pages are those of the rows of the pages. -/
theorem Unsplit.pages_eq (hun : Unsplit key n rows) (hn : 0 < n) {m : ℕ} {l : ℕ → List α}
    (hl : ∀ k < m, Arranged key rows (l k)) :
    pages n m l = (List.range m).flatMap fun k =>
      (l k).filter fun a => before key rows (key a) / n = k := by
  refine List.flatMap_congr fun k hk => ?_
  exact (hl k (List.mem_range.mp hk)).block_eq_filter hn hun k

/-- **Pages of different arrangements show every row once**, if no boundary splits the rows of a
key. -/
theorem Unsplit.perm_pages (hun : Unsplit key n rows) (hn : 0 < n) {m : ℕ} {l : ℕ → List α}
    (hl : ∀ k < m, Arranged key rows (l k)) (hm : rows.length < m * n) :
    (pages n m l).Perm rows := by
  have hclasses : (pages n m l).Perm ((List.range m).flatMap fun k =>
      rows.filter fun a => before key rows (key a) / n = k) := by
    rw [hun.pages_eq hn hl]
    refine List.Perm.flatMap_left _ fun k hk => ?_
    exact (hl k (List.mem_range.mp hk)).perm.filter _
  have hall : (rows.filter fun a => before key rows (key a) / n < m) = rows := by
    refine List.filter_eq_self.mpr fun a _ => ?_
    have hle : before key rows (key a) ≤ rows.length := List.countP_le_length
    exact decide_eq_true ((Nat.div_lt_iff_lt_mul hn).mpr (hle.trans_lt hm))
  have hfilter := perm_flatMap_filter (fun a => before key rows (key a) / n) rows m
  rw [hall] at hfilter
  exact hclasses.trans hfilter

/-- **Pages of different arrangements show the rows in order**, if no boundary splits the rows of a
key. -/
theorem Unsplit.pairwise_pages (hun : Unsplit key n rows) (hn : 0 < n) {m : ℕ} {l : ℕ → List α}
    (hl : ∀ k < m, Arranged key rows (l k)) :
    (pages n m l).Pairwise fun a b => key b ≤ key a := by
  rw [hun.pages_eq hn hl, List.pairwise_flatMap]
  refine ⟨fun k hk => (hl k (List.mem_range.mp hk)).sorted.filter _, ?_⟩
  refine List.pairwise_lt_range.imp fun {j k} hjk a ha b hb => ?_
  obtain ⟨-, ha⟩ := List.mem_filter.mp ha
  obtain ⟨-, hb⟩ := List.mem_filter.mp hb
  -- a row of a later page has more rows with a greater key before it
  have hlt : before key rows (key a) < before key rows (key b) := by
    refine lt_of_not_ge fun hge => ?_
    have hle := Nat.div_le_div_right (c := n) hge
    rw [of_decide_eq_true ha, of_decide_eq_true hb] at hle
    omega
  refine le_of_not_gt fun hgt => ?_
  refine absurd hlt (not_lt_of_ge ?_)
  exact List.countP_mono_left fun c _ hc => decide_eq_true (hgt.trans (of_decide_eq_true hc))

/-! ### Split keys -/

/-- Neighbours of one key can change places. -/
theorem Arranged.swap {as bs : List α} {a b : α} (h : Arranged key rows (as ++ a :: b :: bs))
    (hab : key a = key b) : Arranged key rows (as ++ b :: a :: bs) where
  perm := ((List.Perm.swap a b bs).append_left as).trans h.perm
  sorted := by
    have hkeys : (as ++ b :: a :: bs).map key = (as ++ a :: b :: bs).map key := by simp [hab]
    have hsorted : ((as ++ a :: b :: bs).map key).Pairwise (· ≥ ·) := List.pairwise_map.mpr h.sorted
    rw [← hkeys] at hsorted
    exact List.pairwise_map.mp hsorted

/-- Two neighbours in a list. -/
theorem exists_cut {i : ℕ} (hi : i + 1 < l.length) :
    ∃ as bs, l = as ++ l[i] :: l[i + 1] :: bs ∧ as.length = i := by
  refine ⟨l.take i, l.drop (i + 1 + 1), ?_, List.length_take_of_le (by omega)⟩
  rw [← List.drop_eq_getElem_cons hi, ← List.drop_eq_getElem_cons (Nat.lt_of_succ_lt hi),
    List.take_append_drop]

/-- **Where a boundary splits the rows of a key**, a row can be shown on both sides of it. -/
theorem exists_shown_twice (hn : 0 < n) (h : ¬Unsplit key n rows) (hl : Arranged key rows l) :
    ∃ a l' k, Arranged key rows l' ∧ (k + 1) * n < rows.length ∧ a ∈ block n k l ∧
      a ∈ block n (k + 1) l' := by
  simp only [Unsplit, not_forall, not_not] at h
  obtain ⟨c, -, k, hbefore, hupTo⟩ := h
  obtain ⟨i, hi⟩ : ∃ i, k * n = i + 1 :=
    Nat.exists_eq_succ_of_ne_zero (Nat.ne_zero_of_lt hbefore)
  rw [hi] at hbefore hupTo
  obtain ⟨hlt, -⟩ := hl.lt_upTo_iff.mp hupTo
  -- the boundary is between two rows of this key
  have hfirst : key l[i] = key c :=
    (hl.key_eq_iff _).mpr ⟨Nat.le_of_lt_succ hbefore, Nat.lt_of_succ_lt hupTo⟩
  have hsecond : key l[i + 1] = key c := (hl.key_eq_iff hlt).mpr ⟨hbefore.le, hupTo⟩
  obtain ⟨as, bs, hcut, hlen⟩ := exists_cut hlt
  have hswap : Arranged key rows (as ++ l[i + 1] :: l[i] :: bs) := by
    rw [hcut] at hl
    exact hl.swap (hfirst.trans hsecond.symm)
  obtain ⟨k, rfl⟩ : ∃ j, k = j + 1 := Nat.exists_eq_succ_of_ne_zero (by rintro rfl; simp at hi)
  refine ⟨l[i], _, k, hswap, ?_, ?_, ?_⟩
  · rw [hi, ← hl.perm.length_eq]
    exact hlt
  · rw [Nat.succ_mul] at hi
    exact mem_block (List.getElem?_eq_getElem _) (by omega) (by rw [Nat.succ_mul]; omega)
  · refine mem_block (i := i + 1) ?_ hi.le (by rw [Nat.succ_mul (k + 1), hi]; omega)
    simp [← hlen]

end Base
