import Mathlib.Data.List.TakeWhile

/-!
# Texts made of items

A text such as `a=1,b=2`: items with one character between them, each a key and a value with
another character between them. `Base.splitText` and `Base.splitFirst?` take it apart the way
Python's `split` does. A key may come more than once; a dictionary made of the items keeps the last
value it came with, `Base.LastValue`, and that is what looking the key up from the end finds
(`Base.lookup_reverse_eq_some`).
-/

namespace Base

variable {sep : Char} {item key value : String} {items : List String}
  {parts : List (String × String)}

/-- `text.split(sep)`. -/
def splitText (sep : Char) (text : String) : List String :=
  (text.toList.splitOn sep).map String.ofList

/-- `item.split(sep, 1)`, as a key and a value; `none` where the item does not have the
separator. -/
def splitFirst? (sep : Char) (item : String) : Option (String × String) :=
  if sep ∈ item.toList then
    some (String.ofList (item.toList.takeWhile (· ≠ sep)),
      String.ofList (item.toList.dropWhile (· ≠ sep)).tail)
  else none

/-- The item of a key and a value. -/
def entry (sep : Char) (key value : String) : String := key ++ String.singleton sep ++ value

/-- The item is one of this key. -/
def HasKey (sep : Char) (key item : String) : Prop := key.toList ++ [sep] <+: item.toList

/-- The last item of this key has this value. -/
def LastValue (sep : Char) (items : List String) (key value : String) : Prop :=
  ∃ before after, items = before ++ entry sep key value :: after ∧
    ∀ item ∈ after, ¬ HasKey sep key item

theorem toList_entry : (entry sep key value).toList = key.toList ++ sep :: value.toList := by
  simp [entry]

/-- Where a list is cut at its first separator, both parts are determined. -/
theorem append_sep_inj {α : Type} {sep : α} {as bs cs ds : List α} (has : sep ∉ as) (hbs : sep ∉ bs)
    (h : as ++ sep :: cs = bs ++ sep :: ds) : as = bs ∧ cs = ds := by
  rcases List.append_eq_append_iff.mp h with ⟨l, rfl, hl⟩ | ⟨l, rfl, hl⟩
  all_goals
    cases l with
    | nil => exact ⟨by simp, by simp_all⟩
    | cons x l =>
      -- the longer part would contain the separator
      obtain ⟨rfl, -⟩ := List.cons.inj hl
      simp at has hbs

/-! ### Splitting -/

theorem splitText_of_notMem {text : String} (h : sep ∉ text.toList) :
    splitText sep text = [text] := by
  rw [splitText, List.splitOn_eq_singleton h, List.map_singleton, String.ofList_toList]

/-- What is before the first separator is the first part. -/
theorem splitText_append {text : String} (rest : String) (h : sep ∉ text.toList) :
    splitText sep (text ++ String.singleton sep ++ rest) = text :: splitText sep rest := by
  have hlist : (text ++ String.singleton sep ++ rest).toList = text.toList ++ sep :: rest.toList :=
    toList_entry
  rw [splitText, hlist, List.splitOn_append_cons_self_of_not_mem h, List.map_cons,
    String.ofList_toList, splitText]

/-- **An item is split at its first separator**: the key has none. -/
theorem splitFirst?_eq_some :
    splitFirst? sep item = some (key, value) ↔ sep ∉ key.toList ∧ item = entry sep key value := by
  constructor
  · intro h
    unfold splitFirst? at h
    split at h
    · next hmem =>
      obtain ⟨rfl, rfl⟩ := Prod.mk.inj (Option.some.inj h)
      rw [String.toList_ofList]
      refine ⟨fun hkey => absurd (List.mem_takeWhile_imp hkey) (by simp), ?_⟩
      -- what is left begins with the separator, since the item has one
      have hrest : item.toList.dropWhile (· ≠ sep) =
          sep :: (item.toList.dropWhile (· ≠ sep)).tail := by
        cases hdrop : item.toList.dropWhile (· ≠ sep) with
        | nil => exact absurd (List.dropWhile_eq_nil_iff.mp hdrop sep hmem) (by simp)
        | cons c rest =>
          have hc := List.head?_dropWhile_not (fun c => decide (c ≠ sep)) item.toList
          rw [hdrop] at hc
          rw [List.tail_cons, show c = sep by simpa using hc]
      rw [← String.toList_inj, toList_entry, String.toList_ofList, String.toList_ofList, ← hrest,
        List.takeWhile_append_dropWhile]
    · exact absurd h (by simp)
  · rintro ⟨hkey, rfl⟩
    have hall : ∀ c ∈ key.toList, decide (c ≠ sep) = true := fun c hc =>
      decide_eq_true fun heq => hkey (heq ▸ hc)
    rw [splitFirst?, if_pos (by rw [toList_entry]; simp), toList_entry,
      List.takeWhile_append_of_pos hall, List.dropWhile_append_of_pos hall]
    simp

theorem splitFirst?_eq_none : splitFirst? sep item = none ↔ sep ∉ item.toList := by
  simp [splitFirst?]

theorem entry_inj {value' : String} (h : entry sep key value = entry sep key value') :
    value = value' := by
  have hlist := congrArg String.toList h
  rw [toList_entry, toList_entry, List.append_cancel_left_eq] at hlist
  exact String.toList_inj.mp (List.cons.inj hlist).2

theorem hasKey_entry_self : HasKey sep key (entry sep key value) :=
  ⟨value.toList, by rw [toList_entry, List.append_assoc, List.singleton_append]⟩

/-- An item has no other key than the one it splits into. -/
theorem hasKey_entry {key' : String} (hkey : sep ∉ key.toList) (hkey' : sep ∉ key'.toList) :
    HasKey sep key (entry sep key' value) ↔ key = key' := by
  constructor
  · rintro ⟨rest, heq⟩
    rw [toList_entry, List.append_assoc, List.singleton_append] at heq
    exact String.toList_inj.mp (append_sep_inj hkey hkey' heq).1
  · rintro rfl
    exact hasKey_entry_self

/-! ### Looking a key up -/

/-- A list of items is split if each of them has a separator. -/
theorem exists_mapM_splitFirst? :
    (∃ parts, items.mapM (splitFirst? sep) = some parts) ↔ ∀ item ∈ items, sep ∈ item.toList := by
  induction items with
  | nil => simp
  | cons item items ih =>
    rw [List.forall_mem_cons, ← ih, List.mapM_cons]
    cases hsplit : splitFirst? sep item with
    | none =>
      rw [splitFirst?_eq_none] at hsplit
      exact ⟨fun ⟨_, h⟩ => absurd h (by simp), fun h => absurd h.1 hsplit⟩
    | some x =>
      have hmem : sep ∈ item.toList := by
        by_contra h
        rw [splitFirst?_eq_none.mpr h] at hsplit
        exact absurd hsplit (by simp)
      cases items.mapM (splitFirst? sep) <;> simp [hmem]

/-- The last value of a key is among the later items, or it is of the first one. -/
theorem lastValue_cons : LastValue sep (item :: items) key value ↔
    LastValue sep items key value ∨
      item = entry sep key value ∧ ∀ item ∈ items, ¬ HasKey sep key item := by
  constructor
  · rintro ⟨before, after, heq, hafter⟩
    cases before with
    | nil =>
      obtain ⟨rfl, rfl⟩ := List.cons.inj heq
      exact Or.inr ⟨rfl, hafter⟩
    | cons x before =>
      obtain ⟨rfl, rfl⟩ := List.cons.inj heq
      exact Or.inl ⟨before, after, rfl, hafter⟩
  · rintro (⟨before, after, rfl, hafter⟩ | ⟨rfl, hafter⟩)
    · exact ⟨item :: before, after, rfl, hafter⟩
    · exact ⟨[], items, rfl, hafter⟩

/-- A key has one last value. -/
theorem LastValue.unique {value' : String} (h : LastValue sep items key value)
    (h' : LastValue sep items key value') : value = value' := by
  have hnot : ∀ {items : List String} {v : String}, LastValue sep items key v →
      ¬ ∀ item ∈ items, ¬ HasKey sep key item := by
    rintro _ v ⟨before, after, rfl, -⟩ hall
    exact hall (entry sep key v) (by simp) hasKey_entry_self
  induction items with
  | nil =>
    obtain ⟨before, after, heq, -⟩ := h
    exact absurd heq (by simp)
  | cons item items ih =>
    rcases lastValue_cons.mp h with h | ⟨rfl, hnone⟩ <;>
      rcases lastValue_cons.mp h' with h' | ⟨heq, hnone'⟩
    · exact ih h h'
    · exact absurd hnone' (hnot h)
    · exact absurd hnone (hnot h')
    · exact entry_inj heq

theorem mapM_splitFirst?_cons (hparts : (item :: items).mapM (splitFirst? sep) = some parts) :
    ∃ key' value' parts', sep ∉ key'.toList ∧ item = entry sep key' value' ∧
      items.mapM (splitFirst? sep) = some parts' ∧ parts = (key', value') :: parts' := by
  rw [List.mapM_cons] at hparts
  obtain ⟨⟨key', value'⟩, hitem, hparts⟩ := Option.bind_eq_some_iff.mp hparts
  obtain ⟨parts', hparts', hcons⟩ := Option.bind_eq_some_iff.mp hparts
  obtain ⟨hkey', rfl⟩ := splitFirst?_eq_some.mp hitem
  exact ⟨key', value', parts', hkey', rfl, hparts', (Option.some.inj hcons).symm⟩

/-- A key has no value if no item has it. -/
theorem lookup_reverse_eq_none (hparts : items.mapM (splitFirst? sep) = some parts)
    (hkey : sep ∉ key.toList) :
    parts.reverse.lookup key = none ↔ ∀ item ∈ items, ¬ HasKey sep key item := by
  induction items generalizing parts with
  | nil => simp [← Option.some.inj hparts]
  | cons item items ih =>
    obtain ⟨key', value', parts', hkey', rfl, hparts', rfl⟩ := mapM_splitFirst?_cons hparts
    rw [List.reverse_cons, List.lookup_append, Option.or_eq_none_iff, ih hparts',
      List.forall_mem_cons, hasKey_entry hkey hkey', and_comm]
    refine and_congr_left fun _ => ?_
    by_cases heq : key = key'
    · simp [heq]
    · simp [List.lookup_cons, beq_false_of_ne heq, heq]

/-- **Looking a key up from the end** finds its last value. -/
theorem lookup_reverse_eq_some (hparts : items.mapM (splitFirst? sep) = some parts)
    (hkey : sep ∉ key.toList) :
    parts.reverse.lookup key = some value ↔ LastValue sep items key value := by
  induction items generalizing parts with
  | nil => simp [← Option.some.inj hparts, LastValue]
  | cons item items ih =>
    obtain ⟨key', value', parts', hkey', rfl, hparts', rfl⟩ := mapM_splitFirst?_cons hparts
    rw [List.reverse_cons, List.lookup_append, Option.or_eq_some_iff, ih hparts', lastValue_cons,
      lookup_reverse_eq_none hparts' hkey, and_comm (a := entry sep key' value' = _)]
    refine or_congr_right (and_congr_right fun _ => ?_)
    -- the first item has the value exactly when it splits into the key and the value
    have hentry : entry sep key' value' = entry sep key value ↔ key' = key ∧ value' = value := by
      refine ⟨fun heq => ?_, fun h => by rw [h.1, h.2]⟩
      have hsplit : splitFirst? sep (entry sep key' value') = some (key, value) :=
        splitFirst?_eq_some.mpr ⟨hkey, heq⟩
      rw [splitFirst?_eq_some.mpr ⟨hkey', rfl⟩] at hsplit
      exact Prod.mk.inj (Option.some.inj hsplit)
    rw [hentry]
    by_cases heq : key = key'
    · simp [heq]
    · simp [List.lookup_cons, beq_false_of_ne heq, Ne.symm heq]

end Base
