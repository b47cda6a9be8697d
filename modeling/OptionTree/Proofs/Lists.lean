import Mathlib.Data.List.Nodup

/-!
# Lists

Entries, definitions and targets are listed in the order in which they come up, so that most lists
grow at their end.  These facts about such lists know nothing of what they list.
-/

namespace List

variable {α β : Type}

/-- An index into a list and one more item is one into the list, or the last one. -/
theorem of_getElem?_concat {items : List α} {item other : α} {index : Nat}
    (found : (items ++ [item])[index]? = some other) :
    items[index]? = some other ∨ index = items.length ∧ other = item := by
  rcases Nat.lt_trichotomy index items.length with before | rfl | behind
  · rw [getElem?_append_left before] at found
    exact .inl found
  · rw [getElem?_concat_length] at found
    exact .inr ⟨rfl, (Option.some.inj found).symm⟩
  · rw [getElem?_eq_none (by simp; omega)] at found
    cases found

theorem take_concat_of_getElem? {items : List α} {other : α} {index : Nat}
    (found : items[index]? = some other) (item : α) :
    (items ++ [item]).take index = items.take index := by
  obtain ⟨inside, -⟩ := getElem?_eq_some_iff.mp found
  rw [take_append_of_le_length (Nat.le_of_lt inside)]

theorem findSome?_concat (items : List α) (item : α) (read : α → Option β) :
    (items ++ [item]).findSome? read = (items.findSome? read).or (read item) := by
  rw [findSome?_append]
  simp

theorem eraseDups_concat [DecidableEq α] (items : List α) (item : α) :
    (items ++ [item]).eraseDups =
      if item ∈ items then items.eraseDups else items.eraseDups ++ [item] := by
  by_cases known : item ∈ items
  · simp [eraseDups_append, removeAll, known]
  · simp [eraseDups_append, removeAll, eraseDups_cons, known]

theorem modify_append_of_lt {index : Nat} {first : List α} (inside : index < first.length)
    (change : α → α) (later : List α) :
    (first ++ later).modify index change = first.modify index change ++ later := by
  induction first generalizing index with
  | nil => cases inside
  | cons item first ih =>
      cases index with
      | zero => rfl
      | succ index => simp [ih (Nat.lt_of_succ_lt_succ inside)]

theorem modify_append_length (first : List α) (change : α → α) (item : α) :
    (first ++ [item]).modify first.length change = first ++ [change item] := by
  induction first with
  | nil => rfl
  | cons head first ih => simp [ih]

/-- The only item of a list that is kept. -/
theorem filterMap_eq_singleton {items : List α} (distinct : items.Nodup) {keep : α → Option β}
    {a : α} {b : β} (member : a ∈ items) (own : keep a = some b)
    (others : ∀ item ∈ items, item ≠ a → keep item = none) : items.filterMap keep = [b] := by
  obtain ⟨before, after, rfl⟩ := append_of_mem member
  have apart := nodup_middle.mp distinct
  obtain ⟨absent, -⟩ := nodup_cons.mp apart
  have none : ∀ part : List α, part ⊆ before ++ after → part.filterMap keep = [] := by
    refine fun part within => filterMap_eq_nil_iff.mpr fun item inside => ?_
    have present := within inside
    refine others item ?_ fun same => absent (same ▸ present)
    rcases mem_append.mp present with early | late
    · exact mem_append_left _ early
    · exact mem_append_right _ (mem_cons_of_mem _ late)
  rw [filterMap_append, filterMap_cons, own, none before (subset_append_left _ _),
    none after (subset_append_right _ _)]
  rfl

theorem ite_mem_append [DecidableEq α] {item : α} {first second : List α} {chosen other : β} :
    (if item ∈ second then chosen else if item ∈ first then chosen else other) =
      if item ∈ first ++ second then chosen else other := by
  by_cases inFirst : item ∈ first <;> by_cases inSecond : item ∈ second <;>
    simp [inFirst, inSecond]

end List
