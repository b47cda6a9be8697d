import OptionTree.Text.Blank

/-!
# Cutting texts at single characters

`fields` keeps every piece between two separators, so that lines keep their numbers; `words`
keeps only the pieces that hold something; `cut?` splits at the first occurrence alone.
-/

namespace OptionTree
namespace Text

/-- The pieces between the separating characters: one more than there are separators. -/
def fields (separates : Char → Bool) : List Char → List (List Char)
  | [] => [[]]
  | c :: rest =>
    if separates c then [] :: fields separates rest
    else (fields separates rest).modifyHead (c :: ·)

/-- The lines of a text, without their line feeds. -/
def lines (text : List Char) : List (List Char) := fields (· == '\n') text

/-- The maximal runs of characters that are not white space. -/
def words (text : List Char) : List (List Char) := (fields isBlank text).filter (!·.isEmpty)

/-- The texts before and after the first occurrence of a mark, if there is one. -/
def cut? (mark : Char) (text : List Char) : Option (List Char × List Char) :=
  match text.dropWhile (· != mark) with
  | [] => none
  | _ :: after => some (text.takeWhile (· != mark), after)

theorem fields_ne_nil (separates : Char → Bool) (text : List Char) :
    fields separates text ≠ [] := by
  induction text with
  | nil => simp [fields]
  | cons c rest ih =>
    rw [fields]
    split
    · simp
    · simpa [List.modifyHead_eq_nil_iff] using ih

theorem fields_of_none {separates : Char → Bool} {text : List Char}
    (none : ∀ c ∈ text, separates c = false) : fields separates text = [text] := by
  induction text with
  | nil => rfl
  | cons c rest ih =>
    rw [fields, none c (by simp), ih fun d member => none d (by simp [member])]
    rfl

/-- The field before a separator ends there. -/
theorem fields_append_cons {separates : Char → Bool} {mark : Char} {first : List Char}
    (none : ∀ c ∈ first, separates c = false) (isMark : separates mark = true)
    (rest : List Char) :
    fields separates (first ++ mark :: rest) = first :: fields separates rest := by
  induction first with
  | nil => simp [fields, isMark]
  | cons c first ih =>
    rw [List.cons_append, fields, none c (by simp), ih fun d member => none d (by simp [member])]
    rfl

theorem cut?_append_cons {mark : Char} {before : List Char} (absent : mark ∉ before)
    (after : List Char) : cut? mark (before ++ mark :: after) = some (before, after) := by
  have passes : ∀ c ∈ before, (c != mark) = true := fun c member => by
    simpa using fun same : c = mark => absent (same ▸ member)
  simp [cut?, List.dropWhile_append_of_pos passes, List.takeWhile_append_of_pos passes]

end Text
end OptionTree
