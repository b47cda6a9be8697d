import OptionTree.Text.Blank

/-!
# Trimming a text

White space at the end of a text is what stands behind its last character that is not blank.
-/

namespace OptionTree
namespace Text

theorem trimEnd_append {first : List Char} (solid : ∀ c ∈ first.getLast?, isBlank c = false)
    (second : List Char) : trimEnd (first ++ second) = first ++ trimEnd second := by
  simp only [trimEnd, trimStart, List.reverse_append, List.dropWhile_append]
  split
  · rename_i blank
    have kept : first.reverse.dropWhile isBlank = first.reverse := by
      refine trimStart_eq_self fun c last => solid c ?_
      rwa [List.head?_reverse] at last
    rw [List.isEmpty_iff.mp blank, kept]
    simp
  · simp

theorem trimEnd_prefix (text : List Char) : trimEnd text <+: text := by
  have suffix : text.reverse.dropWhile isBlank <:+ text.reverse := List.dropWhile_suffix _
  simpa [trimEnd, trimStart] using List.reverse_prefix.mpr suffix

theorem trimEnd_trimEnd (text : List Char) : trimEnd (trimEnd text) = trimEnd text := by
  refine trimEnd_eq_self fun c last => ?_
  rw [trimEnd, List.getLast?_reverse] at last
  have kept := List.head?_dropWhile_not isBlank text.reverse
  rw [trimStart] at last
  rw [Option.mem_def.mp last] at kept
  simpa using kept

theorem trimStart_trimEnd_cons {c : Char} (blank : isBlank c = true) (text : List Char) :
    trimStart (trimEnd (c :: text)) = trimStart (trimEnd text) := by
  simp only [trimEnd, trimStart, List.reverse_cons, List.dropWhile_append]
  split
  · rename_i empty
    rw [List.isEmpty_iff.mp empty]
    simp [blank]
  · simp [blank]

/-- Trimming both ends does not depend on which one is trimmed first. -/
theorem trimStart_trimEnd (text : List Char) : trimStart (trimEnd text) = trim text := by
  induction text with
  | nil => rfl
  | cons c text ih =>
      cases blank : isBlank c with
      | true =>
          rw [trimStart_trimEnd_cons blank, ih]
          simp [trim, trimStart, blank]
      | false =>
          have kept : trimEnd ([c] ++ text) = [c] ++ trimEnd text :=
            trimEnd_append (by simpa using blank) text
          rw [List.singleton_append] at kept
          have start : ∀ rest, trimStart (c :: rest) = c :: rest := fun rest =>
            trimStart_eq_self (by simpa using blank)
          rw [trim, start, kept, List.singleton_append, start]

theorem trim_trimEnd (text : List Char) : trim (trimEnd text) = trim text := by
  rw [trim, trimStart_trimEnd, trim, trimEnd_trimEnd]

end Text
end OptionTree
