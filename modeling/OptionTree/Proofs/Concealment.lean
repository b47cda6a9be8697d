import OptionTree.Proofs.Joining

/-!
# White space that is no space

More characters are trimmed from a clause than separate tokens.  Behind a clause such a character is
a fault that hides nothing, since all names come before it; in front of a clause it hides every name
from whoever reads the clause as it was given, while the trimmed clause has them all.
-/

namespace OptionTree

namespace Text

theorem trim_trim (text : List Char) : trim (trim text) = trim text := by
  have start : trimStart (trimStart text) = trimStart text := by
    simp [trimStart, List.dropWhile_idempotent]
  calc trim (trim text) = trim (trimStart text) := trim_trimEnd _
    _ = trim text := by rw [trim, start, trim]

theorem exists_eq_trim (text : List Char) :
    ∃ tail, text = text.takeWhile isBlank ++ trim text ++ tail ∧
      ∀ c ∈ tail, isBlank c = true := by
  refine ⟨((trimStart text).reverse.takeWhile isBlank).reverse, ?_, fun c member => ?_⟩
  · have front : text.takeWhile isBlank ++ trimStart text = text := List.takeWhile_append_dropWhile
    have back : trim text ++ ((trimStart text).reverse.takeWhile isBlank).reverse =
        trimStart text := by
      have parts := List.takeWhile_append_dropWhile (p := isBlank) (l := (trimStart text).reverse)
      have reversed := congrArg List.reverse parts
      rwa [List.reverse_append, List.reverse_reverse] at reversed
    rw [List.append_assoc, back, front]
  · exact List.mem_takeWhile_imp (List.mem_reverse.mp member)

end Text

namespace Token

theorem not_isSymbolChar_of_isBlank {c : Char} (blank : Text.isBlank c = true) :
    isSymbolChar c = false := by
  cases symbolic : isSymbolChar c with
  | false => rfl
  | true => cases blank.symm.trans (isBlank_of_isSymbolChar symbolic)

namespace Cursor

/-- Where the next character is white space and yet no space, no names are read. -/
theorem symbols_of_blank {cursor : Cursor}
    (blank : ∀ c ∈ cursor.skipSpace.rest.head?, Text.isBlank c = true) :
    cursor.tokens.filterMap symbol? = [] := by
  by_cases more : cursor.next.1 = .endOfInput
  · rw [tokens_of_end more]
    rfl
  · have faulty : cursor.next.1.error?.isSome := by
      refine Option.isSome_iff_ne_none.mpr fun sound => ?_
      obtain ⟨gap, source, text, spaces, written, -⟩ := source_of_next more sound
      obtain ⟨c, rest, rfl⟩ := List.exists_cons_of_ne_nil written.ne_nil
      have ahead : c ∈ cursor.skipSpace.rest.head? := by
        have solid := (written.head (c := c) (by simp)).1
        rw [skipSpace_rest, text, List.append_assoc, List.dropWhile_append_of_pos spaces]
        simp [solid]
      have solid := written.solid.1 c (by simp)
      cases (blank c ahead).symm.trans solid
    rw [tokens, dif_neg more, if_pos faulty]
    obtain ⟨error, fault⟩ := Option.isSome_iff_exists.mp faulty
    cases token : cursor.next.1 with
    | symbol name => simp [token, error?] at fault
    | _ => rfl

theorem symbols_of_printed {tokens : List Token} {text : List Char}
    (printed : Printed tokens text) {tail : List Char}
    (blank : ∀ c ∈ tail, Text.isBlank c = true) {cursor : Cursor}
    (ahead : cursor.rest = text ++ tail) :
    cursor.tokens.filterMap symbol? = tokens.filterMap symbol? := by
  induction printed generalizing cursor with
  | nil spaces =>
      refine symbols_of_blank fun c first => ?_
      rw [skipSpace_rest, ahead, List.dropWhile_append_of_pos spaces] at first
      exact blank c (List.dropWhile_subset _ (List.mem_of_mem_head? first))
  | @cons gap source rest token tokens spaces written printed apart ih =>
      have ends : Ends token (rest ++ tail) := by
        intro c first
        cases rest with
        | nil =>
            have white := blank c (List.mem_of_mem_head? first)
            refine ⟨fun _ => not_isSymbolChar_of_isBlank white, fun _ => ?_⟩
            rintro rfl
            cases white
        | cons d rest => exact printed.ends apart c first
      obtain ⟨found, behind⟩ :=
        next_of_source (ahead.trans (List.append_assoc ..)) spaces written ends
      obtain ⟨sound, more⟩ := written.sound
      rw [tokens_of_sound (found ▸ more) (found ▸ sound), found, List.filterMap_cons,
        List.filterMap_cons, ih behind]

end Cursor
end Token

namespace Clause

open Token

/-- A clause without the white space around it. -/
def trimmed (clause : String) : String := String.ofList (Text.trim clause.toList)

/-- Whether a trimmed clause can be read as tokens to its end. -/
def Readable (clause : String) : Prop :=
  ∀ token ∈ tokenize (trimmed clause), token.error? = none

instance (clause : String) : Decidable (Readable clause) :=
  inferInstanceAs (Decidable (∀ token ∈ _, _))

/-- Whether white space that separates no tokens stands in front of a clause. -/
def Concealed (clause : String) : Prop :=
  ∃ c ∈ clause.toList.takeWhile Text.isBlank, isSpace c = false

instance (clause : String) : Decidable (Concealed clause) :=
  inferInstanceAs (Decidable (∃ c ∈ _, _))

theorem symbols_of_concealed {clause : String} (concealed : Concealed clause) :
    symbols clause = [] := by
  refine Cursor.symbols_of_blank fun c first => ?_
  obtain ⟨hidden, member, solid⟩ := concealed
  have parts : (Cursor.start clause).rest =
      clause.toList.takeWhile Text.isBlank ++ clause.toList.dropWhile Text.isBlank :=
    List.takeWhile_append_dropWhile.symm
  have left : (clause.toList.takeWhile Text.isBlank).dropWhile isSpace ≠ [] := fun none => by
    have space := List.dropWhile_eq_nil_iff.mp none hidden member
    cases space.symm.trans solid
  obtain ⟨d, rest, shape⟩ := List.exists_cons_of_ne_nil left
  have ahead : (Cursor.start clause).skipSpace.rest =
      d :: (rest ++ clause.toList.dropWhile Text.isBlank) := by
    rw [Cursor.skipSpace_rest, parts, List.dropWhile_append, shape]
    rfl
  rw [ahead] at first
  obtain rfl : d = c := by simpa using first
  have inside : d ∈ clause.toList.takeWhile Text.isBlank :=
    List.dropWhile_subset _ (shape ▸ List.mem_cons_self)
  exact List.mem_takeWhile_imp inside

theorem symbols_of_not_concealed {clause : String} (readable : Readable clause)
    (shown : ¬Concealed clause) : symbols clause = symbols (trimmed clause) := by
  obtain ⟨tail, parts, blank⟩ := Text.exists_eq_trim clause.toList
  have spaces : ∀ c ∈ clause.toList.takeWhile Text.isBlank, isSpace c = true := by
    intro c member
    cases space : isSpace c with
    | true => rfl
    | false => exact absurd ⟨c, member, space⟩ shown
  have printed := (printed_of_tokenize readable).behind_spaces spaces
  rw [trimmed, String.toList_ofList] at printed
  exact Cursor.symbols_of_printed printed blank parts

theorem conjunction_map_trimmed (clauses : List String) :
    conjunction (clauses.map trimmed) = conjunction clauses := by
  have trims : ((clauses.map trimmed).map fun clause => Text.trim clause.toList) =
      clauses.map fun clause => Text.trim clause.toList := by
    rw [List.map_map]
    refine List.map_congr_left fun clause _ => ?_
    rw [Function.comp_apply, trimmed, String.toList_ofList, Text.trim_trim]
  rw [conjunction, conjunction, parts, parts, trims]

theorem symbol_mem_intercalate {symbol : String} {parts : List (List Token)} {part : List Token}
    (present : part ∈ parts) (member : .symbol symbol ∈ part) :
    .symbol symbol ∈ List.intercalate [.operator (.binary .conjunction)] parts := by
  induction parts with
  | nil => cases present
  | cons first parts ih =>
      cases parts with
      | nil =>
          obtain rfl := List.mem_singleton.mp present
          simpa using member
      | cons next parts =>
          rw [List.intercalate_cons_cons, List.append_assoc]
          rcases List.mem_cons.mp present with rfl | behind
          · exact List.mem_append_left _ member
          · exact List.mem_append_right _ (List.mem_append_right _ (ih behind))

theorem mem_symbols_conjunction {clauses : List String}
    (sound : ∀ clause ∈ clauses, ∀ token ∈ tokenize clause, token.error? = none) {clause : String}
    (present : clause ∈ clauses) {symbol : String} (member : symbol ∈ symbols clause) :
    symbol ∈ symbols (conjunction clauses) := by
  have named := mem_symbols.mp member
  have stated : clause ∈ clauses.filter (tokenize · ≠ []) :=
    List.mem_filter.mpr ⟨present, by simpa using List.ne_nil_of_mem named⟩
  have guarded : .symbol symbol ∈ guardedTokens clause := by
    rw [guardedTokens]
    split
    · simpa using named
    · exact named
  rw [mem_symbols, tokenize_conjunction_of_sound sound]
  exact symbol_mem_intercalate (List.mem_map_of_mem stated) guarded

/-- If clauses can be read when they are trimmed, the names in their conjunction are those that the
trimmed clauses have. -/
theorem mem_symbols_conjunction_iff {clauses : List String}
    (readable : ∀ clause ∈ clauses, Readable clause) {symbol : String} :
    symbol ∈ symbols (conjunction clauses) ↔
      ∃ clause ∈ clauses, symbol ∈ symbols (trimmed clause) := by
  have sound : ∀ clause ∈ clauses.map trimmed, ∀ token ∈ tokenize clause,
      token.error? = none := by
    intro clause member
    obtain ⟨origin, inside, rfl⟩ := List.mem_map.mp member
    exact readable origin inside
  rw [← conjunction_map_trimmed]
  constructor
  · intro member
    obtain ⟨clause, inside, mentions⟩ := symbols_conjunction sound member
    obtain ⟨origin, present, rfl⟩ := List.mem_map.mp inside
    exact ⟨origin, present, mentions⟩
  · rintro ⟨clause, present, member⟩
    exact mem_symbols_conjunction sound (List.mem_map_of_mem present) member

end Clause
end OptionTree
