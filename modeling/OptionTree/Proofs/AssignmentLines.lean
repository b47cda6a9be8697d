import OptionTree.Assignments
import OptionTree.Proofs.Digits
import OptionTree.Proofs.Trimming
import Mathlib.Data.List.Basic

/-!
# Assignments as lines of text

A value that was written and can be read again is written in the same way afterwards, and the lines
that assign texts to words are read as just these assignments.
-/

namespace OptionTree

/-- The text behind the equals sign as it is read from its line. -/
def rawOf (text : String) : String := String.ofList (Text.trimEnd text.toList)

theorem rawOf_eq_self {text : String}
    (solid : ∀ c ∈ text.toList.getLast?, Text.isBlank c = false) : rawOf text = text := by
  rw [rawOf, Text.trimEnd_eq_self solid, String.ofList_toList]

namespace OptionType

@[simp]
theorem rawOf_letter (state : Tristate) :
    rawOf (String.singleton state.letter) = String.singleton state.letter := by
  cases state <;> rfl

theorem eq_of_isSwitch {type : OptionType} (switch : type.isSwitch = true) :
    type = bool ∨ type = tristate := by
  cases type with
  | bool => exact .inl rfl
  | tristate => exact .inr rfl
  | _ => cases switch

theorem read_switch {type : OptionType} (switch : type.isSwitch = true) (raw : String) :
    read raw (some type) = .ok (.text raw) := by
  rcases eq_of_isSwitch switch with rfl | rfl <;> rfl

theorem write?_switch {type : OptionType} (switch : type.isSwitch = true) (value : Value) :
    type.write? value = some (String.singleton (Tristate.ofValue? (some value)).letter) := by
  rcases eq_of_isSwitch switch with rfl | rfl <;> rfl

theorem read_quoted (content : String) :
    read (rawOf ("\"" ++ content ++ "\"")) (some string) = .ok (.text content) := by
  have chars : ("\"" ++ content ++ "\"").toList = '"' :: (content.toList ++ ['"']) := by simp
  have raw : rawOf ("\"" ++ content ++ "\"") = "\"" ++ content ++ "\"" := by
    refine rawOf_eq_self fun c last => ?_
    rw [chars, ← List.cons_append, List.getLast?_concat] at last
    obtain rfl : '"' = c := by simpa using last
    rfl
  rw [raw, read, Text.unquoted, chars, Text.unquote_double, String.ofList_toList]

theorem decimal?_rawOf (content : String) :
    Numeral.decimal? (rawOf content) = Numeral.decimal? content := by
  rw [Numeral.decimal?, rawOf, String.toList_ofList, Text.trim_trimEnd, Numeral.decimal?]

theorem hexadecimal?_rawOf (content : String) :
    Numeral.hexadecimal? (rawOf content) = Numeral.hexadecimal? content := by
  rw [Numeral.hexadecimal?, rawOf, String.toList_ofList, Text.trim_trimEnd, Numeral.hexadecimal?]

theorem rawOf_of_solid {text : String} (solid : ∀ c ∈ text.toList, Text.isBlank c = false) :
    rawOf text = text :=
  rawOf_eq_self fun c last => solid c (List.mem_of_mem_getLast? last)

theorem write?_of_read_switch {value again : Value} {text : String}
    (written : String.singleton (Tristate.ofValue? (some value)).letter = text)
    (same : Value.text (rawOf text) = again) :
    some (String.singleton (Tristate.ofValue? (some again)).letter) = some text := by
  subst written
  rw [rawOf_letter] at same
  subst same
  exact congrArg (fun state => some (String.singleton (Tristate.letter state)))
    (Tristate.ofValue?_toValue _)

/-- Whether a text that writes the number of a value is read as a number written in the same way. -/
structure Numbers (number? : Value → Option Int) (reads : String → Option Int)
    (writes : Int → String) : Prop where
  /-- A number denotes itself. -/
  of_number : ∀ n, number? (.number n) = some n
  /-- A text denotes the number that is read from it. -/
  of_text : ∀ content, number? (.text content) = reads content
  /-- White space at the end does not count. -/
  trimmed : ∀ content, reads (rawOf content) = reads content
  /-- Numbers are written without white space. -/
  solid : ∀ n, ∀ c ∈ (writes n).toList, Text.isBlank c = false
  /-- A number that is read from the text of another one is written like that one. -/
  again : ∀ {n m}, reads (writes n) = some m → writes m = writes n

theorem decimals : Numbers Value.decimal? Numeral.decimal? Numeral.decimal where
  of_number := fun _ => rfl
  of_text := fun _ => rfl
  trimmed := decimal?_rawOf
  solid := fun n => by
    rw [Numeral.toList_decimal]
    exact Numeral.solid_decimalChars n
  again := fun found => by rw [Numeral.eq_of_decimal?_decimal found]

theorem hexadecimals : Numbers Value.hexadecimal? Numeral.hexadecimal? Numeral.hexadecimal where
  of_number := fun _ => rfl
  of_text := fun _ => rfl
  trimmed := hexadecimal?_rawOf
  solid := Numeral.solid_hexadecimal
  again := fun found => by
    rw [Numeral.eq_of_hexadecimal?_hexadecimal found]
    simp [Numeral.hexadecimal]

namespace Numbers

variable {number? : Value → Option Int} {reads : String → Option Int} {writes : Int → String}
  (numbers : Numbers number? reads writes) {value : Value} {text : String}
  (written : ((number? value).map writes).getD value.display = text)
include numbers written

theorem reads_rawOf : reads (rawOf text) = (number? value).bind fun n => reads (writes n) := by
  subst written
  cases number : number? value with
  | some n =>
      rw [Option.map_some, Option.getD_some, rawOf_of_solid (numbers.solid n)]
      rfl
  | none =>
      -- A text that denotes no number is written as it is, and still denotes none.
      cases value with
      | number n => cases (numbers.of_number n).symm.trans number
      | text content =>
          exact (numbers.trimmed content).trans ((numbers.of_text content).symm.trans number)

/-- A number that is read from what was written for a value is written in the same way. -/
theorem writes_of_reads {m : Int} (found : reads (rawOf text) = some m) : writes m = text := by
  rw [numbers.reads_rawOf written] at found
  obtain ⟨n, number, read⟩ := Option.bind_eq_some_iff.mp found
  rw [numbers.again read, ← written, number]
  rfl

theorem newline_not_mem (single : number? value = none → '\n' ∉ value.display.toList) :
    '\n' ∉ text.toList := by
  subst written
  cases counts : number? value with
  | some n => exact fun member => absurd (numbers.solid n '\n' member) (by decide)
  | none => exact single counts

end Numbers

/-- A value that is read from what was written for another one is written like that one. -/
theorem write?_of_read {type : OptionType} {value again : Value} {text : String}
    (written : type.write? value = some text)
    (same : read (rawOf text) (some type) = .ok again) : type.write? again = some text := by
  cases type with
  | bool => exact write?_of_read_switch (Option.some.inj written) (Except.ok.inj same)
  | tristate => exact write?_of_read_switch (Option.some.inj written) (Except.ok.inj same)
  | string =>
      obtain rfl := Option.some.inj written
      rw [read_quoted] at same
      obtain rfl := Except.ok.inj same
      rfl
  | int =>
      have written : (value.decimal?.map Numeral.decimal).getD value.display = text :=
        Option.some.inj written
      rw [read] at same
      split at same
      · rename_i m found
        obtain rfl := Except.ok.inj same
        rw [write?, ← decimals.writes_of_reads written found]
        rfl
      · cases same
  | hex =>
      have written : (value.hexadecimal?.map Numeral.hexadecimal).getD value.display = text :=
        Option.some.inj written
      rw [read] at same
      split at same
      · rename_i m found
        obtain rfl := Except.ok.inj same
        rw [write?, ← hexadecimals.writes_of_reads written found]
        rfl
      · cases same
  | other name => cases written

theorem newline_not_mem_letter (state : Tristate) :
    '\n' ∉ (String.singleton state.letter).toList := by
  cases state <;> decide

theorem newline_not_mem_write? {type : OptionType} {value : Value} {text : String}
    (written : type.write? value = some text)
    (single : ∀ content, value = .text content → '\n' ∉ content.toList) : '\n' ∉ text.toList := by
  have display : '\n' ∉ value.display.toList := by
    cases value with
    | number n =>
        exact fun member => absurd (decimals.solid n '\n' member) (by decide)
    | text content => exact single content rfl
  cases type with
  | bool => exact Option.some.inj written ▸ newline_not_mem_letter _
  | tristate => exact Option.some.inj written ▸ newline_not_mem_letter _
  | string =>
      obtain rfl := Option.some.inj written
      simpa using display
  | int => exact decimals.newline_not_mem (Option.some.inj written) fun _ => display
  | hex => exact hexadecimals.newline_not_mem (Option.some.inj written) fun _ => display
  | other name => cases written

end OptionType

namespace Text

theorem eq_of_cut? {mark : Char} {text before after : List Char}
    (cut : cut? mark text = some (before, after)) : text = before ++ mark :: after := by
  rw [cut?] at cut
  split at cut
  · cases cut
  · rename_i c rest found
    cases cut
    have start := List.head?_dropWhile_not (· != mark) text
    rw [found] at start
    obtain rfl : c = mark := by simpa using start
    rw [← found, List.takeWhile_append_dropWhile]

theorem not_separates_of_mem_fields {separates : Char → Bool} {text field : List Char}
    (member : field ∈ fields separates text) : ∀ c ∈ field, separates c = false := by
  induction text generalizing field with
  | nil =>
      obtain rfl := List.mem_singleton.mp member
      nofun
  | cons c rest ih =>
      rw [fields] at member
      split at member
      · rcases List.mem_cons.mp member with rfl | behind
        · nofun
        · exact ih behind
      · rename_i inside
        obtain ⟨head, later, shape⟩ := List.exists_cons_of_ne_nil (fields_ne_nil separates rest)
        rw [shape, List.modifyHead_cons] at member
        rcases List.mem_cons.mp member with rfl | behind
        · have own := ih (shape ▸ List.mem_cons_self)
          exact List.forall_mem_cons.mpr ⟨by simpa using inside, own⟩
        · exact ih (shape ▸ List.mem_cons_of_mem _ behind)

end Text

/-- Whether a symbol is a word of the characters that names consist of. -/
def IsWord (symbol : String) : Prop :=
  symbol ≠ "" ∧ ∀ c ∈ symbol.toList, Token.isSymbolChar c = true

theorem isWord_iff (symbol : String) :
    IsWord symbol ↔ symbol ≠ "" ∧ symbol.toList.all Token.isSymbolChar = true := by
  rw [IsWord, List.all_eq_true]

instance (symbol : String) : Decidable (IsWord symbol) :=
  decidable_of_iff _ (isWord_iff symbol).symm

namespace Assignment

/-- The characters of the line that assigns a text to a symbol, without its line feed. -/
def lineOf (assignment : String × String) : List Char :=
  mark ++ assignment.1.toList ++ '=' :: assignment.2.toList

/-- What a line assigns, without its number. -/
def content (assignment : Assignment) : String × String := (assignment.symbol, assignment.raw)

theorem parts?_lineOf {assignment : String × String} (word : IsWord assignment.1) :
    parts? (lineOf assignment) = some (assignment.1.toList, Text.trimEnd assignment.2.toList) := by
  obtain ⟨symbol, text⟩ := assignment
  obtain ⟨nonempty, word⟩ := word
  have trimmed : Text.trimEnd (lineOf (symbol, text)) =
      mark ++ (symbol.toList ++ '=' :: Text.trimEnd text.toList) := by
    have solid : ∀ c ∈ (mark ++ symbol.toList ++ ['=']).getLast?, Text.isBlank c = false := by
      intro c last
      rw [List.getLast?_concat] at last
      obtain rfl : '=' = c := by simpa using last
      decide
    have kept := Text.trimEnd_append solid text.toList
    simpa [lineOf] using kept
  have absent : '=' ∉ symbol.toList := fun member => absurd (word '=' member) (by decide)
  have found : symbol.toList.isEmpty = false := by
    simpa using nonempty
  have all : symbol.toList.all Token.isSymbolChar = true := List.all_eq_true.mpr word
  rw [parts?, trimmed]
  dsimp only
  rw [if_pos (by simp), List.drop_left, Text.cut?_append_cons absent]
  simp [found, all]

/-- A line that assigns something is that assignment, but for the white space at its end. -/
theorem eq_of_parts? {line symbol raw : List Char} (found : parts? line = some (symbol, raw)) :
    Text.trimEnd line = lineOf (String.ofList symbol, String.ofList raw) ∧
      IsWord (String.ofList symbol) := by
  rw [parts?] at found
  split at found
  · rename_i front
    obtain ⟨behind, marked⟩ := List.isPrefixOf_iff_prefix.mp front
    obtain ⟨cut, shape⟩ := Option.filter_eq_some_iff.mp found
    rw [← marked, List.drop_left] at cut
    simp only [Bool.and_eq_true, Bool.not_eq_true', List.isEmpty_eq_false_iff,
      List.all_eq_true] at shape
    refine ⟨by simp [← marked, Text.eq_of_cut? cut, lineOf], ?_, by simpa using shape.2⟩
    intro empty
    exact shape.1 (by simpa using congrArg String.toList empty)
  · cases found

/-- What is assigned in a text is assigned to a word, in a single line. -/
theorem word_of_mem_ofText {text : String} {assignment : Assignment}
    (member : assignment ∈ ofText text) :
    IsWord assignment.symbol ∧ '\n' ∉ assignment.raw.toList := by
  have lines : ∀ number lines, assignment ∈ ofLines number lines → ∃ line ∈ lines,
      parts? line = some (assignment.symbol.toList, assignment.raw.toList) := by
    intro number lines member
    induction lines generalizing number with
    | nil => cases member
    | cons line rest ih =>
        rw [ofLines] at member
        split at member
        · rename_i symbol raw found
          rcases List.mem_cons.mp member with rfl | behind
          · exact ⟨line, List.mem_cons_self, by simpa using found⟩
          · exact (ih _ behind).imp fun _ => And.imp_left (List.mem_cons_of_mem _)
        · exact (ih _ member).imp fun _ => And.imp_left (List.mem_cons_of_mem _)
  obtain ⟨line, inside, found⟩ := lines 1 _ member
  obtain ⟨same, word⟩ := eq_of_parts? found
  rw [String.ofList_toList, String.ofList_toList] at same
  refine ⟨by simpa using word, fun newline => ?_⟩
  have trimmed : '\n' ∈ Text.trimEnd line := by
    rw [same, lineOf]
    simp [newline]
  have single := Text.not_separates_of_mem_fields inside '\n'
    ((Text.trimEnd_prefix line).subset trimmed)
  cases single

theorem toList_assignmentLine (line : String × String) :
    (Model.assignmentLine line).toList = lineOf line ++ ['\n'] := by
  simp [Model.assignmentLine, lineOf]

theorem toList_join (lines : List (String × String)) :
    (String.join (lines.map Model.assignmentLine)).toList =
      lines.flatMap fun line => lineOf line ++ ['\n'] := by
  rw [String.toList_join, List.flatMap_map]
  simp only [toList_assignmentLine]

theorem lines_join {lines : List (String × String)}
    (single : ∀ line ∈ lines, '\n' ∉ lineOf line) :
    Text.lines (String.join (lines.map Model.assignmentLine)).toList =
      lines.map lineOf ++ [[]] := by
  rw [toList_join]
  induction lines with
  | nil => rfl
  | cons line lines ih =>
      have first : ∀ c ∈ lineOf line, (c == '\n') = false := fun c member =>
        beq_false_of_ne fun same => single line List.mem_cons_self (same ▸ member)
      have rest := ih fun other member => single other (List.mem_cons_of_mem _ member)
      rw [List.flatMap_cons, List.append_assoc, List.singleton_append, Text.lines,
        Text.fields_append_cons first rfl]
      exact congrArg (lineOf line :: ·) rest

theorem newline_not_mem_lineOf {line : String × String} (word : IsWord line.1)
    (single : '\n' ∉ line.2.toList) : '\n' ∉ lineOf line := by
  intro member
  rcases List.mem_append.mp member with front | behind
  · rcases List.mem_append.mp front with start | inside
    · exact absurd start (by decide)
    · exact absurd (word.2 '\n' inside) (by decide)
  · rcases List.mem_cons.mp behind with same | inside
    · exact absurd same (by decide)
    · exact single inside

theorem ofLines_lineOf {lines : List (String × String)} (words : ∀ line ∈ lines, IsWord line.1)
    (number : Nat) :
    ofLines number (lines.map lineOf ++ [[]]) =
      (lines.zipIdx number).map fun line => ⟨line.2, line.1.1, rawOf line.1.2⟩ := by
  induction lines generalizing number with
  | nil => rfl
  | cons line lines ih =>
      have rest := ih (fun other member => words other (List.mem_cons_of_mem _ member)) (number + 1)
      rw [List.map_cons, List.cons_append, ofLines, parts?_lineOf (words line List.mem_cons_self),
        List.zipIdx_cons, List.map_cons, rest, rawOf]
      simp only [String.ofList_toList]

/-- The lines that assign texts to words are read as these assignments, each with the number of its
line. -/
theorem ofText_join {lines : List (String × String)}
    (words : ∀ line ∈ lines, IsWord line.1) (single : ∀ line ∈ lines, '\n' ∉ line.2.toList) :
    ofText (String.join (lines.map Model.assignmentLine)) =
      (lines.zipIdx 1).map fun line => ⟨line.2, line.1.1, rawOf line.1.2⟩ := by
  rw [ofText, lines_join fun line member =>
    newline_not_mem_lineOf (words line member) (single line member), ofLines_lineOf words]

theorem content_ofText {lines : List (String × String)}
    (words : ∀ line ∈ lines, IsWord line.1) (single : ∀ line ∈ lines, '\n' ∉ line.2.toList) :
    (ofText (String.join (lines.map Model.assignmentLine))).map content =
      lines.map fun line => (line.1, rawOf line.2) := by
  have numbered : (lines.zipIdx 1).map Prod.fst = lines := by simp
  rw [ofText_join words single, List.map_map]
  conv_rhs => rw [← numbered, List.map_map]
  rfl

theorem count_newline {lines : List (String × String)}
    (words : ∀ line ∈ lines, IsWord line.1) (single : ∀ line ∈ lines, '\n' ∉ line.2.toList) :
    (String.join (lines.map Model.assignmentLine)).toList.count '\n' = lines.length := by
  rw [toList_join]
  induction lines with
  | nil => rfl
  | cons line lines ih =>
      have absent := newline_not_mem_lineOf (words line List.mem_cons_self)
        (single line List.mem_cons_self)
      have rest := ih (fun other member => words other (List.mem_cons_of_mem _ member))
        fun other member => single other (List.mem_cons_of_mem _ member)
      rw [List.flatMap_cons, List.count_append, List.count_append,
        List.count_eq_zero_of_not_mem absent, rest]
      simp [Nat.add_comm]

end Assignment
end OptionTree
