import OptionTree.Proofs.Printing
import OptionTree.Proofs.Resolution

/-!
# Texts as defaults

A text between quotes that has neither quotes nor backslashes of its own goes from the default of an
option for texts to its value and on to an export unchanged, on four ways: as one token, as an
operand that no operator takes, as a value that is not raised, and between quotes again.  Only the
letters of two states do not: they count as numbers on the second way already.
-/

namespace OptionTree

namespace Token

theorem isSealed_of_plain {quote : Char} {content : List Char} (unquoted : quote ∉ content)
    (unescaped : '\\' ∉ content) : isSealed quote content = true := by
  fun_induction isSealed quote content with
  | case1 => rfl
  | case2 => simp at unescaped
  | case3 => simp at unescaped
  | case4 c rest _ _ ih =>
      simp only [List.mem_cons, not_or] at unquoted unescaped
      simp [ih unquoted.2 unescaped.2, Ne.symm unquoted.1]

/-- A text without quotes and backslashes is one token between quotes. -/
theorem tokenize_quoted {content : String} (unquoted : '"' ∉ content.toList)
    (unescaped : '\\' ∉ content.toList) :
    tokenize ("\"" ++ content ++ "\"") = [.quoted content] := by
  refine (printed_iff_tokenize.mp ?_).1
  have printed : Printed [.quoted (String.ofList content.toList)]
      ([] ++ '"' :: (content.toList ++ ['"']) ++ []) :=
    .cons (fun _ => nofun) (.quoted rfl (isSealed_of_plain unquoted unescaped))
      (.nil fun _ => nofun) (fun _ => nofun)
  simpa using printed

end Token

theorem Expression.evaluate_quoted (scope : Scope) (mode : Mode) {content : String}
    (unquoted : '"' ∉ content.toList) (unescaped : '\\' ∉ content.toList) :
    evaluate scope mode ("\"" ++ content ++ "\"") = .ok (mode.settleText content) := by
  rw [evaluate, Token.tokenize_quoted unquoted unescaped]
  rfl

namespace Model

/-- Whether a text is what an export writes for an entry with a symbol: an export, if the value of
no other entry lets it fail, holds the line that assigns the text to the symbol. -/
structure Writes (model : Model) (id : EntryId) (symbol text : String) : Prop where
  /-- The text is written for the entry. -/
  own : model.written? id = some (symbol, text)
  /-- It is written in a line of its own, behind nothing or the end of another line. -/
  line : ∀ exported, model.exportText = .ok exported → ∃ before after,
    exported = before ++ ("CONFIG_" ++ symbol ++ "=" ++ text ++ "\n") ++ after ∧
      (before = "" ∨ ∃ earlier, before = earlier ++ "\n")

theorem join_assignmentLine (lines : List (String × String)) :
    String.join (lines.map assignmentLine) = "" ∨
      ∃ earlier, String.join (lines.map assignmentLine) = earlier ++ "\n" := by
  rcases List.eq_nil_or_concat lines with rfl | ⟨front, last, rfl⟩
  · exact .inl rfl
  · refine .inr ⟨String.join (front.map assignmentLine) ++
      (String.ofList Assignment.mark ++ last.1 ++ "=" ++ last.2), ?_⟩
    simp [assignmentLine, String.append_assoc]

theorem writes_of_written? {model : Model} {id : EntryId} {symbol text : String}
    (written : model.written? id = some (symbol, text)) : model.Writes id symbol text := by
  refine ⟨written, fun exported exports => ?_⟩
  obtain ⟨rfl, -⟩ := exportText_eq_ok exports
  obtain ⟨before, after, lines⟩ := List.append_of_mem (mem_written written)
  refine ⟨_, String.join (after.map assignmentLine), ?_, join_assignmentLine before⟩
  simp [lines, assignmentLine, Assignment.mark, String.append_assoc]

theorem value_of_computes {model : Model}
    (located : ∀ symbol id, model.lookup symbol = some id → id < model.size) {id : EntryId}
    {entry : Entry} (found : model.get? id = some entry) (unset : entry.override = none)
    (plain : entry.isSwitch = false) {computed : Option Value}
    (computes : model.Computes entry computed) : model.value id = .ok computed := by
  have defaulted : defaultValue (model.scopeOf model.value) (entry.type.bind OptionType.zero?)
      entry.defaults = .ok computed := computes_iff.mp computes
  rw [value_eq_ok_iff_valueFrom located found, valueFrom, unset]
  simp [defaulted, plain]

/-- A text between quotes that is the first default to apply is the value of an option for texts,
and is exported between quotes; but the letters of two states become numbers. -/
theorem quoted_default_survives {description : Node} {options : Options} {built model : Model}
    (builds : build description options = .ok built) (same : model.bare = built.bare)
    {id : EntryId} {entry : Entry} {symbol content : String} (found : model.get? id = some entry)
    (named : entry.symbol = some symbol) (typed : entry.type = some .string)
    (unset : entry.override = none) {before behind : List Conditional} {condition : Option String}
    (defaults : entry.defaults = before ++ ⟨"\"" ++ content ++ "\"", condition⟩ :: behind)
    (skipped : ∀ other ∈ before, model.holds other.condition = .ok false)
    (applies : model.holds condition = .ok true) (unquoted : '"' ∉ content.toList)
    (unescaped : '\\' ∉ content.toList) :
    (content ≠ "y" → content ≠ "m" → model.value id = .ok (some (.text content)) ∧
      model.Writes id symbol ("\"" ++ content ++ "\"")) ∧
    (content = "y" → model.value id = .ok (some (.number 2)) ∧ model.Writes id symbol "\"2\"") ∧
    (content = "m" → model.value id = .ok (some (.number 1)) ∧ model.Writes id symbol "\"1\"") := by
  have watched := (watched_of_build builds).of_bare same.symm
  have located : ∀ symbol id, model.lookup symbol = some id → id < model.size :=
    fun symbol id known => lt_size_of_symbol? (watched.registered symbol id known)
  have plain : entry.isSwitch = false := by simp [Entry.isSwitch, typed, OptionType.isSwitch]
  have value : model.value id = .ok (some (Mode.preserve.settleText content)) :=
    value_of_computes located found unset plain <|
      .default defaults skipped applies (Expression.evaluate_quoted _ _ unquoted unescaped)
  have writes : model.Writes id symbol
      ("\"" ++ (Mode.preserve.settleText content).display ++ "\"") :=
    writes_of_written? <|
      written?_eq_some_iff.mpr ⟨entry, .string, _, found, named, typed, value, rfl⟩
  refine ⟨fun notYes notModular => ?_, ?_, ?_⟩
  · have kept : Mode.preserve.settleText content = .text content := by
      simp [Mode.settleText, notYes, notModular]
    rw [kept] at value writes
    exact ⟨value, writes⟩
  · rintro rfl
    exact ⟨value, writes⟩
  · rintro rfl
    exact ⟨value, writes⟩

/-- The second default of an option applies, which is a text full of what stands for something
outside of quotes; the default of another option is the letter of a state. -/
theorem quoted_default_survives_of_signs :
    let content := "a && 'b' #n"
    let third : Declaration :=
      { symbol := some "S", type := some .string
        defaults := [⟨"A", some "A"⟩, ⟨"\"a && 'b' #n\"", some "!A"⟩] }
    let fourth : Declaration :=
      { symbol := some "T", type := some .string, defaults := [⟨"\"y\"", none⟩] }
    let leaves : List Declaration :=
      [{ symbol := some "A", type := some .bool },
        { symbol := some "X", defaults := [⟨"X", none⟩] }, third, fourth]
    let nodes : List Node := leaves.map (.mk · [])
    let built : Model := placeAll root (top { kind := .menu } {}) (Outline.ofNodes nodes)
    let model := built.after [.set 1 (.text "n")]
    model.bare = built.bare ∧ model.get? 3 = some (.ofDeclaration third (some root)) ∧
      model.get? 4 = some (.ofDeclaration fourth (some root)) ∧
      model.holds (some "A") = .ok false ∧ model.holds (some "!A") = .ok true ∧
      (model.value 3 = .ok (some (.text content)) ∧
        model.Writes 3 "S" ("\"" ++ content ++ "\"")) ∧
      model.value 4 = .ok (some (.number 2)) ∧ model.Writes 4 "T" "\"2\"" := by
  intro content third fourth leaves nodes built model
  have same : model.bare = built.bare := (bare_after built _).1
  have found : model.get? 3 = some (.ofDeclaration third (some root)) := by decide +kernel
  have other : model.get? 4 = some (.ofDeclaration fourth (some root)) := by decide +kernel
  have skipped : model.holds (some "A") = .ok false := by decide +kernel
  have applies : model.holds (some "!A") = .ok true := by decide +kernel
  have survives := @quoted_default_survives (.mk { kind := .menu } nodes) {} built model rfl same 3
    (.ofDeclaration third (some root)) "S" content found rfl rfl rfl [⟨"A", some "A"⟩] []
    (some "!A") rfl (by simpa using skipped) applies (by decide +kernel) (by decide +kernel)
  have letter := @quoted_default_survives (.mk { kind := .menu } nodes) {} built model rfl same 4
    (.ofDeclaration fourth (some root)) "T" "y" other rfl rfl rfl [] [] none rfl
    (List.forall_mem_nil _) rfl (by decide +kernel) (by decide +kernel)
  exact ⟨same, found, other, skipped, applies, survives.1 (by decide) (by decide), letter.2.1 rfl⟩

end Model
end OptionTree
