import OptionTree.Proofs.Printing
import OptionTree.Proofs.Rereading
import OptionTree.Proofs.Restatement

/-!
# Exports that a model imports itself

A model that imports what it exported has its values set to what their lines say, in another form:
computed numbers of switches become letters, and texts of number types become numbers.  Conditions
see no difference exactly if these forms count the same, and then no entry is shown or hidden.
-/

namespace OptionTree

theorem Mode.settle_truth_text {content : String} (notYes : content ≠ "y")
    (notModular : content ≠ "m") : Mode.truth.settle (some (.text content)) = .number 0 := by
  rw [settle, settleText, if_neg notYes, if_neg notModular]

theorem Numeral.decimal_ne_letter (n : Int) : decimal n ≠ "y" ∧ decimal n ≠ "m" := by
  have apart := @forall_mem_decimalChars (fun c => decide (c ≠ 'y' ∧ c ≠ 'm')) (by decide)
    (by decide) n
  rw [← toList_decimal] at apart
  refine ⟨fun same => ?_, fun same => ?_⟩
  · exact (of_decide_eq_true (apart 'y' (by rw [same]; decide))).1 rfl
  · exact (of_decide_eq_true (apart 'm' (by rw [same]; decide))).2 rfl

theorem Mode.settle_truth_decimal (n : Int) :
    Mode.truth.settle (some (.text (Numeral.decimal n))) = .number 0 :=
  settle_truth_text (Numeral.decimal_ne_letter n).1 (Numeral.decimal_ne_letter n).2

namespace OptionType

/-- Whether a value counts in conditions as what its line says: a switch holds a state, a text is no
number but zero, and a number is no text of a number but zero. -/
def Counts : OptionType → Value → Prop
  | bool, .number n | tristate, .number n => 0 ≤ n ∧ n ≤ 2
  | string, .number n => n = 0
  | int, .text content => ∀ n ∈ Numeral.decimal? content, n = 0
  | hex, .text content => ∀ n ∈ Numeral.hexadecimal? content, n ≤ 0
  | _, _ => True

instance : ∀ (type : OptionType) (value : Value), Decidable (type.Counts value)
  | bool, .number n | tristate, .number n => inferInstanceAs (Decidable (0 ≤ n ∧ n ≤ 2))
  | string, .number n => inferInstanceAs (Decidable (n = 0))
  | int, .text content => inferInstanceAs (Decidable (∀ n ∈ Numeral.decimal? content, n = 0))
  | hex, .text content => inferInstanceAs (Decidable (∀ n ∈ Numeral.hexadecimal? content, n ≤ 0))
  | bool, .text _ | tristate, .text _ | string, .text _ | int, .number _ | hex, .number _
  | other _, _ => .isTrue trivial

/-- Whether a value counts the same in conditions after it was written and read again, if it can be
read. -/
def Keeps (value : Value) (type : OptionType) : Prop :=
  ∀ text ∈ type.write? value, ∀ again ∈ (read (rawOf text) (some type)).toOption,
    Mode.truth.Same (some value) (some again)

theorem keeps_iff {type : OptionType} {value : Value} {text : String} {found : Option Value}
    (written : type.write? value = some text)
    (denoted : (read (rawOf text) (some type)).toOption = found) :
    type.Keeps value ↔ ∀ again ∈ found, Mode.truth.Same (some value) (some again) := by
  subst denoted
  constructor
  · exact fun keeps => keeps text written
  · intro same other shown
    obtain rfl := Option.some.inj (written.symm.trans shown)
    exact same

theorem keeps_iff_counts_of_switch {type : OptionType} (switch : type.isSwitch = true)
    (value : Value) : type.Keeps value ↔ type.Counts value := by
  let state := Tristate.ofValue? (some value)
  have reads : type.Keeps value ↔ Mode.truth.Same (some value) (some state.toValue) := by
    have denoted : (read (rawOf (String.singleton state.letter)) (some type)).toOption =
        some state.toValue := by
      rw [rawOf_letter, read_switch switch]
      rfl
    simpa using keeps_iff (write?_switch switch value) denoted
  have letter : Mode.truth.settle (some state.toValue) = .number state.rank := by
    cases state <;> decide
  rw [reads, Mode.Same, letter]
  cases value with
  | number n =>
      have counts : type.Counts (.number n) ↔ 0 ≤ n ∧ n ≤ 2 := by
        rcases eq_of_isSwitch switch with rfl | rfl <;> rfl
      simp only [counts, Mode.settle, Value.number.injEq, state, Tristate.ofValue?,
        Tristate.ofNumber]
      split
      · simp only [Tristate.rank]
        omega
      · split <;> simp only [Tristate.rank] <;> omega
  | text content =>
      have counts : type.Counts (.text content) := by
        rcases eq_of_isSwitch switch with rfl | rfl <;> trivial
      refine iff_of_true ?_ counts
      simp only [Mode.settle, Mode.settleText, state, Tristate.ofValue?, Tristate.ofText]
      split
      · rfl
      · split <;> rfl

theorem keeps_iff_counts_of_string (value : Value) : string.Keeps value ↔ string.Counts value := by
  have denoted := congrArg Except.toOption (read_quoted value.display)
  have reads : string.Keeps value ↔ Mode.truth.Same (some value) (some (.text value.display)) := by
    simpa [Except.toOption] using keeps_iff rfl denoted
  rw [reads, Mode.Same]
  cases value with
  | number n =>
      rw [Value.display, Mode.settle_truth_decimal]
      simp [Mode.settle, Counts]
  | text content => exact iff_of_true rfl trivial

/-- What counts the same if a number is read: that number, or a text if the number is zero. -/
theorem keeps_number_iff {type : OptionType} {value : Value} {text : String} {found : Option Int}
    (written : type.write? value = some text)
    (denoted : (read (rawOf text) (some type)).toOption = found.map .number)
    (own : ∀ n, value = .number n → ∀ m ∈ found, m = n)
    (letters : value = .text "y" ∨ value = .text "m" → found = none) :
    type.Keeps value ↔ ∀ content, value = .text content → ∀ n ∈ found, n = 0 := by
  rw [keeps_iff written denoted]
  simp only [Option.forall_mem_map]
  cases value with
  | number n =>
      refine iff_of_true (fun m member => ?_) nofun
      rw [own n rfl m member]
      exact .refl _ _
  | text content =>
      simp only [Value.text.injEq, forall_eq']
      refine forall₂_congr fun n member => ?_
      have apart : ¬(content = "y" ∨ content = "m") := fun letter =>
        nomatch member.symm.trans (letters (by simpa using letter))
      rw [Mode.Same, Mode.settle_truth_text (fun same => apart (.inl same))
        (fun same => apart (.inr same)), Mode.settle, Value.number.injEq]
      exact eq_comm

section Number

variable {value : Value} (bounded : ∀ n, value = .number n → Numeral.InRange n)
include bounded

theorem keeps_iff_counts_of_int : int.Keeps value ↔ int.Counts value := by
  have reads : ∀ raw, (read raw (some int)).toOption = (Numeral.decimal? raw).map .number := by
    intro raw
    rw [read]
    cases Numeral.decimal? raw <;> rfl
  have again : (value.decimal?.bind fun n => Numeral.decimal? (Numeral.decimal n)) =
      value.decimal? := by
    cases counts : value.decimal? with
    | none => rfl
    | some n => exact Numeral.decimal?_decimal_of_inRange (inRange_of_decimal? bounded counts)
  have denoted := (reads _).trans (congrArg _ ((decimals.reads_rawOf rfl).trans again))
  have own : ∀ n, value = .number n → ∀ m ∈ value.decimal?, m = n := by
    rintro n rfl m found
    exact (Option.some.inj found).symm
  have letters : value = .text "y" ∨ value = .text "m" → value.decimal? = none := by
    rintro (rfl | rfl) <;> decide
  rw [keeps_number_iff rfl denoted own letters]
  cases value with
  | number n => exact iff_of_true (fun content same => by cases same) trivial
  | text content => simp [Counts, Value.decimal?]

theorem keeps_iff_counts_of_hex : hex.Keeps value ↔ hex.Counts value := by
  have reads : ∀ raw, (read raw (some hex)).toOption = (Numeral.hexadecimal? raw).map .number := by
    intro raw
    rw [read]
    cases Numeral.hexadecimal? raw <;> rfl
  have again : (value.hexadecimal?.bind fun n => Numeral.hexadecimal? (Numeral.hexadecimal n)) =
      value.hexadecimal?.filter fun n => decide (0 ≤ n) := by
    cases counts : value.hexadecimal? with
    | none => rfl
    | some n =>
        rw [Option.bind_some, Numeral.hexadecimal?_hexadecimal_of_inRange
          (inRange_of_hexadecimal? bounded counts)]
        simp [Option.filter]
  have denoted := (reads _).trans (congrArg _ ((hexadecimals.reads_rawOf rfl).trans again))
  have own : ∀ n, value = .number n →
      ∀ m ∈ value.hexadecimal?.filter fun n => decide (0 ≤ n), m = n := by
    rintro n rfl m found
    exact (Option.some.inj (Option.filter_eq_some_iff.mp found).1).symm
  have letters : value = .text "y" ∨ value = .text "m" →
      (value.hexadecimal?.filter fun n => decide (0 ≤ n)) = none := by
    rintro (rfl | rfl) <;> decide
  rw [keeps_number_iff rfl denoted own letters]
  cases value with
  | number n => exact iff_of_true (fun content same => by cases same) trivial
  | text content =>
      have positive : ∀ n ∈ Numeral.hexadecimal? content, (0 ≤ n → n = 0) ↔ n ≤ 0 := by
        intro n _
        omega
      simpa [Value.hexadecimal?, Counts] using forall₂_congr positive

/-- A value counts the same after it was written and read again, or it cannot be read, exactly if it
counts as its line says. -/
theorem keeps_iff_counts (type : OptionType) : type.Keeps value ↔ type.Counts value := by
  cases type with
  | bool => exact keeps_iff_counts_of_switch rfl value
  | tristate => exact keeps_iff_counts_of_switch rfl value
  | string => exact keeps_iff_counts_of_string value
  | int => exact keeps_iff_counts_of_int bounded
  | hex => exact keeps_iff_counts_of_hex bounded
  | other name =>
      refine iff_of_true (fun text written => ?_) trivial
      cases written

end Number

end OptionType

theorem Token.tokenize_of_isWord {symbol : String} (word : IsWord symbol) :
    tokenize symbol = [.symbol symbol] := by
  have nonempty : symbol.toList ≠ [] := fun empty => word.1 (String.toList_eq_nil_iff.mp empty)
  have written : Source (.symbol (String.ofList symbol.toList)) symbol.toList :=
    .symbol nonempty word.2
  have printed : Printed [.symbol (String.ofList symbol.toList)] ([] ++ symbol.toList ++ []) :=
    .cons (by simp) written (.nil (by simp)) (by simp)
  simpa using tokenize_of_printed printed

theorem Expression.evaluate_of_isWord {symbol : String} (word : IsWord symbol) (scope : Scope)
    (mode : Mode) : evaluate scope mode symbol = nameValue scope mode symbol := by
  rw [evaluate, Token.tokenize_of_isWord word]
  rfl

namespace Model

theorem evaluate_symbol {model : Model} {symbol : String} (word : IsWord symbol) {id : EntryId}
    (known : model.lookup symbol = some id) {value : Option Value}
    (read : model.value id = .ok value) (mode : Mode) :
    model.evaluate mode symbol = .ok (mode.settle value) := by
  rw [evaluate, Expression.evaluate_of_isWord word, Expression.nameValue, scope, scopeOf, known,
    Option.map_some, read]
  rfl

/-- Whether the value of an entry counts in conditions as what its line says, if it is written. -/
def Counts (model : Model) (id : EntryId) : Prop :=
  ∀ entry type value, model.get? id = some entry → entry.symbol.isSome → entry.type = some type →
    model.value id = .ok (some value) → type.Counts value

theorem keeps_of_setting? {model : Model} (indexed : model.Indexed)
    (bounded : ∀ id n, model.value id = .ok (some (.number n)) → Numeral.InRange n)
    {id : EntryId} (counts : model.Counts id) {again : Value}
    (set : setting? model model id = some (id, again)) :
    ∃ value, model.value id = .ok (some value) ∧ Mode.truth.Same (some value) (some again) := by
  obtain ⟨entry, symbol, type, value, text, found, named, typed, read, written, denoted⟩ :=
    (setting?_eq_some_iff indexed rfl).mp set
  refine ⟨value, read, ?_⟩
  have keeps : type.Keeps value := by
    refine (OptionType.keeps_iff_counts (fun n same => ?_) type).mpr ?_
    · exact bounded id n (same ▸ read)
    · exact counts entry type value found (by rw [named]; rfl) typed read
  exact keeps text written again (Except.toOption_eq_some_iff.mpr denoted)

section OwnExport

variable {model : Model} (indexed : model.Indexed) (legible : model.Legible)
  (selects : ∀ id, model.selectsOf id = [])
  (bounded : ∀ id n, model.value id = .ok (some (.number n)) → Numeral.InRange n)
  {text : String} (exported : model.exportText = .ok text) {report : ImportReport}
  (imported : (model.importText text).outcome = .ok report)

include indexed legible selects exported imported in
/-- After an import of its own export, an entry is set to what its line says, or as it was. -/
theorem override?_importText_own (id : EntryId) :
    (model.importText text).model.override? id =
      ((setting? model model id).map Prod.snd).or (model.override? id) := by
  rw [model_importText_export legible exported imported]
  exact override?_of_selectless indexed rfl selects id

include indexed legible selects bounded exported imported

/-- If all values count as their lines say, an import of its own export restates a model. -/
theorem restates_importText_own (counts : ∀ id, model.Counts id)
    (steady : ∀ id, (model.importText text).model.override? id = none →
      ∀ default ∈ model.defaultsOf id, Expression.Compares default.value →
        ∀ name ∈ Token.symbols default.value, ∀ target, model.lookup name = some target →
          Steady model (model.importText text).model target) :
    model.Restates (model.importText text).model := by
  have sets := override?_importText_own indexed legible selects exported imported
  refine ⟨?_, fun id again set => ?_, fun id unset => ?_, steady⟩
  · exact (bare_after model [.assign text]).1.symm
  · rw [sets] at set
    rcases Option.or_eq_some_iff.mp set with own | ⟨-, before⟩
    · obtain ⟨⟨target, value⟩, found, rfl⟩ := Option.map_eq_some_iff.mp own
      obtain rfl : target = id := fst_of_setting? indexed rfl found
      obtain ⟨value, read, same⟩ := keeps_of_setting? indexed bounded (counts target) found
      exact ⟨some value, read, same⟩
    · exact ⟨some again, value_of_override before, .refl _ _⟩
  · rw [sets] at unset
    exact (Option.or_eq_none_iff.mp unset).2

/-- If symbols have the same truth values after an import of its own export, all values count as
their lines say. -/
theorem counts_of_evaluate_own
    (alike : ∀ expression, (∀ id, model.evaluate .truth expression ≠ .error (.circularValue id)) →
      (model.importText text).model.evaluate .truth expression =
        model.evaluate .truth expression) (id : EntryId) : model.Counts id := by
  intro entry type value found named typed read
  obtain ⟨symbol, named⟩ := Option.isSome_iff_exists.mp named
  refine (OptionType.keeps_iff_counts (fun n same => bounded id n (same ▸ read)) type).mp ?_
  intro line written again denoted
  have own : model.written? id = some (symbol, line) :=
    written?_eq_some_iff.mpr ⟨entry, type, value, found, named, typed, read, written⟩
  have word : IsWord symbol := legible.words _ (mem_written own)
  have known : model.lookup symbol = some id := lookup_of_written? indexed rfl own
  have set : (model.importText text).model.override? id = some again := by
    have sets := (setting?_eq_some_iff indexed rfl).mpr
      ⟨entry, symbol, type, value, line, found, named, typed, read, written,
        Except.toOption_eq_some_iff.mp denoted⟩
    rw [override?_importText_own indexed legible selects exported imported, sets]
    rfl
  have before := evaluate_symbol word known read .truth
  have later : (model.importText text).model.lookup symbol = some id :=
    (lookup_of_bare (bare_after model [.assign text]).1 symbol).trans known
  have after := evaluate_symbol word later (value_of_override set) .truth
  have same := alike symbol fun other fails => nomatch before.symm.trans fails
  rw [before, after] at same
  exact (Except.ok.inj same).symm

end OwnExport

/-- A model that imports its own export keeps all truth values of expressions exactly if values
count as their lines say; then what is shown and the states stay the same. -/
theorem isVisible_of_importText {description : Node}
    (unnamed : description.declaration.symbol = none) (words : description.HasWords)
    (selects : ∀ declaration, description.Declares declaration → declaration.selects = [])
    {options : Options} {built : Model} (builds : build description options = .ok built)
    (history : List Edit) {model : Model} (reached : model = built.after history)
    (bounded : ∀ id n, model.value id = .ok (some (.number n)) → Numeral.InRange n)
    (single : ∀ id symbol content, model.symbol? id = some symbol →
      model.value id = .ok (some (.text content)) → '\n' ∉ content.toList)
    {text : String} (exported : model.exportText = .ok text)
    {report : ImportReport} (imported : (model.importText text).outcome = .ok report)
    (steady : ∀ id, (model.importText text).model.override? id = none →
      ∀ default ∈ model.defaultsOf id, Expression.Compares default.value →
        ∀ name ∈ Token.symbols default.value, ∀ target, model.lookup name = some target →
          Steady model (model.importText text).model target) :
    ((∀ id, model.Counts id) ↔
      ∀ expression, (∀ id, model.evaluate .truth expression ≠ .error (.circularValue id)) →
        (model.importText text).model.evaluate .truth expression =
          model.evaluate .truth expression) ∧
    ((∀ id, model.Counts id) → ∀ id,
      ((∀ other, model.isVisible id ≠ .error (.circularValue other)) →
        (model.importText text).model.isVisible id = model.isVisible id) ∧
      ((∀ other, model.tristate id ≠ .error (.circularValue other)) →
        (model.importText text).model.tristate id = model.tristate id)) := by
  subst reached
  have follows := follows_after builds history unnamed
  have legible : (built.after history).Legible :=
    ⟨follows.words words, newline_not_mem_written single⟩
  have none : ∀ id, (built.after history).selectsOf id = [] := fun id =>
    (selectsOf_of_bare (bare_after built history).1 id).trans
      (stated_eq_nil_of_build (fun _ _ _ => mem_mergeItems.mp) builds selects id)
  have restates := fun counts =>
    restates_importText_own follows.1 legible none bounded exported imported counts steady
  have whole : ∀ {α : Type} {outcome : Except Error α},
      (∀ id, outcome ≠ .error (.circularValue id)) →
        ∀ cause, Error.Circular cause → outcome ≠ .error cause := by
    rintro α outcome reaches _ ⟨id, rfl⟩
    exact reaches id
  refine ⟨⟨fun counts expression reaches => ?_, ?_⟩, fun counts id => ⟨fun reaches => ?_,
    fun reaches => ?_⟩⟩
  · exact ((restates counts).evaluate expression).eq (whole reaches)
  · exact counts_of_evaluate_own follows.1 legible none bounded exported imported
  · exact ((restates counts).isVisible id).eq (whole reaches)
  · exact ((restates counts).tristate id).eq (whole reaches)

/-- A text of a number counts as zero until it is read as the number, and a number counts as a state
but is no letter to a default that compares it with one. -/
theorem isVisible_ne_of_importText :
    let leaves : List Declaration :=
      [{ symbol := some "N", type := some .int, defaults := [⟨"12", none⟩] },
        { symbol := some "B", type := some .bool },
        { symbol := some "U", defaults := [⟨"B = n", none⟩] },
        { symbol := some "A", type := some .bool, prompt := some ⟨"A", none⟩, clauses := ["N"] }]
    let description := Node.mk { kind := .menu } (leaves.map (.mk · []))
    let built : Model :=
      placeAll root (top { kind := .menu } {}) (Outline.ofNodes description.entries)
    let text := "CONFIG_N=12\nCONFIG_B=n\nCONFIG_A=n\n"
    let after := (built.importText text).model
    build description {} = .ok built ∧ description.HasWords ∧
      (∀ declaration, description.Declares declaration → declaration.selects = []) ∧
      (∀ id content, built.value id = .ok (some (.text content)) → '\n' ∉ content.toList) ∧
      built.exportText = .ok text ∧ (built.importText text).outcome = .ok { applied := 3 } ∧
      (built.isVisible 4 = .ok false ∧ after.isVisible 4 = .ok true) ∧
      (built.tristate 1 = .ok .no ∧ after.tristate 1 = .ok .yes) ∧
      built.tristate 3 = .ok .no ∧ after.tristate 3 = .ok .yes := by
  intro leaves description built text after
  have words : description.HasWords := Node.hasWords_of_leaves rfl (by decide +kernel)
  have selects : ∀ declaration, description.Declares declaration → declaration.selects = [] := by
    have leafless : ∀ leaf ∈ leaves, leaf.selects = [] := by decide
    intro declaration declares
    rcases Node.eq_or_mem_of_leaves declares with rfl | listed
    · rfl
    · exact leafless declaration listed
  have single : ∀ id content, built.value id = .ok (some (.text content)) →
      '\n' ∉ content.toList := by
    have each : ∀ id < built.size, ∀ value ∈ (built.value id).toOption.join,
        '\n' ∉ value.display.toList := by
      decide +kernel
    intro id content read
    exact each id (lt_size_of_value read) (.text content) (by rw [read]; rfl)
  have exported : built.exportText = .ok text := by decide +kernel
  have imported : (built.importText text).outcome = .ok { applied := 3 } := by decide +kernel
  refine ⟨rfl, words, selects, single, exported, imported, ⟨?_, ?_⟩, ⟨?_, ?_⟩, ?_, ?_⟩
  all_goals decide +kernel

/-- A switch that was not set becomes a letter, which its default does not compare. -/
theorem isVisible_of_importText_of_letter :
    let leaves : List Declaration :=
      [{ symbol := some "N", type := some .int },
        { symbol := some "B", type := some .bool },
        { symbol := some "S", type := some .string, defaults := [⟨"abc", none⟩] },
        { symbol := some "U", defaults := [⟨"N != S", none⟩] },
        { symbol := some "V", defaults := [⟨"B", none⟩] },
        { symbol := some "A", type := some .bool, prompt := some ⟨"A", none⟩
          clauses := ["U && !V", "N"] }]
    let description := Node.mk { kind := .menu } (leaves.map (.mk · []))
    let built : Model :=
      placeAll root (top { kind := .menu } {}) (Outline.ofNodes description.entries)
    let model := built.after [.set 1 (.number 5)]
    let text := "CONFIG_N=5\nCONFIG_B=n\nCONFIG_S=\"abc\"\nCONFIG_A=n\n"
    let after := (model.importText text).model
    model.exportText = .ok text ∧ model.value 5 = .ok (some (.number 0)) ∧
      after.value 5 = .ok (some (.text "n")) ∧ (∀ id, model.Counts id) ∧
      model.isVisible 6 = .ok true ∧ after.isVisible 6 = .ok true := by
  intro leaves description built model text after
  have words : description.HasWords := Node.hasWords_of_leaves rfl (by decide +kernel)
  have selects : ∀ declaration, description.Declares declaration → declaration.selects = [] := by
    have leafless : ∀ leaf ∈ leaves, leaf.selects = [] := by decide
    intro declaration declares
    rcases Node.eq_or_mem_of_leaves declares with rfl | listed
    · rfl
    · exact leafless declaration listed
  have exported : model.exportText = .ok text := by decide +kernel
  have imported : (model.importText text).outcome = .ok { applied := 4 } := by decide +kernel
  have plain : ∀ id < model.size, ∀ value ∈ (model.value id).toOption.join,
      '\n' ∉ value.display.toList ∧ ∀ n ∈ value.decimal?, Numeral.InRange n := by
    decide +kernel
  have values : ∀ {id value}, model.value id = .ok (some value) →
      '\n' ∉ value.display.toList ∧ ∀ n ∈ value.decimal?, Numeral.InRange n := fun read =>
    plain _ (lt_size_of_value read) _ (by rw [read]; rfl)
  have counts : ∀ id, model.Counts id := by
    have each : ∀ id < model.size, ∀ entry ∈ model.get? id, ∀ type ∈ entry.type,
        ∀ value ∈ (model.value id).toOption.join, type.Counts value := by
      decide +kernel
    intro id entry type value found _ typed read
    exact each id (lt_size_of_value read) entry found type typed value (by rw [read]; rfl)
  have steady : ∀ id, after.override? id = none → ∀ default ∈ model.defaultsOf id,
      Expression.Compares default.value → ∀ name ∈ Token.symbols default.value, ∀ target,
        model.lookup name = some target → Steady model after target := by
    have mentioned : ∀ id < model.size, ∀ default ∈ model.defaultsOf id,
        Expression.Compares default.value → ∀ name ∈ Token.symbols default.value,
          ∀ target ∈ model.lookup name, target = 1 ∨ target = 3 := by
      decide +kernel
    intro id _ default member compares name mentions target known
    rcases mentioned id (lt_size_of_mem_defaultsOf member) default member compares name mentions
      target known with rfl | rfl
    · have set : after.override? 1 = some (.number 5) := by decide +kernel
      exact .set set (by decide +kernel) (.refl _ _)
    · have set : after.override? 3 = some (.text "abc") := by decide +kernel
      exact .set set (by decide +kernel) (.refl _ _)
  have visible : model.isVisible 6 = .ok true := by decide +kernel
  obtain ⟨-, kept⟩ := @isVisible_of_importText description rfl words selects {} built rfl
    [.set 1 (.number 5)] model rfl (fun id n read => (values read).2 n rfl)
    (fun id symbol content _ read => (values read).1) text exported _ imported steady
  have shown := (kept counts 6).1 fun other fails => nomatch visible.symm.trans fails
  exact ⟨exported, by decide +kernel, by decide +kernel, counts, visible, shown.trans visible⟩

end Model
end OptionTree
