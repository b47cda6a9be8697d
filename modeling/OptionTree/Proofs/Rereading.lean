import OptionTree.Proofs.Acceptance
import OptionTree.Proofs.Lists
import OptionTree.Proofs.Mentions
import OptionTree.Proofs.RoundTrip

/-!
# The value of a single symbol, written and read again

A model with a single symbol writes its value in one line, from which another model of the same
description reads it.  What is read means the same to the type of the symbol, with two exceptions: a
text that goes over several lines, and a negative number in base sixteen.
-/

namespace OptionTree

theorem Text.unquote_subset (text : List Char) : unquote text ⊆ text := by
  have within : ∀ quote, ∀ inner ∈ between? quote text, inner ⊆ text := by
    intro quote inner found
    cases text with
    | nil => cases found
    | cons first rest =>
        obtain ⟨-, same⟩ := Option.ite_none_right_eq_some.mp found
        obtain rfl := Option.some.inj same
        exact List.Subset.trans (List.dropLast_subset rest) (List.subset_cons_self first rest)
  rw [unquote]
  cases double : between? '"' text with
  | some inner => exact within _ inner double
  | none =>
      cases single : between? '\'' text with
      | some inner => exact within _ inner single
      | none => exact List.Subset.refl text

namespace OptionType

/-- What a value becomes when it is written and read again. -/
def reread (value : Value) : OptionType → Value
  | bool | tristate => (Tristate.ofValue? (some value)).toValue
  | string => .text value.display
  | int => .number (value.decimal?.getD 0)
  | hex => .number (value.hexadecimal?.getD 0)
  | other _ => value

/-- Whether two values mean the same to a type: the same state, the same text if the first one is a
text, or the same number. -/
def Alike (first second : Value) : OptionType → Prop
  | bool | tristate => Tristate.ofValue? (some second) = Tristate.ofValue? (some first)
  | string => ∀ content, first = .text content → second = .text content
  | int => second.decimal? = first.decimal?
  | hex => second.hexadecimal? = first.hexadecimal?
  | other _ => True

/-- Whether a value can be read from the line in which it is written. -/
structure Survives (type : OptionType) (value : Value) : Prop where
  /-- A text does not go over several lines. -/
  single : type = string → '\n' ∉ value.display.toList
  /-- A number in base sixteen is not negative. -/
  positive : type = hex → ∀ n, value.hexadecimal? = some n → 0 ≤ n

/-- A value that fits its type means the same after it was written and read. -/
theorem alike_reread {type : OptionType} {value : Value} (fits : Model.Fits (some type) value) :
    type.Alike value (type.reread value) := by
  cases type with
  | bool => exact Tristate.ofValue?_toValue _
  | tristate => exact Tristate.ofValue?_toValue _
  | string =>
      rintro content rfl
      rfl
  | int =>
      obtain ⟨n, counts⟩ := fits .notDecimal rfl
      have counts : value.decimal? = some n := counts
      change some (value.decimal?.getD 0) = value.decimal?
      rw [counts]
      rfl
  | hex =>
      obtain ⟨n, counts⟩ := fits .notHexadecimal rfl
      have counts : value.hexadecimal? = some n := counts
      change some (value.hexadecimal?.getD 0) = value.hexadecimal?
      rw [counts]
      rfl
  | other name => trivial

theorem newline_not_mem_of_alike {raw : String} {first second : Value}
    (alone : '\n' ∉ raw.toList) (reads : read raw (some string) = .ok second)
    (alike : string.Alike first second) : '\n' ∉ first.display.toList := by
  cases first with
  | number n => exact fun member => absurd (decimals.solid n '\n' member) (by decide)
  | text content =>
      have same := alike content rfl
      obtain rfl := Except.ok.inj reads
      obtain rfl := Value.text.inj same
      intro member
      rw [Value.display, Text.unquoted, String.toList_ofList] at member
      exact alone (Text.unquote_subset _ member)

section Number

variable {value : Value} (bounded : ∀ n, value = .number n → Numeral.InRange n) {n : Int}
include bounded

theorem inRange_of_decimal? (counts : value.decimal? = some n) : Numeral.InRange n := by
  cases value with
  | number m =>
      obtain rfl := Option.some.inj counts
      exact bounded m rfl
  | text content => exact Numeral.inRange_of_read? counts

theorem inRange_of_hexadecimal? (counts : value.hexadecimal? = some n) : Numeral.InRange n := by
  cases value with
  | number m =>
      obtain rfl := Option.some.inj counts
      exact bounded m rfl
  | text content => exact Numeral.inRange_of_read? counts

end Number

section Written

variable {type : OptionType} {value : Value} (fits : Model.Fits (some type) value) {text : String}
  (written : type.write? value = some text)
include fits written

/-- What was written for a value that fits its type is read, unless it is a negative number in base
sixteen. -/
theorem read_of_write? (bounded : ∀ n, value = .number n → Numeral.InRange n) :
    (∃ n < 0, type = hex ∧ value.hexadecimal? = some n ∧
        read (rawOf text) (some type) = .error (.invalidNumber text)) ∨
      (type = hex → ∀ n, value.hexadecimal? = some n → 0 ≤ n) ∧
        read (rawOf text) (some type) = .ok (type.reread value) := by
  cases type with
  | bool =>
      obtain rfl := Option.some.inj written
      exact .inr ⟨fun same => absurd same (by decide), by rw [rawOf_letter]; rfl⟩
  | tristate =>
      obtain rfl := Option.some.inj written
      exact .inr ⟨fun same => absurd same (by decide), by rw [rawOf_letter]; rfl⟩
  | string =>
      obtain rfl := Option.some.inj written
      exact .inr ⟨fun same => absurd same (by decide), read_quoted value.display⟩
  | int =>
      obtain ⟨n, counts⟩ := fits .notDecimal rfl
      have counts : value.decimal? = some n := counts
      obtain rfl : Numeral.decimal n = text := by simpa [write?, counts] using written
      refine .inr ⟨fun same => absurd same (by decide), ?_⟩
      simp only [read, decimal?_rawOf, reread, counts,
        Numeral.decimal?_decimal_of_inRange (inRange_of_decimal? bounded counts)]
      rfl
  | hex =>
      obtain ⟨n, counts⟩ := fits .notHexadecimal rfl
      have counts : value.hexadecimal? = some n := counts
      obtain rfl : Numeral.hexadecimal n = text := by simpa [write?, counts] using written
      have raw := rawOf_of_solid (Numeral.solid_hexadecimal n)
      have again := Numeral.hexadecimal?_hexadecimal_of_inRange
        (inRange_of_hexadecimal? bounded counts)
      rcases Int.lt_or_le n 0 with negative | positive
      · rw [if_neg (Int.not_le.mpr negative)] at again
        refine .inl ⟨n, negative, rfl, counts, ?_⟩
        rw [raw, read, again]
      · rw [if_pos positive] at again
        refine .inr ⟨fun _ m same => ?_, ?_⟩
        · rw [counts] at same
          exact Option.some.inj same ▸ positive
        · simp only [raw, read, again, reread, counts]
          rfl
  | other name => cases written

theorem newline_not_mem_of_fits (single : type = string → '\n' ∉ value.display.toList) :
    '\n' ∉ text.toList := by
  cases type with
  | bool => exact Option.some.inj written ▸ newline_not_mem_letter _
  | tristate => exact Option.some.inj written ▸ newline_not_mem_letter _
  | string =>
      obtain rfl := Option.some.inj written
      simpa using single rfl
  | int =>
      obtain ⟨n, counts⟩ := fits .notDecimal rfl
      exact decimals.newline_not_mem (Option.some.inj written) fun none =>
        nomatch counts.symm.trans none
  | hex =>
      obtain ⟨n, counts⟩ := fits .notHexadecimal rfl
      exact hexadecimals.newline_not_mem (Option.some.inj written) fun none =>
        nomatch counts.symm.trans none
  | other name => cases written

end Written

end OptionType

namespace Model

/-! ## Models with a single symbol -/

/-- Whether an entry with a type is the only one that has a symbol, and neither selects nor bounds
anything. -/
structure Single (model : Model) (name : String) (type : OptionType) (id : EntryId) : Prop where
  /-- The symbol is the one of the entry, and there is no other symbol. -/
  symbol : ∀ other symbol, model.symbol? other = some symbol ↔ other = id ∧ symbol = name
  /-- The symbol is declared for the entry. -/
  lookup : ∀ other target, model.lookup other = some target ↔ target = id ∧ other = name
  /-- The entry has the type. -/
  typed : ((model.get? id).bind fun entry => entry.type) = some type
  /-- The entry selects nothing. -/
  selects : model.selectsOf id = []
  /-- The entry has no bounds. -/
  ranges : model.stated Declaration.ranges id = []

theorem importText_line (model : Model) {name : String} (word : IsWord name) {line : String}
    (alone : '\n' ∉ line.toList) :
    model.importText (assignmentLine (name, line)) =
      assignAll {} [⟨1, name, rawOf line⟩] model := by
  have joined := @Assignment.ofText_join [(name, line)] (by simpa using word) (by simpa using alone)
  have assignments : Assignment.ofText (assignmentLine (name, line)) =
      [⟨1, name, rawOf line⟩] := by simpa using joined
  rw [importText, assignments]

namespace Single

variable {model : Model} {name : String} {type : OptionType} {id : EntryId}

theorem of_bare {other : Model} (single : model.Single name type id)
    (same : model.bare = other.bare) : other.Single name type id where
  symbol := fun other symbol => by
    rw [← symbol?_of_bare same]
    exact single.symbol other symbol
  lookup := fun other target => by
    rw [← lookup_of_bare same]
    exact single.lookup other target
  typed := (type_of_bare same id).symm.trans single.typed
  selects := (selectsOf_of_bare same id).symm.trans single.selects
  ranges := (list_of_bare same Declaration.ranges id).symm.trans single.ranges

variable (single : model.Single name type id)
include single

theorem present : id < model.size :=
  lt_size_of_symbol? ((single.symbol id name).mpr ⟨rfl, rfl⟩)

theorem fits {value : Value} (strict : model.options.validateTypes = true)
    (accepted : (model.set id value).outcome = .ok ()) : Fits (some type) value := by
  have same := bare_store model id (some value)
  rw [set_eq_announce single.present single.selects] at accepted
  obtain ⟨_, refreshed, -⟩ := Run.andThen_eq_ok_iff.mp accepted
  have valid := (refresh_eq_ok_iff.mp refreshed).1 strict
  have stored : (model.store id (some value)).override? id = some value := by
    rw [override?_store single.present, if_pos rfl]
  have fits := (validate_eq_ok_iff stored (single.of_bare same.symm).ranges).mp valid
  rwa [(single.of_bare same.symm).typed] at fits

/-- What was read for the entry is accepted exactly if the entries that mention its symbol can tell
whether they are shown. -/
theorem set_eq_ok_iff {raw : String} {value : Value}
    (read : OptionType.read raw (some type) = .ok value) :
    (model.set id value).outcome = .ok () ↔ ∀ other ∈ model.dependentsOf id,
      ∃ shown, (model.store id (some value)).isVisible other = .ok shown := by
  have same := bare_store model id (some value)
  have stored : (model.store id (some value)).override? id = some value := by
    rw [override?_store single.present, if_pos rfl]
  have after := single.of_bare same.symm
  have alone : ∀ imply ∈ (model.store id (some value)).impliesOf id, ∀ target,
      (model.store id (some value)).lookup imply.value = some target → target = id :=
    fun imply _ target found => ((after.lookup imply.value target).mp found).1
  have valid : (model.store id (some value)).validate id = .ok () := by
    refine (validate_eq_ok_iff stored after.ranges).mpr ?_
    rw [after.typed]
    exact fits_of_read read
  rw [set_eq_announce single.present single.selects, announce_eq_ok_iff alone, refresh_eq_ok_iff,
    dependentsOf_of_bare same]
  exact and_iff_right fun _ => valid

theorem exportText {value : Value} (set : model.override? id = some value) {line : String}
    (written : type.write? value = some line) :
    model.exportText = .ok (assignmentLine (name, line)) := by
  obtain ⟨entry, found, typed⟩ := Option.bind_eq_some_iff.mp single.typed
  have named : entry.symbol = some name := by
    simpa [symbol?, found] using (single.symbol id name).mpr ⟨rfl, rfl⟩
  have own : model.written? id = some (name, line) :=
    written?_eq_some_iff.mpr ⟨entry, type, value, found, named, typed, value_of_override set,
      written⟩
  have each : ∀ other entry, model.get? other = some entry →
      ∃ line, model.exportEntry other entry = .ok line := by
    intro other entry found
    rw [exportEntry]
    split
    · rename_i symbol type named typed
      obtain ⟨rfl, rfl⟩ := (single.symbol other symbol).mp (by simp [symbol?, found, named])
      rw [value_of_override set]
      exact ⟨_, rfl⟩
    · exact ⟨none, rfl⟩
  obtain ⟨text, exported⟩ := exists_exportText each
  have sole : model.written = [(name, line)] := by
    refine List.filterMap_eq_singleton List.nodup_range (List.mem_range.mpr single.present) own ?_
    intro other _ apart
    refine Option.eq_none_iff_forall_ne_some.mpr fun line written => apart ?_
    exact ((single.symbol other line.1).mp (symbol?_of_written? written)).1
  rw [exported, (exportText_eq_ok exported).1, sole]
  simp

section Line

variable (word : IsWord name) {line : String} (alone : '\n' ∉ line.toList)
include word alone

/-- A line is applied exactly if what its text denotes is accepted. -/
theorem applied_iff :
    (∃ report, (model.importText (assignmentLine (name, line))).outcome = .ok report ∧
        report.applied = 1) ↔
      ∃ value, OptionType.read (rawOf line) (some type) = .ok value ∧
        (model.set id value).outcome = .ok () := by
  have known : model.lookup name = some id := (single.lookup name id).mpr ⟨rfl, rfl⟩
  rw [importText_line model word alone, applied_eq_one_iff, assign]
  simp only [known, single.typed]
  cases OptionType.read (rawOf line) (some type) with
  | error cause => simp [Run.done]
  | ok value =>
      simp only [Run.andThen_eq_ok_iff, Run.done, Except.ok.injEq, exists_eq_left', and_true]
      constructor
      · rintro ⟨_, ended⟩
        exact ended
      · exact fun ended => ⟨(), ended⟩

theorem value_of_line {value : Value}
    (read : OptionType.read (rawOf line) (some type) = .ok value) :
    (model.importText (assignmentLine (name, line))).model.value id = .ok (some value) := by
  have known : model.lookup name = some id := (single.lookup name id).mpr ⟨rfl, rfl⟩
  have target : model.target? (name, rawOf line) = some (id, value) := by
    rw [target?, known, Option.bind_some, single.typed, read]
  refine value_of_override ?_
  rw [importText_line model word alone, model_assignAll_singleton, model_assign]
  have content : Assignment.content ⟨1, name, rawOf line⟩ = (name, rawOf line) := rfl
  rw [content, target]
  change (model.set id value).model.override? id = _
  rw [set_eq_announce single.present single.selects, model_announce,
    override?_store single.present, if_pos rfl]

end Line

theorem of_target? {text : String} {assignment : Assignment}
    (member : assignment ∈ Assignment.ofText text) {setting : EntryId × Value}
    (target : model.target? assignment.content = some setting) :
    IsWord name ∧ setting.1 = id ∧ '\n' ∉ assignment.raw.toList ∧
      OptionType.read assignment.raw (some type) = .ok setting.2 := by
  obtain ⟨word, alone⟩ := Assignment.word_of_mem_ofText member
  obtain ⟨other, known, read⟩ := Option.bind_eq_some_iff.mp target
  obtain ⟨rfl, same⟩ := (single.lookup assignment.symbol other).mp known
  rw [single.typed] at read
  split at read
  · rename_i value denoted
    obtain rfl := Option.some.inj read
    exact ⟨same ▸ word, rfl, alone, denoted⟩
  · cases read

/-- After an import that applies something, the symbol is a word and its value was read from a
line. -/
theorem exists_source {text : String} {report : ImportReport}
    (imported : (model.importText text).outcome = .ok report) (applied : 0 < report.applied) :
    IsWord name ∧ ∃ raw value, '\n' ∉ raw.toList ∧
      OptionType.read raw (some type) = .ok value ∧
        (model.importText text).model.value id = .ok (some value) := by
  let settings := (Assignment.ofText text).filterMap fun assignment =>
    model.target? assignment.content
  have present : ∀ setting ∈ settings, setting.1 < model.size := by
    intro setting inside
    obtain ⟨assignment, member, target⟩ := List.mem_filterMap.mp inside
    rw [(single.of_target? member target).2.1]
    exact single.present
  have complete : model.Complete := fun other target found => by
    rw [((single.lookup other target).mp found).1]
    exact single.present
  obtain ⟨assignment, member, sets⟩ := exists_of_applied imported applied
  obtain ⟨setting, target⟩ := Option.isSome_iff_exists.mp sets
  have reached : (lastSource setting.1 settings model).isSome :=
    lastSource_isSome present (List.mem_filterMap.mpr ⟨assignment, member, target⟩)
  rw [(single.of_target? member target).2.1] at reached
  obtain ⟨last, source⟩ := Option.isSome_iff_exists.mp reached
  obtain ⟨origin, inside, denoted⟩ := List.mem_filterMap.mp (mem_of_lastSource source)
  obtain ⟨word, -, alone, read⟩ := single.of_target? inside denoted
  refine ⟨word, origin.raw, last.2, alone, read, value_of_override ?_⟩
  rw [importText, model_assignAll imported, override?_setAll complete present, source]
  rfl

end Single

theorem single_of_build {description : Node} {options : Options} {model : Model}
    (built : build description options = .ok model)
    (unnamed : description.declaration.symbol = none) {name : String}
    (sole : ∀ declaration, description.Declares declaration → ∀ symbol ∈ declaration.symbol,
      symbol = name) {id : EntryId} {entry : Entry} (found : model.get? id = some entry)
    (named : entry.symbol = some name) {type : OptionType} (typed : entry.type = some type)
    (selects : entry.selects = []) (ranges : entry.ranges = []) :
    model.Single name type id := by
  obtain ⟨indexed, declared⟩ := build_follows built unnamed
  have own : model.symbol? id = some name := by simpa [symbol?, found] using named
  have only : ∀ other symbol, model.symbol? other = some symbol → other = id ∧ symbol = name := by
    intro other symbol has
    obtain ⟨declaration, declares, states⟩ := declared other symbol has
    obtain rfl := sole declaration declares symbol states
    refine ⟨?_, rfl⟩
    exact Option.some.inj (((indexed other symbol).mp has).symm.trans ((indexed id symbol).mp own))
  have all : ∀ other symbol, model.symbol? other = some symbol ↔ other = id ∧ symbol = name := by
    refine fun other symbol => ⟨only other symbol, ?_⟩
    rintro ⟨rfl, rfl⟩
    exact own
  exact
    { symbol := all
      lookup := fun symbol other => (indexed other symbol).symm.trans (all other symbol)
      typed := by rw [found, Option.bind_some, typed]
      selects := by simpa [selectsOf, found] using selects
      ranges := by simpa [stated, found] using ranges }

/-- The value of the only symbol is written and read with the same meaning exactly if the symbol is
a word, the value survives in its line, and what it changes can be told. -/
theorem importText_of_exportText_single {description : Node}
    (unnamed : description.declaration.symbol = none) {name : String}
    (sole : ∀ declaration, description.Declares declaration → ∀ symbol ∈ declaration.symbol,
      symbol = name)
    {firstOptions secondOptions : Options} {built second : Model}
    (builtFirst : build description firstOptions = .ok built)
    (builtSecond : build description secondOptions = .ok second)
    (strict : firstOptions.validateTypes = true) (history : List Edit)
    {id : EntryId} {entry : Entry} (found : built.get? id = some entry)
    (named : entry.symbol = some name) {type : OptionType} (typed : entry.type = some type)
    (readable : ∀ other, type ≠ .other other) (selects : entry.selects = [])
    (ranges : entry.ranges = []) {value : Value}
    (bounded : ∀ n, value = .number n → Numeral.InRange n)
    (accepted : ((built.after history).set id value).outcome = .ok ()) :
    ∃ text, ((built.after history).set id value).model.exportText = .ok text ∧
      ((∃ report again, (second.importText text).outcome = .ok report ∧ report.applied = 1 ∧
          (second.importText text).model.value id = .ok (some again) ∧ type.Alike value again) ↔
        IsWord name ∧ type.Survives value ∧ ∀ other ∈ second.dependentsOf id, ∃ shown,
          (second.store id (some (type.reread value))).isVisible other = .ok shown) := by
  have single := single_of_build builtFirst unnamed sole found named typed selects ranges
  have current := single.of_bare (bare_after built history).1.symm
  have fresh := single.of_bare (bare_of_builds builtFirst builtSecond [] [])
  rw [← options_after builtFirst history] at strict
  have fits := current.fits strict accepted
  obtain ⟨line, written⟩ : ∃ line, type.write? value = some line := by
    cases type with
    | other other => exact absurd rfl (readable other)
    | _ => exact ⟨_, rfl⟩
  have after := current.of_bare (bare_set (built.after history) id value).symm
  have set : ((built.after history).set id value).model.override? id = some value := by
    rw [set_eq_announce current.present current.selects, model_announce,
      override?_store current.present, if_pos rfl]
  refine ⟨_, after.exportText set written, ?_⟩
  constructor
  · rintro ⟨report, again, imported, applied, read, alike⟩
    obtain ⟨word, raw, value, alone, denoted, stored⟩ :=
      fresh.exists_source imported (applied ▸ Nat.one_pos)
    obtain rfl : value = again := Option.some.inj (Except.ok.inj (stored.symm.trans read))
    have keeps : type = .string → _ := fun isString =>
      OptionType.newline_not_mem_of_alike alone (isString ▸ denoted) (isString ▸ alike)
    have alone := OptionType.newline_not_mem_of_fits fits written keeps
    obtain ⟨value, reads, takes⟩ := (fresh.applied_iff word alone).mp ⟨report, imported, applied⟩
    rcases OptionType.read_of_write? fits written bounded with
      ⟨n, negative, -, -, unread⟩ | ⟨positive, same⟩
    · cases unread.symm.trans reads
    · obtain rfl := Except.ok.inj (same.symm.trans reads)
      exact ⟨word, ⟨keeps, positive⟩, (fresh.set_eq_ok_iff reads).mp takes⟩
  · rintro ⟨word, survives, shows⟩
    have alone := OptionType.newline_not_mem_of_fits fits written survives.single
    rcases OptionType.read_of_write? fits written bounded with
      ⟨n, negative, rfl, counts, -⟩ | ⟨-, read⟩
    · exact absurd (survives.positive rfl n counts) (Int.not_le.mpr negative)
    · have applied := (fresh.applied_iff word alone).mpr
        ⟨_, read, (fresh.set_eq_ok_iff read).mpr shows⟩
      obtain ⟨report, imported, applied⟩ := applied
      exact ⟨report, _, imported, applied, fresh.value_of_line word alone read,
        OptionType.alike_reread fits⟩

/-- The word of a negative number is too large to be read again. -/
theorem importText_of_exportText_single_of_negative :
    let declaration : Declaration := { symbol := some "H", type := some .hex }
    let nodes : List Node := [.mk declaration []]
    let built : Model := placeAll root (top { kind := .menu } {}) (Outline.ofNodes nodes)
    let restores := fun (text : String) (value : Value) => ∃ report again,
      (built.importText text).outcome = .ok report ∧ report.applied = 1 ∧
        (built.importText text).model.value 1 = .ok (some again) ∧ OptionType.hex.Alike value again
    (built.set 1 (.number 255)).model.exportText = .ok "CONFIG_H=0xff\n" ∧
      restores "CONFIG_H=0xff\n" (.number 255) ∧
      (built.set 1 (.number (-1))).model.exportText = .ok "CONFIG_H=0xffffffffffffffff\n" ∧
      ¬restores "CONFIG_H=0xffffffffffffffff\n" (.number (-1)) := by
  intro declaration nodes built restores
  have sole : ∀ other, (Node.mk { kind := .menu } nodes).Declares other →
      ∀ symbol ∈ other.symbol, symbol = "H" := by
    intro other declares symbol named
    cases declares with
    | here => cases named
    | inside member below =>
        obtain rfl := List.mem_singleton.mp member
        cases below with
        | here => exact (Option.some.inj named).symm
        | inside deeper _ => cases deeper
  have codec := fun (n : Int) (bounded : Numeral.InRange n) =>
    @importText_of_exportText_single (.mk { kind := .menu } nodes) rfl "H" sole {} {} built built
      rfl rfl rfl [] 1 (.ofDeclaration declaration (some root)) (by decide +kernel) rfl .hex rfl
      nofun rfl rfl (.number n) fun m same => Value.number.inj same ▸ bounded
  have small : (built.set 1 (.number 255)).model.exportText = .ok "CONFIG_H=0xff\n" := by
    decide +kernel
  have large : (built.set 1 (.number (-1))).model.exportText =
      .ok "CONFIG_H=0xffffffffffffffff\n" := by decide +kernel
  obtain ⟨text, exported, restored⟩ := codec 255 (by decide) (by decide +kernel)
  obtain ⟨other, written, lost⟩ := codec (-1) (by decide) (by decide +kernel)
  obtain rfl := Except.ok.inj (exported.symm.trans small)
  obtain rfl := Except.ok.inj (written.symm.trans large)
  refine ⟨small, restored.mpr ⟨by decide +kernel, ⟨nofun, ?_⟩, ?_⟩, large, fun again => ?_⟩
  · intro _ n same
    obtain rfl := Option.some.inj same
    decide
  · have none : built.dependentsOf 1 = [] := by decide +kernel
    rw [none]
    nofun
  · have positive := (lost.mp again).2.1.positive rfl (-1) rfl
    exact absurd positive (by decide)

end Model
end OptionTree
