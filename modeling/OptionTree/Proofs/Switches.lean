import OptionTree.Proofs.RoundTrip

/-!
# Switches that are imported again

If all symbols are switches, an export says the state of each of them.  After its import a switch
has the state that was written for the entry whose line reached it last.  This need not be its own
line: a select that points backward brings the state of an entry behind it.
-/

namespace OptionTree
namespace Model

/-- The entry of the last line of a text whose assignment reaches an entry. -/
def lastAssigner? (model : Model) (text : String) (id : EntryId) : Option EntryId :=
  (lastSource id ((Assignment.ofText text).filterMap fun assignment =>
    model.target? assignment.content) model).map Prod.fst

/-- Whether all entries with a symbol are switches. -/
def Switches (model : Model) : Prop :=
  ∀ id entry, model.get? id = some entry → entry.symbol.isSome → entry.isSwitch = true

theorem switches_iff (model : Model) :
    model.Switches ↔ ∀ entry ∈ model.entries, entry.symbol.isSome → entry.isSwitch = true := by
  constructor
  · intro switches entry member
    obtain ⟨id, found⟩ := List.getElem?_of_mem member
    exact switches id entry found
  · intro switches id entry found
    exact switches entry (List.mem_of_getElem? found)

instance (model : Model) : Decidable model.Switches :=
  decidable_of_iff _ (switches_iff model).symm

section Switches

variable {first : Model} (switches : first.Switches)
include switches

theorem Switches.exists_type {id : EntryId} {entry : Entry} {symbol : String}
    (found : first.get? id = some entry) (named : entry.symbol = some symbol) :
    ∃ type, entry.type = some type ∧ type.isSwitch = true := by
  have switch := switches id entry found (by simp [named])
  exact (Option.any_eq_true _ _).mp switch

theorem Switches.written? {id : EntryId} {line : String × String}
    (written : first.written? id = some line) :
    ∃ state, first.tristate id = .ok state ∧ line.2 = String.singleton state.letter := by
  obtain ⟨entry, type, value, found, named, typed, read, shown⟩ := written?_eq_some_iff.mp written
  obtain ⟨own, isOwn, switch⟩ := switches.exists_type found named
  obtain rfl : own = type := Option.some.inj (isOwn.symm.trans typed)
  rw [OptionType.write?_switch switch] at shown
  exact ⟨_, by rw [tristate, read]; rfl, (Option.some.inj shown).symm⟩

theorem Switches.single : ∀ line ∈ first.written, '\n' ∉ line.2.toList := by
  intro line member
  obtain ⟨id, written⟩ := exists_of_mem_written member
  obtain ⟨state, -, letter⟩ := switches.written? written
  rw [letter]
  cases state <;> decide

theorem Switches.setting?_of_written? (indexed : first.Indexed) {second : Model}
    (same : first.bare = second.bare) {id : EntryId} {line : String × String}
    (written : first.written? id = some line) :
    ∃ state, first.tristate id = .ok state ∧
      setting? first second id = some (id, state.toValue) := by
  obtain ⟨entry, type, value, found, named, typed, read, shown⟩ := written?_eq_some_iff.mp written
  obtain ⟨own, isOwn, switch⟩ := switches.exists_type found named
  obtain rfl : own = type := Option.some.inj (isOwn.symm.trans typed)
  refine ⟨Tristate.ofValue? (some value), by rw [tristate, read]; rfl, ?_⟩
  refine (setting?_eq_some_iff indexed same).mpr
    ⟨entry, line.1, own, value, _, found, named, typed, read, OptionType.write?_switch switch _, ?_⟩
  rw [OptionType.rawOf_letter, OptionType.read_switch switch]
  rfl

theorem Switches.exists_written? {text : String} (exported : first.exportText = .ok text)
    {id : EntryId} (named : (first.symbol? id).isSome) : ∃ line, first.written? id = some line := by
  obtain ⟨symbol, named⟩ := Option.isSome_iff_exists.mp named
  obtain ⟨entry, found, named⟩ := Option.bind_eq_some_iff.mp named
  obtain ⟨type, typed, switch⟩ := switches.exists_type found named
  have zero : type.zero?.isSome := by
    rw [← type.write?_isSome (.number 0), OptionType.write?_switch switch]
    rfl
  obtain ⟨_, shown, -, -, written⟩ := Model.exists_written? exported found named typed zero
  exact ⟨(symbol, shown), written⟩

/-- After all lines of an export were applied, a switch has the state that was written for the
entry whose line reached it last. -/
theorem Switches.tristate_settings (indexed : first.Indexed) {second : Model}
    (same : first.bare = second.bare) {text : String} (exported : first.exportText = .ok text)
    {id : EntryId} (named : (first.symbol? id).isSome) :
    ∃ setting, lastSource id (settings first second) second = some setting ∧
      (setAll (settings first second) second).tristate id = first.tristate setting.1 := by
  obtain ⟨line, written⟩ := switches.exists_written? exported named
  obtain ⟨state, -, own⟩ := switches.setting?_of_written? indexed same written
  have present : ∀ setting ∈ settings first second, setting.1 < second.size :=
    fun _ member => lt_size_of_mem_settings indexed same member
  have reached := @lastSource_isSome (settings first second) second present _ (mem_settings own)
  obtain ⟨setting, last⟩ := Option.isSome_iff_exists.mp reached
  refine ⟨setting, last, ?_⟩
  obtain ⟨source, -, found⟩ := List.mem_filterMap.mp (mem_of_lastSource last)
  obtain ⟨sourceLine, sourceWritten, -⟩ := Option.bind_eq_some_iff.mp found
  obtain ⟨sourceState, held, target⟩ :=
    switches.setting?_of_written? indexed same sourceWritten
  obtain rfl : (source, sourceState.toValue) = setting :=
    Option.some.inj (target.symm.trans found)
  have value : (setAll (settings first second) second).value id =
      .ok (some sourceState.toValue) := by
    refine value_of_override ?_
    rw [override?_settings indexed same, last]
    rfl
  rw [tristate, value, held, Except.ok_map, Tristate.ofValue?_toValue]

end Switches

/-- After an import of exported switches, each has the state of the entry whose line reached it
last; so all are restored exactly if those states are the same. -/
theorem tristate_of_importText {description : Node}
    (unnamed : description.declaration.symbol = none) (words : description.HasWords)
    {firstOptions secondOptions : Options} {firstBuilt secondBuilt : Model}
    (builtFirst : build description firstOptions = .ok firstBuilt)
    (builtSecond : build description secondOptions = .ok secondBuilt)
    {firstHistory secondHistory : List Edit} {first second : Model}
    (isFirst : first = firstBuilt.after firstHistory)
    (isSecond : second = secondBuilt.after secondHistory) (switches : first.Switches)
    {text : String} (exported : first.exportText = .ok text)
    {report : ImportReport} (imported : (second.importText text).outcome = .ok report) :
    (∀ id, (first.symbol? id).isSome → ∃ source, second.lastAssigner? text id = some source ∧
      (second.importText text).model.tristate id = first.tristate source) ∧
    ((∀ id, (first.symbol? id).isSome →
        (second.importText text).model.tristate id = first.tristate id) ↔
      ∀ id source, (first.symbol? id).isSome → second.lastAssigner? text id = some source →
        first.tristate source = first.tristate id) ∧
    (firstBuilt.Forward → ∀ id, (first.symbol? id).isSome →
      (second.importText text).model.tristate id = first.tristate id) := by
  have follows : first.Follows description :=
    isFirst ▸ follows_after builtFirst firstHistory unnamed
  have indexed := follows.1
  have same : first.bare = second.bare := by
    rw [isFirst, isSecond]
    exact bare_of_builds builtFirst builtSecond firstHistory secondHistory
  have legible : first.Legible := ⟨follows.words words, switches.single⟩
  have left := model_importText_export legible exported imported
  have targets := filterMap_target?_export legible exported second
  have reached : ∀ id, (first.symbol? id).isSome →
      ∃ source, second.lastAssigner? text id = some source ∧
        (second.importText text).model.tristate id = first.tristate source := by
    intro id named
    obtain ⟨setting, last, state⟩ := switches.tristate_settings indexed same exported named
    refine ⟨setting.1, ?_, ?_⟩
    · rw [lastAssigner?, targets, last]
      rfl
    · rw [left, state]
  refine ⟨reached, ⟨?_, ?_⟩, ?_⟩
  · intro restored id source named last
    obtain ⟨other, lastOther, state⟩ := reached id named
    obtain rfl : other = source := Option.some.inj (lastOther.symm.trans last)
    rw [← state, restored id named]
  · intro agree id named
    obtain ⟨source, last, state⟩ := reached id named
    rw [state, agree id source named last]
  · intro forward id named
    obtain ⟨line, written⟩ := switches.exists_written? exported named
    obtain ⟨state, own, found⟩ := switches.setting?_of_written? indexed same written
    have forward : first.Forward :=
      forward.of_bare (by rw [isFirst, (bare_after firstBuilt firstHistory).1])
    rw [left, tristate, value_of_forward indexed same forward found, own, Except.ok_map,
      Tristate.ofValue?_toValue]

/-- A switch that is not restored: the line of the one that selects it comes behind its own. -/
theorem tristate_of_importText_of_backward :
    let leaves : List Declaration :=
      [{ symbol := some "T", type := some .bool },
        { symbol := some "S", type := some .bool, selects := [⟨"T", none⟩] }]
    let nodes : List Node := leaves.map (.mk · [])
    let built : Model := placeAll root (top { kind := .menu } {}) (Outline.ofNodes nodes)
    let first : Model := built.after [.set 1 (.text "y")]
    let text := "CONFIG_T=y\nCONFIG_S=n\n"
    build (.mk { kind := .menu } nodes) {} = .ok built ∧ first.exportText = .ok text ∧
      (built.importText text).outcome = .ok { applied := 2 } ∧ first.tristate 1 = .ok .yes ∧
        (built.importText text).model.tristate 1 = .ok .no := by
  intro leaves nodes built first text
  have words : (Node.mk { kind := .menu } nodes).HasWords :=
    Node.hasWords_of_leaves rfl (by decide +kernel)
  have exported : first.exportText = .ok text := by decide +kernel
  have imported : (built.importText text).outcome = .ok { applied := 2 } := by decide +kernel
  have whole := @tristate_of_importText (.mk { kind := .menu } nodes) rfl words {} {} built built
    rfl rfl _ [] first built rfl rfl (by decide +kernel) text exported _ imported
  obtain ⟨source, last, state⟩ := whole.1 1 (by decide +kernel)
  have behind : built.lastAssigner? text 1 = some 2 := by decide +kernel
  obtain rfl : 2 = source := Option.some.inj (behind.symm.trans last)
  refine ⟨rfl, exported, imported, by decide +kernel, ?_⟩
  rw [state]
  decide +kernel

end Model
end OptionTree
