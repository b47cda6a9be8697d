import OptionTree.Proofs.Reimport

/-!
# Exports that are imported again

Two models of one description can exchange their values as text: if selects point forward, the model
that imported an export exports the same text again.
-/

namespace OptionTree

/-- Whether all symbols that a description declares are words. -/
def Node.HasWords (description : Node) : Prop :=
  ∀ declaration, description.Declares declaration → ∀ symbol, declaration.symbol = some symbol →
    IsWord symbol

theorem Node.eq_or_mem_of_leaves {head declaration : Declaration} {leaves : List Declaration}
    (declares : (Node.mk head (leaves.map (Node.mk · []))).Declares declaration) :
    declaration = head ∨ declaration ∈ leaves := by
  cases declares with
  | here => exact .inl rfl
  | inside member below =>
      obtain ⟨leaf, listed, rfl⟩ := List.mem_map.mp member
      cases below with
      | here => exact .inr listed
      | inside deeper _ => cases deeper

theorem Node.hasWords_of_leaves {head : Declaration} {leaves : List Declaration}
    (unnamed : head.symbol = none)
    (words : ∀ declaration ∈ leaves, ∀ symbol ∈ declaration.symbol, IsWord symbol) :
    (Node.mk head (leaves.map (Node.mk · []))).HasWords := by
  intro declaration declares symbol named
  rcases eq_or_mem_of_leaves declares with rfl | listed
  · cases unnamed.symm.trans named
  · exact words declaration listed symbol named

namespace Model

theorem Follows.words {description : Node} {model : Model} (follows : model.Follows description)
    (words : description.HasWords) : ∀ line ∈ model.written, IsWord line.1 := by
  intro line member
  obtain ⟨id, written⟩ := exists_of_mem_written member
  obtain ⟨declaration, declares, named⟩ := follows.2 id line.1 (symbol?_of_written? written)
  exact words declaration declares line.1 named

section Again

variable {first second : Model} (indexed : first.Indexed) (same : first.bare = second.bare)
include indexed same

theorem exists_setting? (legible : first.Legible) {text : String}
    (exported : first.exportText = .ok text)
    (sets : ∀ assignment ∈ Assignment.ofText text, (second.target? assignment.content).isSome)
    {id : EntryId} {line : String × String} (written : first.written? id = some line) :
    ∃ value, setting? first second id = some (id, value) := by
  have inside : (line.1, rawOf line.2) ∈ (Assignment.ofText text).map Assignment.content := by
    rw [content_ofText_export legible exported]
    exact List.mem_map_of_mem (mem_written written)
  obtain ⟨assignment, member, content⟩ := List.mem_map.mp inside
  obtain ⟨setting, target⟩ := Option.isSome_iff_exists.mp (sets assignment member)
  have found : setting? first second id = some setting := by
    rw [setting?, written, Option.bind_some, ← content, target]
  obtain rfl := fst_of_setting? indexed same found
  exact ⟨setting.2, found⟩

/-- An entry whose line was the last to reach it is written as it was. -/
theorem written?_of_setting? {third : Model} (kept : first.bare = third.bare) {id : EntryId}
    {line : String × String} (written : first.written? id = some line) {value : Value}
    (found : setting? first second id = some (id, value))
    (read : third.value id = .ok (some value)) : third.written? id = some line := by
  obtain ⟨entry, symbol, type, before, text, present, named, typed, own, shown, denoted⟩ :=
    (setting?_eq_some_iff indexed same).mp found
  have again := written?_eq_some_iff.mpr ⟨entry, type, before, present, named, typed, own, shown⟩
  obtain rfl := Option.some.inj (again.symm.trans written)
  obtain ⟨other, presentThird, declared⟩ := entry_of_bare kept present
  refine written?_eq_some_iff.mpr ⟨other, type, value, presentThird, ?_, ?_, read, ?_⟩
  · rw [declared, named]
  · rw [declared, typed]
  · exact OptionType.write?_of_read shown denoted

end Again

theorem written?_eq_none {first third : Model} (kept : first.bare = third.bare) {text : String}
    (exported : first.exportText = .ok text) {id : EntryId} (absent : first.written? id = none) :
    third.written? id = none := by
  cases writes : third.written? id with
  | none => rfl
  | some line =>
      obtain ⟨entry, type, value, present, named, typed, -, shown⟩ :=
        written?_eq_some_iff.mp writes
      obtain ⟨other, found, declared⟩ := entry_of_bare kept.symm present
      rw [← declared] at named typed
      have zero : type.zero?.isSome := by
        rw [← type.write?_isSome value, shown]
        rfl
      obtain ⟨_, _, -, -, written⟩ := exists_written? exported found named typed zero
      rw [absent] at written
      cases written

/-- If failures stop the import of an export, all of its lines are applied. -/
theorem report_of_export {first second : Model} (indexed : first.Indexed)
    (same : first.bare = second.bare) (legible : first.Legible)
    (abort : second.options.importPolicy = .abort) {text : String}
    (exported : first.exportText = .ok text) {report : ImportReport}
    (imported : (second.importText text).outcome = .ok report) :
    report.applied = text.toList.count '\n' ∧ report.unknown = [] ∧
      ∀ assignment ∈ Assignment.ofText text, (second.target? assignment.content).isSome := by
  have known : ∀ assignment ∈ Assignment.ofText text,
      (second.lookup assignment.symbol).isSome := by
    intro assignment member
    obtain ⟨id, line, written, content⟩ := exists_written?_of_mem legible exported member
    have symbol : assignment.symbol = line.1 := congrArg Prod.fst content
    rw [symbol, lookup_of_written? indexed same written]
    rfl
  obtain ⟨applied, unknown, sets⟩ := report_of_import abort known imported
  rw [count_newline_export legible exported]
  exact ⟨applied.trans (Nat.zero_add _), unknown, sets⟩

/-- If selects point forward, every entry is written as it was. -/
theorem written_of_forward {first second : Model} (indexed : first.Indexed)
    (same : first.bare = second.bare) (legible : first.Legible) (forward : first.Forward)
    {text : String} (exported : first.exportText = .ok text)
    (sets : ∀ assignment ∈ Assignment.ofText text, (second.target? assignment.content).isSome) :
    (setAll (settings first second) second).written = first.written := by
  have kept : first.bare = (setAll (settings first second) second).bare := by
    rw [bare_setAll, same]
  have each : ∀ id, (setAll (settings first second) second).written? id = first.written? id := by
    intro id
    cases writes : first.written? id with
    | none => exact written?_eq_none kept exported writes
    | some line =>
        obtain ⟨value, found⟩ := exists_setting? indexed same legible exported sets writes
        exact written?_of_setting? indexed same kept writes found
          (value_of_forward indexed same forward found)
  rw [written, ← size_of_bare kept]
  exact List.filterMap_congr fun id _ => each id

theorem newline_not_mem_written {model : Model}
    (single : ∀ id symbol content, model.symbol? id = some symbol →
      model.value id = .ok (some (.text content)) → '\n' ∉ content.toList) :
    ∀ line ∈ model.written, '\n' ∉ line.2.toList := by
  intro line member
  obtain ⟨id, written⟩ := exists_of_mem_written member
  have named := symbol?_of_written? written
  obtain ⟨entry, type, value, -, -, -, read, shown⟩ := written?_eq_some_iff.mp written
  refine OptionType.newline_not_mem_write? shown fun content same => ?_
  subst same
  exact single id line.1 content named read

/-- If selects point forward and failures stop imports, the model that imported the export of
another one of its description exports the same text, and every line of it was applied. -/
theorem exportText_of_importText {description : Node}
    (unnamed : description.declaration.symbol = none) (words : description.HasWords)
    {firstOptions secondOptions : Options} {firstBuilt secondBuilt : Model}
    (builtFirst : build description firstOptions = .ok firstBuilt)
    (builtSecond : build description secondOptions = .ok secondBuilt)
    (forward : firstBuilt.Forward) (abort : secondOptions.importPolicy = .abort)
    {firstHistory secondHistory : List Edit} {first second : Model}
    (isFirst : first = firstBuilt.after firstHistory)
    (isSecond : second = secondBuilt.after secondHistory)
    {text : String} (exported : first.exportText = .ok text)
    (single : ∀ id symbol content, first.symbol? id = some symbol →
      first.value id = .ok (some (.text content)) → '\n' ∉ content.toList)
    {report : ImportReport} (imported : (second.importText text).outcome = .ok report)
    {again : String} (exportedAgain : (second.importText text).model.exportText = .ok again) :
    again = text ∧ report.applied = text.toList.count '\n' ∧ report.unknown = [] := by
  subst isFirst isSecond
  have follows := follows_after builtFirst firstHistory unnamed
  have indexed := follows.1
  have same := bare_of_builds builtFirst builtSecond firstHistory secondHistory
  have legible : (firstBuilt.after firstHistory).Legible :=
    ⟨follows.words words, newline_not_mem_written single⟩
  rw [← options_after builtSecond secondHistory] at abort
  obtain ⟨applied, unknown, sets⟩ := report_of_export indexed same legible abort exported imported
  refine ⟨?_, applied, unknown⟩
  have forward := forward.of_bare (bare_after firstBuilt firstHistory).1.symm
  have lines := written_of_forward indexed same legible forward exported sets
  rw [← model_importText_export legible exported imported] at lines
  rw [(exportText_eq_ok exportedAgain).1, lines, ← (exportText_eq_ok exported).1]

/-- A select that points forward, and a text that has quotes. -/
theorem exportText_of_importText_of_forward :
    let leaves : List Declaration :=
      [{ symbol := some "S", type := some .bool, selects := [⟨"T", none⟩] },
        { symbol := some "T", type := some .tristate },
        { symbol := some "N", type := some .string },
        { symbol := some "I", type := some .int },
        { symbol := some "H", type := some .hex }]
    let nodes : List Node := leaves.map (.mk · [])
    let built : Model := placeAll root (top { kind := .menu } {}) (Outline.ofNodes nodes)
    let first : Model := built.after
      [.set 1 (.text "y"), .set 3 (.text "say \"hi\""), .set 4 (.number (-7)),
        .set 5 (.text "0Xff")]
    let second : Model := built.after [.set 2 (.text "m"), .set 4 (.number 3)]
    let text := "CONFIG_S=y\nCONFIG_T=y\nCONFIG_N=\"say \"hi\"\"\nCONFIG_I=-7\nCONFIG_H=0xff\n"
    build (.mk { kind := .menu } nodes) {} = .ok built ∧ first.exportText = .ok text ∧
      (second.importText text).model.exportText = .ok text := by
  intro leaves nodes built first second text
  have words : (Node.mk { kind := .menu } nodes).HasWords :=
    Node.hasWords_of_leaves rfl (by decide +kernel)
  have exported : first.exportText = .ok text := by decide +kernel
  have imported : (second.importText text).outcome = .ok { applied := 5 } := by decide +kernel
  have single : ∀ id < first.size, ∀ value ∈ (first.value id).toOption.join,
      '\n' ∉ value.display.toList := by
    decide +kernel
  obtain ⟨again, exportedAgain⟩ :
      ∃ again, (second.importText text).model.exportText = .ok again := ⟨text, by decide +kernel⟩
  have whole := @exportText_of_importText (.mk { kind := .menu } nodes) rfl words {} {} built built
    rfl rfl (by decide +kernel) rfl _ _ first second rfl rfl text exported
    (fun id symbol content named read => by
      obtain ⟨entry, found, -⟩ := Option.bind_eq_some_iff.mp named
      have present : id < first.size := (List.getElem?_eq_some_iff.mp found).1
      have absent := single id present (.text content)
      rw [read] at absent
      exact absent rfl)
    _ imported again exportedAgain
  rw [whole.1] at exportedAgain
  exact ⟨rfl, exported, exportedAgain⟩

end Model
end OptionTree
