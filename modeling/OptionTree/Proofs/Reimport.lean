import OptionTree.Proofs.Export
import OptionTree.Proofs.Import

/-!
# Imports of exports

Importing what a model exported sets, in the order of the entries, every entry that was written to
the value that its text denotes.  Whichever of these settings reaches an entry last decides its
value, and if selects point forward, that is its own one.
-/

namespace OptionTree
namespace Model

/-- What the line of an entry in the export of one model sets in another one. -/
def setting? (first second : Model) (id : EntryId) : Option (EntryId × Value) :=
  (first.written? id).bind fun line => second.target? (line.1, rawOf line.2)

/-- What the export of one model sets in another one, in the order of the entries. -/
def settings (first second : Model) : List (EntryId × Value) :=
  (List.range first.size).filterMap (setting? first second)

/-- Whether what a model writes is legible line by line. -/
structure Legible (model : Model) : Prop where
  /-- Symbols are words. -/
  words : ∀ line ∈ model.written, IsWord line.1
  /-- Texts keep to their lines. -/
  single : ∀ line ∈ model.written, '\n' ∉ line.2.toList

section Text

variable {first : Model} (legible : first.Legible) {text : String}
  (exported : first.exportText = .ok text)
include legible exported

theorem content_ofText_export :
    (Assignment.ofText text).map Assignment.content =
      first.written.map fun line => (line.1, rawOf line.2) := by
  obtain ⟨rfl, -⟩ := exportText_eq_ok exported
  exact Assignment.content_ofText legible.words legible.single

theorem exists_written?_of_mem {assignment : Assignment}
    (member : assignment ∈ Assignment.ofText text) :
    ∃ id line, first.written? id = some line ∧ assignment.content = (line.1, rawOf line.2) := by
  have inside := List.mem_map_of_mem (f := Assignment.content) member
  rw [content_ofText_export legible exported] at inside
  obtain ⟨line, present, content⟩ := List.mem_map.mp inside
  obtain ⟨id, written⟩ := exists_of_mem_written present
  exact ⟨id, line, written, content.symm⟩

theorem count_newline_export : text.toList.count '\n' = (Assignment.ofText text).length := by
  have contents := congrArg List.length (content_ofText_export legible exported)
  rw [List.length_map, List.length_map] at contents
  obtain ⟨rfl, -⟩ := exportText_eq_ok exported
  rw [contents]
  exact Assignment.count_newline legible.words legible.single

theorem filterMap_target?_export (second : Model) :
    ((Assignment.ofText text).filterMap fun assignment => second.target? assignment.content) =
      settings first second := by
  have contents := content_ofText_export legible exported
  calc
    _ = ((Assignment.ofText text).map Assignment.content).filterMap second.target? := by
      rw [List.filterMap_map]
      rfl
    _ = first.written.filterMap fun line => second.target? (line.1, rawOf line.2) := by
      rw [contents, List.filterMap_map]
      rfl
    _ = settings first second := List.filterMap_filterMap

/-- Importing an export sets what its lines set. -/
theorem model_importText_export {second : Model} {report : ImportReport}
    (imported : (second.importText text).outcome = .ok report) :
    (second.importText text).model = setAll (settings first second) second := by
  rw [← filterMap_target?_export legible exported second]
  exact model_assignAll imported

end Text

theorem Indexed.complete {model : Model} (indexed : model.Indexed) : model.Complete :=
  fun symbol target found => lt_size_of_symbol? ((indexed target symbol).mpr found)

theorem mem_settings {first second : Model} {id : EntryId} {value : Value}
    (found : setting? first second id = some (id, value)) :
    (id, value) ∈ settings first second := by
  refine List.mem_filterMap.mpr ⟨id, List.mem_range.mpr ?_, found⟩
  obtain ⟨line, written, -⟩ := Option.bind_eq_some_iff.mp found
  exact lt_size_of_written? written

section SameTree

variable {first second : Model} (indexed : first.Indexed) (same : first.bare = second.bare)
include indexed same

theorem lookup_of_written? {id : EntryId} {line : String × String}
    (written : first.written? id = some line) : second.lookup line.1 = some id := by
  rw [← lookup_of_bare same]
  exact (indexed id line.1).mp (symbol?_of_written? written)

theorem fst_of_setting? {id : EntryId} {setting : EntryId × Value}
    (found : setting? first second id = some setting) : setting.1 = id := by
  obtain ⟨line, written, target⟩ := Option.bind_eq_some_iff.mp found
  have known := lookup_of_written? indexed same written
  simp only [target?, known, Option.bind_some] at target
  split at target
  · obtain rfl := Option.some.inj target
    rfl
  · cases target

/-- The line of an entry sets it to what its text denotes. -/
theorem setting?_eq_some_iff {id : EntryId} {again : Value} :
    setting? first second id = some (id, again) ↔
      ∃ entry symbol type value text, first.get? id = some entry ∧ entry.symbol = some symbol ∧
        entry.type = some type ∧ first.value id = .ok (some value) ∧
          type.write? value = some text ∧ OptionType.read (rawOf text) (some type) = .ok again := by
  have target : ∀ {entry symbol type text}, first.get? id = some entry →
      entry.type = some type → first.written? id = some (symbol, text) →
        (second.target? (symbol, rawOf text) = some (id, again) ↔
          OptionType.read (rawOf text) (some type) = .ok again) := by
    intro entry symbol type text found typed written
    have known : second.lookup symbol = some id := lookup_of_written? indexed same written
    rw [target?, known, Option.bind_some, ← type_of_bare same, found, Option.bind_some, typed]
    cases OptionType.read (rawOf text) (some type) with
    | error cause => simp
    | ok value => simp
  constructor
  · intro setting
    obtain ⟨⟨symbol, text⟩, written, sets⟩ := Option.bind_eq_some_iff.mp setting
    obtain ⟨entry, type, value, found, named, typed, read, shown⟩ :=
      written?_eq_some_iff.mp written
    exact ⟨entry, symbol, type, value, text, found, named, typed, read, shown,
      (target found typed written).mp sets⟩
  · rintro ⟨entry, symbol, type, value, text, found, named, typed, read, shown, denoted⟩
    have written : first.written? id = some (symbol, text) :=
      written?_eq_some_iff.mpr ⟨entry, type, value, found, named, typed, read, shown⟩
    rw [setting?, written]
    exact (target found typed written).mpr denoted

theorem pairwise_settings :
    (settings first second).Pairwise fun before behind => before.1 < behind.1 := by
  refine List.pairwise_filterMap.mpr (List.pairwise_lt_range.imp ?_)
  intro id later before setting found other foundLater
  rw [fst_of_setting? indexed same found, fst_of_setting? indexed same foundLater]
  exact before

theorem lt_size_of_mem_settings {setting : EntryId × Value}
    (member : setting ∈ settings first second) : setting.1 < second.size := by
  obtain ⟨id, present, found⟩ := List.mem_filterMap.mp member
  rw [fst_of_setting? indexed same found, ← size_of_bare same]
  exact List.mem_range.mp present

theorem override?_settings (id : EntryId) :
    (setAll (settings first second) second).override? id =
      ((lastSource id (settings first second) second).map Prod.snd).or (second.override? id) :=
  override?_setAll (indexed.complete.of_bare same)
    (fun _ member => lt_size_of_mem_settings indexed same member) id

/-- If selects point forward, an entry has the value that its line sets. -/
theorem value_of_forward (forward : first.Forward) {id : EntryId} {value : Value}
    (found : setting? first second id = some (id, value)) :
    (setAll (settings first second) second).value id = .ok (some value) := by
  refine value_of_override ?_
  have last := lastSource_of_forward (forward.of_bare same)
    (fun _ member => lt_size_of_mem_settings indexed same member)
    (pairwise_settings indexed same) (mem_settings found)
  rw [override?_settings indexed same, last]
  rfl

/-- Without selects, an entry has the value that its line sets, or else the one that it had. -/
theorem override?_of_selectless (selects : ∀ id, second.selectsOf id = []) (id : EntryId) :
    (setAll (settings first second) second).override? id =
      ((setting? first second id).map Prod.snd).or (second.override? id) := by
  rw [override?_settings indexed same]
  congr 2
  cases found : setting? first second id with
  | some setting =>
      obtain rfl := fst_of_setting? indexed same found
      exact lastSource_of_forward (forward_of_selectless selects)
        (fun _ member => lt_size_of_mem_settings indexed same member)
        (pairwise_settings indexed same) (mem_settings found)
  | none =>
      refine Option.eq_none_iff_forall_ne_some.mpr fun setting source => ?_
      obtain ⟨origin, -, own⟩ := List.mem_filterMap.mp (mem_of_lastSource source)
      rw [← fst_of_setting? indexed same own, fst_of_lastSource selects source, found] at own
      cases own

end SameTree
end Model
end OptionTree
