import OptionTree.Proofs.Indexed

/-!
# Models of one description

Two models of one description, after whatever edits, have the same entries but for their values.
-/

namespace OptionTree
namespace Model

section SameTree

variable {first second : Model} (same : first.bare = second.bare)
include same

theorem lookup_of_bare (symbol : String) : first.lookup symbol = second.lookup symbol := by
  rw [← lookup_bare first, same, lookup_bare]

theorem size_of_bare : first.size = second.size := by
  rw [← size_bare first, same, size_bare]

theorem declaration_of_bare (id : EntryId) :
    (first.get? id).map Entry.toDeclaration = (second.get? id).map Entry.toDeclaration := by
  have unset : (first.get? id).map Entry.unset = (second.get? id).map Entry.unset := by
    rw [← get?_bare, same, get?_bare]
  have declared := congrArg (Option.map Entry.toDeclaration) unset
  simpa only [Option.map_map, Function.comp_def, Entry.toDeclaration_unset] using declared

theorem entry_of_bare {id : EntryId} {entry : Entry} (found : first.get? id = some entry) :
    ∃ other, second.get? id = some other ∧ other.toDeclaration = entry.toDeclaration := by
  have declared := declaration_of_bare same id
  rw [found] at declared
  exact Option.map_eq_some_iff.mp declared.symm

theorem bind_of_bare {α : Type} (read : Declaration → Option α) (id : EntryId) :
    ((first.get? id).bind fun entry => read entry.toDeclaration) =
      (second.get? id).bind fun entry => read entry.toDeclaration := by
  have declared := congrArg (Option.bind · read) (declaration_of_bare same id)
  simp only [Option.bind_map] at declared
  exact declared

theorem list_of_bare {α : Type} (read : Declaration → List α) (id : EntryId) :
    ((first.get? id).map fun entry => read entry.toDeclaration).getD [] =
      ((second.get? id).map fun entry => read entry.toDeclaration).getD [] := by
  have declared := congrArg (Option.map read) (declaration_of_bare same id)
  simp only [Option.map_map] at declared
  exact congrArg (Option.getD · []) declared

theorem symbol?_of_bare (id : EntryId) : first.symbol? id = second.symbol? id :=
  bind_of_bare same Declaration.symbol id

theorem selectsOf_of_bare (id : EntryId) : first.selectsOf id = second.selectsOf id :=
  list_of_bare same Declaration.selects id

theorem type_of_bare (id : EntryId) :
    ((first.get? id).bind fun entry => entry.type) =
      (second.get? id).bind fun entry => entry.type :=
  bind_of_bare same Declaration.type id

end SameTree

section Description

variable {description : Node} {options : Options} {model : Model}
  (built : build description options = .ok model) (history : List Edit)
include built

theorem options_after : (model.after history).options = options := by
  rw [(bare_after model history).2]
  exact options_of_build built

theorem follows_after (unnamed : description.declaration.symbol = none) :
    (model.after history).Follows description := by
  obtain ⟨indexed, declared⟩ := build_follows built unnamed
  have same := (bare_after model history).1
  constructor
  · intro id symbol
    rw [symbol?_of_bare same, lookup_of_bare same]
    exact indexed id symbol
  · intro id symbol found
    rw [symbol?_of_bare same] at found
    exact declared id symbol found

end Description

/-- Two models of one description differ only by values and options. -/
theorem bare_of_builds {description : Node} {firstOptions secondOptions : Options}
    {first second : Model} (builtFirst : build description firstOptions = .ok first)
    (builtSecond : build description secondOptions = .ok second)
    (firstHistory secondHistory : List Edit) :
    (first.after firstHistory).bare = (second.after secondHistory).bare := by
  rw [(bare_after first firstHistory).1, (bare_after second secondHistory).1]
  exact Except.ok.inj ((build_bare builtFirst).symm.trans (build_bare builtSecond))

end Model
end OptionTree
