import OptionTree.Error
import OptionTree.Model.Basic
import OptionTree.Outline

/-!
# Building models

The units of an outline are declared in order, each one before the units under it, and handed to
their owner once everything under them is in place.  A unit whose symbol was declared before adds
to that entry, which may come to have several owners.
-/

namespace OptionTree
namespace Model

/-- Records which symbols the clauses and the prompt of a declaration mention. -/
def recordConditions (model : Model) (declaration : Declaration) (id : EntryId) : Model :=
  let conditions := declaration.clauses ++ (declaration.prompt.bind Prompt.condition).toList
  { model with
    mentions := conditions.foldl (fun index text => index.recordExpression text id)
      model.mentions }

/-- Records which symbols a declaration implies. -/
def recordImplications (model : Model) (declaration : Declaration) (id : EntryId) : Model :=
  { model with
    implications := model.implications.recordAll (declaration.implies.map Conditional.value) id }

/-- Sets an entry without a value to what the environment has for the variable of a declaration. -/
def preset (model : Model) (declaration : Declaration) (id : EntryId) : Model :=
  match declaration.env.bind (model.options.env.lookup ·) with
  | none => model
  | some content =>
    model.modify id fun entry =>
      { entry with override := entry.override.or (some (.text content)) }

/-- Registers a declaration under a parent and tells which entry stands for it. -/
def declare (model : Model) (parent : EntryId) (declaration : Declaration) : Model × EntryId :=
  let registered := model.registry.register (.ofDeclaration declaration (some parent))
  let id := registered.2
  let registeredModel := { model with registry := registered.1 }
  (((registeredModel.recordConditions declaration id).recordImplications declaration id).preset
    declaration id, id)

/-- Hands an entry to its owner.  An entry never owns itself. -/
def attach (model : Model) (owner child : EntryId) : Model :=
  if owner = child then model else model.modify owner (·.adopt child)

mutual

/-- Declares a unit under its owner, with everything under it, and hands it over. -/
def place (owner : EntryId) (model : Model) : Outline → Model
  | .mk declaration children =>
    let declared := model.declare owner declaration
    (placeAll declared.2 declared.1 children).attach owner declared.2

/-- Places a list of units in order. -/
def placeAll (owner : EntryId) (model : Model) : List Outline → Model
  | [] => model
  | unit :: units => placeAll owner (place owner model unit) units

end

/-- The model before anything under its root is placed.  The declaration of the root takes the
place of the empty menu; its symbol is not registered and it presets and implies nothing. -/
def top (declaration : Declaration) (options : Options) : Model :=
  { empty options with
    registry := { entries := [.ofDeclaration declaration none] } }.recordConditions declaration root

/-- The model of a description, whose outermost node must be a menu. -/
def build (description : Node) (options : Options) : Except Error Model :=
  if description.declaration.kind = .menu then
    .ok (placeAll root (top description.declaration options)
      (Outline.ofNodes description.entries))
  else .error (.rootNotMenu description.declaration.kind)

@[simp]
theorem place_mk (owner : EntryId) (model : Model) (declaration : Declaration)
    (children : List Outline) :
    place owner model (.mk declaration children) =
      (placeAll (model.declare owner declaration).2 (model.declare owner declaration).1
        children).attach owner (model.declare owner declaration).2 := rfl

end Model
end OptionTree
