import OptionTree.Registry
import OptionTree.SymbolIndex

/-!
# Models

A model holds the entries of a built option tree, the symbols that their conditions mention, the
symbols that they imply, and how edits are to be treated.
-/

namespace OptionTree

/-- What happens when a line of assignments fails. -/
inductive ImportPolicy where
  /-- The import stops with the error of that line. -/
  | abort
  /-- The failure is reported and the next line follows. -/
  | skip
  deriving DecidableEq, Repr

/-- How a model is built and edited. -/
structure Options where
  /-- The environment that presets values. -/
  env : List (String × String) := []
  /-- What happens when a line of assignments fails. -/
  importPolicy : ImportPolicy := .abort
  /-- Whether values are validated when they are set. -/
  validateTypes : Bool := true
  deriving DecidableEq, Repr

/-- A built option tree with its current values. -/
structure Model where
  /-- The entries, of which the first one is the root. -/
  registry : Registry
  /-- The entries whose conditions mention a symbol. -/
  mentions : SymbolIndex := {}
  /-- The entries that imply a symbol. -/
  implications : SymbolIndex := {}
  /-- How the model is built and edited. -/
  options : Options := {}
  deriving DecidableEq, Repr

namespace Model

/-- The entry at the top of the tree. -/
def root : EntryId := 0

/-- A model of nothing but an empty menu. -/
def empty (options : Options) : Model where
  registry := { entries := [{ kind := .menu }] }
  options := options

/-- The number of entries. -/
def size (model : Model) : Nat := model.registry.size

/-- The entry with an identifier. -/
def get? (model : Model) (id : EntryId) : Option Entry := model.registry.get? id

/-- The entries in the order of their creation. -/
def entries (model : Model) : List Entry := model.registry.entries

/-- The entry of a symbol. -/
def lookup (model : Model) (symbol : String) : Option EntryId := model.registry.lookup symbol

/-- The entries whose conditions mention a symbol. -/
def dependents (model : Model) (symbol : String) : List EntryId := model.mentions.entries symbol

/-- Changes one entry. -/
def modify (model : Model) (id : EntryId) (change : Entry → Entry) : Model :=
  { model with registry := model.registry.modify id change }

/-- Sets or drops the value that an entry was set to. -/
def store (model : Model) (id : EntryId) (value : Option Value) : Model :=
  model.modify id fun entry => { entry with override := value }

/-- The value that an entry was set to. -/
def override? (model : Model) (id : EntryId) : Option Value :=
  (model.get? id).bind Entry.override

/-- The symbol of an entry. -/
def symbol? (model : Model) (id : EntryId) : Option String :=
  (model.get? id).bind fun entry => entry.symbol

@[simp]
theorem size_store (model : Model) (id : EntryId) (value : Option Value) :
    (model.store id value).size = model.size :=
  Registry.size_modify ..

@[simp]
theorem lookup_store (model : Model) (id : EntryId) (value : Option Value) (symbol : String) :
    (model.store id value).lookup symbol = model.lookup symbol := rfl

theorem get?_store (model : Model) (id other : EntryId) (value : Option Value) :
    (model.store id value).get? other =
      if id = other then (model.get? other).map fun entry => { entry with override := value }
      else model.get? other :=
  Registry.get?_modify ..

end Model
end OptionTree
