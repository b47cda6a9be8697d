import OptionTree.Assignments
import OptionTree.Model.Build

/-!
# Definitions for a single expression

A definition `NAME[:TYPE]=VALUE` declares a symbol and assigns it, as a line of assignments would.
-/

namespace OptionTree

/-- A symbol with its type and its value as they were given. -/
structure Definition where
  /-- The symbol. -/
  symbol : String
  /-- The name of its type. -/
  type : String
  /-- The text that is assigned. -/
  value : String
  deriving DecidableEq, Repr

namespace Definition

/-- The type of a definition that names none. -/
def defaultType : String := OptionType.tristate.name

/-- Reads a definition. -/
def parse (text : String) : Except Error Definition :=
  match Text.cut? '=' text.toList with
  | none => .error (.definitionWithoutValue text)
  | some (name, value) =>
    let parts := (Text.cut? ':' name).getD (name, defaultType.toList)
    if !parts.1.isEmpty && parts.1.all Token.isSymbolChar then
      .ok ⟨String.ofList parts.1, String.ofList parts.2, String.ofList value⟩
    else .error (.invalidName (String.ofList parts.1))

/-- The node that a definition declares. -/
def node (definition : Definition) : Node :=
  .mk { symbol := some definition.symbol, type := some (.ofName definition.type) } []

/-- The menu of all definitions. -/
def description (definitions : List Definition) : Node :=
  .mk { kind := .menu } (definitions.map node)

/-- The line that assigns the value of a definition. -/
def assignment (definition : Definition) : String :=
  Model.assignmentLine (definition.symbol, definition.value)

/-- The model of some definitions with their values. -/
def model (definitions : List Definition) : Except Error Model :=
  (Model.build (description definitions) {}).bind fun model =>
    let run := model.importText (String.join (definitions.map assignment))
    match run.outcome with
    | .error cause => .error (.applyingDefinitions cause)
    | .ok _ => .ok run.model

/-- The value of an expression under some definitions. -/
def evaluate (definitions : List Definition) (mode : Mode) (expression : String) :
    Except Error Value :=
  (model definitions).bind fun model => model.evaluate mode expression

end Definition
end OptionTree
