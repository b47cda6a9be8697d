import OptionTree.Kind
import OptionTree.OptionType
import OptionTree.Text.Blank

/-!
# Descriptions of option trees

A description is a tree of declarations.  A declaration says what one definition states about a
symbol; the same symbol may be declared again elsewhere, and `Declaration.merge` joins what the
definitions state.
-/

namespace OptionTree

/-- A text that applies only if its condition holds: a default, the target of a select or an
imply, or the two bounds of a range. -/
structure Conditional where
  /-- What applies. -/
  value : String
  /-- When it applies; always, if absent. -/
  condition : Option String := none
  deriving DecidableEq, Repr

/-- The bounds that two texts write, as one text. -/
def Conditional.range (low high : String) (condition : Option String) : Conditional :=
  ⟨low ++ " " ++ high, condition⟩

/-- The question under which an entry is shown. -/
structure Prompt where
  /-- The text that is shown. -/
  text : String
  /-- When it is shown; always, if absent. -/
  condition : Option String := none
  deriving DecidableEq, Repr

/-- Where a declaration was written. -/
structure Location where
  /-- The file. -/
  file : Option String := none
  /-- The line in that file. -/
  line : Option Nat := none
  deriving DecidableEq, Repr

namespace Location

/-- File and line, as far as they are known. -/
def display : Location → String
  | ⟨some file, some line⟩ => file ++ ":" ++ toString line
  | ⟨some file, none⟩ => file
  | ⟨none, some line⟩ => "<unknown>:" ++ toString line
  | ⟨none, none⟩ => "<unknown>"

end Location

/-- What one definition states. -/
structure Declaration where
  /-- What is declared. -/
  kind : Kind := .config
  /-- The name that is declared, if any. -/
  symbol : Option String := none
  /-- The type of its values. -/
  type : Option OptionType := none
  /-- The question under which it is shown. -/
  prompt : Option Prompt := none
  /-- The help text. -/
  help : Option String := none
  /-- The environment variable that presets the value. -/
  env : Option String := none
  /-- Where the definition was written. -/
  location : Location := {}
  /-- What it depends on, one expression for each clause. -/
  clauses : List String := []
  /-- Expressions for its value, of which the first that applies counts. -/
  defaults : List Conditional := []
  /-- Symbols that are set to the same value. -/
  selects : List Conditional := []
  /-- Symbols whose switches are at least as high. -/
  implies : List Conditional := []
  /-- Bounds for its value, of which the first pair that applies counts. -/
  ranges : List Conditional := []
  deriving DecidableEq, Repr

/-- A declaration with the nodes that it lists. -/
inductive Node where
  /-- A node from its declaration and its listed nodes. -/
  | mk (declaration : Declaration) (entries : List Node)

namespace Node

/-- What a node declares. -/
def declaration : Node → Declaration
  | mk declaration _ => declaration

/-- The nodes that a node lists. -/
def entries : Node → List Node
  | mk _ entries => entries

end Node

/-- The items of both lists in order, without the later ones that were there already. -/
def mergeItems {α : Type} [DecidableEq α] (first later : List α) : List α :=
  later.foldl (fun items item => if item ∈ items then items else items ++ [item]) first

@[simp]
theorem mem_mergeItems {α : Type} [DecidableEq α] {item : α} {first later : List α} :
    item ∈ mergeItems first later ↔ item ∈ first ∨ item ∈ later := by
  unfold mergeItems
  induction later generalizing first with
  | nil => simp
  | cons head later ih =>
    rw [List.foldl_cons, ih]
    split <;> simp_all <;> grind

namespace Location

/-- What is known from two locations, the first one preferred. -/
def merge (first later : Location) : Location where
  file := first.file.or later.file
  line := first.line.or later.line

end Location

namespace Declaration

/-- Whether one of the clauses consists of a symbol alone. -/
def dependsOn (declaration : Declaration) (symbol : String) : Bool :=
  declaration.clauses.any fun clause => Text.trim clause.toList == symbol.toList

/-- What two definitions of one symbol state together.  A single fact is taken from the first
definition that states it, clauses add up, and lists grow by what they did not hold. -/
def merge (first later : Declaration) : Declaration where
  kind := first.kind
  symbol := first.symbol.or later.symbol
  type := first.type.or later.type
  prompt := first.prompt.or later.prompt
  help := first.help.or later.help
  env := first.env.or later.env
  location := first.location.merge later.location
  clauses := first.clauses ++ later.clauses
  defaults := mergeItems first.defaults later.defaults
  selects := mergeItems first.selects later.selects
  implies := mergeItems first.implies later.implies
  ranges := mergeItems first.ranges later.ranges

end Declaration
end OptionTree
