import OptionTree.Clause
import OptionTree.Description

/-!
# Entries

An entry is what all definitions of a symbol state together, its place in the tree and the value
it was set to.  Entries are known by their position in the order of their creation.
-/

namespace OptionTree

/-- The position of an entry in the order of creation. -/
abbrev EntryId := Nat

/-- A declared symbol, or a node without one, in the tree. -/
structure Entry extends Declaration where
  /-- The value it was set to. -/
  override : Option Value := none
  /-- The entry under which it was declared first. -/
  parent : Option EntryId := none
  /-- The entries it owns, in order. -/
  children : List EntryId := []
  deriving DecidableEq, Repr

namespace Entry

/-- The entry that stands for a declaration, before it owns or holds anything. -/
def ofDeclaration (declaration : Declaration) (parent : Option EntryId) : Entry :=
  { declaration with parent := parent }

/-- The entry after one more definition of its symbol.  It keeps its value and its children. -/
def merge (first later : Entry) : Entry :=
  { first.toDeclaration.merge later.toDeclaration with
    override := first.override
    parent := first.parent.or later.parent
    children := first.children }

/-- The entry with one more child, unless it has that child. -/
def adopt (entry : Entry) (child : EntryId) : Entry :=
  { entry with children := mergeItems entry.children [child] }

/-- The conjunction of all clauses, if they state anything. -/
def depends? (entry : Entry) : Option String :=
  let joined := Clause.conjunction entry.clauses
  if joined = "" then none else some joined

/-- Whether the values of an entry are switched by implies. -/
def isSwitch (entry : Entry) : Bool := entry.type.any OptionType.isSwitch

/-- The entry in one line: prompt, symbol, type, and an arrow if it has a menu of its own. -/
def display (entry : Entry) : String :=
  let prompt := (entry.prompt.map fun prompt => "\"" ++ prompt.text ++ "\" ").getD ""
  let symbol := entry.symbol.getD "<none>"
  let type := (entry.type.map fun type => ": " ++ type.name).getD ""
  let arrow := if entry.kind = .menuconfig then " -->" else ""
  prompt ++ "(" ++ symbol ++ type ++ ")" ++ arrow

end Entry
end OptionTree
