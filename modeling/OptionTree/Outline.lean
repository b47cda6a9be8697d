import OptionTree.Description

/-!
# Outlines

A description lists the nodes of menus only.  In its outline the menu of an option is explicit
too: it gathers the units after the option as long as they depend on it.  A unit is a node with
all it has gathered, so a gathered option brings its own menu along.
-/

namespace OptionTree

/-- A declaration with the units it owns. -/
inductive Outline where
  /-- An outline from a declaration and the units under it. -/
  | mk (declaration : Declaration) (children : List Outline)

namespace Outline

/-- What the head of a unit declares. -/
def declaration : Outline → Declaration
  | mk declaration _ => declaration

/-- The units under the head of a unit. -/
def children : Outline → List Outline
  | mk _ children => children

/-- Whether the head of a unit depends on a symbol alone. -/
def dependsOn (symbol : String) (unit : Outline) : Bool := unit.declaration.dependsOn symbol

/-- Puts a node, and what it lists, in front of the units behind it.  A menu owns the former, and an
option with a menu those of the latter that depend on it. -/
def arrange (declaration : Declaration) (listed later : List Outline) : List Outline :=
  match declaration.kind, declaration.symbol with
  | .menu, _ => mk declaration listed :: later
  | .menuconfig, some symbol =>
    mk declaration (later.takeWhile (dependsOn symbol)) :: later.dropWhile (dependsOn symbol)
  | _, _ => mk declaration [] :: later

mutual

/-- The units of the nodes that a node lists. -/
def listed : Node → List Outline
  | .mk _ entries => ofNodes entries

/-- The units of a list of nodes. -/
def ofNodes : List Node → List Outline
  | [] => []
  | node :: rest => arrange node.declaration (listed node) (ofNodes rest)

end

@[simp]
theorem ofNodes_nil : ofNodes [] = [] := rfl

@[simp]
theorem ofNodes_cons (declaration : Declaration) (entries rest : List Node) :
    ofNodes (.mk declaration entries :: rest) =
      arrange declaration (ofNodes entries) (ofNodes rest) := rfl

end Outline
end OptionTree
