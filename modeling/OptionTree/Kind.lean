/-!
# Kinds of nodes

A node of an option tree is a menu, an option, a remark or a choice.  Menus list their nodes; an
option with a menu of its own gathers the nodes that follow it.
-/

namespace OptionTree

/-- What a node of an option tree is. -/
inductive Kind where
  /-- A menu that lists its nodes. -/
  | menu
  /-- An option whose menu is made of the nodes after it that depend on it. -/
  | menuconfig
  /-- An option. -/
  | config
  /-- A remark. -/
  | comment
  /-- A choice between options. -/
  | choice
  deriving DecidableEq, Repr

namespace Kind

/-- The word that declares a node of this kind. -/
def keyword : Kind → String
  | menu => "menu"
  | menuconfig => "menuconfig"
  | config => "config"
  | comment => "comment"
  | choice => "choice"

/-- The name of a kind in messages. -/
def title : Kind → String
  | menu => "Menu"
  | menuconfig => "MenuConfig"
  | config => "Config"
  | comment => "Comment"
  | choice => "Choice"

/-- The kind that a word declares. -/
def ofKeyword? : String → Option Kind
  | "menu" => some menu
  | "menuconfig" => some menuconfig
  | "config" => some config
  | "comment" => some comment
  | "choice" => some choice
  | _ => none

/-- Whether nodes of this kind own other nodes. -/
def isScope : Kind → Bool
  | menu | menuconfig => true
  | config | comment | choice => false

@[simp]
theorem ofKeyword?_keyword (kind : Kind) : ofKeyword? kind.keyword = some kind := by
  cases kind <;> rfl

end Kind
end OptionTree
