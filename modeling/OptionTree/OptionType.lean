import OptionTree.Value

/-!
# Types of options

Five types are known; any other name is kept as it was declared.
-/

namespace OptionTree

/-- The declared type of an option. -/
inductive OptionType where
  /-- A switch without a module state. -/
  | bool
  /-- A switch with a module state. -/
  | tristate
  /-- A text. -/
  | string
  /-- A number written in base ten. -/
  | int
  /-- A number written in base sixteen. -/
  | hex
  /-- Any other declared name. -/
  | other (name : String)
  deriving DecidableEq, Repr

namespace OptionType

/-- The type that a name declares. -/
def ofName : String → OptionType
  | "bool" | "boolean" => bool
  | "tristate" => tristate
  | "string" => string
  | "int" => int
  | "hex" => hex
  | name => other name

/-- The name of a type. -/
def name : OptionType → String
  | bool => "bool"
  | tristate => "tristate"
  | string => "string"
  | int => "int"
  | hex => "hex"
  | other name => name

/-- Whether options of this type are switches. -/
def isSwitch : OptionType → Bool
  | bool | tristate => true
  | _ => false

/-- The value of an option that was neither set nor given a default. -/
def zero? : OptionType → Option Value
  | bool | tristate | int | hex => some (.number 0)
  | string => some (.text "")
  | other _ => none

end OptionType
end OptionTree
