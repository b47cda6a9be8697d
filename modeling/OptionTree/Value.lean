import OptionTree.Numeral

/-!
# Option values

An option holds a number or a text.  Options that are switched hold one of three states, written
`n`, `m` and `y`, which a value means whether it is a number or a letter.
-/

namespace OptionTree

/-- The value of an option. -/
inductive Value where
  /-- A whole number. -/
  | number (n : Int)
  /-- A text, kept as it was given. -/
  | text (content : String)
  deriving DecidableEq, Repr

namespace Value

/-- The number that the logical operators see: a text counts as zero. -/
def magnitude : Value → Int
  | number n => n
  | text _ => 0

/-- The content of a text. -/
def text? : Value → Option String
  | number _ => none
  | text content => some content

/-- The number that the value is, or that its text writes in base ten. -/
def decimal? : Value → Option Int
  | number n => some n
  | text content => Numeral.decimal? content

/-- The number that the value is, or that its text writes in base sixteen. -/
def hexadecimal? : Value → Option Int
  | number n => some n
  | text content => Numeral.hexadecimal? content

/-- The value as it is shown: a number in base ten, a text unchanged. -/
def display : Value → String
  | number n => Numeral.decimal n
  | text content => content

end Value

/-- The state of a switch. -/
inductive Tristate where
  /-- Left out. -/
  | no
  /-- Present as a module. -/
  | modular
  /-- Present. -/
  | yes
  deriving DecidableEq, Repr

namespace Tristate

/-- The states in their order, as numbers. -/
def rank : Tristate → Nat
  | no => 0
  | modular => 1
  | yes => 2

/-- The letter of a state. -/
def letter : Tristate → Char
  | no => 'n'
  | modular => 'm'
  | yes => 'y'

/-- The higher of two states. -/
def sup (first second : Tristate) : Tristate :=
  if first.rank < second.rank then second else first

/-- The state that a number means. -/
def ofNumber (n : Int) : Tristate :=
  if n ≤ 0 then no else if n = 1 then modular else yes

/-- The state that a text means: every text but the two letters means `no`. -/
def ofText (content : String) : Tristate :=
  if content = "y" then yes else if content = "m" then modular else no

/-- The state that a value means; an absent one means `no`. -/
def ofValue? : Option Value → Tristate
  | none => no
  | some (.number n) => ofNumber n
  | some (.text content) => ofText content

/-- The letter of a state as a value. -/
def toValue (state : Tristate) : Value := .text (String.singleton state.letter)

@[simp]
theorem ofValue?_toValue (state : Tristate) : ofValue? (some state.toValue) = state := by
  cases state <;> decide

@[simp]
theorem ofNumber_rank (state : Tristate) : ofNumber state.rank = state := by
  cases state <;> decide

theorem rank_injective {first second : Tristate} (same : first.rank = second.rank) :
    first = second := by
  cases first <;> cases second <;> first | rfl | cases same

end Tristate
end OptionTree
