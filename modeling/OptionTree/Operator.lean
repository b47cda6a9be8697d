/-!
# Operators of conditions

Four operators join two operands and one negates a single operand.  A lower rank binds more
tightly; negation stands between the comparisons and the connectives.
-/

namespace OptionTree

/-- An operator between two operands. -/
inductive BinaryOperator where
  /-- `=`, whether two values are the same. -/
  | equal
  /-- `!=`, whether two values differ. -/
  | unequal
  /-- `&&`, the lower of two values. -/
  | conjunction
  /-- `||`, the higher of two values. -/
  | disjunction
  deriving DecidableEq, Repr

/-- An operator of an expression. -/
inductive Operator where
  /-- `!`, what a value lacks to the highest state. -/
  | negation
  /-- An operator between two operands. -/
  | binary (op : BinaryOperator)
  deriving DecidableEq, Repr

namespace BinaryOperator

/-- How loosely an operator binds. -/
def rank : BinaryOperator → Nat
  | equal => 1
  | unequal => 2
  | conjunction => 4
  | disjunction => 5

/-- How an operator is written. -/
def text : BinaryOperator → String
  | equal => "="
  | unequal => "!="
  | conjunction => "&&"
  | disjunction => "||"

end BinaryOperator

namespace Operator

/-- How loosely an operator binds. -/
def rank : Operator → Nat
  | negation => 3
  | binary op => op.rank

/-- How many operands an operator takes. -/
def arity : Operator → Nat
  | negation => 1
  | binary _ => 2

/-- How an operator is written. -/
def text : Operator → String
  | negation => "!"
  | binary op => op.text

end Operator
end OptionTree
