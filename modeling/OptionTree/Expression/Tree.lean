import OptionTree.Expression.Evaluate

/-!
# Expression trees

A tree makes the structure of an expression explicit, and its value is computed from the values
of its parts.  `Tree.parse?` finds the tree of a list of tokens by climbing over ranks: the right
side of an operator takes only operators that bind more tightly, and a negation takes comparisons.
-/

namespace OptionTree
namespace Expression

/-- An expression with its structure. -/
inductive Tree where
  /-- A name. -/
  | name (symbol : String)
  /-- A quoted text. -/
  | literal (content : String)
  /-- The negation of an expression. -/
  | negation (operand : Tree)
  /-- Two expressions joined by an operator. -/
  | binary (op : BinaryOperator) (left right : Tree)
  deriving DecidableEq, Repr

/-- What names stand for if reading an option never fails: nothing for a name that is not declared,
and otherwise the value of the option, which may be absent. -/
abbrev Names := String → Option (Option Value)

/-- The scope of names whose options can always be read. -/
def Names.scope (names : Names) : Scope := fun symbol => (names symbol).map .ok

namespace Tree

/-- The value of a tree, if negations make something given of numbers. -/
def valueWith (complement : Int → Int) (names : Names) (mode : Mode) : Tree → Value
  | name symbol =>
    match names symbol with
    | none => mode.settleText symbol
    | some reading => mode.settle reading
  | literal content => mode.settleText content
  | negation operand =>
    .number (complement (operand.valueWith complement names mode).magnitude)
  | binary op left right =>
    .number (op.combine (left.valueWith complement names mode)
      (right.valueWith complement names mode))

/-- The value of a tree. -/
abbrev value (names : Names) (mode : Mode) (tree : Tree) : Value :=
  tree.valueWith Numeral.complement names mode

theorem value_negation (names : Names) (mode : Mode) (operand : Tree) :
    (negation operand).value names mode =
      .number (Numeral.complement (operand.value names mode).magnitude) := rfl

theorem value_binary (names : Names) (mode : Mode) (op : BinaryOperator) (left right : Tree) :
    (binary op left right).value names mode =
      .number (op.combine (left.value names mode) (right.value names mode)) := rfl

/-- A tree read from the front of some tokens, with the tokens behind it. -/
abbrev Parsed (tokens : List Token) :=
  { parsed : Tree × List Token // parsed.2.length < tokens.length }

mutual

/-- Reads a name, a text, a negation or an expression in parentheses. -/
def operand? (tokens : List Token) : Option (Parsed tokens) :=
  match tokens with
  | .symbol symbol :: rest => some ⟨(name symbol, rest), by simp⟩
  | .quoted content :: rest => some ⟨(literal content, rest), by simp⟩
  | .operator .negation :: rest =>
    (climb? Operator.negation.rank rest).map fun parsed =>
      ⟨(negation parsed.1.1, parsed.1.2), by have := parsed.2; simp only [List.length_cons]; omega⟩
  | .opening :: rest =>
    match climb? BinaryOperator.disjunction.rank rest with
    | some ⟨(tree, .closing :: after), shorter⟩ =>
      some ⟨(tree, after), by simp only [List.length_cons] at shorter ⊢; omega⟩
    | _ => none
  | _ => none
termination_by (tokens.length, 0)

/-- Reads an operand and the operators behind it that bind at least as tightly as a rank. -/
def climb? (rank : Nat) (tokens : List Token) : Option (Parsed tokens) :=
  (operand? tokens).bind fun parsed =>
    (extend? rank parsed.1.1 parsed.1.2).map fun extended =>
      ⟨extended.1, Nat.lt_of_le_of_lt extended.2 parsed.2⟩
termination_by (tokens.length, 1)

/-- Extends a tree by the operators behind it that bind at least as tightly as a rank. -/
def extend? (rank : Nat) (left : Tree) (tokens : List Token) :
    Option { parsed : Tree × List Token // parsed.2.length ≤ tokens.length } :=
  match tokens with
  | .operator (.binary op) :: rest =>
    if op.rank ≤ rank then
      (climb? (op.rank - 1) rest).bind fun right =>
        (extend? rank (binary op left right.1.1) right.1.2).map fun extended =>
          ⟨extended.1,
            Nat.le_trans extended.2 (Nat.le_trans (Nat.le_of_lt right.2) (Nat.le_succ _))⟩
    else some ⟨(left, .operator (.binary op) :: rest), Nat.le_refl _⟩
  | rest => some ⟨(left, rest), Nat.le_refl _⟩
termination_by (tokens.length, 2)
decreasing_by
  all_goals simp_wf
  · omega
  · have := right.2
    omega

end

/-- The tree of a whole list of tokens. -/
def parse? (tokens : List Token) : Option Tree :=
  match climb? BinaryOperator.disjunction.rank tokens with
  | some ⟨(tree, []), _⟩ => some tree
  | _ => none

end Tree
end Expression
end OptionTree
