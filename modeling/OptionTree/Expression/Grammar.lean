import OptionTree.Token

/-!
# The grammar of expressions

An expression is a name or a text, a negated expression, two expressions with an operator between
them, or an expression in parentheses.  The grammar says nothing about precedence.
-/

namespace OptionTree
namespace Expression

/-- The lists of tokens that are expressions. -/
inductive Derivable : List Token → Prop
  /-- A name is an expression. -/
  | symbol (name : String) : Derivable [.symbol name]
  /-- A quoted text is an expression. -/
  | quoted (content : String) : Derivable [.quoted content]
  /-- The negation of an expression is one. -/
  | negation {operand : List Token} :
      Derivable operand → Derivable (.operator .negation :: operand)
  /-- Two expressions with an operator between them are one. -/
  | binary {left right : List Token} (op : BinaryOperator) :
      Derivable left → Derivable right → Derivable (left ++ .operator (.binary op) :: right)
  /-- An expression in parentheses is one. -/
  | parentheses {inner : List Token} :
      Derivable inner → Derivable (.opening :: (inner ++ [.closing]))

namespace Derivable

theorem ne_nil {tokens : List Token} (derivable : Derivable tokens) : tokens ≠ [] := by
  cases derivable <;> simp

end Derivable

end Expression
end OptionTree
