import OptionTree.Operator

/-!
# Tokens

An expression is a sequence of names, quoted texts, operators and parentheses.  What is no token
is reported as a fault together with the byte at which it starts.
-/

namespace OptionTree

/-- What keeps a piece of an expression from being a token. -/
inductive LexicalFault where
  /-- A character that starts no token. -/
  | unexpected (character : Char)
  /-- A quoted text whose closing quote is missing, as far as it was read. -/
  | unterminated (content : String)
  deriving DecidableEq, Repr

/-- A fault and the number of bytes in front of it. -/
structure LexicalError where
  /-- What is wrong. -/
  fault : LexicalFault
  /-- Bytes between the start of the expression and the fault. -/
  offset : Nat
  deriving DecidableEq, Repr

namespace LexicalError

/-- The text of a lexical error. -/
def message : LexicalError → String
  | ⟨.unexpected c, offset⟩ =>
    "unexpected character '" ++ String.singleton c ++ "' at offset " ++ toString offset
  | ⟨.unterminated _, offset⟩ => "unterminated quoted string at offset " ++ toString offset

end LexicalError

/-- A token of an expression. -/
inductive Token where
  /-- A name or a number: a run of ASCII letters, digits and underscores. -/
  | symbol (name : String)
  /-- A text in quotes, without the quotes and with its escapes as they were written. -/
  | quoted (content : String)
  /-- An operator. -/
  | operator (op : Operator)
  /-- An opening parenthesis. -/
  | opening
  /-- A closing parenthesis. -/
  | closing
  /-- A piece that is no token. -/
  | faulty (error : LexicalError)
  /-- The end of the expression. -/
  | endOfInput
  deriving DecidableEq, Repr

namespace Token

/-- The text of a token: without quotes, and of a faulty piece what was read of it. -/
def text : Token → String
  | symbol name => name
  | quoted content => content
  | operator op => op.text
  | opening => "("
  | closing => ")"
  | faulty ⟨.unexpected c, _⟩ => String.singleton c
  | faulty ⟨.unterminated content, _⟩ => content
  | endOfInput => ""

/-- The fault of a piece that is no token. -/
def error? : Token → Option LexicalError
  | faulty error => some error
  | _ => none

/-- The name in a symbol token. -/
def symbol? : Token → Option String
  | symbol name => some name
  | _ => none

@[simp]
theorem symbol?_eq_some_iff {token : Token} {name : String} :
    token.symbol? = some name ↔ token = .symbol name := by
  cases token <;> simp [symbol?]

end Token
end OptionTree
