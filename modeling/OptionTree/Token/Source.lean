import OptionTree.Token.Lexer

/-!
# How tokens are written

`Source` relates a token to the characters that write it, quotes included, and `Printed` relates a
list of tokens to the texts in which they stand one after another with optional spaces.  Only two
neighbours need a space between them: two names, and a negation before an equals sign.
-/

namespace OptionTree
namespace Token

/-- Whether a text can stand between two quotes: no quote is left unescaped in it, and it does not
end with a backslash that waits for its character. -/
def isSealed (quote : Char) : List Char → Bool
  | [] => true
  | ['\\'] => false
  | '\\' :: _ :: rest => isSealed quote rest
  | c :: rest => c != quote && isSealed quote rest

/-- Which characters write a token. -/
inductive Source : Token → List Char → Prop
  /-- A name is written by itself. -/
  | symbol {name : List Char} (nonempty : name ≠ [])
      (word : ∀ c ∈ name, isSymbolChar c = true) : Source (.symbol (String.ofList name)) name
  /-- A text is written between two equal quotes. -/
  | quoted {quote : Char} {content : List Char} (isMark : isQuote quote = true)
      (closed : isSealed quote content = true) :
      Source (.quoted (String.ofList content)) (quote :: (content ++ [quote]))
  /-- An operator is written by its sign. -/
  | operator (op : Operator) : Source (.operator op) op.text.toList
  /-- The opening parenthesis. -/
  | opening : Source .opening ['(']
  /-- The closing parenthesis. -/
  | closing : Source .closing [')']

/-- Whether two tokens cannot be written without a space between them. -/
def needsSpace : Token → Token → Bool
  | .symbol _, .symbol _ => true
  | .operator .negation, .operator (.binary .equal) => true
  | _, _ => false

/-- Which texts hold a list of tokens one after another. -/
inductive Printed : List Token → List Char → Prop
  /-- Spaces alone hold no token. -/
  | nil {gap : List Char} (spaces : ∀ c ∈ gap, isSpace c = true) : Printed [] gap
  /-- A token in front of others, which begin with a space if they must. -/
  | cons {gap source rest : List Char} {token : Token} {tokens : List Token}
      (spaces : ∀ c ∈ gap, isSpace c = true) (source_token : Source token source)
      (printed : Printed tokens rest)
      (apart : ∀ next ∈ tokens.head?, needsSpace token next = true →
        ∃ c ∈ rest.head?, isSpace c = true) :
      Printed (token :: tokens) (gap ++ source ++ rest)

end Token
end OptionTree
