/-!
# Quotes around a text

One layer of matching quotes is removed; a text without a matching pair stays as it is.
-/

namespace OptionTree
namespace Text

/-- What stands between two occurrences of a quote that enclose the text. -/
def between? (quote : Char) : List Char → Option (List Char)
  | [] => none
  | first :: rest =>
    if first = quote ∧ rest.getLast? = some quote then some rest.dropLast else none

/-- The text without one enclosing pair of double quotes, or else of single quotes. -/
def unquote (text : List Char) : List Char :=
  ((between? '"' text).or (between? '\'' text)).getD text

/-- A string without one enclosing pair of quotes. -/
def unquoted (text : String) : String := String.ofList (unquote text.toList)

@[simp]
theorem between?_enclosed (quote : Char) (text : List Char) :
    between? quote (quote :: (text ++ [quote])) = some text := by
  simp [between?]

@[simp]
theorem unquote_double (text : List Char) : unquote ('"' :: (text ++ ['"'])) = text := by
  simp [unquote]

end Text
end OptionTree
