import OptionTree.Token

/-!
# Reading tokens

A cursor moves over the characters of an expression.  `Cursor.next` skips blanks, reads one
lexeme and moves behind it; at the end it stays where it is.  `tokenize` collects the tokens up to
the end or to the first fault, which is the last one then.  Positions count bytes of UTF-8, as the
readers of characters are assumed to do for which cursors stand.
-/

namespace OptionTree
namespace Token

/-- Whether a character belongs into names: ASCII letters, digits and the underscore. -/
def isSymbolChar (c : Char) : Bool := c.isAlphanum || c == '_'

/-- Whether a character separates tokens without being part of one. -/
def isSpace (c : Char) : Bool := c == ' ' || c == '\t' || c == '\n' || c == '\r'

/-- Whether a character encloses texts. -/
def isQuote (c : Char) : Bool := c == '"' || c == '\''

/-- The number of bytes of a text in UTF-8. -/
def byteLength (text : List Char) : Nat := text.foldr (fun c total => c.utf8Size + total) 0

@[simp]
theorem byteLength_nil : byteLength [] = 0 := rfl

@[simp]
theorem byteLength_cons (c : Char) (text : List Char) :
    byteLength (c :: text) = c.utf8Size + byteLength text := rfl

@[simp]
theorem byteLength_append (first second : List Char) :
    byteLength (first ++ second) = byteLength first + byteLength second := by
  induction first with
  | nil => simp
  | cons c first ih => simp [ih, Nat.add_assoc]

/-- The content in front of the closing quote, and the text behind that quote if there is one.
A backslash and the character after it belong to the content, whatever that character is. -/
def scanQuoted (quote : Char) : List Char → List Char × Option (List Char)
  | [] => ([], none)
  | '\\' :: escaped :: rest =>
    let scanned := scanQuoted quote rest
    ('\\' :: escaped :: scanned.1, scanned.2)
  | c :: rest =>
    if c = quote then ([], some rest)
    else
      let scanned := scanQuoted quote rest
      (c :: scanned.1, scanned.2)

/-- The operator or parenthesis at the start of a text, with the characters that write it; the
longer of two possible ones wins. -/
def scanMark : List Char → Option (Token × List Char)
  | '!' :: '=' :: _ => some (.operator (.binary .unequal), ['!', '='])
  | '&' :: '&' :: _ => some (.operator (.binary .conjunction), ['&', '&'])
  | '|' :: '|' :: _ => some (.operator (.binary .disjunction), ['|', '|'])
  | '=' :: _ => some (.operator (.binary .equal), ['='])
  | '!' :: _ => some (.operator .negation, ['!'])
  | '(' :: _ => some (.opening, ['('])
  | ')' :: _ => some (.closing, [')'])
  | _ => none

/-- A token together with the characters it was read from. -/
structure Lexeme where
  /-- The token. -/
  token : Token
  /-- The characters, quotes included. -/
  source : List Char
  deriving DecidableEq, Repr

/-- The lexeme that starts with the character `c` at the given byte. -/
def Lexeme.read (offset : Nat) (c : Char) (rest : List Char) : Lexeme :=
  if isSymbolChar c then
    let name := c :: rest.takeWhile isSymbolChar
    ⟨.symbol (String.ofList name), name⟩
  else if isQuote c then
    match scanQuoted c rest with
    | (content, some _) => ⟨.quoted (String.ofList content), c :: (content ++ [c])⟩
    | (content, none) =>
      ⟨.faulty ⟨.unterminated (String.ofList content), offset⟩, c :: content⟩
  else
    match scanMark (c :: rest) with
    | some (token, source) => ⟨token, source⟩
    | none => ⟨.faulty ⟨.unexpected c, offset⟩, [c]⟩

/-- A position in an expression, counted in bytes. -/
structure Cursor where
  /-- Bytes that lie behind the cursor. -/
  offset : Nat
  /-- Characters that lie ahead. -/
  rest : List Char
  deriving DecidableEq, Repr

namespace Cursor

/-- The position before the first character of a text. -/
def start (text : String) : Cursor := ⟨0, text.toList⟩

/-- The position behind the given number of characters. -/
def skip (cursor : Cursor) (count : Nat) : Cursor :=
  ⟨cursor.offset + byteLength (cursor.rest.take count), cursor.rest.drop count⟩

/-- The position of the next character that is no space. -/
def skipSpace (cursor : Cursor) : Cursor :=
  cursor.skip (cursor.rest.takeWhile isSpace).length

/-- The next lexeme and the position behind it. -/
def lexeme (cursor : Cursor) : Lexeme × Cursor :=
  let here := cursor.skipSpace
  match here.rest with
  | [] => (⟨.endOfInput, []⟩, here)
  | c :: rest =>
    let found := Lexeme.read here.offset c rest
    (found, here.skip found.source.length)

/-- The next token and the position behind it. -/
def next (cursor : Cursor) : Token × Cursor :=
  (cursor.lexeme.1.token, cursor.lexeme.2)

end Cursor

theorem scanMark_ne_endOfInput {text source : List Char} {token : Token}
    (scanned : scanMark text = some (token, source)) :
    token ≠ .endOfInput ∧ source ≠ [] := by
  unfold scanMark at scanned
  split at scanned <;> simp_all <;> obtain ⟨rfl, rfl⟩ := scanned <;> simp

theorem Lexeme.read_ne_endOfInput (offset : Nat) (c : Char) (rest : List Char) :
    (Lexeme.read offset c rest).token ≠ .endOfInput ∧
      (Lexeme.read offset c rest).source ≠ [] := by
  unfold Lexeme.read
  split
  · simp
  · split
    · split <;> simp
    · split
      · rename_i scanned
        exact scanMark_ne_endOfInput scanned
      · simp

namespace Cursor

@[simp]
theorem skip_rest (cursor : Cursor) (count : Nat) :
    (cursor.skip count).rest = cursor.rest.drop count := rfl

theorem skip_of_rest {cursor : Cursor} {taken after : List Char}
    (split : cursor.rest = taken ++ after) :
    cursor.skip taken.length = ⟨cursor.offset + byteLength taken, after⟩ := by
  rw [skip, split, List.take_left, List.drop_left]

theorem skipSpace_eq (cursor : Cursor) :
    cursor.skipSpace = ⟨cursor.offset + byteLength (cursor.rest.takeWhile isSpace),
      cursor.rest.dropWhile isSpace⟩ :=
  skip_of_rest List.takeWhile_append_dropWhile.symm

@[simp]
theorem skipSpace_rest (cursor : Cursor) :
    cursor.skipSpace.rest = cursor.rest.dropWhile isSpace := by
  rw [skipSpace_eq]

theorem next_length_lt {cursor : Cursor} (more : cursor.next.1 ≠ .endOfInput) :
    cursor.next.2.rest.length < cursor.rest.length := by
  have skipped : cursor.skipSpace.rest.length ≤ cursor.rest.length := by
    rw [skipSpace_rest]
    exact (List.dropWhile_sublist isSpace).length_le
  unfold next lexeme at more ⊢
  dsimp only at more ⊢
  split at more
  · exact absurd rfl more
  · rename_i c rest ahead
    have taken := List.length_pos_iff.mpr
      (Lexeme.read_ne_endOfInput cursor.skipSpace.offset c rest).2
    rw [ahead] at skipped
    simp only [skip_rest, ahead, List.length_drop, List.length_cons] at skipped ⊢
    omega

/-- The tokens ahead, up to the end or to the first fault. -/
def tokens (cursor : Cursor) : List Token :=
  if _ : cursor.next.1 = .endOfInput then []
  else if cursor.next.1.error?.isSome then [cursor.next.1]
  else cursor.next.1 :: cursor.next.2.tokens
termination_by cursor.rest.length
decreasing_by exact next_length_lt ‹_›

theorem endOfInput_not_mem_tokens (cursor : Cursor) : .endOfInput ∉ cursor.tokens := by
  fun_induction tokens cursor with
  | case1 => exact List.not_mem_nil
  | case2 cursor more => simpa using Ne.symm more
  | case3 cursor more _ ih => simpa using ⟨Ne.symm more, ih⟩

end Cursor

/-- The tokens of an expression, up to its end or to its first fault. -/
def tokenize (text : String) : List Token := (Cursor.start text).tokens

/-- The names in an expression, in order and with repetitions. -/
def symbols (text : String) : List String := (tokenize text).filterMap symbol?

/-- The tokens that `count` readings from a position give, past faults and past the end. -/
def steps : Nat → Cursor → List Token
  | 0, _ => []
  | count + 1, cursor => cursor.next.1 :: steps count cursor.next.2

theorem mem_symbols {text name : String} : name ∈ symbols text ↔ .symbol name ∈ tokenize text := by
  simp [symbols]

end Token
end OptionTree
