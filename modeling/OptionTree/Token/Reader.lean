import OptionTree.Token.Lexer

/-!
# Lexing through a reader

The lexer of the program takes its characters from a reader, one after another, and looks one of
them ahead.  `Readers.Promises` says what the operations of a reader promise.  That positions count
the bytes of UTF-8 is one of these promises: it is an assumption about the reader, which `Cursor`
has built in.
-/

namespace OptionTree
namespace Token

/-- Operations on readers of characters. -/
structure Readers where
  /-- The readers. -/
  Reader : Type
  /-- The reader in front of a text. -/
  start : String → Reader
  /-- Takes the next character. -/
  eat : Reader → Option Char × Reader
  /-- Looks at the character behind those that were looked at. -/
  peek : Reader → Option Char × Reader
  /-- Goes on looking at the next character. -/
  resetPeek : Reader → Reader
  /-- Where the reader stands. -/
  position : Reader → Nat

namespace Readers

variable {readers : Readers}

/-- Looks at the next character, whatever was looked at before. -/
def peekChar (readers : Readers) (reader : readers.Reader) : Option Char × readers.Reader :=
  let looked := readers.peek (readers.resetPeek reader)
  (looked.1, readers.resetPeek looked.2)

/-- What lies ahead of readers, and what the operations promise about it. -/
structure Promises (readers : Readers) where
  /-- The characters ahead. -/
  ahead : readers.Reader → List Char
  /-- In front of a text all of it lies ahead. -/
  ahead_start : ∀ text, ahead (readers.start text) = text.toList
  /-- Positions are counted from the start. -/
  position_start : ∀ text, readers.position (readers.start text) = 0
  /-- What is taken is the first character ahead. -/
  eaten : ∀ reader, (readers.eat reader).1 = (ahead reader).head?
  /-- What is taken lies no longer ahead. -/
  ahead_eat : ∀ reader, ahead (readers.eat reader).2 = (ahead reader).tail
  /-- Positions count bytes. -/
  position_eat : ∀ reader, readers.position (readers.eat reader).2 =
    readers.position reader + byteLength (ahead reader).head?.toList
  /-- Looking starts with the first character ahead. -/
  peeked : ∀ reader, (readers.peek (readers.resetPeek reader)).1 = (ahead reader).head?
  /-- Looking takes nothing. -/
  ahead_peek : ∀ reader, ahead (readers.peek reader).2 = ahead reader
  /-- Looking does not move a reader. -/
  position_peek : ∀ reader, readers.position (readers.peek reader).2 = readers.position reader
  /-- Looking anew takes nothing. -/
  ahead_resetPeek : ∀ reader, ahead (readers.resetPeek reader) = ahead reader
  /-- Looking anew does not move a reader. -/
  position_resetPeek : ∀ reader, readers.position (readers.resetPeek reader) =
    readers.position reader

namespace Promises

/-- Whether a reader stands behind another one, with some characters between them. -/
structure Passes (promises : readers.Promises) (reader : readers.Reader) (taken : List Char)
    (later : readers.Reader) : Prop where
  /-- What was ahead was taken or is ahead. -/
  ahead : promises.ahead reader = taken ++ promises.ahead later
  /-- The bytes between them were counted. -/
  position : readers.position later = readers.position reader + byteLength taken

theorem Passes.trans {promises : readers.Promises} {first second third : readers.Reader}
    {taken more : List Char} (passes : promises.Passes first taken second)
    (goesOn : promises.Passes second more third) :
    promises.Passes first (taken ++ more) third where
  ahead := by rw [passes.ahead, goesOn.ahead, List.append_assoc]
  position := by rw [goesOn.position, passes.position, byteLength_append, Nat.add_assoc]

variable (promises : readers.Promises) {reader behind : readers.Reader} {found : Option Char}

theorem passes_of_peekChar (looked : readers.peekChar reader = (found, behind)) :
    found = (promises.ahead reader).head? ∧ promises.Passes reader [] behind := by
  obtain rfl : (readers.peekChar reader).1 = found := congrArg Prod.fst looked
  obtain rfl : (readers.peekChar reader).2 = behind := congrArg Prod.snd looked
  refine ⟨promises.peeked reader, ?_, ?_⟩
  · rw [peekChar, promises.ahead_resetPeek, promises.ahead_peek, promises.ahead_resetPeek,
      List.nil_append]
  · rw [peekChar, promises.position_resetPeek, promises.position_peek,
      promises.position_resetPeek, byteLength_nil, Nat.add_zero]

theorem passes_of_eat (eaten : readers.eat reader = (found, behind)) :
    found = (promises.ahead reader).head? ∧ promises.Passes reader found.toList behind := by
  have first := promises.eaten reader
  have others := promises.ahead_eat reader
  have bytes := promises.position_eat reader
  rw [eaten] at first others bytes
  subst first
  refine ⟨rfl, ?_, bytes⟩
  rw [others]
  cases promises.ahead reader <;> rfl

/-- What was looked at is taken next. -/
theorem passes_eat_of_peekChar {c : Char} (looked : readers.peekChar reader = (some c, behind)) :
    promises.Passes reader [c] (readers.eat behind).2 := by
  obtain ⟨first, still⟩ := promises.passes_of_peekChar looked
  obtain ⟨eaten, moved⟩ := promises.passes_of_eat (Prod.eta (readers.eat behind)).symm
  have same : (readers.eat behind).1 = some c := by
    rw [eaten, first, still.ahead, List.nil_append]
  rw [same] at moved
  exact still.trans moved

theorem length_eat_lt {c : Char} (eaten : readers.eat reader = (some c, behind)) :
    (promises.ahead behind).length < (promises.ahead reader).length := by
  rw [(promises.passes_of_eat eaten).2.ahead]
  exact Nat.lt_succ_self _

/-- Takes characters as long as they are wanted. -/
def eatWhile (promises : readers.Promises) (wanted : Char → Bool) (reader : readers.Reader) :
    List Char × readers.Reader :=
  match _ : readers.peekChar reader with
  | (none, behind) => ([], behind)
  | (some c, behind) =>
    if wanted c then
      let later := promises.eatWhile wanted (readers.eat behind).2
      (c :: later.1, later.2)
    else ([], behind)
termination_by (promises.ahead reader).length
decreasing_by
  rw [(promises.passes_eat_of_peekChar ‹readers.peekChar reader = _›).ahead]
  exact Nat.lt_succ_self _

/-- Takes characters up to a quote and that quote, and tells whether there was one. -/
def eatQuoted (promises : readers.Promises) (quote : Char) (reader : readers.Reader) :
    List Char × Bool × readers.Reader :=
  match _ : readers.eat reader with
  | (none, behind) => ([], false, behind)
  | (some c, behind) =>
    if c = quote then ([], true, behind)
    else if c = '\\' then
      match _ : readers.eat behind with
      | (none, behind) => ([c], false, behind)
      | (some escaped, behind) =>
        let later := promises.eatQuoted quote behind
        (c :: escaped :: later.1, later.2)
    else
      let later := promises.eatQuoted quote behind
      (c :: later.1, later.2)
termination_by (promises.ahead reader).length
decreasing_by
  · exact Nat.lt_trans (promises.length_eat_lt ‹readers.eat _ = (some escaped, _)›)
      (promises.length_eat_lt ‹readers.eat reader = _›)
  · exact promises.length_eat_lt ‹_›

end Promises

/-- The operator or parenthesis that some characters write. -/
def mark? : List Char → Option Token
  | ['='] => some (.operator (.binary .equal))
  | ['!', '='] => some (.operator (.binary .unequal))
  | ['!'] => some (.operator .negation)
  | ['&', '&'] => some (.operator (.binary .conjunction))
  | ['|', '|'] => some (.operator (.binary .disjunction))
  | ['('] => some .opening
  | [')'] => some .closing
  | _ => none

/-- Reads an operator or a parenthesis whose first character, from the given byte, was taken. -/
def mark (readers : Readers) (offset : Nat) (c : Char) (reader : readers.Reader) :
    Token × readers.Reader :=
  let looked := readers.peekChar reader
  match looked.1.bind fun second => mark? [c, second] with
  | some token => (token, (readers.eat looked.2).2)
  | none => ((mark? [c]).getD (.faulty ⟨.unexpected c, offset⟩), looked.2)

namespace Promises

variable (promises : readers.Promises)

/-- Reads a token whose first character, from the given byte, was taken. -/
def lex (offset : Nat) (c : Char) (reader : readers.Reader) : Token × readers.Reader :=
  if isSymbolChar c then
    let name := promises.eatWhile isSymbolChar reader
    (.symbol (String.ofList (c :: name.1)), name.2)
  else if isQuote c then
    match promises.eatQuoted c reader with
    | (content, true, behind) => (.quoted (String.ofList content), behind)
    | (content, false, behind) =>
      (.faulty ⟨.unterminated (String.ofList content), offset⟩, behind)
  else readers.mark offset c reader

/-- Reads the next token. -/
def next (reader : readers.Reader) : Token × readers.Reader :=
  let here := (promises.eatWhile isSpace reader).2
  match readers.eat here with
  | (none, behind) => (.endOfInput, behind)
  | (some c, behind) => promises.lex (readers.position here) c behind

/-- The tokens that `count` readings give, past faults and past the end. -/
def steps (promises : readers.Promises) : Nat → readers.Reader → List Token
  | 0, _ => []
  | count + 1, reader => (promises.next reader).1 :: promises.steps count (promises.next reader).2

end Promises

/-- Readers that are cursors, each with the number of characters that were looked at. -/
def cursors : Readers where
  Reader := Cursor × Nat
  start text := (Cursor.start text, 0)
  eat reader := (reader.1.rest.head?, reader.1.skip 1, 0)
  peek reader := (reader.1.rest[reader.2]?, reader.1, reader.2 + 1)
  resetPeek reader := (reader.1, 0)
  position reader := reader.1.offset

/-- Cursors keep what readers promise. -/
def cursorPromises : cursors.Promises where
  ahead reader := reader.1.rest
  ahead_start _ := rfl
  position_start _ := rfl
  eaten _ := rfl
  ahead_eat _ := List.drop_one
  position_eat reader := by
    show _ + byteLength (reader.1.rest.take 1) = _
    rw [List.take_one]
    rfl
  peeked _ := List.head?_eq_getElem?.symm
  ahead_peek _ := rfl
  position_peek _ := rfl
  ahead_resetPeek _ := rfl
  position_resetPeek _ := rfl

end Readers
end Token
end OptionTree
