import OptionTree.Proofs.Printing

/-!
# Lexemes tile their text

Reading goes on past faults, so spaces and lexemes make up all of a text, one after another.  A
lexeme is a fault exactly if no token starts where it does, and the position that it reports is the
one at which it starts.  The text in front of the first fault holds the tokens before it.
-/

namespace OptionTree
namespace Token

/-- Which characters a token takes up: its text, with a quote on both sides of a quoted text and one
in front of a text whose closing quote is missing. -/
def Covers : Token → List Char → Prop
  | .quoted content, source =>
    ∃ quote, isQuote quote = true ∧ source = quote :: (content.toList ++ [quote])
  | .faulty ⟨.unterminated content, _⟩, source =>
    ∃ quote, isQuote quote = true ∧ source = quote :: content.toList
  | token, source => source = token.text.toList

/-- Whether a text starts with a character that is no space and starts no token. -/
def Foreign (c : Char) (ahead : List Char) : Prop :=
  ahead.head? = some c ∧ isSpace c = false ∧ isSymbolChar c = false ∧ isQuote c = false ∧
    c ∉ ['=', '!', '(', ')'] ∧ ¬['&', '&'] <+: ahead ∧ ¬['|', '|'] <+: ahead

/-- Whether a text starts with a quote that does not occur again without an escape, in front of the
given content. -/
def Unclosed (content ahead : List Char) : Prop :=
  ∃ quote, isQuote quote = true ∧ ahead = quote :: content ∧
    ∀ inner after, content = inner ++ quote :: after → isSealed quote inner = false

/-- What a token says about the text that starts with it, at the given byte. -/
structure Judges (token : Token) (offset : Nat) (ahead : List Char) : Prop where
  /-- A fault is reported where it starts. -/
  position : ∀ error, token = .faulty error → error.offset = offset
  /-- A character is unexpected exactly if it starts no token. -/
  unexpected : ∀ c, token = .faulty ⟨.unexpected c, offset⟩ ↔ Foreign c ahead
  /-- A quoted text is unterminated exactly if its quote does not occur again. -/
  unterminated : ∀ content,
    token = .faulty ⟨.unterminated content, offset⟩ ↔ Unclosed content.toList ahead

/-- A lexeme with the spaces in front of it. -/
structure Piece where
  /-- The spaces. -/
  gap : List Char
  /-- The lexeme behind them. -/
  lexeme : Lexeme
  deriving DecidableEq, Repr

namespace Piece

/-- The token of a piece. -/
def token (piece : Piece) : Token := piece.lexeme.token

/-- All characters of a piece. -/
def chars (piece : Piece) : List Char := piece.gap ++ piece.lexeme.source

/-- Whether a piece may stand in front of a text, at the given byte. -/
structure Stands (piece : Piece) (offset : Nat) (after : List Char) : Prop where
  /-- Spaces come first. -/
  spaces : ∀ c ∈ piece.gap, isSpace c = true
  /-- A token follows. -/
  more : piece.token ≠ .endOfInput
  /-- It takes up the characters that it stands for. -/
  covers : Covers piece.token piece.lexeme.source
  /-- It is a fault exactly if no token starts there. -/
  judges : Judges piece.token (offset + byteLength piece.gap) (piece.lexeme.source ++ after)

end Piece

/-- Whether pieces, followed by spaces, make up a text that starts at the given byte. -/
structure Tiles (pieces : List Piece) (last : List Char) (offset : Nat) (text : List Char) :
    Prop where
  /-- Nothing is left out. -/
  whole : text = pieces.flatMap Piece.chars ++ last
  /-- Only spaces follow the last lexeme. -/
  spaces : ∀ c ∈ last, isSpace c = true
  /-- Each piece stands where those before it end. -/
  stands : ∀ before piece after, pieces = before ++ piece :: after →
    piece.Stands (offset + byteLength (before.flatMap Piece.chars))
      (after.flatMap Piece.chars ++ last)

@[simp]
theorem utf8ByteSize_ofList (text : List Char) :
    (String.ofList text).utf8ByteSize = byteLength text := by
  induction text with
  | nil => rfl
  | cons c text ih =>
      have split : String.ofList (c :: text) = String.singleton c ++ String.ofList text := by
        rw [← String.toList_inj]
        simp
      rw [split, String.utf8ByteSize_append, ih]
      simp

theorem eq_of_scanQuoted {quote : Char} {text content : List Char}
    (scanned : scanQuoted quote text = (content, none)) : content = text := by
  induction text using scanQuoted.induct quote generalizing content with
  | case1 => simpa [scanQuoted] using scanned.symm
  | case2 escaped rest ih =>
      rw [scanQuoted] at scanned
      obtain ⟨rfl, missing⟩ := Prod.mk.inj scanned
      simp [ih (Prod.ext rfl missing)]
  | case3 rest notEscape =>
      rw [scanQuoted.eq_3 _ _ _ notEscape, if_pos rfl] at scanned
      cases (Prod.mk.inj scanned).2
  | case4 c rest notEscape different ih =>
      rw [scanQuoted.eq_3 _ _ _ notEscape, if_neg different] at scanned
      obtain ⟨rfl, missing⟩ := Prod.mk.inj scanned
      simp [ih (Prod.ext rfl missing)]

/-- The closing quote is missing exactly if the quote does not occur again without an escape. -/
theorem scanQuoted_eq_none_iff {quote : Char} (isMark : isQuote quote = true)
    {text content : List Char} :
    scanQuoted quote text = (content, none) ↔
      content = text ∧
        ∀ inner after, text = inner ++ quote :: after → isSealed quote inner = false := by
  constructor
  · intro scanned
    refine ⟨eq_of_scanQuoted scanned, fun inner after split => ?_⟩
    cases closed : isSealed quote inner with
    | false => rfl
    | true =>
        rw [split, scanQuoted_of_sealed isMark closed] at scanned
        cases (Prod.mk.inj scanned).2
  · rintro ⟨rfl, missing⟩
    cases scanned : scanQuoted quote content with
    | mk inner found =>
        cases found with
        | none => rw [eq_of_scanQuoted scanned]
        | some after =>
            obtain ⟨closed, split⟩ := sealed_of_scanQuoted scanned
            cases closed.symm.trans (missing inner after split)

theorem scanMark_eq_none_iff {c : Char} {rest : List Char} :
    scanMark (c :: rest) = none ↔
      c ∉ ['=', '!', '(', ')'] ∧ ¬['&', '&'] <+: c :: rest ∧ ¬['|', '|'] <+: c :: rest := by
  unfold scanMark
  split <;> simp_all [List.cons_prefix_cons]
  · rename_i noConjunction noDisjunction _ _ _ _
    constructor
    · rintro rfl ⟨tail, rfl⟩
      exact noConjunction tail rfl rfl
    · rintro rfl ⟨tail, rfl⟩
      exact noDisjunction tail rfl rfl

namespace Lexeme

/-- A lexeme is written as a token is, or else it is a fault. -/
theorem read_cases (offset : Nat) {c : Char} (solid : isSpace c = false) (rest : List Char) :
    (Source (read offset c rest).token (read offset c rest).source ∧
        ∃ after, c :: rest = (read offset c rest).source ++ after ∧
          Ends (read offset c rest).token after) ∨
      (Unclosed rest (c :: rest) ∧ read offset c rest =
        ⟨.faulty ⟨.unterminated (String.ofList rest), offset⟩, c :: rest⟩) ∨
      (Foreign c (c :: rest) ∧ read offset c rest = ⟨.faulty ⟨.unexpected c, offset⟩, [c]⟩) := by
  cases sound : (read offset c rest).token.error? with
  | none => exact .inl (source_of_read sound)
  | some error =>
      right
      rw [read] at sound ⊢
      split
      · rename_i symbolic
        simp [symbolic, error?] at sound
      · rename_i plain
        rw [if_neg plain] at sound
        split
        · rename_i isMark
          rw [if_pos isMark] at sound
          cases scanned : scanQuoted c rest with
          | mk content found =>
              cases found with
              | some after => simp [scanned, error?] at sound
              | none =>
                  obtain ⟨rfl, missing⟩ := (scanQuoted_eq_none_iff isMark).mp scanned
                  exact .inl ⟨⟨c, isMark, rfl, missing⟩, rfl⟩
        · rename_i notMark
          rw [if_neg notMark] at sound
          cases scanned : scanMark (c :: rest) with
          | some found =>
              obtain ⟨token, source⟩ := found
              have known := (scanMark_eq_some scanned).1.sound.1
              simp [scanned, known] at sound
          | none =>
              refine .inr ⟨⟨rfl, solid, ?_, ?_, scanMark_eq_none_iff.mp scanned⟩, rfl⟩
              · simpa using plain
              · simpa using notMark

end Lexeme

theorem Source.covers {token : Token} {source : List Char} (written : Source token source) :
    Covers token source := by
  cases written with
  | symbol nonempty word => exact String.toList_ofList.symm
  | @quoted quote content isMark closed =>
      exact ⟨quote, isMark, by rw [String.toList_ofList]⟩
  | operator op => rfl
  | opening => rfl
  | closing => rfl

theorem Source.not_foreign {token : Token} {source : List Char} (written : Source token source)
    (c : Char) (after : List Char) : ¬Foreign c (source ++ after) := by
  rintro ⟨first, -, plain, notMark, noSign, noConjunction, noDisjunction⟩
  cases written with
  | @symbol name nonempty word =>
      obtain ⟨d, name, rfl⟩ := List.exists_cons_of_ne_nil nonempty
      obtain rfl : d = c := by simpa using first
      simp [word d (by simp)] at plain
  | @quoted quote content isMark closed =>
      obtain rfl : quote = c := by simpa using first
      cases isMark.symm.trans notMark
  | operator op =>
      rcases op with _ | (_ | _ | _ | _)
      case binary.conjunction => exact noConjunction ⟨after, rfl⟩
      case binary.disjunction => exact noDisjunction ⟨after, rfl⟩
      all_goals
        cases first
        exact noSign (by decide)
  | opening =>
      cases first
      exact noSign (by decide)
  | closing =>
      cases first
      exact noSign (by decide)

theorem Source.not_unclosed {token : Token} {source : List Char} (written : Source token source)
    (content after : List Char) : ¬Unclosed content (source ++ after) := by
  rintro ⟨quote, isMark, split, missing⟩
  have first : quote ∈ source.head? := by
    obtain ⟨d, source, rfl⟩ := List.exists_cons_of_ne_nil written.ne_nil
    simpa using congrArg List.head? split
  cases written with
  | @symbol name nonempty word =>
      have symbolic := word quote (List.mem_of_mem_head? first)
      cases symbolic.symm.trans (isSymbolChar_of_isQuote isMark)
  | @quoted mark inner _ closed =>
      obtain rfl : mark = quote := by simpa using first
      have whole : content = inner ++ mark :: after := by simpa using split.symm
      cases closed.symm.trans (missing inner after whole)
  | operator op =>
      rcases op with _ | (_ | _ | _ | _) <;>
        · simp only [Operator.text, BinaryOperator.text] at first
          cases first
          cases isMark
  | opening =>
      cases first
      cases isMark
  | closing =>
      cases first
      cases isMark

namespace Lexeme

theorem covers_read (offset : Nat) {c : Char} (solid : isSpace c = false) (rest : List Char) :
    Covers (read offset c rest).token (read offset c rest).source ∧
      ∃ after, c :: rest = (read offset c rest).source ++ after := by
  rcases read_cases offset solid rest with
    ⟨written, after, split, -⟩ | ⟨⟨quote, isMark, split, -⟩, found⟩ | ⟨-, found⟩
  · exact ⟨written.covers, after, split⟩
  · rw [found]
    exact ⟨⟨quote, isMark, by simpa using split⟩, [], by simp⟩
  · rw [found]
    exact ⟨by simp [Covers, text], rest, rfl⟩

/-- A lexeme is a fault exactly if no token starts where it does. -/
theorem judges_read (offset : Nat) {c : Char} (solid : isSpace c = false) (rest : List Char) :
    Judges (read offset c rest).token offset (c :: rest) := by
  rcases read_cases offset solid rest with
    ⟨written, after, split, -⟩ | ⟨unclosed, found⟩ | ⟨foreign, found⟩
  · have sound : ∀ error, (read offset c rest).token ≠ .faulty error := by
      intro error same
      have noFault := written.sound.1
      rw [same] at noFault
      cases noFault
    rw [split]
    exact ⟨fun error same => absurd same (sound error),
      fun d => iff_of_false (sound _) (written.not_foreign d after),
      fun content => iff_of_false (sound _) (written.not_unclosed content.toList after)⟩
  · rw [found]
    obtain ⟨quote, isMark, split, missing⟩ := unclosed
    obtain ⟨rfl, -⟩ := List.cons.inj split
    refine ⟨by rintro _ ⟨⟩; rfl, fun d => iff_of_false nofun ?_, fun content => ?_⟩
    · rintro ⟨first, -, -, notMark, -⟩
      obtain rfl : c = d := by simpa using first
      cases isMark.symm.trans notMark
    · constructor
      · rintro ⟨⟩
        rw [String.toList_ofList]
        exact ⟨c, isMark, rfl, missing⟩
      · rintro ⟨_, -, same, -⟩
        obtain ⟨-, rfl⟩ := List.cons.inj same
        rw [String.ofList_toList]
  · rw [found]
    refine ⟨by rintro _ ⟨⟩; rfl, fun d => ?_, fun content => iff_of_false nofun ?_⟩
    · constructor
      · rintro ⟨⟩
        exact foreign
      · rintro ⟨first, -⟩
        obtain rfl : c = d := by simpa using first
        rfl
    · rintro ⟨quote, isMark, split, -⟩
      obtain ⟨rfl, -⟩ := List.cons.inj split
      cases isMark.symm.trans foreign.2.2.2.1

end Lexeme

namespace Cursor

/-- The piece that is read next. -/
def piece (cursor : Cursor) : Piece := ⟨cursor.rest.takeWhile isSpace, cursor.lexeme.1⟩

/-- All pieces ahead, past faults. -/
def pieces (cursor : Cursor) : List Piece :=
  if _ : cursor.next.1 = .endOfInput then [] else cursor.piece :: cursor.next.2.pieces
termination_by cursor.rest.length
decreasing_by exact next_length_lt ‹_›

theorem pieces_of_end {cursor : Cursor} (done : cursor.next.1 = .endOfInput) :
    cursor.pieces = [] := by
  rw [pieces, dif_pos done]

theorem pieces_of_more {cursor : Cursor} (more : cursor.next.1 ≠ .endOfInput) :
    cursor.pieces = cursor.piece :: cursor.next.2.pieces := by
  rw [pieces, dif_neg more]

theorem eq_of_pieces_eq_cons {cursor : Cursor} {first : Piece} {later : List Piece}
    (split : cursor.pieces = first :: later) :
    cursor.next.1 ≠ .endOfInput ∧ first = cursor.piece ∧ cursor.next.2.pieces = later := by
  by_cases done : cursor.next.1 = .endOfInput
  · cases (pieces_of_end done).symm.trans split
  · obtain ⟨rfl, rfl⟩ := List.cons.inj ((pieces_of_more done).symm.trans split)
    exact ⟨done, rfl, rfl⟩

section More

variable {cursor : Cursor} (more : cursor.next.1 ≠ .endOfInput)
include more

/-- Reading skips spaces, takes a lexeme and stops right behind it. -/
theorem exists_read :
    ∃ c rest, isSpace c = false ∧ cursor.rest = cursor.piece.gap ++ c :: rest ∧
      cursor.piece.lexeme =
        Lexeme.read (cursor.offset + byteLength cursor.piece.gap) c rest ∧
      c :: rest = cursor.piece.lexeme.source ++ cursor.next.2.rest ∧
      cursor.next.2.offset = cursor.offset + byteLength cursor.piece.chars := by
  cases ahead : cursor.skipSpace.rest with
  | nil =>
      refine absurd (next_of_spaces ?_) more
      rwa [skipSpace_rest, List.dropWhile_eq_nil_iff] at ahead
  | cons c rest =>
      have offset : cursor.skipSpace.offset = cursor.offset + byteLength cursor.piece.gap := by
        rw [skipSpace_eq, piece]
      have whole := ahead
      rw [skipSpace_rest] at whole
      have solid : isSpace c = false := by
        have := List.head?_dropWhile_not isSpace cursor.rest
        rw [whole] at this
        simpa using this
      have read := lexeme_of_ahead ahead
      rw [offset] at read
      have taken : cursor.piece.lexeme =
          Lexeme.read (cursor.offset + byteLength cursor.piece.gap) c rest :=
        congrArg Prod.fst read
      obtain ⟨-, after, split⟩ := Lexeme.covers_read
        (cursor.offset + byteLength cursor.piece.gap) solid rest
      rw [← taken] at split
      have behind : cursor.next.2 = ⟨cursor.skipSpace.offset +
          byteLength cursor.piece.lexeme.source, after⟩ := by
        rw [← skip_of_rest (ahead.trans split), taken]
        exact congrArg Prod.snd read
      refine ⟨c, rest, solid, ?_, taken, ?_, ?_⟩
      · rw [← whole]
        exact List.takeWhile_append_dropWhile.symm
      · rw [behind, split]
      · rw [behind, offset, Piece.chars, byteLength_append, Nat.add_assoc]

theorem rest_eq : cursor.rest = cursor.piece.chars ++ cursor.next.2.rest := by
  obtain ⟨c, rest, -, whole, -, split, -⟩ := exists_read more
  rw [whole, split, Piece.chars, List.append_assoc]

theorem stands_piece : cursor.piece.Stands cursor.offset cursor.next.2.rest := by
  obtain ⟨c, rest, solid, -, taken, split, -⟩ := exists_read more
  refine ⟨fun d member => List.mem_takeWhile_imp member, more, ?_, ?_⟩
  · rw [Piece.token, taken]
    exact (Lexeme.covers_read _ solid rest).1
  · rw [← split, Piece.token, taken]
    exact Lexeme.judges_read _ solid rest

theorem source_piece (sound : cursor.piece.token.error? = none) :
    Source cursor.piece.token cursor.piece.lexeme.source ∧
      Ends cursor.piece.token cursor.next.2.rest := by
  obtain ⟨c, rest, solid, -, taken, split, -⟩ := exists_read more
  rw [Piece.token] at sound ⊢
  rw [taken] at sound
  obtain ⟨written, after, whole, ends⟩ := Lexeme.source_of_read sound
  rw [← taken] at written whole ends
  obtain rfl : cursor.next.2.rest = after := List.append_cancel_left (split.symm.trans whole)
  exact ⟨written, ends⟩

end More

/-- The pieces ahead make up the rest of the text. -/
theorem exists_tiles (cursor : Cursor) :
    ∃ last, Tiles cursor.pieces last cursor.offset cursor.rest := by
  induction cursor using pieces.induct with
  | case1 cursor done =>
      rw [pieces_of_end done]
      exact ⟨cursor.rest, rfl, spaces_of_end done, by simp⟩
  | case2 cursor more ih =>
      obtain ⟨last, tiles⟩ := ih
      rw [pieces_of_more more]
      refine ⟨last, ?_, tiles.spaces, fun before piece after split => ?_⟩
      · rw [rest_eq more, List.flatMap_cons, List.append_assoc, ← tiles.whole]
      · cases before with
        | nil =>
            obtain ⟨rfl, rfl⟩ := List.cons.inj split
            rw [← tiles.whole]
            exact stands_piece more
        | cons first before =>
            obtain ⟨rfl, later⟩ := List.cons.inj split
            have stands := tiles.stands before piece after later
            obtain ⟨_, _, -, -, -, -, offset⟩ := exists_read more
            rw [offset, Nat.add_assoc, ← byteLength_append] at stands
            exact stands

theorem rest_of_spaces {cursor : Cursor} (spaces : ∀ c ∈ cursor.rest, isSpace c = true) :
    cursor.next.2.rest = [] := by
  obtain ⟨found, nothing⟩ := lexeme_of_spaces spaces
  rw [next, found, nothing]

theorem steps_of_spaces {cursor : Cursor} (spaces : ∀ c ∈ cursor.rest, isSpace c = true)
    (count : Nat) : steps count cursor = List.replicate count .endOfInput := by
  induction count generalizing cursor with
  | zero => rfl
  | succ count ih =>
      have behind := @ih cursor.next.2 (by simp [rest_of_spaces spaces])
      rw [steps, next_of_spaces spaces, behind, List.replicate_succ]

/-- Readings give the tokens of the pieces, and then the end again and again. -/
theorem steps_eq (cursor : Cursor) (extra : Nat) :
    steps (cursor.pieces.length + extra) cursor =
      cursor.pieces.map Piece.token ++ List.replicate extra .endOfInput := by
  induction cursor using pieces.induct with
  | case1 cursor done =>
      rw [pieces_of_end done, List.length_nil, Nat.zero_add]
      exact steps_of_spaces (spaces_of_end done) extra
  | case2 cursor more ih =>
      rw [pieces_of_more more, List.length_cons, Nat.add_right_comm, steps, ih]
      rfl

theorem tokens_of_no_fault {cursor : Cursor}
    (sound : ∀ piece ∈ cursor.pieces, piece.token.error? = none) :
    cursor.tokens = cursor.pieces.map Piece.token := by
  induction cursor using pieces.induct with
  | case1 cursor done => rw [tokens_of_end done, pieces_of_end done, List.map_nil]
  | case2 cursor more ih =>
      rw [pieces_of_more more, List.forall_mem_cons] at sound
      rw [tokens_of_sound more sound.1, pieces_of_more more, ih sound.2]
      rfl

section FirstFault

variable {cursor : Cursor} {before after : List Piece} {piece : Piece}
  (split : cursor.pieces = before ++ piece :: after)
  (sound : ∀ earlier ∈ before, earlier.token.error? = none)
include split sound

/-- Tokens are collected up to the first fault. -/
theorem tokens_of_fault {error : LexicalError} (fault : piece.token = .faulty error) :
    cursor.tokens = before.map Piece.token ++ [piece.token] := by
  induction before generalizing cursor with
  | nil =>
      obtain ⟨more, rfl, -⟩ := eq_of_pieces_eq_cons split
      have found : cursor.next.1 = .faulty error := fault
      rw [tokens, dif_neg more, if_pos (by simp [found, error?])]
      rfl
  | cons first before ih =>
      rw [List.cons_append] at split
      obtain ⟨more, rfl, later⟩ := eq_of_pieces_eq_cons split
      rw [List.forall_mem_cons] at sound
      rw [tokens_of_sound more sound.1, ih later sound.2]
      rfl

/-- The characters in front of a lexeme write the tokens before it. -/
theorem printed_before :
    Printed (before.map Piece.token) (before.flatMap Piece.chars ++ piece.gap) := by
  induction before generalizing cursor with
  | nil =>
      obtain ⟨more, rfl, -⟩ := eq_of_pieces_eq_cons split
      exact .nil (stands_piece more).spaces
  | cons first before ih =>
      rw [List.cons_append] at split
      obtain ⟨more, rfl, later⟩ := eq_of_pieces_eq_cons split
      rw [List.forall_mem_cons] at sound
      have printed := ih later sound.2
      obtain ⟨written, ends⟩ := source_piece more sound.1
      -- What follows the token is cut off in front of the fault, but it starts as before.
      obtain ⟨last, tiles⟩ := exists_tiles cursor.next.2
      have prior : before.flatMap Piece.chars ++ piece.gap <+: cursor.next.2.rest := by
        rw [tiles.whole, later, List.flatMap_append, List.flatMap_cons, Piece.chars]
        exact ⟨piece.lexeme.source ++ (after.flatMap Piece.chars ++ last), by simp⟩
      rw [List.map_cons, List.flatMap_cons, List.append_assoc, Piece.chars]
      exact .cons (stands_piece more).spaces written printed
        (printed.apart (ends.shorten prior))

end FirstFault

end Cursor

/-- Spaces and lexemes make up every text, and a lexeme is a fault at its own position exactly if no
token starts there; tokens are collected up to the first fault. -/
theorem exists_tiling (text : String) :
    ∃ pieces last, Tiles pieces last 0 text.toList ∧
      (∀ extra, steps (pieces.length + extra) (Cursor.start text) =
        pieces.map Piece.token ++ List.replicate extra .endOfInput) ∧
      ((∀ piece ∈ pieces, piece.token.error? = none) →
        tokenize text = pieces.map Piece.token) ∧
      ∀ before piece after error, pieces = before ++ piece :: after →
        (∀ earlier ∈ before, earlier.token.error? = none) → piece.token = .faulty error →
          tokenize text = before.map Piece.token ++ [piece.token] ∧
          ∃ head tail, text = head ++ tail ∧ head.utf8ByteSize = error.offset ∧
            tokenize head = before.map Piece.token := by
  obtain ⟨last, tiles⟩ := Cursor.exists_tiles (Cursor.start text)
  refine ⟨(Cursor.start text).pieces, last, tiles, Cursor.steps_eq _,
    Cursor.tokens_of_no_fault, fun before piece after error split sound fault => ?_⟩
  have stands := tiles.stands before piece after split
  have position := stands.judges.position error fault
  let head := String.ofList (before.flatMap Piece.chars ++ piece.gap)
  let tail := String.ofList (piece.lexeme.source ++ (after.flatMap Piece.chars ++ last))
  have whole : text = head ++ tail := by
    have parts : text.toList = (Cursor.start text).pieces.flatMap Piece.chars ++ last := tiles.whole
    rw [split, List.flatMap_append, List.flatMap_cons, Piece.chars] at parts
    rw [← String.ofList_append, ← String.ofList_toList (s := text), parts]
    simp
  refine ⟨Cursor.tokens_of_fault split sound fault, head, tail, whole, ?_,
    tokenize_of_printed (Cursor.printed_before split sound)⟩
  rw [utf8ByteSize_ofList, byteLength_append, position]
  simp [Cursor.start]

/-- Reading goes on past two faults, a lone sign and a quote without its partner. -/
example : steps 5 (Cursor.start "é| A'b") =
    [.faulty ⟨.unexpected 'é', 0⟩, .faulty ⟨.unexpected '|', 2⟩, .symbol "A",
      .faulty ⟨.unterminated "b", 5⟩, .endOfInput] := by
  decide +kernel

end Token
end OptionTree
