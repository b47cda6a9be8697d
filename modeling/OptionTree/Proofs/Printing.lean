import Mathlib.Data.List.TakeWhile
import OptionTree.Token.Source

/-!
# Reading what was written

Tokens that are written one after another are read again as they were, and a text that is read
without a fault is a way to write its tokens.
-/

namespace OptionTree
namespace Token

/-- Whether a token ends where it does in front of the given characters: a name does not go on, and
a negation is not taken for the start of an inequality. -/
def Ends (token : Token) (after : List Char) : Prop :=
  ∀ c ∈ after.head?,
    (token.symbol?.isSome → isSymbolChar c = false) ∧ (token = .operator .negation → c ≠ '=')

theorem Ends.shorten {token : Token} {after shorter : List Char} (ends : Ends token after)
    (prior : shorter <+: after) : Ends token shorter := by
  intro c first
  obtain ⟨rest, rfl⟩ := prior
  exact ends c (by simp [Option.mem_def.mp first])

theorem isSymbolChar_of_isSpace {c : Char} (space : isSpace c = true) : isSymbolChar c = false := by
  simp only [isSpace, Bool.or_eq_true, beq_iff_eq] at space
  rcases space with ((rfl | rfl) | rfl) | rfl <;> rfl

theorem isSymbolChar_of_isQuote {c : Char} (quote : isQuote c = true) : isSymbolChar c = false := by
  simp only [isQuote, Bool.or_eq_true, beq_iff_eq] at quote
  rcases quote with rfl | rfl <;> rfl

private theorem ne_backslash {c : Char} {rest : List Char}
    (notLast : c = '\\' → rest = [] → False)
    (notEscape : ∀ escaped after, c = '\\' → rest = escaped :: after → False) : c ≠ '\\' := by
  intro backslash
  cases rest with
  | nil => exact notLast backslash rfl
  | cons escaped after => exact notEscape escaped after backslash rfl

/-- A sealed content is read up to the quote behind it. -/
theorem scanQuoted_of_sealed {quote : Char} (isMark : isQuote quote = true) {content : List Char}
    (closed : isSealed quote content = true) (after : List Char) :
    scanQuoted quote (content ++ quote :: after) = (content, some after) := by
  have plain : quote ≠ '\\' := by
    rintro rfl
    exact absurd isMark (by decide)
  induction content using isSealed.induct with
  | case1 =>
      rw [List.nil_append, scanQuoted.eq_3 _ _ _ fun _ _ backslash => absurd backslash plain]
      simp
  | case2 => simp [isSealed] at closed
  | case3 escaped rest ih =>
      rw [isSealed] at closed
      simp only [List.cons_append, scanQuoted, ih closed]
  | case4 c rest notLast notEscape ih =>
      rw [isSealed.eq_4 _ _ _ notLast notEscape] at closed
      obtain ⟨different, closed⟩ : c ≠ quote ∧ isSealed quote rest = true := by
        simpa using closed
      have unescaped := ne_backslash notLast notEscape
      rw [List.cons_append, scanQuoted.eq_3 _ _ _ fun _ _ backslash => absurd backslash unescaped,
        if_neg different, ih closed]

/-- What is read up to a quote is sealed, and the quote follows it. -/
theorem sealed_of_scanQuoted {quote : Char} {text content after : List Char}
    (scanned : scanQuoted quote text = (content, some after)) :
    isSealed quote content = true ∧ text = content ++ quote :: after := by
  induction text using scanQuoted.induct quote generalizing content with
  | case1 => simp [scanQuoted] at scanned
  | case2 escaped rest ih =>
      rw [scanQuoted] at scanned
      obtain ⟨rfl, found⟩ := Prod.mk.inj scanned
      obtain ⟨closed, whole⟩ := ih (Prod.ext rfl found)
      exact ⟨by rw [isSealed]; exact closed, by simp [← whole]⟩
  | case3 rest notEscape =>
      rw [scanQuoted.eq_3 _ _ _ notEscape, if_pos rfl] at scanned
      obtain ⟨rfl, found⟩ := Prod.mk.inj scanned
      cases found
      exact ⟨rfl, rfl⟩
  | case4 c rest notEscape different ih =>
      rw [scanQuoted.eq_3 _ _ _ notEscape, if_neg different] at scanned
      obtain ⟨rfl, found⟩ := Prod.mk.inj scanned
      obtain ⟨closed, whole⟩ := ih (Prod.ext rfl found)
      have unescaped : c ≠ '\\' := by
        rintro rfl
        cases rest with
        | nil => simp [scanQuoted] at found
        | cons escaped rest => exact notEscape escaped rest rfl rfl
      refine ⟨?_, by simp [← whole]⟩
      rw [isSealed.eq_4 _ _ _ (fun backslash => absurd backslash unescaped)
        fun _ _ backslash => absurd backslash unescaped]
      simp [different, closed]

theorem scanMark_operator (op : Operator) {after : List Char} (ends : Ends (.operator op) after) :
    scanMark (op.text.toList ++ after) = some (.operator op, op.text.toList) := by
  rcases op with _ | (_ | _ | _ | _)
  · change scanMark ('!' :: after) = some (.operator .negation, ['!'])
    cases after with
    | nil => rfl
    | cons c after =>
        have different : c ≠ '=' := (ends c rfl).2 rfl
        simp [scanMark, different]
  all_goals simp [Operator.text, BinaryOperator.text, scanMark]

/-- Which marks are read, and what follows them. -/
theorem scanMark_eq_some {text source : List Char} {token : Token}
    (scanned : scanMark text = some (token, source)) :
    Source token source ∧ ∃ after, text = source ++ after ∧ Ends token after := by
  unfold scanMark at scanned
  split at scanned
  all_goals try cases scanned
  · exact ⟨.operator (.binary .unequal), _, rfl, by simp [Ends, symbol?]⟩
  · exact ⟨.operator (.binary .conjunction), _, rfl, by simp [Ends, symbol?]⟩
  · exact ⟨.operator (.binary .disjunction), _, rfl, by simp [Ends, symbol?]⟩
  · exact ⟨.operator (.binary .equal), _, rfl, by simp [Ends, symbol?]⟩
  · rename_i after notUnequal
    refine ⟨.operator .negation, after, rfl, fun c first => ⟨by simp [symbol?], ?_⟩⟩
    rintro - rfl
    cases after with
    | nil => cases first
    | cons d after =>
        cases first
        exact notUnequal after rfl
  · exact ⟨.opening, _, rfl, by simp [Ends, symbol?]⟩
  · exact ⟨.closing, _, rfl, by simp [Ends, symbol?]⟩

theorem Source.ne_nil {token : Token} {source : List Char} (written : Source token source) :
    source ≠ [] := by
  cases written with
  | symbol nonempty => exact nonempty
  | operator op => rcases op with _ | (_ | _ | _ | _) <;> decide
  | _ => simp

theorem Source.head {token : Token} {source : List Char} (written : Source token source)
    {c : Char} (first : c ∈ source.head?) :
    isSpace c = false ∧ (isSymbolChar c = true → token.symbol?.isSome) ∧
      (c = '=' → token = .operator (.binary .equal)) := by
  cases written with
  | @symbol name nonempty word =>
      have symbolic := word c (List.mem_of_mem_head? first)
      refine ⟨?_, fun _ => rfl, ?_⟩
      · cases space : isSpace c with
        | false => rfl
        | true => exact absurd symbolic (by simp [isSymbolChar_of_isSpace space])
      · rintro rfl
        exact absurd symbolic (by decide)
  | @quoted quote content isMark closed =>
      obtain rfl : quote = c := by simpa using first
      simp only [isQuote, Bool.or_eq_true, beq_iff_eq] at isMark
      rcases isMark with rfl | rfl <;>
        exact ⟨rfl, fun symbolic => absurd symbolic (by decide),
          fun equal => absurd equal (by decide)⟩
  | operator op =>
      rcases op with _ | (_ | _ | _ | _) <;>
        · simp only [Operator.text, BinaryOperator.text] at first
          cases first
          decide
  | opening =>
      cases first
      decide
  | closing =>
      cases first
      decide

/-- Writing a token and ending it makes that token the next lexeme. -/
theorem Lexeme.read_of_source {token : Token} {source : List Char} (written : Source token source)
    {after : List Char} (ends : Ends token after) {c : Char} {rest : List Char}
    (text : c :: rest = source ++ after) (offset : Nat) :
    Lexeme.read offset c rest = ⟨token, source⟩ := by
  cases written with
  | symbol nonempty word =>
      rcases source with _ | ⟨d, name⟩
      · exact absurd rfl nonempty
      obtain ⟨rfl, rfl⟩ : c = d ∧ rest = name ++ after := by simpa using text
      have stops : (name ++ after).takeWhile isSymbolChar = name := by
        rw [List.takeWhile_append_of_pos fun d member => word d (by simp [member])]
        cases after with
        | nil => simp
        | cons d after => simp [(ends d rfl).1 rfl]
      simp only [Lexeme.read, word c (by simp), if_pos, stops]
  | @quoted quote content isMark closed =>
      obtain ⟨rfl, rfl⟩ : c = quote ∧ rest = content ++ quote :: after := by simpa using text
      simp [Lexeme.read, isSymbolChar_of_isQuote isMark, isMark, scanQuoted_of_sealed isMark closed]
  | operator op =>
      have plain : isSymbolChar c = false ∧ isQuote c = false := by
        rcases op with _ | (_ | _ | _ | _) <;>
          · simp only [Operator.text, BinaryOperator.text] at text
            cases text
            decide
      simp [Lexeme.read, plain, text, scanMark_operator op ends]
  | opening =>
      cases text
      rfl
  | closing =>
      cases text
      rfl

/-- A lexeme without a fault is a token as it is written, up to where it ends. -/
theorem Lexeme.source_of_read {offset : Nat} {c : Char} {rest : List Char}
    (sound : (Lexeme.read offset c rest).token.error? = none) :
    Source (Lexeme.read offset c rest).token (Lexeme.read offset c rest).source ∧
      ∃ after, c :: rest = (Lexeme.read offset c rest).source ++ after ∧
        Ends (Lexeme.read offset c rest).token after := by
  rw [Lexeme.read] at sound ⊢
  split
  · rename_i symbolic
    refine ⟨.symbol (by simp) ?_, rest.dropWhile isSymbolChar, ?_, ?_⟩
    · intro d member
      rcases List.mem_cons.mp member with rfl | inside
      · exact symbolic
      · exact List.mem_takeWhile_imp inside
    · simp [List.takeWhile_append_dropWhile]
    · intro d first
      refine ⟨fun _ => ?_, by simp⟩
      have := List.head?_dropWhile_not isSymbolChar rest
      rw [Option.mem_def.mp first] at this
      simpa using this
  · rename_i plain
    rw [if_neg plain] at sound
    split
    · rename_i isMark
      rw [if_pos isMark] at sound
      split
      · rename_i content after scanned
        obtain ⟨closed, rfl⟩ := sealed_of_scanQuoted scanned
        exact ⟨.quoted isMark closed, after, by simp, by simp [Ends, symbol?]⟩
      · rename_i content scanned
        simp [scanned, error?] at sound
    · rename_i notMark
      rw [if_neg notMark] at sound
      split
      · rename_i token source scanned
        exact scanMark_eq_some scanned
      · rename_i scanned
        simp [scanned, error?] at sound

theorem Source.sound {token : Token} {source : List Char} (written : Source token source) :
    token.error? = none ∧ token ≠ .endOfInput := by
  cases written <;> exact ⟨rfl, nofun⟩

namespace Cursor

theorem lexeme_of_ahead {cursor : Cursor} {c : Char} {rest : List Char}
    (ahead : cursor.skipSpace.rest = c :: rest) :
    cursor.lexeme = (Lexeme.read cursor.skipSpace.offset c rest,
      cursor.skipSpace.skip (Lexeme.read cursor.skipSpace.offset c rest).source.length) := by
  unfold lexeme
  dsimp only
  split
  · rename_i nothing
    cases nothing.symm.trans ahead
  · rename_i found
    cases found.symm.trans ahead
    rfl

theorem next_of_ahead {cursor : Cursor} {c : Char} {rest : List Char}
    (ahead : cursor.skipSpace.rest = c :: rest) :
    cursor.next.1 = (Lexeme.read cursor.skipSpace.offset c rest).token ∧
      cursor.next.2.rest =
        (c :: rest).drop (Lexeme.read cursor.skipSpace.offset c rest).source.length := by
  rw [next, lexeme_of_ahead ahead]
  exact ⟨rfl, by rw [skip_rest, ahead]⟩

theorem next_of_source {cursor : Cursor} {gap source after : List Char} {token : Token}
    (text : cursor.rest = gap ++ source ++ after) (spaces : ∀ c ∈ gap, isSpace c = true)
    (written : Source token source) (ends : Ends token after) :
    cursor.next.1 = token ∧ cursor.next.2.rest = after := by
  obtain ⟨c, rest, whole⟩ : ∃ c rest, source = c :: rest :=
    List.exists_cons_of_ne_nil written.ne_nil
  have ahead : cursor.skipSpace.rest = c :: (rest ++ after) := by
    have solid := (written.head (c := c) (by simp [whole])).1
    rw [skipSpace_rest, text, List.append_assoc, List.dropWhile_append_of_pos spaces, whole]
    simp [solid]
  have read := Lexeme.read_of_source written ends
    (show c :: (rest ++ after) = source ++ after by simp [whole]) cursor.skipSpace.offset
  obtain ⟨found, behind⟩ := next_of_ahead ahead
  rw [read] at found behind
  refine ⟨found, ?_⟩
  rw [behind]
  simp [whole]

theorem lexeme_of_spaces {cursor : Cursor} (spaces : ∀ c ∈ cursor.rest, isSpace c = true) :
    cursor.lexeme = (⟨.endOfInput, []⟩, cursor.skipSpace) ∧ cursor.skipSpace.rest = [] := by
  have nothing : cursor.skipSpace.rest = [] := by
    rw [skipSpace_rest, List.dropWhile_eq_nil_iff]
    exact spaces
  refine ⟨?_, nothing⟩
  unfold lexeme
  dsimp only
  split
  · rfl
  · rename_i found
    cases nothing.symm.trans found

theorem next_of_spaces {cursor : Cursor} (spaces : ∀ c ∈ cursor.rest, isSpace c = true) :
    cursor.next.1 = .endOfInput := by
  rw [next, (lexeme_of_spaces spaces).1]

/-- A token without a fault is read from the characters that write it. -/
theorem source_of_next {cursor : Cursor} (more : cursor.next.1 ≠ .endOfInput)
    (sound : cursor.next.1.error? = none) :
    ∃ gap source, cursor.rest = gap ++ source ++ cursor.next.2.rest ∧
      (∀ c ∈ gap, isSpace c = true) ∧ Source cursor.next.1 source ∧
      Ends cursor.next.1 cursor.next.2.rest := by
  cases ahead : cursor.skipSpace.rest with
  | nil =>
      refine absurd (next_of_spaces ?_) more
      rwa [skipSpace_rest, List.dropWhile_eq_nil_iff] at ahead
  | cons c rest =>
      obtain ⟨found, behind⟩ := next_of_ahead ahead
      rw [found] at sound ⊢
      obtain ⟨written, after, text, ends⟩ := Lexeme.source_of_read sound
      have behind : cursor.next.2.rest = after := by
        rw [behind, text, List.drop_left]
      refine ⟨cursor.rest.takeWhile isSpace, _, ?_, ?_, written, behind ▸ ends⟩
      · rw [behind, List.append_assoc, ← text, ← ahead, skipSpace_rest,
          List.takeWhile_append_dropWhile]
      · exact fun d member => List.mem_takeWhile_imp member

theorem tokens_of_end {cursor : Cursor} (done : cursor.next.1 = .endOfInput) :
    cursor.tokens = [] := by
  rw [tokens, dif_pos done]

theorem tokens_of_sound {cursor : Cursor} (more : cursor.next.1 ≠ .endOfInput)
    (sound : cursor.next.1.error? = none) :
    cursor.tokens = cursor.next.1 :: cursor.next.2.tokens := by
  rw [tokens, dif_neg more, if_neg (by simp [sound])]

end Cursor

/-! ## Lists of tokens -/

theorem Printed.sound {tokens : List Token} {text : List Char} (printed : Printed tokens text) :
    ∀ token ∈ tokens, token.error? = none := by
  induction printed with
  | nil => simp
  | cons _ written _ _ ih => exact List.forall_mem_cons.mpr ⟨written.sound.1, ih⟩

theorem Printed.head {tokens : List Token} {text : List Char} (printed : Printed tokens text)
    {c : Char} (first : c ∈ text.head?) (solid : isSpace c = false) :
    ∃ token ∈ tokens.head?, (isSymbolChar c = true → token.symbol?.isSome) ∧
      (c = '=' → token = .operator (.binary .equal)) := by
  cases printed with
  | nil spaces => simp [spaces c (List.mem_of_mem_head? first)] at solid
  | @cons gap source rest token tokens spaces written printed apart =>
      refine ⟨token, rfl, (written.head ?_).2⟩
      cases gap with
      | nil =>
          obtain ⟨d, source, rfl⟩ := List.exists_cons_of_ne_nil written.ne_nil
          simpa using first
      | cons d gap =>
          obtain rfl : d = c := by simpa using first
          simp [spaces d (by simp)] at solid

/-- A token that is set apart from the next one ends where it does. -/
theorem Printed.ends {tokens : List Token} {text : List Char} (printed : Printed tokens text)
    {token : Token}
    (apart : ∀ next ∈ tokens.head?, needsSpace token next = true →
      ∃ c ∈ text.head?, isSpace c = true) :
    Ends token text := by
  intro c first
  cases solid : isSpace c with
  | true =>
      refine ⟨fun _ => isSymbolChar_of_isSpace solid, fun _ => ?_⟩
      rintro rfl
      exact absurd solid (by decide)
  | false =>
      obtain ⟨next, member, symbolic, equal⟩ := printed.head first solid
      have noSpace : needsSpace token next = false := by
        cases needs : needsSpace token next with
        | false => rfl
        | true =>
            obtain ⟨d, same, space⟩ := apart next member needs
            obtain rfl := Option.mem_unique first same
            simp [space] at solid
      constructor
      · intro isName
        obtain ⟨name, found⟩ := Option.isSome_iff_exists.mp isName
        obtain rfl := symbol?_eq_some_iff.mp found
        cases goesOn : isSymbolChar c with
        | false => rfl
        | true =>
            obtain ⟨other, found⟩ := Option.isSome_iff_exists.mp (symbolic goesOn)
            obtain rfl := symbol?_eq_some_iff.mp found
            exact absurd noSpace nofun
      · rintro rfl rfl
        rw [equal rfl] at noSpace
        exact absurd noSpace nofun

theorem Printed.apart {tokens : List Token} {text : List Char} (printed : Printed tokens text)
    {token : Token} (ends : Ends token text) :
    ∀ next ∈ tokens.head?, needsSpace token next = true → ∃ c ∈ text.head?, isSpace c = true := by
  intro next first needs
  cases printed with
  | nil spaces => cases first
  | @cons gap source rest following tokens spaces written printed apart =>
      obtain rfl : following = next := by simpa using first
      rcases gap with _ | ⟨c, gap⟩
      · obtain ⟨c, source, rfl⟩ := List.exists_cons_of_ne_nil written.ne_nil
        obtain ⟨name, equal⟩ := ends c (by simp)
        unfold needsSpace at needs
        split at needs
        · cases written with
          | symbol nonempty word => simp [symbol?, word c (by simp)] at name
        · generalize sign : c :: source = source at written
          cases written
          cases sign
          exact absurd rfl (equal rfl)
        · cases needs
      · exact ⟨c, by simp, spaces c (by simp)⟩

namespace Cursor

theorem spaces_of_end {cursor : Cursor} (done : cursor.next.1 = .endOfInput) :
    ∀ c ∈ cursor.rest, isSpace c = true := by
  cases ahead : cursor.skipSpace.rest with
  | nil => rwa [skipSpace_rest, List.dropWhile_eq_nil_iff] at ahead
  | cons c rest =>
      rw [(next_of_ahead ahead).1] at done
      exact absurd done (Lexeme.read_ne_endOfInput _ _ _).1

/-- Written tokens are read again. -/
theorem tokens_of_printed {tokens : List Token} {text : List Char} (printed : Printed tokens text)
    {cursor : Cursor} (ahead : cursor.rest = text) : cursor.tokens = tokens := by
  induction printed generalizing cursor with
  | nil spaces => exact tokens_of_end (next_of_spaces (ahead ▸ spaces))
  | cons spaces written printed apart ih =>
      obtain ⟨found, behind⟩ := next_of_source ahead spaces written (printed.ends apart)
      obtain ⟨sound, more⟩ := written.sound
      rw [tokens_of_sound (found ▸ more) (found ▸ sound), found, ih behind]

/-- A text that is read without a fault writes the tokens that are read. -/
theorem printed_of_sound (cursor : Cursor)
    (sound : ∀ token ∈ cursor.tokens, token.error? = none) :
    Printed cursor.tokens cursor.rest := by
  induction cursor using tokens.induct with
  | case1 cursor done =>
      rw [tokens_of_end done]
      exact .nil (spaces_of_end done)
  | case2 cursor more faulty =>
      rw [tokens, dif_neg more, if_pos faulty] at sound
      simp [sound cursor.next.1 (by simp)] at faulty
  | case3 cursor more noFault ih =>
      have intact : cursor.next.1.error? = none := by simpa using noFault
      rw [tokens_of_sound more intact] at sound ⊢
      obtain ⟨gap, source, text, spaces, written, ends⟩ := source_of_next more intact
      rw [text]
      have printed := ih fun token member => sound token (by simp [member])
      exact .cons spaces written printed (printed.apart ends)

end Cursor

theorem tokenize_of_printed {tokens : List Token} {text : List Char}
    (printed : Printed tokens text) : tokenize (String.ofList text) = tokens :=
  Cursor.tokens_of_printed printed (by simp [Cursor.start])

theorem printed_of_tokenize {text : String} (sound : ∀ token ∈ tokenize text, token.error? = none) :
    Printed (tokenize text) text.toList :=
  Cursor.printed_of_sound (Cursor.start text) sound

/-- The texts in which some tokens stand are those that are read as these tokens without a fault: it
is enough to set two names apart, and a negation from an equals sign, and it is necessary. -/
theorem printed_iff_tokenize {tokens : List Token} {text : String} :
    Printed tokens text.toList ↔
      tokenize text = tokens ∧ ∀ token ∈ tokens, token.error? = none := by
  constructor
  · intro printed
    refine ⟨by simpa using tokenize_of_printed printed, ?_⟩
    exact printed.sound
  · rintro ⟨rfl, sound⟩
    exact printed_of_tokenize sound

end Token
end OptionTree
