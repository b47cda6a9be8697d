import OptionTree.Proofs.Tiling
import OptionTree.Token.Reader

/-!
# Cursors stand for readers

Through any reader that keeps its promises the lexer reads the tokens that a cursor reads, and the
reader stands where the cursor stands afterwards.
-/

namespace OptionTree
namespace Token

theorem scanMark_of_pair {c second : Char} {token : Token} (rest : List Char)
    (known : Readers.mark? [c, second] = some token) :
    scanMark (c :: second :: rest) = some (token, [c, second]) := by
  unfold Readers.mark? at known
  split at known <;> simp_all [scanMark]

theorem scanMark_of_single {c : Char} {rest : List Char}
    (alone : rest.head?.bind (fun second => Readers.mark? [c, second]) = none) :
    scanMark (c :: rest) = (Readers.mark? [c]).map (·, [c]) := by
  unfold scanMark
  split <;> simp_all [Readers.mark?]

namespace Readers
namespace Promises

variable {readers : Readers} (promises : readers.Promises)

/-- The cursor that stands where a reader stands. -/
def cursor (reader : readers.Reader) : Cursor := ⟨readers.position reader, promises.ahead reader⟩

variable {promises}

theorem Passes.cursor {first second : readers.Reader} {taken : List Char}
    (passes : promises.Passes first taken second) :
    promises.cursor second = (promises.cursor first).skip taken.length := by
  rw [Cursor.skip_of_rest passes.ahead]
  exact congrArg (Cursor.mk · _) passes.position

variable (promises)

theorem passes_eatWhile (wanted : Char → Bool) (reader : readers.Reader) :
    (promises.eatWhile wanted reader).1 = (promises.ahead reader).takeWhile wanted ∧
      promises.Passes reader (promises.eatWhile wanted reader).1
        (promises.eatWhile wanted reader).2 := by
  fun_induction eatWhile promises wanted reader with
  | case1 reader behind looked =>
      obtain ⟨nothing, still⟩ := promises.passes_of_peekChar looked
      rw [List.head?_eq_none_iff.mp nothing.symm]
      exact ⟨rfl, still⟩
  | case2 reader c behind looked wants later ih =>
      have moved := promises.passes_eat_of_peekChar looked
      rw [moved.ahead, List.singleton_append, List.takeWhile_cons_of_pos wants]
      exact ⟨congrArg (c :: ·) ih.1, moved.trans ih.2⟩
  | case3 reader c behind looked unwanted =>
      obtain ⟨first, still⟩ := promises.passes_of_peekChar looked
      obtain ⟨rest, shape⟩ := List.head?_eq_some_iff.mp first.symm
      rw [shape, List.takeWhile_cons_of_neg unwanted]
      exact ⟨rfl, still⟩

/-- Up to a quote the reader takes what is scanned, and then the quote. -/
theorem passes_eatQuoted {quote : Char} (proper : quote ≠ '\\') (reader : readers.Reader) :
    (promises.eatQuoted quote reader).1 = (scanQuoted quote (promises.ahead reader)).1 ∧
      (promises.eatQuoted quote reader).2.1 =
        (scanQuoted quote (promises.ahead reader)).2.isSome ∧
      promises.Passes reader ((promises.eatQuoted quote reader).1 ++
          if (promises.eatQuoted quote reader).2.1 then [quote] else [])
        (promises.eatQuoted quote reader).2.2 := by
  fun_induction eatQuoted promises quote reader with
  | case1 reader behind eaten =>
      obtain ⟨nothing, moved⟩ := promises.passes_of_eat eaten
      rw [List.head?_eq_none_iff.mp nothing.symm, scanQuoted]
      exact ⟨rfl, rfl, moved⟩
  | case2 reader behind eaten =>
      obtain ⟨-, moved⟩ := promises.passes_of_eat eaten
      have scanned := scanQuoted.eq_3 quote quote (promises.ahead behind)
        fun _ _ backslash => absurd backslash proper
      rw [moved.ahead, Option.toList_some, List.singleton_append, scanned, if_pos rfl]
      exact ⟨rfl, rfl, moved⟩
  | case3 reader behind later nothing eaten other =>
      obtain ⟨-, moved⟩ := promises.passes_of_eat eaten
      obtain ⟨ended, goesOn⟩ := promises.passes_of_eat nothing
      rw [moved.ahead, List.head?_eq_none_iff.mp ended.symm]
      refine ⟨?_, ?_, moved.trans goesOn⟩ <;> simp [scanQuoted, other]
  | case4 reader behind escaped later escape rest eaten other ih =>
      have moved := (promises.passes_of_eat eaten).2.trans (promises.passes_of_eat escape).2
      obtain ⟨content, closed, goesOn⟩ := ih
      rw [moved.ahead]
      refine ⟨?_, closed, moved.trans goesOn⟩
      simp [scanQuoted, rest, content]
  | case5 reader c behind eaten other plain later ih =>
      obtain ⟨-, moved⟩ := promises.passes_of_eat eaten
      obtain ⟨content, closed, goesOn⟩ := ih
      have scanned := scanQuoted.eq_3 quote c (promises.ahead behind)
        fun _ _ backslash => absurd backslash plain
      rw [moved.ahead, Option.toList_some, List.singleton_append, scanned, if_neg other]
      exact ⟨congrArg (c :: ·) content, closed, moved.trans goesOn⟩

theorem passes_mark {c : Char} (notSymbol : ¬isSymbolChar c) (notQuote : ¬isQuote c)
    (offset : Nat) (reader : readers.Reader) :
    ∃ taken, Lexeme.read offset c (promises.ahead reader) =
        ⟨(readers.mark offset c reader).1, c :: taken⟩ ∧
      promises.Passes reader taken (readers.mark offset c reader).2 := by
  obtain ⟨first, still⟩ := promises.passes_of_peekChar (Prod.eta (readers.peekChar reader)).symm
  cases pair : (readers.peekChar reader).1.bind fun second => mark? [c, second] with
  | some token =>
      obtain ⟨second, looked, known⟩ := Option.bind_eq_some_iff.mp pair
      have moved := promises.passes_eat_of_peekChar (Prod.ext looked rfl)
      have marked := scanMark_of_pair (promises.ahead (readers.eat (readers.peekChar reader).2).2)
        known
      simp only [mark, pair]
      refine ⟨[second], ?_, moved⟩
      simp [Lexeme.read, notSymbol, notQuote, moved.ahead, marked]
  | none =>
      have marked := scanMark_of_single (first ▸ pair)
      simp only [mark, pair]
      refine ⟨[], ?_, still⟩
      simp only [Lexeme.read, notSymbol, notQuote, marked]
      cases mark? [c] <;> rfl

/-- Reading a token takes what its lexeme is written with, as far as it was not taken. -/
theorem passes_lex (offset : Nat) (c : Char) (reader : readers.Reader) :
    ∃ taken, Lexeme.read offset c (promises.ahead reader) =
        ⟨(promises.lex offset c reader).1, c :: taken⟩ ∧
      promises.Passes reader taken (promises.lex offset c reader).2 := by
  by_cases symbolic : isSymbolChar c
  · obtain ⟨name, moved⟩ := promises.passes_eatWhile isSymbolChar reader
    rw [lex, if_pos symbolic, Lexeme.read, if_pos symbolic, ← name]
    exact ⟨_, rfl, moved⟩
  rw [lex, if_neg symbolic]
  by_cases isMark : isQuote c
  · have proper : c ≠ '\\' := by
      rintro rfl
      cases isMark
    have parts := promises.passes_eatQuoted proper reader
    rw [if_pos isMark, Lexeme.read, if_neg symbolic, if_pos isMark]
    rcases eaten : promises.eatQuoted c reader with ⟨content, closed, behind⟩
    rcases scanned : scanQuoted c (promises.ahead reader) with ⟨inner, after⟩
    simp only [eaten, scanned] at parts
    obtain ⟨rfl, rfl, moved⟩ := parts
    cases after with
    | none => exact ⟨content, rfl, by simpa using moved⟩
    | some after => exact ⟨content ++ [c], rfl, by simpa using moved⟩
  · rw [if_neg isMark]
    exact promises.passes_mark symbolic isMark offset reader

/-- Through a reader that keeps its promises the lexer reads the token that a cursor reads, and the
reader stands where the cursor stands afterwards. -/
theorem next_eq (reader : readers.Reader) :
    (promises.next reader).1 = (promises.cursor reader).next.1 ∧
      promises.cursor (promises.next reader).2 = (promises.cursor reader).next.2 := by
  obtain ⟨spaces, moved⟩ := promises.passes_eatWhile isSpace reader
  have here : promises.cursor (promises.eatWhile isSpace reader).2 =
      (promises.cursor reader).skipSpace := by
    rw [moved.cursor, spaces]
    rfl
  rcases eaten : readers.eat (promises.eatWhile isSpace reader).2 with ⟨found, behind⟩
  obtain ⟨first, eats⟩ := promises.passes_of_eat eaten
  simp only [next, eaten]
  cases found with
  | none =>
      have spaces : ∀ c ∈ (promises.cursor reader).rest, isSpace c = true := by
        rw [← List.dropWhile_eq_nil_iff, ← Cursor.skipSpace_rest, ← here]
        exact List.head?_eq_none_iff.mp first.symm
      rw [Cursor.next, (Cursor.lexeme_of_spaces spaces).1, ← here]
      exact ⟨rfl, eats.cursor⟩
  | some c =>
      have ahead : (promises.cursor reader).skipSpace.rest = c :: promises.ahead behind := by
        rw [← here]
        exact eats.ahead
      obtain ⟨taken, read, goesOn⟩ := promises.passes_lex
        (readers.position (promises.eatWhile isSpace reader).2) c behind
      rw [Cursor.next, Cursor.lexeme_of_ahead ahead, ← here, cursor, read]
      exact ⟨rfl, (eats.trans goesOn).cursor⟩

theorem steps_eq_cursor (count : Nat) (reader : readers.Reader) :
    promises.steps count reader = Token.steps count (promises.cursor reader) := by
  induction count generalizing reader with
  | zero => rfl
  | succ count ih =>
      obtain ⟨token, later⟩ := promises.next_eq reader
      rw [steps, Token.steps, ih, token, later]

/-- The tokens ahead, up to the end or to the first fault. -/
def tokens (promises : readers.Promises) (reader : readers.Reader) : List Token :=
  if _ : (promises.next reader).1 = .endOfInput then []
  else if (promises.next reader).1.error?.isSome then [(promises.next reader).1]
  else (promises.next reader).1 :: promises.tokens (promises.next reader).2
termination_by (promises.ahead reader).length
decreasing_by
  obtain ⟨token, later⟩ := promises.next_eq reader
  have more : (promises.cursor reader).next.1 ≠ .endOfInput := token ▸ ‹¬_ = endOfInput›
  have shorter := Cursor.next_length_lt more
  rwa [← later] at shorter

theorem tokens_eq_cursor (reader : readers.Reader) :
    promises.tokens reader = (promises.cursor reader).tokens := by
  fun_induction tokens promises reader with
  | case1 reader done =>
      rw [Cursor.tokens_of_end ((promises.next_eq reader).1.symm.trans done)]
  | case2 reader more faulty =>
      rw [(promises.next_eq reader).1] at more faulty ⊢
      rw [Cursor.tokens, dif_neg more, if_pos faulty]
  | case3 reader more sound ih =>
      rw [ih, (promises.next_eq reader).2]
      rw [(promises.next_eq reader).1] at more sound ⊢
      rw [Cursor.tokens_of_sound more (by simpa using sound)]

theorem cursor_start (text : String) :
    promises.cursor (readers.start text) = Cursor.start text := by
  rw [cursor, promises.position_start, promises.ahead_start, Cursor.start]

/-- Whatever the reader, a text has the same tokens, at the same bytes. -/
theorem reads_start (text : String) :
    promises.tokens (readers.start text) = tokenize text ∧
      ∀ count,
        promises.steps count (readers.start text) = Token.steps count (Cursor.start text) := by
  rw [promises.tokens_eq_cursor, promises.cursor_start, tokenize]
  refine ⟨rfl, fun count => ?_⟩
  rw [promises.steps_eq_cursor, promises.cursor_start]

end Promises
end Readers
end Token
end OptionTree
