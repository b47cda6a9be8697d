import Mathlib
import OptionTree.Clause
import OptionTree.Proofs.Printing
import OptionTree.Proofs.Trimming

/-!
# Joining clauses as texts

White space around a clause does not change its tokens, and the tokens of a conjunction are those
of its clauses with the sign of the conjunction between them.
-/

namespace OptionTree
namespace Token

theorem isBlank_of_isSpace {c : Char} (space : isSpace c = true) : Text.isBlank c = true := by
  simp only [isSpace, Bool.or_eq_true, beq_iff_eq] at space
  rcases space with ((rfl | rfl) | rfl) | rfl <;> rfl

theorem isBlank_of_isSymbolChar {c : Char} (symbolic : isSymbolChar c = true) :
    Text.isBlank c = false := by
  have range : (48 ≤ c.toNat ∧ c.toNat ≤ 57) ∨ (65 ≤ c.toNat ∧ c.toNat ≤ 90) ∨
      (97 ≤ c.toNat ∧ c.toNat ≤ 122) ∨ c.toNat = 95 := by
    simp only [isSymbolChar, Char.isAlphanum, Char.isAlpha, Char.isUpper, Char.isLower,
      Char.isDigit, Bool.or_eq_true, Bool.and_eq_true, decide_eq_true_eq, ge_iff_le, beq_iff_eq,
      UInt32.le_iff_toNat_le] at symbolic
    rcases symbolic with ((upper | lower) | digit) | rfl
    · exact .inr (.inl upper)
    · exact .inr (.inr (.inl lower))
    · exact .inl digit
    · decide
  simp only [Text.isBlank, Text.blankRuns, List.any_cons, List.any_nil, Bool.or_false,
    Bool.or_eq_false_iff, Bool.and_eq_false_iff, decide_eq_false_iff_not]
  omega

theorem solid_of_all {found : Option Char} (all : found.all (!Text.isBlank ·) = true) :
    ∀ c ∈ found, Text.isBlank c = false := by
  intro c member
  rw [Option.mem_def.mp member] at all
  simpa using all

theorem Source.solid {token : Token} {source : List Char} (written : Source token source) :
    (∀ c ∈ source.head?, Text.isBlank c = false) ∧
      ∀ c ∈ source.getLast?, Text.isBlank c = false := by
  cases written with
  | symbol nonempty word =>
      exact ⟨fun c first => isBlank_of_isSymbolChar (word c (List.mem_of_mem_head? first)),
        fun c last => isBlank_of_isSymbolChar (word c (List.mem_of_mem_getLast? last))⟩
  | @quoted quote content isMark closed =>
      have solid : Text.isBlank quote = false := by
        simp only [isQuote, Bool.or_eq_true, beq_iff_eq] at isMark
        rcases isMark with rfl | rfl <;> rfl
      constructor
      · intro c first
        obtain rfl : quote = c := by simpa using first
        exact solid
      · intro c last
        obtain rfl : quote = c := by
          rw [← List.cons_append, List.getLast?_concat] at last
          simpa using last
        exact solid
  | operator op =>
      rcases op with _ | (_ | _ | _ | _) <;>
        exact ⟨solid_of_all (rfl), solid_of_all (rfl)⟩
  | opening => exact ⟨solid_of_all (rfl), solid_of_all (rfl)⟩
  | closing => exact ⟨solid_of_all (rfl), solid_of_all (rfl)⟩

theorem Printed.trimStart {tokens : List Token} {text : List Char} (printed : Printed tokens text) :
    Printed tokens (Text.trimStart text) := by
  cases printed with
  | nil spaces =>
      exact .nil fun c member => spaces c ((List.dropWhile_subset _) member)
  | @cons gap source rest token tokens spaces written printed apart =>
      have cut : Text.trimStart (gap ++ source ++ rest) = [] ++ source ++ rest := by
        rw [Text.trimStart, List.append_assoc, List.dropWhile_append_of_pos fun c member =>
          isBlank_of_isSpace (spaces c member)]
        refine Text.trimStart_eq_self fun c first => written.solid.1 c ?_
        obtain ⟨d, source, rfl⟩ := List.exists_cons_of_ne_nil written.ne_nil
        simpa using first
      rw [cut]
      exact .cons (by simp) written printed apart

theorem Printed.trimEnd {tokens : List Token} {text : List Char} (printed : Printed tokens text) :
    Printed tokens (Text.trimEnd text) := by
  induction printed with
  | nil spaces =>
      exact .nil fun c member => spaces c ((Text.trimEnd_prefix _).subset member)
  | @cons gap source rest token tokens spaces written printed apart ih =>
      rw [Text.trimEnd_append]
      · refine .cons spaces written ih (ih.apart ?_)
        exact (printed.ends apart).shorten (Text.trimEnd_prefix rest)
      · intro c last
        have found := List.getLast?_eq_some_getLast written.ne_nil
        rw [List.getLast?_append, found] at last
        exact written.solid.2 c (found ▸ last)

theorem Printed.trim {tokens : List Token} {text : List Char} (printed : Printed tokens text) :
    Printed tokens (Text.trim text) :=
  printed.trimStart.trimEnd

theorem Printed.eq_nil_of_nil {tokens : List Token} {text : List Char}
    (printed : Printed tokens text) (empty : text = []) : tokens = [] := by
  cases printed with
  | nil => rfl
  | cons spaces written => simp [written.ne_nil] at empty

theorem Printed.single {token : Token} {source : List Char} (written : Source token source) :
    Printed [token] source := by
  have printed : Printed [token] ([] ++ source ++ []) := .cons nofun written (.nil nofun) nofun
  simpa using printed

theorem Printed.behind_spaces {tokens : List Token} {gap text : List Char}
    (spaces : ∀ c ∈ gap, isSpace c = true) (printed : Printed tokens text) :
    Printed tokens (gap ++ text) := by
  have both : ∀ {more : List Char}, (∀ c ∈ more, isSpace c = true) →
      ∀ c ∈ gap ++ more, isSpace c = true := fun others c member =>
    (List.mem_append.mp member).elim (spaces c) (others c)
  cases printed with
  | nil others => exact .nil (both others)
  | cons others written printed apart =>
      simpa only [List.append_assoc] using Printed.cons (both others) written printed apart

/-- Two lists of tokens are written one behind the other, unless they must be set apart. -/
theorem Printed.append {first second : List Token} {before after : List Char}
    (printedFirst : Printed first before) (printedSecond : Printed second after)
    (free : ∀ last ∈ first.getLast?, ∀ next ∈ second.head?, needsSpace last next = false) :
    Printed (first ++ second) (before ++ after) := by
  induction printedFirst with
  | nil spaces => exact printedSecond.behind_spaces spaces
  | @cons gap source rest token tokens spaces written printed apart ih =>
      rw [List.append_assoc, List.cons_append]
      refine .cons spaces written (ih fun last member => free last ?_) fun next first needs => ?_
      · cases tokens with
        | nil => cases member
        | cons other tokens => rwa [List.getLast?_cons_cons]
      · cases tokens with
        | nil => simp [free token rfl next first] at needs
        | cons other tokens =>
            obtain ⟨c, head, space⟩ := apart next first needs
            exact ⟨c, by simp [Option.mem_def.mp head], space⟩

theorem needsSpace_of_mark {first second : Token}
    (mark : first = .operator (.binary .conjunction) ∨ first = .opening ∨
      second = .operator (.binary .conjunction) ∨ second = .closing) :
    needsSpace first second = false := by
  rcases mark with rfl | rfl | rfl | rfl
  · rfl
  · rfl
  · cases first with
    | operator op => rcases op with _ | op <;> rfl
    | _ => rfl
  · cases first with
    | operator op => rcases op with _ | op <;> rfl
    | _ => rfl

end Token

namespace Clause

open Token

theorem hasDisjunction_append (first : List Char) {second : List Char}
    (bars : hasDisjunction second = true) : hasDisjunction (first ++ second) = true := by
  induction first with
  | nil => exact bars
  | cons c first ih =>
      rw [List.cons_append]
      unfold hasDisjunction
      split
      · rfl
      · rename_i same
        cases same
        exact ih
      · rename_i same
        cases same

theorem hasDisjunction_of_printed {tokens : List Token} {text : List Char}
    (printed : Printed tokens text) (member : .operator (.binary .disjunction) ∈ tokens) :
    hasDisjunction text = true := by
  induction printed with
  | nil spaces => cases member
  | @cons gap source rest token tokens spaces written printed apart ih =>
      rcases List.mem_cons.mp member with rfl | inside
      · have sign : source = ['|', '|'] := by
          cases written
          rfl
        rw [List.append_assoc, sign]
        exact hasDisjunction_append gap rfl
      · exact hasDisjunction_append _ (ih inside)

/-- The tokens of a clause as it stands in a conjunction. -/
def guardedTokens (clause : String) : List Token :=
  let text := Text.trim clause.toList
  if hasDisjunction text && !isEnclosed text then .opening :: (tokenize clause ++ [.closing])
  else tokenize clause

theorem printed_guarded {clause : String}
    (sound : ∀ token ∈ tokenize clause, token.error? = none) :
    Printed (guardedTokens clause) (guarded (Text.trim clause.toList)) := by
  have printed := (printed_of_tokenize sound).trim
  unfold guardedTokens guarded
  dsimp only
  split
  · have behind : Printed (tokenize clause ++ [.closing]) (Text.trim clause.toList ++ [')']) := by
      refine printed.append (.single .closing) fun last _ next first => ?_
      obtain rfl : Token.closing = next := by simpa using first
      exact needsSpace_of_mark (.inr (.inr (.inr rfl)))
    refine (Printed.single .opening).append behind fun last first next _ => ?_
    obtain rfl : Token.opening = last := by simpa using first
    rfl
  · exact printed

/-- The tokens of some clauses with the sign of the conjunction between them. -/
def joinedTokens (clauses : List String) : List Token :=
  List.intercalate [.operator (.binary .conjunction)] (clauses.map guardedTokens)

theorem parts_eq_map {clauses : List String}
    (stated : ∀ clause ∈ clauses, Text.trim clause.toList ≠ []) :
    parts clauses = clauses.map fun clause => guarded (Text.trim clause.toList) := by
  rw [parts]
  rw [List.filter_eq_self.mpr, List.map_map]
  · rfl
  · intro text member
    obtain ⟨clause, inside, rfl⟩ := List.mem_map.mp member
    simpa using stated clause inside

theorem printed_joined {clauses : List String}
    (sound : ∀ clause ∈ clauses, ∀ token ∈ tokenize clause, token.error? = none) :
    Printed (joinedTokens clauses) (List.intercalate ['&', '&']
      (clauses.map fun clause => guarded (Text.trim clause.toList))) := by
  rw [joinedTokens]
  induction clauses with
  | nil => exact .nil nofun
  | cons clause clauses ih =>
      have first := printed_guarded (sound clause (by simp))
      cases clauses with
      | nil => simpa using first
      | cons other clauses =>
          have rest := ih fun clause member => sound clause (by simp [member])
          have sign : Printed [.operator (.binary .conjunction)] ['&', '&'] :=
            .single (.operator (.binary .conjunction))
          have behind := sign.append rest fun last member next _ => by
            obtain rfl : Token.operator (.binary .conjunction) = last := by simpa using member
            rfl
          have whole := first.append behind fun last _ next member => by
            obtain rfl : Token.operator (.binary .conjunction) = next := by simpa using member
            exact needsSpace_of_mark (.inr (.inr (.inl rfl)))
          simpa [List.intercalate_cons_cons] using whole

/-- The tokens of a conjunction are those of its clauses. -/
theorem tokenize_conjunction {clauses : List String}
    (sound : ∀ clause ∈ clauses, ∀ token ∈ tokenize clause, token.error? = none)
    (stated : ∀ clause ∈ clauses, tokenize clause ≠ []) :
    tokenize (conjunction clauses) = joinedTokens clauses := by
  have nonblank : ∀ clause ∈ clauses, Text.trim clause.toList ≠ [] := by
    intro clause member blank
    have printed := (printed_of_tokenize (sound clause member)).trim
    exact stated clause member (printed.eq_nil_of_nil blank)
  rw [conjunction, parts_eq_map nonblank]
  exact tokenize_of_printed (printed_joined sound)

theorem symbol_mem_of_guarded {clause symbol : String}
    (member : .symbol symbol ∈ guardedTokens clause) : .symbol symbol ∈ tokenize clause := by
  unfold guardedTokens at member
  dsimp only at member
  split at member
  · simpa using member
  · exact member

theorem symbol_mem_of_intercalate {symbol : String} {parts : List (List Token)}
    (member : .symbol symbol ∈ List.intercalate [.operator (.binary .conjunction)] parts) :
    ∃ part ∈ parts, .symbol symbol ∈ part := by
  induction parts with
  | nil => cases member
  | cons part parts ih =>
      cases parts with
      | nil => exact ⟨part, List.mem_cons_self, by simpa using member⟩
      | cons next parts =>
          rw [List.intercalate_cons_cons, List.append_assoc] at member
          rcases List.mem_append.mp member with first | behind
          · exact ⟨part, List.mem_cons_self, first⟩
          · obtain ⟨origin, present, inside⟩ := ih (by simpa using behind)
            exact ⟨origin, List.mem_cons_of_mem _ present, inside⟩

theorem symbol_mem_of_joined {symbol : String} {clauses : List String}
    (member : .symbol symbol ∈ joinedTokens clauses) :
    ∃ clause ∈ clauses, .symbol symbol ∈ tokenize clause := by
  obtain ⟨part, present, inside⟩ := symbol_mem_of_intercalate member
  obtain ⟨clause, origin, rfl⟩ := List.mem_map.mp present
  exact ⟨clause, origin, symbol_mem_of_guarded inside⟩

theorem trim_eq_nil_of_tokenize {clause : String} (empty : tokenize clause = []) :
    Text.trim clause.toList = [] := by
  have printed : Printed [] clause.toList := by
    rw [← empty]
    exact printed_of_tokenize (by simp [empty])
  cases printed with
  | nil spaces =>
      have start : Text.trimStart clause.toList = [] :=
        List.dropWhile_eq_nil_iff.mpr fun c member => isBlank_of_isSpace (spaces c member)
      rw [Text.trim, start]
      rfl

theorem conjunction_filter (clauses : List String) :
    conjunction (clauses.filter (tokenize · ≠ [])) = conjunction clauses := by
  have same : parts (clauses.filter (tokenize · ≠ [])) = parts clauses := by
    induction clauses with
    | nil => rfl
    | cons clause clauses ih =>
        have split : parts (clause :: clauses) = parts [clause] ++ parts clauses :=
          parts_append [clause] clauses
        by_cases empty : tokenize clause = []
        · have nothing : parts [clause] = [] := by simp [parts, trim_eq_nil_of_tokenize empty]
          rw [List.filter_cons_of_neg (by simpa using empty), split, nothing, ih]
          rfl
        · rw [List.filter_cons_of_pos (by simpa using empty), split, ← ih]
          exact parts_append [clause] _
  rw [conjunction, conjunction, same]

theorem tokenize_conjunction_of_sound {clauses : List String}
    (sound : ∀ clause ∈ clauses, ∀ token ∈ tokenize clause, token.error? = none) :
    tokenize (conjunction clauses) = joinedTokens (clauses.filter (tokenize · ≠ [])) := by
  rw [← conjunction_filter]
  refine tokenize_conjunction (fun clause inside => ?_) fun clause inside => ?_
  · exact sound clause (List.mem_filter.mp inside).1
  · simpa using (List.mem_filter.mp inside).2

theorem symbols_conjunction {clauses : List String}
    (sound : ∀ clause ∈ clauses, ∀ token ∈ tokenize clause, token.error? = none) {symbol : String}
    (member : symbol ∈ symbols (conjunction clauses)) :
    ∃ clause ∈ clauses, symbol ∈ symbols clause := by
  rw [mem_symbols, tokenize_conjunction_of_sound sound] at member
  obtain ⟨clause, inside, mentions⟩ := symbol_mem_of_joined member
  exact ⟨clause, (List.mem_filter.mp inside).1, mem_symbols.mpr mentions⟩

end Clause
end OptionTree
