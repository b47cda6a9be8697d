import OptionTree.Proofs.Magnitudes
import OptionTree.Proofs.Rearrangement

/-!
# Expressions over states in both modes

Of the letters of the three states, only that of `no` stays a text in the mode that keeps texts.
There a comparison tells it apart from the number of the same state, and the modes agree about a
tree and all its parts exactly if no comparison does that.
-/

namespace OptionTree

namespace Tristate

theorem exists_rank_of_within {n : Int} (within : Numeral.Within 0 n) :
    ∃ state : Tristate, n = state.rank := by
  obtain ⟨low, high⟩ := within
  have states : n = 0 ∨ n = 1 ∨ n = 2 := by omega
  rcases states with rfl | rfl | rfl
  · exact ⟨no, rfl⟩
  · exact ⟨modular, rfl⟩
  · exact ⟨yes, rfl⟩

theorem ofNumber_eq_iff {n other : Int} (within : Numeral.Within 0 n)
    (within' : Numeral.Within 0 other) : ofNumber n = ofNumber other ↔ n = other := by
  obtain ⟨state, rfl⟩ := exists_rank_of_within within
  obtain ⟨state', rfl⟩ := exists_rank_of_within within'
  rw [ofNumber_rank, ofNumber_rank]
  refine ⟨fun same => same ▸ rfl, fun same => rank_injective (by exact_mod_cast same)⟩

end Tristate

namespace Expression

/-- Whether a truth value and a value with texts kept are the same state: both are its number, or
the latter is the letter of `no`. -/
inductive Agree : Value → Value → Prop
  /-- The number of a state. -/
  | number (state : Tristate) : Agree (.number state.rank) (.number state.rank)
  /-- The letter that stays a text. -/
  | letter : Agree (.number 0) (.text "n")

/-- Whether a comparison has the letter of `no` on one side and its number on the other. -/
def Clashes (op : BinaryOperator) (left right : Value) : Prop :=
  (op = .equal ∨ op = .unequal) ∧
    (left = .text "n" ∧ right = .number 0 ∨ left = .number 0 ∧ right = .text "n")

instance (op : BinaryOperator) (left right : Value) : Decidable (Clashes op left right) :=
  inferInstanceAs (Decidable (_ ∧ _))

namespace Agree

variable {first second left right : Value}

theorem magnitude_eq (agree : Agree first second) : first.magnitude = second.magnitude := by
  cases agree <;> rfl

theorem ofValue?_eq (agree : Agree first second) :
    Tristate.ofValue? (some first) = Tristate.ofValue? (some second) := by
  cases agree with
  | number state => rfl
  | letter => decide

theorem within (agree : Agree first second) : Numeral.Within 0 first.magnitude := by
  cases agree with
  | number state => cases state <;> exact Numeral.within_of_state (by decide) (by decide)
  | letter => exact Numeral.within_zero

theorem of_within {n : Int} (within : Numeral.Within 0 n) : Agree (.number n) (.number n) := by
  obtain ⟨state, rfl⟩ := Tristate.exists_rank_of_within within
  exact .number state

/-- An operator makes the same result of the same states, unless it compares the letter of `no` with
its number. -/
theorem combine_eq_iff (op : BinaryOperator) (agree : Agree first second)
    (other : Agree left right) :
    op.combine first left = op.combine second right ↔ ¬Clashes op second right := by
  cases op with
  | conjunction => simp [BinaryOperator.combine, Clashes, agree.magnitude_eq, other.magnitude_eq]
  | disjunction => simp [BinaryOperator.combine, Clashes, agree.magnitude_eq, other.magnitude_eq]
  | equal | unequal =>
      cases agree with
      | number state =>
          cases other with
          | number _ => simp [BinaryOperator.combine, Clashes]
          | letter => cases state <;> simp [BinaryOperator.combine, Clashes, Tristate.rank]
      | letter =>
          cases other with
          | number state => cases state <;> simp [BinaryOperator.combine, Clashes, Tristate.rank]
          | letter => simp [BinaryOperator.combine, Clashes]

end Agree

namespace Tree

/-- A tree and all trees inside it. -/
def parts : Tree → List Tree
  | name symbol => [name symbol]
  | literal content => [literal content]
  | negation operand => negation operand :: operand.parts
  | binary op left right => binary op left right :: (left.parts ++ right.parts)

/-- Whether a tree is a comparison that has the letter of `no` on one side and its number on the
other if texts are kept. -/
def Clash (names : Names) : Tree → Prop
  | binary op left right => Clashes op (left.value names .preserve) (right.value names .preserve)
  | _ => False

instance Clash.decidable (names : Names) : (tree : Tree) → Decidable (tree.Clash names)
  | name _ | literal _ | negation _ => inferInstanceAs (Decidable False)
  | binary op _ _ => inferInstanceAs (Decidable (Clashes op _ _))

/-- Whether both modes have the same state as the value of a tree. -/
def SameState (names : Names) (tree : Tree) : Prop :=
  Tristate.ofValue? (some (tree.value names .truth)) =
    Tristate.ofValue? (some (tree.value names .preserve))

section Bears

variable {names : Names}

/-- Whether the operands of a tree are names that both modes read as the same state. -/
def Bears (names : Names) (tree : Tree) : Prop :=
  ∀ token ∈ tree.leaves, ∃ symbol, token = .symbol symbol ∧
    Agree ((name symbol).value names .truth) ((name symbol).value names .preserve)

theorem bears_binary {op : BinaryOperator} {left right : Tree} :
    (binary op left right).Bears names ↔ left.Bears names ∧ right.Bears names :=
  List.forall_mem_append

theorem Bears.agree {tree : Tree} (bears : tree.Bears names)
    (consistent : ∀ part ∈ tree.parts, ¬part.Clash names) :
    Agree (tree.value names .truth) (tree.value names .preserve) := by
  induction tree with
  | name symbol =>
      obtain ⟨_, same, agree⟩ := bears _ List.mem_cons_self
      cases same
      exact agree
  | literal content =>
      obtain ⟨_, same, -⟩ := bears _ List.mem_cons_self
      cases same
  | negation operand ih =>
      have agree := ih bears (List.forall_mem_cons.mp consistent).2
      rw [value_negation, value_negation, agree.magnitude_eq]
      exact .of_within ((agree.magnitude_eq ▸ agree.within).complement (Nat.zero_le _))
  | binary op left right ihLeft ihRight =>
      obtain ⟨bearsLeft, bearsRight⟩ := bears_binary.mp bears
      obtain ⟨own, inside⟩ := List.forall_mem_cons.mp consistent
      obtain ⟨insideLeft, insideRight⟩ := List.forall_mem_append.mp inside
      have agree := ihLeft bearsLeft insideLeft
      have other := ihRight bearsRight insideRight
      rw [value_binary, value_binary, ← (agree.combine_eq_iff op other).mpr own]
      exact .of_within (op.within_combine agree.within other.within)

/-- A tree and its parts have no clash exactly if all of them have the same state in both modes. -/
theorem Bears.sameState_iff {tree : Tree} (bears : tree.Bears names) :
    (∀ part ∈ tree.parts, part.SameState names) ↔ ∀ part ∈ tree.parts, ¬part.Clash names := by
  induction tree with
  | name symbol =>
      refine iff_of_true ?_ (by simp [parts, Clash])
      rintro part member
      obtain rfl := List.mem_singleton.mp member
      exact (bears.agree (by simp [parts, Clash])).ofValue?_eq
  | literal content =>
      obtain ⟨_, same, -⟩ := bears _ List.mem_cons_self
      cases same
  | negation operand ih =>
      rw [parts, List.forall_mem_cons, List.forall_mem_cons, ih bears]
      refine and_congr_left fun consistent => iff_of_true ?_ id
      have whole : (negation operand).Bears names := bears
      exact (whole.agree (List.forall_mem_cons.mpr ⟨id, consistent⟩)).ofValue?_eq
  | binary op left right ihLeft ihRight =>
      obtain ⟨bearsLeft, bearsRight⟩ := bears_binary.mp bears
      rw [parts, List.forall_mem_cons, List.forall_mem_cons, List.forall_mem_append,
        List.forall_mem_append, ihLeft bearsLeft, ihRight bearsRight]
      refine and_congr_left fun ⟨insideLeft, insideRight⟩ => ?_
      have agree := bearsLeft.agree insideLeft
      have other := bearsRight.agree insideRight
      calc
        (binary op left right).SameState names ↔
            op.combine (left.value names .truth) (right.value names .truth) =
              op.combine (left.value names .preserve) (right.value names .preserve) :=
          Tristate.ofNumber_eq_iff (op.within_combine agree.within other.within)
            (op.within_combine (agree.magnitude_eq ▸ agree.within)
              (other.magnitude_eq ▸ other.within))
        _ ↔ ¬(binary op left right).Clash names := agree.combine_eq_iff op other

end Bears

end Tree

/-- What an option may hold that is a state: nothing, the number of a state or a letter. -/
def stateValues : List (Option Value) :=
  [none, some (.number 0), some (.number 1), some (.number 2), some (.text "y"), some (.text "m"),
    some (.text "n")]

/-- Whether a name is a letter that is not declared, or an option that holds a state. -/
def StandsForState (scope : Scope) (symbol : String) : Prop :=
  (scope symbol = none ∧ symbol ∈ ["y", "m", "n"]) ∨
    ∃ known ∈ stateValues, scope symbol = some (.ok known)

theorem agree_settle {known : Option Value} (state : known ∈ stateValues) :
    Agree (Mode.truth.settle known) (Mode.preserve.settle known) := by
  simp only [stateValues, List.mem_cons, List.not_mem_nil, or_false] at state
  rcases state with rfl | rfl | rfl | rfl | rfl | rfl | rfl
  · exact .number .no
  · exact .number .no
  · exact .number .modular
  · exact .number .yes
  · exact .number .yes
  · exact .number .modular
  · exact .letter

theorem StandsForState.agree {scope : Scope} {symbol : String}
    (stands : StandsForState scope symbol) :
    Agree ((Tree.name symbol).value (readable scope) .truth)
      ((Tree.name symbol).value (readable scope) .preserve) := by
  rcases stands with ⟨unknown, letter⟩ | ⟨known, state, found⟩
  · have held : some (.text symbol) ∈ stateValues := by
      simp only [List.mem_cons, List.not_mem_nil, or_false] at letter
      rcases letter with rfl | rfl | rfl <;> decide
    simp only [Tree.valueWith, readable, unknown]
    exact agree_settle held
  · simp only [Tree.valueWith, readable, found]
    exact agree_settle state

/-- The two modes agree on the state of each part of an expression over states exactly if none of
its comparisons has the letter of `no` on one side and its number on the other. -/
theorem evaluate_both_modes {scope : Scope} {expression : String}
    (derivable : Derivable (Token.tokenize expression))
    (unquoted : ∀ content, .quoted content ∉ Token.tokenize expression)
    (stands : ∀ symbol ∈ Token.symbols expression, StandsForState scope symbol) :
    ∃ tree, Tree.parse? (Token.tokenize expression) = some tree ∧
      (∀ mode, evaluate scope mode expression = .ok (tree.value (readable scope) mode)) ∧
      ((∀ part ∈ tree.parts, part.SameState (readable scope)) ↔
        ∀ part ∈ tree.parts, ¬part.Clash (readable scope)) ∧
      ((∀ part ∈ tree.parts, ¬part.Clash (readable scope)) →
        ∃ truth preserved, evaluate scope .truth expression = .ok truth ∧
          evaluate scope .preserve expression = .ok preserved ∧
          Tristate.ofValue? (some truth) = Tristate.ofValue? (some preserved)) := by
  obtain ⟨tree, parsed⟩ := derivable.parse?
  have reads : ∀ symbol, .symbol symbol ∈ Token.tokenize expression →
      ∀ cause, scope symbol ≠ some (.error cause) := by
    intro symbol member cause failing
    rcases stands symbol (Token.mem_symbols.mpr member) with ⟨unknown, -⟩ | ⟨known, -, found⟩
    · cases failing.symm.trans unknown
    · cases failing.symm.trans found
  have values : ∀ mode,
      evaluate scope mode expression = .ok (tree.value (readable scope) mode) := by
    intro mode
    rw [evaluate, evaluate_readable reads]
    exact Setting.evaluate_of_parse? ((readable scope).read_name mode expression) parsed
  have bears : tree.Bears (readable scope) := by
    intro token member
    rw [Tree.leaves_of_parse? parsed] at member
    obtain ⟨inside, operand⟩ := List.mem_filter.mp member
    cases token with
    | symbol symbol => exact ⟨symbol, rfl, (stands symbol (Token.mem_symbols.mpr inside)).agree⟩
    | quoted content => exact absurd inside (unquoted content)
    | _ => cases operand
  refine ⟨tree, parsed, values, bears.sameState_iff, fun consistent => ?_⟩
  exact ⟨_, _, values .truth, values .preserve, (bears.agree consistent).ofValue?_eq⟩

/-- A letter that is an option's value and one that is not declared are the same text in one mode
and the same number in the other. -/
theorem evaluate_both_modes_of_letters :
    let scope : Scope := fun symbol =>
      if symbol = "A" then some (.ok (some (.text "n")))
      else if symbol = "B" then some (.ok (some (.number 2)))
      else none
    Derivable (Token.tokenize "!(A = n) || B != m") ∧
      (∀ content, .quoted content ∉ Token.tokenize "!(A = n) || B != m") ∧
      (∀ symbol ∈ Token.symbols "!(A = n) || B != m", StandsForState scope symbol) ∧
      ∃ tree, Tree.parse? (Token.tokenize "!(A = n) || B != m") = some tree ∧
        (∀ part ∈ tree.parts, ¬part.Clash (readable scope)) ∧
        ∀ part ∈ tree.parts, part.SameState (readable scope) := by
  intro scope
  have derivable : Derivable (Token.tokenize "!(A = n) || B != m") :=
    (derivable_iff _).mpr ⟨by decide +kernel, by decide +kernel⟩
  have tokens : Token.tokenize "!(A = n) || B != m" =
      [.operator .negation, .opening, .symbol "A", .operator (.binary .equal), .symbol "n",
        .closing, .operator (.binary .disjunction), .symbol "B", .operator (.binary .unequal),
        .symbol "m"] := by decide +kernel
  have unquoted : ∀ content, .quoted content ∉ Token.tokenize "!(A = n) || B != m" := by
    simp [tokens]
  have stands : ∀ symbol ∈ Token.symbols "!(A = n) || B != m", StandsForState scope symbol := by
    intro symbol member
    have listed : symbol = "A" ∨ symbol = "n" ∨ symbol = "B" ∨ symbol = "m" := by
      simpa [tokens] using Token.mem_symbols.mp member
    rcases listed with rfl | rfl | rfl | rfl
    · exact .inr ⟨some (.text "n"), by decide, rfl⟩
    · exact .inl ⟨rfl, by decide⟩
    · exact .inr ⟨some (.number 2), by decide, rfl⟩
    · exact .inl ⟨rfl, by decide⟩
  obtain ⟨tree, parsed, -, same, -⟩ := evaluate_both_modes derivable unquoted stands
  have shape : Tree.parse? (Token.tokenize "!(A = n) || B != m") =
      some (.binary .disjunction (.negation (.binary .equal (.name "A") (.name "n")))
        (.binary .unequal (.name "B") (.name "m"))) := by cbv
  have consistent : ∀ part ∈ tree.parts, ¬part.Clash (readable scope) := by
    obtain rfl := Option.some.inj (parsed.symm.trans shape)
    decide +kernel
  exact ⟨derivable, unquoted, stands, tree, parsed, consistent, same.mpr consistent⟩

/-- An option without a value equals the letter of `no` as a truth value, but not if texts are
kept. -/
theorem evaluate_modes_ne :
    let scope : Scope := fun symbol => if symbol = "A" then some (.ok none) else none
    Derivable (Token.tokenize "A = n") ∧
      (∀ content, .quoted content ∉ Token.tokenize "A = n") ∧
      (∀ symbol ∈ Token.symbols "A = n", StandsForState scope symbol) ∧
      evaluate scope .truth "A = n" = .ok (.number 2) ∧
      evaluate scope .preserve "A = n" = .ok (.number 0) ∧
      Tristate.ofValue? (some (.number 2)) ≠ Tristate.ofValue? (some (.number 0)) := by
  intro scope
  have tokens : Token.tokenize "A = n" =
      [.symbol "A", .operator (.binary .equal), .symbol "n"] := by decide +kernel
  refine ⟨(derivable_iff _).mpr ⟨by decide +kernel, by decide +kernel⟩, by simp [tokens], ?_,
    by decide +kernel, by decide +kernel, by decide⟩
  intro symbol member
  have listed : symbol = "A" ∨ symbol = "n" := by
    simpa [tokens] using Token.mem_symbols.mp member
  rcases listed with rfl | rfl
  · exact .inr ⟨none, by decide, rfl⟩
  · exact .inl ⟨rfl, by decide⟩

end Expression
end OptionTree
