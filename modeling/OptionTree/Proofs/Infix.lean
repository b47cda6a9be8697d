import OptionTree.Expression.Grammar
import OptionTree.Proofs.ShuntingYard

/-!
# Infix expressions

Climbing over ranks accepts every infix expression.  An expression that is split at its last
operator of the highest rank has the value that this operator makes of the values of both parts.
-/

namespace OptionTree
namespace Expression

/-- The infix expressions whose operators outside of parentheses have at most the given rank. -/
inductive Within : Nat → List Token → Prop
  /-- A name. -/
  | symbol {rank : Nat} (name : String) : Within rank [.symbol name]
  /-- A quoted text. -/
  | quoted {rank : Nat} (content : String) : Within rank [.quoted content]
  /-- A negation of such an expression. -/
  | negation {rank : Nat} {operand : List Token} :
      Within rank operand → Within rank (.operator .negation :: operand)
  /-- Two such expressions with an operator between them. -/
  | binary {rank : Nat} {left right : List Token} (op : BinaryOperator) (bound : op.rank ≤ rank) :
      Within rank left → Within rank right → Within rank (left ++ .operator (.binary op) :: right)
  /-- Any expression in parentheses. -/
  | parentheses {rank : Nat} {inner : List Token} :
      Within BinaryOperator.disjunction.rank inner → Within rank (.opening :: (inner ++ [.closing]))

theorem Derivable.within {tokens : List Token} (derivable : Derivable tokens) :
    Within BinaryOperator.disjunction.rank tokens := by
  induction derivable with
  | symbol name => exact .symbol name
  | quoted content => exact .quoted content
  | negation _ ih => exact .negation ih
  | binary op _ _ left right => exact .binary op (by cases op <;> decide) left right
  | parentheses _ ih => exact .parentheses ih

theorem Within.derivable {rank : Nat} {tokens : List Token} (within : Within rank tokens) :
    Derivable tokens := by
  induction within with
  | symbol name => exact .symbol name
  | quoted content => exact .quoted content
  | negation _ ih => exact .negation ih
  | binary op _ _ _ left right => exact .binary op left right
  | parentheses _ ih => exact .parentheses ih

/-- Whether some tokens complete an expression that goes on with an operand or an operator, with
`depth` parentheses open and with operators up to a rank outside of all parentheses. -/
def Completes (rank : Nat) : (depth : Nat) → (operandNext : Bool) → List Token → Prop
  | 0, false, [] => True
  | depth, true, .symbol _ :: rest => Completes rank depth false rest
  | depth, true, .quoted _ :: rest => Completes rank depth false rest
  | depth, true, .operator .negation :: rest => Completes rank depth true rest
  | depth, true, .opening :: rest => Completes rank (depth + 1) true rest
  | depth, false, .operator (.binary op) :: rest =>
    (depth = 0 → op.rank ≤ rank) ∧ Completes rank depth true rest
  | depth + 1, false, .closing :: rest => Completes rank depth false rest
  | _, _, _ => False

/-- An expression in front of tokens that go on behind it goes on to the same end. -/
theorem Within.completes {inner rank : Nat} {tokens : List Token} (within : Within inner tokens)
    {depth : Nat} (bound : depth = 0 → inner ≤ rank) {rest : List Token}
    (goesOn : Completes rank depth false rest) : Completes rank depth true (tokens ++ rest) := by
  induction within generalizing depth rest with
  | symbol name => simpa [Completes] using goesOn
  | quoted content => simpa [Completes] using goesOn
  | negation _ ih => simpa [Completes] using ih bound goesOn
  | binary op le _ _ left right =>
      rw [List.append_assoc]
      refine left bound ?_
      simp only [List.cons_append, Completes]
      exact ⟨fun outside => Nat.le_trans le (bound outside), right bound goesOn⟩
  | parentheses _ ih =>
      simp only [List.cons_append, List.append_assoc, List.nil_append, Completes]
      exact ih (fun outside => absurd outside (Nat.succ_ne_zero _))
        (by simpa [Completes] using goesOn)

theorem extend?_of_stops {rank : Nat} {tokens : List Token} (stops : Stops rank tokens)
    (left : Tree) : Tree.extend? rank left tokens = some ⟨(left, tokens), Nat.le_refl _⟩ := by
  unfold Tree.extend?
  split
  · exact if_neg (Nat.not_le_of_lt stops)
  · rfl

theorem stops_or_operator (rank : Nat) (tokens : List Token) :
    Stops rank tokens ∨
      ∃ op rest, tokens = .operator (.binary op) :: rest ∧ op.rank ≤ rank := by
  unfold Stops
  split
  · rename_i op rest
    rcases Nat.lt_or_ge rank op.rank with loose | bound
    · exact .inl loose
    · exact .inr ⟨op, rest, rfl, bound⟩
  · exact .inl trivial

theorem closing_of_stops {rank depth : Nat} {tokens : List Token}
    (completes : Completes rank (depth + 1) false tokens)
    (stops : Stops BinaryOperator.disjunction.rank tokens) :
    ∃ after, tokens = .closing :: after ∧ Completes rank depth false after := by
  match tokens, completes with
  | .closing :: after, completes => exact ⟨after, rfl, by simpa [Completes] using completes⟩
  | .operator (.binary op) :: rest, _ =>
      have tight : op.rank ≤ BinaryOperator.disjunction.rank := by cases op <;> decide
      exact absurd stops (Nat.not_lt_of_le tight)
  | [], completes => simp [Completes] at completes
  | .symbol _ :: _, completes => simp [Completes] at completes
  | .quoted _ :: _, completes => simp [Completes] at completes
  | .operator .negation :: _, completes => simp [Completes] at completes
  | .opening :: _, completes => simp [Completes] at completes
  | .faulty _ :: _, completes => simp [Completes] at completes
  | .endOfInput :: _, completes => simp [Completes] at completes

mutual

theorem operand?_of_completes (rank depth : Nat) (tokens : List Token)
    (completes : Completes rank depth true tokens) :
    ∃ tree after shorter, Tree.operand? tokens = some ⟨(tree, after), shorter⟩ ∧
      Completes rank depth false after := by
  match tokens, completes with
  | .symbol name :: rest, completes =>
      exact ⟨_, rest, _, by rw [Tree.operand?], by simpa [Completes] using completes⟩
  | .quoted content :: rest, completes =>
      exact ⟨_, rest, _, by rw [Tree.operand?], by simpa [Completes] using completes⟩
  | .operator .negation :: rest, completes =>
      obtain ⟨tree, after, _, climbed, goesOn, -⟩ := climb?_of_completes Operator.negation.rank
        rank depth rest (by simpa [Completes] using completes)
      exact ⟨_, after, _, by rw [Tree.operand?, climbed]; rfl, goesOn⟩
  | .opening :: rest, completes =>
      obtain ⟨tree, behind, _, climbed, goesOn, stops⟩ := climb?_of_completes
        BinaryOperator.disjunction.rank rank (depth + 1) rest (by simpa [Completes] using completes)
      obtain ⟨after, rfl, goesOn⟩ := closing_of_stops goesOn stops
      exact ⟨_, after, _, by rw [Tree.operand?, climbed], goesOn⟩
  | [], completes => simp [Completes] at completes
  | .operator (.binary _) :: _, completes => simp [Completes] at completes
  | .closing :: _, completes => simp [Completes] at completes
  | .faulty _ :: _, completes => simp [Completes] at completes
  | .endOfInput :: _, completes => simp [Completes] at completes
termination_by (tokens.length, 0)

theorem climb?_of_completes (climbing rank depth : Nat) (tokens : List Token)
    (completes : Completes rank depth true tokens) :
    ∃ tree after shorter, Tree.climb? climbing tokens = some ⟨(tree, after), shorter⟩ ∧
      Completes rank depth false after ∧ Stops climbing after := by
  obtain ⟨operand, behind, shorter, found, goesOn⟩ :=
    operand?_of_completes rank depth tokens completes
  obtain ⟨tree, after, _, extended, rest⟩ :=
    extend?_of_completes climbing rank depth operand behind goesOn
  exact ⟨tree, after, _, by rw [Tree.climb?, found, Option.bind_some, extended]; rfl, rest⟩
termination_by (tokens.length, 1)

theorem extend?_of_completes (climbing rank depth : Nat) (left : Tree) (tokens : List Token)
    (completes : Completes rank depth false tokens) :
    ∃ tree after shorter, Tree.extend? climbing left tokens = some ⟨(tree, after), shorter⟩ ∧
      Completes rank depth false after ∧ Stops climbing after := by
  rcases stops_or_operator climbing tokens with stops | ⟨op, rest, shape, bound⟩
  · exact ⟨left, tokens, _, extend?_of_stops stops left, completes, stops⟩
  · have longer : rest.length < tokens.length := by simp [shape]
    rw [shape] at completes ⊢
    rw [Completes] at completes
    obtain ⟨right, behind, shorter, climbed, goesOn, -⟩ :=
      climb?_of_completes (op.rank - 1) rank depth rest completes.2
    have further : behind.length < rest.length := shorter
    obtain ⟨tree, after, _, extended, whole⟩ :=
      extend?_of_completes climbing rank depth (.binary op left right) behind goesOn
    exact ⟨tree, after, _,
      by rw [Tree.extend?, if_pos bound, climbed, Option.bind_some, extended]; rfl, whole⟩
termination_by (tokens.length, 2)

end

/-- Climbing up to a rank takes all of an expression whose operators have at most that rank. -/
theorem Within.climb? {rank : Nat} {tokens : List Token} (within : Within rank tokens) :
    ∃ tree shorter, Tree.climb? rank tokens = some ⟨(tree, []), shorter⟩ := by
  have completes : Completes rank 0 true tokens := by
    have ended : Completes rank 0 false [] := by simp [Completes]
    simpa using within.completes (fun _ => Nat.le_refl rank) ended
  obtain ⟨tree, after, shorter, climbed, goesOn, stops⟩ :=
    climb?_of_completes rank rank 0 tokens completes
  match after, goesOn with
  | [], _ => exact ⟨tree, shorter, climbed⟩
  | .operator (.binary op) :: rest, goesOn =>
      rw [Completes] at goesOn
      exact absurd stops (Nat.not_lt_of_le (goesOn.1 rfl))
  | .closing :: _, goesOn => simp [Completes] at goesOn
  | .symbol _ :: _, goesOn => simp [Completes] at goesOn
  | .quoted _ :: _, goesOn => simp [Completes] at goesOn
  | .operator .negation :: _, goesOn => simp [Completes] at goesOn
  | .opening :: _, goesOn => simp [Completes] at goesOn
  | .faulty _ :: _, goesOn => simp [Completes] at goesOn
  | .endOfInput :: _, goesOn => simp [Completes] at goesOn

/-- Every infix expression has a tree. -/
theorem Derivable.parse? {tokens : List Token} (derivable : Derivable tokens) :
    ∃ tree, Tree.parse? tokens = some tree := by
  obtain ⟨tree, shorter, climbed⟩ := derivable.within.climb?
  exact ⟨tree, by rw [Tree.parse?, climbed]⟩

/-- An expression is split at its last operator of the highest rank, unless it has none. -/
theorem Within.split {op : BinaryOperator} {tokens : List Token} (within : Within op.rank tokens) :
    Within (op.rank - 1) tokens ∨
      ∃ left right, tokens = left ++ .operator (.binary op) :: right ∧
        Within op.rank left ∧ Within (op.rank - 1) right := by
  generalize same : op.rank = rank at within
  induction within with
  | symbol name => exact .inl (.symbol name)
  | quoted content => exact .inl (.quoted content)
  | negation _ ih =>
      rcases ih same with tight | ⟨left, right, rfl, inLeft, inRight⟩
      · exact .inl (.negation tight)
      · exact .inr ⟨.operator .negation :: left, right, rfl, .negation inLeft, inRight⟩
  | @binary rank first second other bound inFirst inSecond splitFirst splitSecond =>
      subst same
      rcases splitSecond rfl with tightSecond | ⟨left, right, rfl, inLeft, inRight⟩
      · by_cases loose : other = op
        · subst loose
          exact .inr ⟨first, second, rfl, inFirst, tightSecond⟩
        · have tight : other.rank ≤ op.rank - 1 := by
            have different : other.rank ≠ op.rank := by
              cases other <;> cases op <;> simp_all [BinaryOperator.rank]
            omega
          rcases splitFirst rfl with tightFirst | ⟨left, right, rfl, inLeft, inRight⟩
          · exact .inl (.binary other tight tightFirst tightSecond)
          · refine .inr ⟨left, right ++ .operator (.binary other) :: second, by simp, inLeft, ?_⟩
            exact .binary other tight inRight tightSecond
      · refine .inr ⟨first ++ .operator (.binary other) :: left, right, by simp, ?_, inRight⟩
        exact .binary other bound inFirst inLeft
  | parentheses inner => exact .inl (.parentheses inner)

section Values

variable {names : Names} {setting : Setting}

theorem Within.leaves
    (known : ∀ symbol, setting.read (.name symbol) =
      .ok ((Tree.name symbol).valueWith setting.complement names setting.mode))
    {rank : Nat} {tokens : List Token} (within : Within rank tokens) :
    ∃ value, setting.evaluate tokens = .ok value ∧ Leaves setting rank value tokens [] := by
  obtain ⟨tree, shorter, climbed⟩ := within.climb?
  have leaves := (climb?_leaves known _ _ _ climbed).1
  exact ⟨_, leaves.evaluate, leaves⟩

/-- The value of two expressions with a connective between them, none of whose operators is looser
than the connective or, on the right, as loose. -/
theorem evaluate_connective
    (known : ∀ symbol, setting.read (.name symbol) =
      .ok ((Tree.name symbol).valueWith setting.complement names setting.mode))
    {op : BinaryOperator} (loose : Operator.negation.rank ≤ op.rank) {left right : List Token}
    {first second : Value} (inLeft : Within op.rank left) (inRight : Within (op.rank - 1) right)
    (worthLeft : setting.evaluate left = .ok first)
    (worthRight : setting.evaluate right = .ok second) :
    setting.evaluate (left ++ .operator (.binary op) :: right) =
      .ok (.number (op.combine first second)) := by
  obtain ⟨_, evaluated, residue, -, runsLeft⟩ := inLeft.leaves known
  obtain rfl := Except.ok.inj (evaluated.symm.trans worthLeft)
  obtain ⟨_, evaluated, side, -, runsRight⟩ := inRight.leaves known
  obtain rfl := Except.ok.inj (evaluated.symm.trans worthRight)
  have yields : ∀ waiting ∈ residue.waiting, waiting.rank ≤ op.rank := fun waiting member =>
    Nat.le_trans (residue.tight waiting member) (Nat.max_le.mpr ⟨Nat.le_refl _, loose⟩)
  let whole : Residue setting op.rank _ :=
    .join op (Nat.le_refl _) residue.result residue.reads side
  have settled : setting.step (residue.onto ⟨[], []⟩) (.operator (.binary op)) =
      .ok ⟨[residue.result], [.operator (.binary op)]⟩ := residue.step_binary yields trivial
  have after := runsRight ⟨[residue.result], [.operator (.binary op)]⟩ (blocks_right op _)
  have runs : setting.run (left ++ .operator (.binary op) :: right) ⟨[], []⟩ =
      .ok (whole.onto ⟨[], []⟩) := by
    rw [Setting.run_append, runsLeft ⟨[], []⟩ trivial, Setting.run, Except.ok_bind, Setting.run,
      settled, Except.ok_bind, after]
    simp [Setting.run, whole, Residue.onto, Residue.join]
  rw [Setting.evaluate, runs]
  exact whole.finish_onto_empty

theorem evaluate_parentheses
    (known : ∀ symbol, setting.read (.name symbol) =
      .ok ((Tree.name symbol).valueWith setting.complement names setting.mode))
    {tokens : List Token} (derivable : Derivable tokens) :
    setting.evaluate (.opening :: (tokens ++ [.closing])) = setting.evaluate tokens := by
  obtain ⟨value, evaluated, residue, -, runs⟩ := derivable.within.leaves known
  have inner : setting.run tokens ⟨[], [.parenthesis]⟩ =
      .ok (residue.onto ⟨[], [.parenthesis]⟩) := runs ⟨[], [.parenthesis]⟩ trivial
  have enclosed : setting.run (.opening :: (tokens ++ [.closing])) ⟨[], []⟩ =
      .ok ⟨[residue.result], []⟩ := by
    rw [Setting.run]
    change setting.run (tokens ++ [.closing]) ⟨[], [.parenthesis]⟩ = _
    rw [Setting.run_append, inner, Except.ok_bind, Setting.run, residue.step_closing ⟨[], []⟩]
    rfl
  rw [evaluated, Setting.evaluate, enclosed]
  exact residue.reads

end Values

end Expression
end OptionTree
