import OptionTree.Proofs.Infix
import OptionTree.Proofs.Visibility

/-!
# Operands and operators in an unusual order

An evaluation with two stacks counts operands and operators but does not notice in which order they
come.  What has a value has balanced parentheses and the value of some tree over the same operands,
in their order, and the same operators, in any order.  It is an infix expression exactly if operands
and operators take turns as well.
-/

namespace OptionTree
namespace Token

/-- Whether a token is an operand. -/
def isOperand : Token → Bool
  | symbol _ | quoted _ => true
  | _ => false

/-- The operator in a token. -/
def operator? : Token → Option Operator
  | operator op => some op
  | _ => none

end Token

namespace Expression

namespace Tree

/-- The operands of a tree, from left to right. -/
def leaves : Tree → List Token
  | name symbol => [.symbol symbol]
  | literal content => [.quoted content]
  | negation operand => operand.leaves
  | binary _ left right => left.leaves ++ right.leaves

/-- The operators of a tree. -/
def operators : Tree → List Operator
  | name _ | literal _ => []
  | negation operand => .negation :: operand.operators
  | binary op left right => .binary op :: (left.operators ++ right.operators)

mutual

theorem leaves_of_operand? (tokens : List Token) (parsed : Parsed tokens)
    (found : operand? tokens = some parsed) :
    tokens.filter Token.isOperand = parsed.1.1.leaves ++ parsed.1.2.filter Token.isOperand := by
  match tokens, parsed, found with
  | .symbol symbol :: rest, parsed, found =>
      rw [operand?] at found
      cases found
      rfl
  | .quoted content :: rest, parsed, found =>
      rw [operand?] at found
      cases found
      rfl
  | .operator .negation :: rest, parsed, found =>
      rw [operand?] at found
      obtain ⟨operand, climbed, rfl⟩ := Option.map_eq_some_iff.mp found
      have behind := leaves_of_climb? _ _ _ climbed
      exact behind
  | .opening :: rest, parsed, found =>
      rw [operand?] at found
      split at found
      · rename_i climbed
        cases found
        have behind := leaves_of_climb? _ _ _ climbed
        exact behind
      · cases found
  | [], _, found => simp [operand?] at found
  | .operator (.binary _) :: _, _, found => simp [operand?] at found
  | .closing :: _, _, found => simp [operand?] at found
  | .faulty _ :: _, _, found => simp [operand?] at found
  | .endOfInput :: _, _, found => simp [operand?] at found
termination_by (tokens.length, 0)

theorem leaves_of_climb? (rank : Nat) (tokens : List Token) (parsed : Parsed tokens)
    (found : climb? rank tokens = some parsed) :
    tokens.filter Token.isOperand = parsed.1.1.leaves ++ parsed.1.2.filter Token.isOperand := by
  rw [climb?] at found
  obtain ⟨first, operand, rest⟩ := Option.bind_eq_some_iff.mp found
  obtain ⟨extended, extension, rfl⟩ := Option.map_eq_some_iff.mp rest
  have shorter := first.2
  rw [leaves_of_operand? _ _ operand]
  exact leaves_of_extend? _ _ _ _ extension
termination_by (tokens.length, 1)

theorem leaves_of_extend? (rank : Nat) (left : Tree) (tokens : List Token)
    (parsed : { parsed : Tree × List Token // parsed.2.length ≤ tokens.length })
    (found : extend? rank left tokens = some parsed) :
    left.leaves ++ tokens.filter Token.isOperand =
      parsed.1.1.leaves ++ parsed.1.2.filter Token.isOperand := by
  unfold extend? at found
  split at found
  · split at found
    · obtain ⟨right, climbed, remaining⟩ := Option.bind_eq_some_iff.mp found
      obtain ⟨extended, extension, rfl⟩ := Option.map_eq_some_iff.mp remaining
      have shorter := right.2
      have behind := leaves_of_extend? _ _ _ _ extension
      rw [leaves, List.append_assoc, ← leaves_of_climb? _ _ _ climbed] at behind
      exact behind
    · cases found
      rfl
  · cases found
    rfl
termination_by (tokens.length, 2)
decreasing_by
  all_goals
    subst_vars
    simp only [List.length_cons, Prod.lex_def]
    omega

end

/-- Climbing keeps all operands in their order. -/
theorem leaves_of_parse? {tokens : List Token} {tree : Tree} (parsed : parse? tokens = some tree) :
    tree.leaves = tokens.filter Token.isOperand := by
  rw [parse?] at parsed
  split at parsed
  · rename_i climbed
    cases parsed
    simpa using (leaves_of_climb? _ _ _ climbed).symm
  · cases parsed

end Tree

/-- Whether operands and operators take turns.  Where an operand is due there may be a negation or
an opening parenthesis in front of it, and behind one there may be closing parentheses. -/
def takesTurns : (operandDue : Bool) → List Token → Bool
  | operandDue, [] => !operandDue
  | true, .symbol _ :: rest => takesTurns false rest
  | true, .quoted _ :: rest => takesTurns false rest
  | true, .operator .negation :: rest => takesTurns true rest
  | true, .opening :: rest => takesTurns true rest
  | false, .operator (.binary _) :: rest => takesTurns true rest
  | false, .closing :: rest => takesTurns false rest
  | _, _ => false

/-- How many parentheses are open behind some tokens, if none is closed that was not opened. -/
def nesting? : (depth : Nat) → List Token → Option Nat
  | depth, [] => some depth
  | depth, .opening :: rest => nesting? (depth + 1) rest
  | 0, .closing :: _ => none
  | depth + 1, .closing :: rest => nesting? depth rest
  | depth, _ :: rest => nesting? depth rest

theorem completes_iff (depth : Nat) (operandDue : Bool) (tokens : List Token) :
    Completes BinaryOperator.disjunction.rank depth operandDue tokens ↔
      takesTurns operandDue tokens ∧ nesting? depth tokens = some 0 := by
  have bound : ∀ op : BinaryOperator, op.rank ≤ BinaryOperator.disjunction.rank := by
    intro op
    cases op <;> decide
  induction tokens generalizing depth operandDue with
  | nil => cases operandDue <;> cases depth <;> simp [Completes, takesTurns, nesting?]
  | cons token rest ih =>
      rcases token with name | content | (_ | op) | _ | _ | error | _
      all_goals cases operandDue <;> cases depth
      all_goals simp [Completes, takesTurns, nesting?, ih, bound]

/-- Whether an expression behind some tokens makes these complete, up to the given number of
parentheses that are still open. -/
def Opens : (depth : Nat) → List Token → Prop
  | 0, front => ∀ inner, Derivable inner → Derivable (front ++ inner)
  | depth + 1, front => ∃ outer, Opens depth outer ∧ ∀ inner, Derivable inner →
      ∃ whole, Derivable whole ∧ front ++ inner ++ [.closing] = outer ++ whole

namespace Opens

variable {depth : Nat} {front : List Token}

theorem append (opens : Opens depth front) {more : List Token}
    (keeps : ∀ inner, Derivable inner → Derivable (more ++ inner)) :
    Opens depth (front ++ more) := by
  cases depth with
  | zero =>
      intro inner derivable
      rw [List.append_assoc]
      exact opens _ (keeps inner derivable)
  | succ depth =>
      obtain ⟨outer, opens, closes⟩ := opens
      refine ⟨outer, opens, fun inner derivable => ?_⟩
      obtain ⟨whole, derivable, same⟩ := closes _ (keeps inner derivable)
      exact ⟨whole, derivable, by simpa using same⟩

theorem negation (opens : Opens depth front) : Opens depth (front ++ [.operator .negation]) :=
  opens.append fun _ derivable => .negation derivable

theorem binary (opens : Opens depth front) {left : List Token} (derivable : Derivable left)
    (op : BinaryOperator) : Opens depth (front ++ (left ++ [.operator (.binary op)])) :=
  opens.append fun inner right => by simpa using Derivable.binary op derivable right

theorem opening (opens : Opens depth front) : Opens (depth + 1) (front ++ [.opening]) :=
  ⟨front, opens, fun inner derivable => ⟨_, .parentheses derivable, by simp⟩⟩

/-- What completes an expression behind tokens that open one does so for all of them. -/
theorem derivable_of_completes {rank : Nat} {tokens : List Token} (opens : Opens depth front) :
    (Completes rank depth true tokens → Derivable (front ++ tokens)) ∧
      ∀ left, Derivable left → Completes rank depth false tokens →
        Derivable (front ++ left ++ tokens) := by
  induction tokens generalizing depth front with
  | nil =>
      refine ⟨fun completes => by simp [Completes] at completes, fun left derivable completes => ?_⟩
      cases depth with
      | zero => simpa using opens left derivable
      | succ depth => simp [Completes] at completes
  | cons token rest ih =>
      constructor
      · intro completes
        rcases token with name | content | (_ | op) | _ | _ | error | _
        · simpa using (ih opens).2 _ (.symbol name) (by simpa [Completes] using completes)
        · simpa using (ih opens).2 _ (.quoted content) (by simpa [Completes] using completes)
        · simpa using (ih opens.negation).1 (by simpa [Completes] using completes)
        · simp [Completes] at completes
        · simpa using (ih opens.opening).1 (by simpa [Completes] using completes)
        · simp [Completes] at completes
        · simp [Completes] at completes
        · simp [Completes] at completes
      · intro left derivable completes
        rcases token with name | content | (_ | op) | _ | _ | error | _
        · simp [Completes] at completes
        · simp [Completes] at completes
        · simp [Completes] at completes
        · rw [Completes] at completes
          simpa using (ih (opens.binary derivable op)).1 completes.2
        · simp [Completes] at completes
        · cases depth with
          | zero => simp [Completes] at completes
          | succ depth =>
              -- What is in the parentheses becomes one operand of what is around them.
              obtain ⟨outer, outside, closes⟩ := opens
              obtain ⟨whole, derivable, same⟩ := closes left derivable
              rw [← List.singleton_append, ← List.append_assoc, same]
              exact (ih outside).2 whole derivable (by simpa [Completes] using completes)
        · simp [Completes] at completes
        · simp [Completes] at completes

end Opens

/-- The infix expressions are those tokens that take turns and whose parentheses are balanced. -/
theorem derivable_iff (tokens : List Token) :
    Derivable tokens ↔ takesTurns true tokens ∧ nesting? 0 tokens = some 0 := by
  rw [← completes_iff]
  constructor
  · intro derivable
    have ended : Completes BinaryOperator.disjunction.rank 0 false [] := by simp [Completes]
    simpa using derivable.within.completes (fun _ => Nat.le_refl _) ended
  · intro completes
    have opens : Opens 0 [] := fun _ derivable => derivable
    simpa using opens.derivable_of_completes.1 completes

/-! ## What the stacks hold -/

/-- Whether the operands on a stack have the values of trees with the given leaves that together
with the operators that wait have the given operators. -/
def Assembles (names : Names) (setting : Setting) (operands : List Operand)
    (waiting : List Operator) (leaves : List Token) (operators : List Operator) : Prop :=
  ∃ trees : List Tree,
    List.Forall₂ (fun operand tree => setting.read operand =
      .ok (tree.valueWith setting.complement names setting.mode)) operands trees ∧
    trees.reverse.flatMap Tree.leaves = leaves ∧
    (waiting ++ trees.flatMap Tree.operators).Perm operators

namespace Assembles

variable {names : Names} {setting : Setting} {operands : List Operand} {waiting : List Operator}
  {leaves : List Token} {operators : List Operator}

/-- An operator that is applied becomes the root of a tree. -/
theorem consumes : setting.Consumes fun operands waiting =>
    Assembles names setting operands waiting leaves operators := by
  rintro op waiting operands applied ⟨trees, values, order, counts⟩ application
  rcases Setting.apply_eq_ok application with ⟨operand, rest, value, rfl, rfl, read, rfl⟩ |
    ⟨sort, second, first, rest, left, right, rfl, rfl, readLeft, readRight, rfl⟩
  · obtain ⟨tree, below, own, others, rfl⟩ := List.forall₂_cons_left_iff.mp values
    obtain rfl := Except.ok.inj (read.symm.trans own)
    refine ⟨.negation tree :: below, .cons rfl others, by simpa [Tree.leaves] using order, ?_⟩
    refine List.Perm.trans ?_ counts
    simp [Tree.operators]
  · obtain ⟨upper, under, own, inner, rfl⟩ := List.forall₂_cons_left_iff.mp values
    obtain ⟨lower, below, other, others, rfl⟩ := List.forall₂_cons_left_iff.mp inner
    obtain rfl := Except.ok.inj (readRight.symm.trans own)
    obtain rfl := Except.ok.inj (readLeft.symm.trans other)
    -- The upper operand came later, so it is the right one.
    refine ⟨.binary sort lower upper :: below, .cons rfl others,
      by simpa [Tree.leaves] using order, ?_⟩
    refine List.Perm.trans ?_ counts
    simp only [Tree.operators, List.flatMap_cons, List.cons_append]
    refine List.perm_middle.trans (.cons _ (.append_left _ ?_))
    rw [← List.append_assoc]
    exact .append_right _ List.perm_append_comm

theorem push (assembles : Assembles names setting operands waiting leaves operators)
    {operand : Operand} {tree : Tree} {token : Token}
    (reads : setting.read operand = .ok (tree.valueWith setting.complement names setting.mode))
    (leaf : tree.leaves = [token]) (bare : tree.operators = []) :
    Assembles names setting (operand :: operands) waiting (leaves ++ [token]) operators := by
  obtain ⟨trees, values, rfl, counts⟩ := assembles
  exact ⟨tree :: trees, .cons reads values, by simp [leaf], by simpa [bare] using counts⟩

theorem wait (assembles : Assembles names setting operands waiting leaves operators)
    (op : Operator) :
    Assembles names setting operands (op :: waiting) leaves (operators ++ [op]) := by
  obtain ⟨trees, values, order, counts⟩ := assembles
  exact ⟨trees, values, order, (counts.cons op).trans (List.perm_append_singleton op _).symm⟩

section Tokens

variable
  (known : ∀ symbol, setting.read (.name symbol) =
    .ok ((Tree.name symbol).valueWith setting.complement names setting.mode))
include known

/-- A token adds itself to what is assembled and to the nesting. -/
theorem step {token : Token} {machine next : Machine}
    (assembles : Assembles names setting machine.operands (Pending.operators machine.pending)
      leaves operators) (stepped : setting.step machine token = .ok next) :
    Assembles names setting next.operands (Pending.operators next.pending)
        (leaves ++ [token].filter Token.isOperand)
        (operators ++ [token].filterMap Token.operator?) ∧
      token.error? = none ∧ ∀ rest, nesting? (Pending.parentheses machine.pending) (token :: rest) =
        nesting? (Pending.parentheses next.pending) rest := by
  cases token with
  | symbol name =>
      cases stepped
      refine ⟨?_, rfl, fun rest => ?_⟩
      · simpa [List.filter_cons, List.filterMap_cons, Token.isOperand, Token.operator?]
          using assembles.push (known name) rfl rfl
      · simp [nesting?]
  | quoted content =>
      cases stepped
      refine ⟨?_, rfl, fun rest => ?_⟩
      · have reads : setting.read (.literal content) =
            .ok ((Tree.literal content).valueWith setting.complement names setting.mode) := rfl
        simpa [List.filter_cons, List.filterMap_cons, Token.isOperand, Token.operator?]
          using assembles.push reads rfl rfl
      · simp [nesting?]
  | operator op =>
      have whole : ∀ reduced : Machine,
          Assembles names setting reduced.operands (Pending.operators reduced.pending) leaves
            operators → Assembles names setting reduced.operands
              (Pending.operators (.operator op :: reduced.pending))
              (leaves ++ [Token.operator op].filter Token.isOperand)
              (operators ++ [Token.operator op].filterMap Token.operator?) := by
        intro reduced assembles
        simpa [List.filter_cons, List.filterMap_cons, Token.isOperand, Token.operator?]
          using assembles.wait op
      rcases op with _ | op
      · cases stepped
        exact ⟨whole machine assembles, rfl, fun rest => by simp [nesting?]⟩
      · obtain ⟨reduced, reduction, rfl⟩ := Except.map_eq_ok_iff.mp stepped
        obtain ⟨assembles, same⟩ := consumes.reduce assembles reduction
        exact ⟨whole reduced assembles, rfl, fun rest => by simp [nesting?, same]⟩
  | opening =>
      cases stepped
      refine ⟨?_, rfl, fun rest => ?_⟩
      · simpa [List.filter_cons, List.filterMap_cons, Token.isOperand, Token.operator?]
          using assembles
      · simp [nesting?]
  | closing =>
      obtain ⟨assembles, deeper⟩ := consumes.close assembles stepped
      refine ⟨?_, rfl, fun rest => ?_⟩
      · simpa [List.filter_cons, List.filterMap_cons, Token.isOperand, Token.operator?]
          using assembles
      · simp [nesting?, deeper]
  | faulty error => cases stepped
  | endOfInput => cases stepped

theorem run {tokens : List Token} {machine last : Machine}
    (assembles : Assembles names setting machine.operands (Pending.operators machine.pending)
      leaves operators) (ran : setting.run tokens machine = .ok last) :
    Assembles names setting last.operands (Pending.operators last.pending)
        (leaves ++ tokens.filter Token.isOperand)
        (operators ++ tokens.filterMap Token.operator?) ∧
      (∀ token ∈ tokens, token.error? = none) ∧
      nesting? (Pending.parentheses machine.pending) tokens =
        some (Pending.parentheses last.pending) := by
  induction tokens generalizing machine leaves operators with
  | nil =>
      cases ran
      exact ⟨by simpa using assembles, nofun, by rw [nesting?]⟩
  | cons token tokens ih =>
      obtain ⟨next, stepped, rest⟩ := Except.bind_eq_ok_iff.mp ran
      obtain ⟨assembles, sound, nested⟩ := step known assembles stepped
      obtain ⟨assembles, later, depth⟩ := ih assembles rest
      refine ⟨?_, List.forall_mem_cons.mpr ⟨sound, later⟩, (nested tokens).trans depth⟩
      rw [← List.singleton_append, List.filter_append, List.filterMap_append, ← List.append_assoc,
        ← List.append_assoc]
      exact assembles

end Tokens
end Assembles

/-- Tokens with a value have balanced parentheses, and the value is that of a tree with the same
operands and operators. -/
theorem Setting.tree_of_evaluate {names : Names} {setting : Setting}
    (known : ∀ symbol, setting.read (.name symbol) =
      .ok ((Tree.name symbol).valueWith setting.complement names setting.mode))
    {tokens : List Token} {value : Value} (evaluated : setting.evaluate tokens = .ok value) :
    (∀ token ∈ tokens, token.error? = none) ∧ nesting? 0 tokens = some 0 ∧
      ∃ tree : Tree, tree.leaves = tokens.filter Token.isOperand ∧
        tree.operators.Perm (tokens.filterMap Token.operator?) ∧
        tree.valueWith setting.complement names setting.mode = value := by
  obtain ⟨machine, ran, finished⟩ := Except.bind_eq_ok_iff.mp evaluated
  obtain ⟨left, finished, answered⟩ := Except.bind_eq_ok_iff.mp finished
  let start : Machine := ⟨[], []⟩
  have empty : Assembles names setting start.operands (Pending.operators start.pending) [] [] :=
    ⟨[], .nil, rfl, .nil⟩
  obtain ⟨assembles, sound, nested⟩ := Assembles.run known empty ran
  obtain ⟨⟨trees, values, order, counts⟩, closed⟩ :=
    Assembles.consumes.finish assembles finished
  rw [closed] at nested
  refine ⟨sound, nested, ?_⟩
  match left, values, answered with
  | [operand], .cons reads .nil, answered =>
      rename_i tree
      refine ⟨tree, by simpa using order, by simpa using counts, ?_⟩
      exact Except.ok.inj (reads.symm.trans answered)
  | [], _, answered => cases answered
  | _ :: _ :: _, _, answered => cases answered

/-- The value of an expression is that of some tree with the same operands in order and the same
operators; these take turns exactly in infix expressions, and such ones have values. -/
theorem evaluate_up_to_order (scope : Scope) (mode : Mode) (expression : String) :
    (∀ value, evaluate scope mode expression = .ok value →
      (∀ token ∈ Token.tokenize expression, token.error? = none) ∧
      nesting? 0 (Token.tokenize expression) = some 0 ∧
      ∃ tree : Tree, tree.leaves = (Token.tokenize expression).filter Token.isOperand ∧
        tree.operators.Perm ((Token.tokenize expression).filterMap Token.operator?) ∧
        tree.value (readable scope) mode = value) ∧
    ((∃ value, evaluate scope mode expression = .ok value) ∧
        takesTurns true (Token.tokenize expression) ↔
      Derivable (Token.tokenize expression) ∧
        ∀ symbol ∈ Token.symbols expression, ∀ cause, scope symbol ≠ some (.error cause)) := by
  have known := @Names.read_name (readable scope) mode Numeral.complement expression
  have assembled : ∀ value, evaluate scope mode expression = .ok value →
      (∀ token ∈ Token.tokenize expression, token.error? = none) ∧
      nesting? 0 (Token.tokenize expression) = some 0 ∧
      ∃ tree : Tree, tree.leaves = (Token.tokenize expression).filter Token.isOperand ∧
        tree.operators.Perm ((Token.tokenize expression).filterMap Token.operator?) ∧
        tree.value (readable scope) mode = value := by
    intro value evaluated
    have reads : ∀ symbol, .symbol symbol ∈ Token.tokenize expression →
        ∀ cause, scope symbol ≠ some (.error cause) :=
      fun symbol member => scope_of_evaluate evaluated (Token.mem_symbols.mpr member)
    rw [evaluate, evaluate_readable reads] at evaluated
    exact Setting.tree_of_evaluate known evaluated
  refine ⟨assembled, ⟨?_, ?_⟩⟩
  · rintro ⟨⟨value, evaluated⟩, turns⟩
    exact ⟨(derivable_iff _).mpr ⟨turns, (assembled value evaluated).2.1⟩,
      fun symbol member => scope_of_evaluate evaluated member⟩
  · rintro ⟨derivable, reads⟩
    refine ⟨?_, ((derivable_iff _).mp derivable).1⟩
    obtain ⟨tree, parsed⟩ := derivable.parse?
    have inside : ∀ symbol, .symbol symbol ∈ Token.tokenize expression →
        ∀ cause, scope symbol ≠ some (.error cause) :=
      fun symbol member => reads symbol (Token.mem_symbols.mpr member)
    refine ⟨tree.value (readable scope) mode, ?_⟩
    rw [evaluate, evaluate_readable inside]
    exact Setting.evaluate_of_parse? known parsed

/-- A conjunction behind its operands has the value of a tree although it is no infix expression. -/
theorem evaluate_up_to_order_of_postfix :
    let scope : Scope := fun _ => none
    evaluate scope .truth "m y &&" = .ok (.number 1) ∧
      (∃ tree : Tree, tree.leaves = [.symbol "m", .symbol "y"] ∧
        tree.operators.Perm [.binary .conjunction] ∧
        tree.value (readable scope) .truth = .number 1) ∧
      ¬Derivable (Token.tokenize "m y &&") := by
  intro scope
  have evaluated : evaluate scope .truth "m y &&" = .ok (.number 1) := by decide +kernel
  obtain ⟨assembled, ordered⟩ := evaluate_up_to_order scope .truth "m y &&"
  obtain ⟨-, -, tree, leaves, operators, value⟩ := assembled _ evaluated
  have operands : (Token.tokenize "m y &&").filter Token.isOperand =
      [.symbol "m", .symbol "y"] := by decide +kernel
  have only : (Token.tokenize "m y &&").filterMap Token.operator? = [.binary .conjunction] := by
    decide +kernel
  have turns : takesTurns true (Token.tokenize "m y &&") = false := by decide +kernel
  refine ⟨evaluated, ⟨tree, leaves.trans operands, only ▸ operators, value⟩, fun derivable => ?_⟩
  have both := (ordered.mpr ⟨derivable, fun _ _ _ => nofun⟩).2
  rw [turns] at both
  cases both

/-- An operator behind its operands or in front of them, a negation behind its operand and empty
parentheses behind an operand have values, although they are no infix expressions. -/
theorem evaluate_of_not_derivable :
    let scope : Scope := fun _ => none
    (evaluate scope .truth "A B &&" = .ok (.number 0) ∧ ¬Derivable (Token.tokenize "A B &&")) ∧
    (evaluate scope .truth "&& A B" = .ok (.number 0) ∧ ¬Derivable (Token.tokenize "&& A B")) ∧
    (evaluate scope .truth "A !" = .ok (.number 2) ∧ ¬Derivable (Token.tokenize "A !")) ∧
    (evaluate scope .truth "A ()" = .ok (.number 0) ∧ ¬Derivable (Token.tokenize "A ()")) := by
  intro scope
  have misplaced : ∀ {tokens}, takesTurns true tokens = false → ¬Derivable tokens :=
    fun turns derivable => Bool.false_ne_true (turns.symm.trans ((derivable_iff _).mp derivable).1)
  refine ⟨⟨?_, misplaced ?_⟩, ⟨?_, misplaced ?_⟩, ⟨?_, misplaced ?_⟩, ⟨?_, misplaced ?_⟩⟩
  all_goals decide +kernel

end Expression
end OptionTree
