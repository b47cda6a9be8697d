import OptionTree.Proofs.Infix
import Mathlib.Order.MinMax

/-!
# Alternatives of an expression

The disjunctions outside of all parentheses divide an expression into alternatives.  Counted as a
truth value, the expression is the highest of its alternatives, and conjunctions between
expressions without such a disjunction are the lowest of these.
-/

namespace OptionTree
namespace Expression

theorem Within.mono {narrow wide : Nat} {tokens : List Token} (within : Within narrow tokens)
    (le : narrow ≤ wide) : Within wide tokens := by
  induction within with
  | symbol name => exact .symbol name
  | quoted content => exact .quoted content
  | negation _ ih => exact .negation (ih le)
  | binary op bound _ _ left right => exact .binary op (Nat.le_trans bound le) (left le) (right le)
  | parentheses inner _ => exact .parentheses inner

/-- Whatever holds of expressions without an operator of the given rank, and is kept when one of
them is added behind such an operator, holds of all expressions up to that rank. -/
theorem Within.split_induction {op : BinaryOperator}
    {motive : (tokens : List Token) → Within op.rank tokens → Prop}
    (tight : ∀ tokens within, Within (op.rank - 1) tokens → motive tokens within)
    (joined : ∀ left right inLeft whole, Within (op.rank - 1) right → motive left inLeft →
      motive (left ++ .operator (.binary op) :: right) whole)
    {tokens : List Token} (within : Within op.rank tokens) : motive tokens within := by
  induction size : tokens.length using Nat.strong_induction_on generalizing tokens with
  | _ length ih =>
      rcases within.split with single | ⟨left, right, rfl, inLeft, inRight⟩
      · exact tight tokens within single
      · have shorter : left.length < length := by
          simp only [List.length_append, List.length_cons] at size
          omega
        exact joined left right inLeft within inRight (ih left.length shorter inLeft rfl)

/-- The number of open parentheses behind a token. -/
def levelAfter (depth : Nat) : Token → Nat
  | .opening => depth + 1
  | .closing => depth - 1
  | _ => depth

@[simp]
theorem levelAfter_operator (depth : Nat) (op : Operator) :
    levelAfter depth (.operator op) = depth := rfl

theorem levelAfter_of_ne {token : Token} (opening : token ≠ .opening) (closing : token ≠ .closing)
    (depth : Nat) : levelAfter depth token = depth := by
  cases token <;> first | rfl | contradiction

/-- The parts between the disjunctions outside of all parentheses, if the given number of
parentheses is open in front of the tokens. -/
def alternatives : Nat → List Token → List (List Token)
  | _, [] => [[]]
  | depth, token :: rest =>
    if depth = 0 ∧ token = .operator (.binary .disjunction) then [] :: alternatives 0 rest
    else (alternatives (levelAfter depth token) rest).modifyHead (token :: ·)

/-- Two lists of parts one behind the other, with the last part of the first list going on in the
first part of the second one. -/
def goingOn {α : Type} (first second : List (List α)) : List (List α) :=
  first.dropLast ++ second.modifyHead (first.getLastD [] ++ ·)

theorem goingOn_append {α : Type} (before : List (List α)) (part : List α)
    (second : List (List α)) :
    goingOn (before ++ [part]) second = before ++ second.modifyHead (part ++ ·) := by
  simp [goingOn]

theorem alternatives_ne_nil (depth : Nat) (tokens : List Token) :
    alternatives depth tokens ≠ [] := by
  induction tokens generalizing depth with
  | nil => simp [alternatives]
  | cons token rest ih =>
      rw [alternatives]
      split
      · simp
      · simpa using ih (levelAfter depth token)

theorem mem_of_mem_alternatives {depth : Nat} {tokens part : List Token} {token : Token}
    (member : part ∈ alternatives depth tokens) (inside : token ∈ part) : token ∈ tokens := by
  induction tokens generalizing depth part with
  | nil =>
      obtain rfl : part = [] := by simpa [alternatives] using member
      cases inside
  | cons first rest ih =>
      rw [alternatives] at member
      split at member
      · rcases List.mem_cons.mp member with rfl | later
        · cases inside
        · exact List.mem_cons_of_mem _ (ih later inside)
      · obtain ⟨head, parts, shape⟩ :=
          List.exists_cons_of_ne_nil (alternatives_ne_nil (levelAfter depth first) rest)
        rw [shape, List.modifyHead_cons] at member
        rcases List.mem_cons.mp member with rfl | later
        · rcases List.mem_cons.mp inside with rfl | inside
          · exact List.mem_cons_self
          · exact List.mem_cons_of_mem _ (ih (shape ▸ List.mem_cons_self) inside)
        · exact List.mem_cons_of_mem _ (ih (shape ▸ List.mem_cons_of_mem _ later) inside)

theorem alternatives_disjunction (rest : List Token) :
    alternatives 0 (.operator (.binary .disjunction) :: rest) = [] :: alternatives 0 rest := by
  simp [alternatives]

theorem alternatives_conjunction (rest : List Token) :
    alternatives 0 (.operator (.binary .conjunction) :: rest) =
      (alternatives 0 rest).modifyHead (.operator (.binary .conjunction) :: ·) := by
  simp [alternatives, levelAfter]

theorem Within.alternatives_append {rank : Nat} {tokens : List Token} (within : Within rank tokens)
    {depth : Nat} (inside : depth = 0 → rank < BinaryOperator.disjunction.rank)
    (rest : List Token) :
    alternatives depth (tokens ++ rest) = (alternatives depth rest).modifyHead (tokens ++ ·) := by
  induction within generalizing depth rest with
  | symbol name => simp [alternatives, levelAfter]
  | quoted content => simp [alternatives, levelAfter]
  | negation _ ih => simp [alternatives, levelAfter, ih inside, Function.comp_def]
  | @binary rank left right op bound _ _ ihLeft ihRight =>
      have undivided : ¬(depth = 0 ∧ Token.operator (.binary op) =
          .operator (.binary .disjunction)) := by
        rintro ⟨outside, same⟩
        cases same
        exact Nat.not_lt_of_le bound (inside outside)
      rw [List.append_assoc, List.cons_append, ihLeft inside, alternatives, if_neg undivided,
        levelAfter_operator, ihRight inside]
      simp [Function.comp_def]
  | parentheses _ ih =>
      simp only [List.cons_append, List.append_assoc, List.nil_append]
      rw [alternatives, if_neg (by simp), levelAfter, ih (by simp), alternatives, if_neg (by simp),
        levelAfter]
      simp [Function.comp_def]

theorem Within.alternatives_eq {rank : Nat} {tokens : List Token} (within : Within rank tokens)
    (inside : rank < BinaryOperator.disjunction.rank) : alternatives 0 tokens = [tokens] := by
  have whole := within.alternatives_append (fun _ : 0 = 0 => inside) []
  simpa [alternatives] using whole

theorem alternatives_append {tokens : List Token}
    (within : Within BinaryOperator.disjunction.rank tokens) (rest : List Token) :
    alternatives 0 (tokens ++ rest) = goingOn (alternatives 0 tokens) (alternatives 0 rest) := by
  induction within using Within.split_induction generalizing rest with
  | tight tokens _ tight =>
      rw [tight.alternatives_append (fun _ => by decide), tight.alternatives_eq (by decide)]
      rfl
  | joined left right inLeft _ inRight ih =>
      have divided : ∀ after, alternatives 0
          ((left ++ .operator (.binary .disjunction) :: right) ++ after) =
            goingOn (alternatives 0 left)
              ([] :: (alternatives 0 after).modifyHead (right ++ ·)) := by
        intro after
        rw [List.append_assoc, List.cons_append, ih, alternatives_disjunction,
          inRight.alternatives_append fun _ => by decide]
      have alone := divided []
      rw [List.append_nil] at alone
      rw [divided rest, alone]
      simp [goingOn, alternatives]

theorem goingOn_nil_cons {α : Type} {first : List (List α)} (nonempty : first ≠ [])
    (second : List (List α)) : goingOn first ([] :: second) = first ++ second := by
  obtain ⟨before, part, rfl⟩ := (List.eq_nil_or_concat first).resolve_left nonempty
  simp [goingOn_append]

theorem alternatives_join {left right : List Token}
    (inLeft : Within BinaryOperator.disjunction.rank left)
    (inRight : Within BinaryOperator.conjunction.rank right) :
    alternatives 0 (left ++ .operator (.binary .disjunction) :: right) =
      alternatives 0 left ++ [right] := by
  rw [alternatives_append inLeft, alternatives_disjunction, inRight.alternatives_eq (by decide)]
  exact goingOn_nil_cons (alternatives_ne_nil 0 left) [right]

/-- Every alternative is an expression without a disjunction outside of parentheses. -/
theorem within_of_mem_alternatives {tokens part : List Token}
    (within : Within BinaryOperator.disjunction.rank tokens)
    (member : part ∈ alternatives 0 tokens) : Within BinaryOperator.conjunction.rank part := by
  induction within using Within.split_induction with
  | tight tokens _ tight =>
      have tight : Within BinaryOperator.conjunction.rank tokens := tight
      rw [tight.alternatives_eq (by decide)] at member
      obtain rfl := List.mem_singleton.mp member
      exact tight
  | joined left right inLeft _ inRight ih =>
      rw [alternatives_join inLeft inRight] at member
      rcases List.mem_append.mp member with earlier | last
      · exact ih earlier
      · obtain rfl := List.mem_singleton.mp last
        exact inRight

theorem Within.conjunction_of_alternatives {tokens : List Token}
    (within : Within BinaryOperator.disjunction.rank tokens)
    (single : (alternatives 0 tokens).length ≤ 1) :
    Within BinaryOperator.conjunction.rank tokens := by
  rcases within.split with tight | ⟨left, right, rfl, inLeft, inRight⟩
  · exact tight
  · rw [alternatives_join inLeft inRight, List.length_append, List.length_singleton] at single
    exact absurd (List.length_eq_zero_iff.mp (by omega)) (alternatives_ne_nil 0 left)

/-- The number that some tokens count as; tokens without a value count as zero. -/
def weight (scope : Scope) (tokens : List Token) : Int :=
  match Setting.evaluate { scope, mode := .truth, expression := "" } tokens with
  | .ok value => value.magnitude
  | .error _ => 0

section Weights

variable {names : Names}

theorem Tree.value_truth (names : Names) (tree : Tree) :
    tree.value names .truth = .number (tree.value names .truth).magnitude := by
  cases tree with
  | name symbol =>
      simp only [Tree.valueWith]
      cases names symbol with
      | none => exact Mode.settle_truth (some (.text symbol))
      | some reading => exact Mode.settle_truth reading
  | literal content => exact Mode.settle_truth (some (.text content))
  | negation operand => rfl
  | binary op left right => rfl

theorem evaluate_eq_weight {tokens : List Token} (derivable : Derivable tokens)
    (expression : String) :
    Setting.evaluate { scope := names.scope, mode := .truth, expression } tokens =
      .ok (.number (weight names.scope tokens)) := by
  obtain ⟨tree, parsed⟩ := derivable.parse?
  have quoting : ∀ quoted, Setting.evaluate
      { scope := names.scope, mode := .truth, expression := quoted } tokens =
        .ok (tree.value names .truth) := fun quoted =>
    Setting.evaluate_of_parse? (names.read_name .truth quoted) parsed
  rw [weight, quoting, quoting]
  exact congrArg Except.ok (tree.value_truth names)

/-- A connective whose result does not depend on how its operands are grouped combines the weights
of any two expressions up to its rank. -/
theorem weight_connective {op : BinaryOperator} (loose : Operator.negation.rank ≤ op.rank)
    (associative : ∀ a b c : Int, op.combine (.number (op.combine (.number a) (.number b)))
      (.number c) = op.combine (.number a) (.number (op.combine (.number b) (.number c))))
    {left right : List Token} (inLeft : Within op.rank left) (inRight : Within op.rank right) :
    weight names.scope (left ++ .operator (.binary op) :: right) =
      op.combine (.number (weight names.scope left)) (.number (weight names.scope right)) := by
  have tight : ∀ {first second : List Token}, Within op.rank first → Within (op.rank - 1) second →
      weight names.scope (first ++ .operator (.binary op) :: second) =
        op.combine (.number (weight names.scope first)) (.number (weight names.scope second)) := by
    intro first second inFirst inSecond
    have evaluated := evaluate_connective (names.read_name .truth "") loose inFirst inSecond
      (evaluate_eq_weight inFirst.derivable "") (evaluate_eq_weight inSecond.derivable "")
    rw [weight, evaluated]
    rfl
  induction inRight using Within.split_induction generalizing left with
  | tight right _ inRight => exact tight inLeft inRight
  | joined first second inFirst _ inSecond ih =>
      have regrouped : left ++ .operator (.binary op) ::
            (first ++ .operator (.binary op) :: second) =
          (left ++ .operator (.binary op) :: first) ++ .operator (.binary op) :: second := by simp
      rw [regrouped, tight (.binary op (Nat.le_refl _) inLeft inFirst) inSecond, ih inLeft,
        tight inFirst inSecond]
      exact associative ..

theorem weight_disjunction {left right : List Token}
    (inLeft : Within BinaryOperator.disjunction.rank left)
    (inRight : Within BinaryOperator.disjunction.rank right) :
    weight names.scope (left ++ .operator (.binary .disjunction) :: right) =
      max (weight names.scope left) (weight names.scope right) := by
  refine weight_connective (by decide) ?_ inLeft inRight
  exact max_assoc

theorem weight_conjunction {left right : List Token}
    (inLeft : Within BinaryOperator.conjunction.rank left)
    (inRight : Within BinaryOperator.conjunction.rank right) :
    weight names.scope (left ++ .operator (.binary .conjunction) :: right) =
      min (weight names.scope left) (weight names.scope right) := by
  refine weight_connective (by decide) ?_ inLeft inRight
  exact min_assoc

/-- The weight of an expression is the highest one of its alternatives. -/
theorem weight_alternatives {tokens : List Token}
    (within : Within BinaryOperator.disjunction.rank tokens) :
    ((alternatives 0 tokens).map (weight names.scope)).max? = some (weight names.scope tokens) := by
  induction within using Within.split_induction with
  | tight tokens _ tight =>
      have tight : Within BinaryOperator.conjunction.rank tokens := tight
      rw [tight.alternatives_eq (by decide)]
      rfl
  | joined left right inLeft _ inRight ih =>
      have inRight : Within BinaryOperator.conjunction.rank right := inRight
      rw [alternatives_join inLeft inRight,
        weight_disjunction inLeft (inRight.mono (by decide)), List.max?_eq_some_iff]
      obtain ⟨highest, bound⟩ := List.max?_eq_some_iff.mp ih
      simp only [List.map_append, List.map_cons, List.map_nil, List.mem_append, List.mem_singleton]
      constructor
      · rcases max_choice (weight names.scope left) (weight names.scope right) with same | same
        · exact .inl (by rwa [same])
        · exact .inr same
      · rintro worth (earlier | rfl)
        · exact le_max_of_le_left (bound worth earlier)
        · exact le_max_right _ _

theorem weight_intercalate {parts : List (List Token)} (nonempty : parts ≠ [])
    (undivided : ∀ part ∈ parts, Within BinaryOperator.conjunction.rank part) :
    Within BinaryOperator.conjunction.rank
        (List.intercalate [.operator (.binary .conjunction)] parts) ∧
      (parts.map (weight names.scope)).min? =
        some (weight names.scope (List.intercalate [.operator (.binary .conjunction)] parts)) := by
  induction parts with
  | nil => exact absurd rfl nonempty
  | cons part parts ih =>
      have first := undivided part List.mem_cons_self
      cases parts with
      | nil =>
          rw [List.intercalate_singleton]
          exact ⟨first, rfl⟩
      | cons next parts =>
          obtain ⟨within, lowest⟩ := ih (by simp) fun other member =>
            undivided other (List.mem_cons_of_mem _ member)
          rw [List.intercalate_cons_cons, List.append_assoc, List.singleton_append, List.map_cons,
            List.min?_cons, lowest, weight_conjunction first within]
          exact ⟨.binary .conjunction (Nat.le_refl _) first within, rfl⟩

end Weights

end Expression
end OptionTree
