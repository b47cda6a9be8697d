import OptionTree.Proofs.Moves

/-!
# The numbers of an evaluation

A negation takes a number from two.  An interval around one goes over into itself by that, and no
other operator leaves it either, so every number of an evaluation lies in an interval around one
that has the numbers of all names.
-/

namespace OptionTree

/-- Whether a number lies in the interval around one that reaches some way below zero. -/
def Numeral.Within (reach : Nat) (n : Int) : Prop := -reach ≤ n ∧ n ≤ reach + 2

namespace Numeral

variable {reach : Nat} {n other : Int}

theorem within_of_state (low : 0 ≤ n) (high : n ≤ 2) : Within reach n := by
  unfold Within
  omega

theorem within_zero : Within reach 0 := within_of_state (by decide) (by decide)

theorem Within.reflect (within : Within reach n) : Within reach (2 - n) := by
  unfold Within at *
  omega

theorem Within.min (first : Within reach n) (second : Within reach other) :
    Within reach (min n other) := by
  unfold Within at *
  omega

theorem Within.max (first : Within reach n) (second : Within reach other) :
    Within reach (max n other) := by
  unfold Within at *
  omega

/-- No word wraps around where numbers are reflected in an interval of machine numbers. -/
theorem Within.complement_eq (within : Within reach n) (bounded : reach ≤ 9223372036854775805) :
    complement n = 2 - n := by
  unfold Within at within
  rw [complement, Int.bmod_eq_of_le] <;> omega

theorem Within.complement (within : Within reach n) (bounded : reach ≤ 9223372036854775805) :
    Within reach (complement n) :=
  within.complement_eq bounded ▸ within.reflect

theorem within_iff_inRange_reflect :
    Within 9223372036854775805 n ↔ InRange n ∧ InRange (2 - n) := by
  unfold Within InRange
  omega

end Numeral

open Numeral (Within)

variable {reach : Nat}

theorem Mode.within_settleText (mode : Mode) (content : String) :
    Within reach (mode.settleText content).magnitude := by
  unfold settleText
  split
  · exact Numeral.within_of_state (by decide) (by decide)
  split
  · exact Numeral.within_of_state (by decide) (by decide)
  · cases mode <;> exact Numeral.within_zero

/-- No operator on two values leaves an interval that has both. -/
theorem BinaryOperator.within_combine (op : BinaryOperator) {left right : Value}
    (first : Within reach left.magnitude) (second : Within reach right.magnitude) :
    Within reach (op.combine left right) := by
  have truth (condition : Prop) [Decidable condition] :
      Within reach (if condition then 2 else 0) ∧ Within reach (if condition then 0 else 2) := by
    split <;> exact ⟨Numeral.within_of_state (by decide) (by decide),
      Numeral.within_of_state (by decide) (by decide)⟩
  cases op with
  | equal => exact (truth _).1
  | unequal => exact (truth _).2
  | conjunction => exact first.min second
  | disjunction => exact first.max second

namespace Expression
namespace Setting

variable {setting : Setting}

/-- Whether an operand, if it can be read, counts as a number of an interval. -/
def Spans (setting : Setting) (reach : Nat) (operand : Operand) : Prop :=
  ∀ value, setting.read operand = .ok value → Within reach value.magnitude

/-- Whether all operands that stand on the stack or are still ahead count as numbers of an
interval. -/
structure Ranges (setting : Setting) (reach : Nat) (progress : Progress) : Prop where
  /-- The operands of the tokens that are not consumed. -/
  ahead : ∀ token ∈ progress.ahead, ∀ operand ∈ pushed? token, setting.Spans reach operand
  /-- The operands on the stack. -/
  operands : ∀ operand ∈ progress.machine.operands, setting.Spans reach operand

theorem spans_result {n : Int} (within : Within reach n) : setting.Spans reach (.result n) := by
  intro value read
  cases read
  exact within

theorem spans_of_apply (closed : ∀ n, Within reach n → Within reach (setting.complement n))
    {op : Operator} {operands applied : List Operand}
    (spans : ∀ operand ∈ operands, setting.Spans reach operand)
    (applies : setting.apply op operands = .ok applied) :
    ∀ operand ∈ applied, setting.Spans reach operand := by
  rcases apply_eq_ok applies with ⟨operand, rest, value, rfl, rfl, read, rfl⟩ |
    ⟨sort, second, first, rest, left, right, rfl, rfl, readLeft, readRight, rfl⟩
  · obtain ⟨own, behind⟩ := List.forall_mem_cons.mp spans
    exact List.forall_mem_cons.mpr ⟨spans_result (closed _ (own value read)), behind⟩
  · obtain ⟨ownSecond, behind⟩ := List.forall_mem_cons.mp spans
    obtain ⟨ownFirst, behind⟩ := List.forall_mem_cons.mp behind
    have within := sort.within_combine (ownFirst left readLeft) (ownSecond right readRight)
    exact List.forall_mem_cons.mpr ⟨spans_result within, behind⟩

/-- No move leaves the interval. -/
theorem Ranges.move (closed : ∀ n, Within reach n → Within reach (setting.complement n))
    {progress next : Progress} (ranges : setting.Ranges reach progress)
    (move : setting.Moves progress next) : setting.Ranges reach next := by
  obtain ⟨ahead, operands⟩ := ranges
  cases move with
  | application due applies => exact ⟨ahead, spans_of_apply closed operands applies⟩
  | operand pushes =>
      obtain ⟨own, behind⟩ := List.forall_mem_cons.mp ahead
      exact ⟨behind, List.forall_mem_cons.mpr ⟨own _ pushes, operands⟩⟩
  | operator settled => exact ⟨fun token member => ahead token (.tail _ member), operands⟩
  | opening => exact ⟨fun token member => ahead token (.tail _ member), operands⟩
  | closing => exact ⟨fun token member => ahead token (.tail _ member), operands⟩

theorem Ranges.reaches (closed : ∀ n, Within reach n → Within reach (setting.complement n))
    {progress reached : Progress} (ranges : setting.Ranges reach progress)
    (moves : setting.Reaches progress reached) : setting.Ranges reach reached := by
  induction moves with
  | refl => exact ranges
  | tail _ move ih => exact ih.move closed move

theorem ranges_start {tokens : List Token}
    (bounded : ∀ symbol, .symbol symbol ∈ tokens → ∀ n,
      setting.scope symbol = some (.ok (some (.number n))) → Within reach n) :
    setting.Ranges reach (.start tokens) := by
  refine ⟨fun token member operand pushes value read => ?_, List.forall_mem_nil _⟩
  cases token with
  | symbol symbol =>
      cases pushes
      rw [Setting.read, nameValue] at read
      split at read
      · cases read
        exact setting.mode.within_settleText symbol
      · rename_i reading found
        obtain ⟨known, rfl, rfl⟩ := Except.map_eq_ok_iff.mp read
        rcases known with _ | (n | content)
        · exact Numeral.within_zero
        · exact bounded symbol member n found
        · exact setting.mode.within_settleText content
  | quoted content =>
      cases pushes
      cases read
      exact setting.mode.within_settleText content
  | _ => cases pushes

theorem eq_number_of_read {operand : Operand} {value : Value} (truth : setting.mode = .truth)
    (read : setting.read operand = .ok value) : value = .number value.magnitude := by
  cases operand with
  | name symbol =>
      rw [Setting.read, nameValue, truth] at read
      split at read
      · cases read
        exact Mode.settle_truth (some (.text symbol))
      · obtain ⟨known, -, rfl⟩ := Except.map_eq_ok_iff.mp read
        exact Mode.settle_truth known
  | literal content =>
      rw [Setting.read, truth] at read
      cases read
      exact Mode.settle_truth (some (.text content))
  | result n =>
      cases read
      rfl

end Setting

/-- Every number of an evaluation lies in an interval that has the numbers of all names. -/
theorem within_of_evaluate (reach : Nat) (small : reach ≤ 9223372036854775805) {scope : Scope}
    {mode : Mode} {expression : String} {value : Value}
    (evaluated : evaluate scope mode expression = .ok value)
    (bounded : ∀ symbol ∈ Token.symbols expression, ∀ n,
      scope symbol = some (.ok (some (.number n))) → Within reach n) :
    (∀ reached, Setting.Reaches { scope, mode, expression } (.start (Token.tokenize expression))
        reached → ∀ operand ∈ reached.machine.operands,
      Setting.Spans { scope, mode, expression } reach operand) ∧
      Within reach value.magnitude := by
  have start : Setting.Ranges { scope, mode, expression } reach
      (.start (Token.tokenize expression)) :=
    Setting.ranges_start fun symbol member => bounded symbol (Token.mem_symbols.mpr member)
  have closed : ∀ n, Within reach n → Within reach (Numeral.complement n) :=
    fun _ within => within.complement small
  obtain ⟨result, read, path, -⟩ := Setting.exists_done_of_evaluate evaluated
  exact ⟨fun reached moves => (start.reaches closed moves).operands,
    (start.reaches closed path).operands result List.mem_cons_self value read⟩

/-- If all names stand for numbers between -9223372036854775805 and 9223372036854775807, all numbers
on the way of an evaluation lie there, and states lead to states only. -/
theorem evaluate_stays_in_range {scope : Scope} {mode : Mode} {expression : String} {value : Value}
    (evaluated : evaluate scope mode expression = .ok value) :
    let setting : Setting := { scope, mode, expression }
    let start := Progress.start (Token.tokenize expression)
    (∃ result, setting.read result = .ok value ∧ setting.Reaches start (.done result) ∧
      ∀ reached, setting.Reaches start reached → setting.Reaches reached (.done result)) ∧
    ((∀ symbol ∈ Token.symbols expression, ∀ n, scope symbol = some (.ok (some (.number n))) →
        -9223372036854775805 ≤ n ∧ n ≤ 9223372036854775807) →
      (∀ reached, setting.Reaches start reached → ∀ operand ∈ reached.machine.operands,
        ∀ content, setting.read operand = .ok content →
          (-9223372036854775805 ≤ content.magnitude ∧ content.magnitude ≤ 9223372036854775807) ∧
            Numeral.InRange (2 - content.magnitude)) ∧
      -9223372036854775805 ≤ value.magnitude ∧ value.magnitude ≤ 9223372036854775807) ∧
    ((∀ symbol ∈ Token.symbols expression, ∀ n, scope symbol = some (.ok (some (.number n))) →
        0 ≤ n ∧ n ≤ 2) →
      (∀ reached, setting.Reaches start reached → ∀ operand ∈ reached.machine.operands,
        ∀ content, setting.read operand = .ok content →
          0 ≤ content.magnitude ∧ content.magnitude ≤ 2) ∧
      (0 ≤ value.magnitude ∧ value.magnitude ≤ 2) ∧
      (mode = .truth → value = .number 0 ∨ value = .number 1 ∨ value = .number 2)) := by
  intro setting start
  refine ⟨Setting.exists_done_of_evaluate evaluated, fun bounded => ?_, fun bounded => ?_⟩
  · obtain ⟨between, last⟩ :=
      within_of_evaluate 9223372036854775805 (Nat.le_refl _) evaluated bounded
    refine ⟨fun reached moves operand member content read => ?_, last⟩
    have within := between reached moves operand member content read
    exact ⟨within, (Numeral.within_iff_inRange_reflect.mp within).2⟩
  · obtain ⟨between, last⟩ := within_of_evaluate 0 (Nat.zero_le _) evaluated bounded
    refine ⟨between, last, fun truth => ?_⟩
    obtain ⟨result, read, -, -⟩ := Setting.exists_done_of_evaluate evaluated
    rw [Setting.eq_number_of_read truth read]
    obtain ⟨low, high⟩ := last
    simp only [Value.number.injEq]
    omega

/-- Two negations of the highest machine number come to the lowest number of the interval and back
to the highest. -/
theorem evaluate_stays_in_range_of_extremes :
    let scope : Scope := fun symbol =>
      if symbol = "A" then some (.ok (some (.number 9223372036854775807)))
      else if symbol = "B" then some (.ok (some (.text "m")))
      else none
    let setting : Setting := { scope, mode := .truth, expression := "!!A || !B" }
    setting.evaluate (Token.tokenize "!!A || !B") = .ok (.number 9223372036854775807) ∧
      setting.apply .negation [.name "A"] = .ok [.result (-9223372036854775805)] ∧
      ∀ reached, setting.Reaches (.start (Token.tokenize "!!A || !B")) reached →
        ∀ operand ∈ reached.machine.operands, ∀ content, setting.read operand = .ok content →
          (-9223372036854775805 ≤ content.magnitude ∧ content.magnitude ≤ 9223372036854775807) ∧
            Numeral.InRange (2 - content.magnitude) := by
  intro scope setting
  have evaluated : setting.evaluate (Token.tokenize "!!A || !B") =
      .ok (.number 9223372036854775807) := by
    decide +kernel
  refine ⟨evaluated, by decide +kernel, ?_⟩
  refine ((@evaluate_stays_in_range scope .truth _ _ evaluated).2.1 ?_).1
  intro symbol _ n found
  simp only [scope] at found
  split at found
  · cases found
    decide
  · split at found <;> cases found

end Expression
end OptionTree
