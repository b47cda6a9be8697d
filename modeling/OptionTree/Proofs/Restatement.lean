import OptionTree.Proofs.Mentions
import OptionTree.Proofs.Nesting

/-!
# Values that are set to what they were

An entry can be set to a value of another form that counts the same in conditions: a letter in place
of a number, say.  If some entries are, no condition changes, unless a default tells the two forms
apart, which only comparisons do.
-/

namespace OptionTree

namespace Mode

theorem truth_settle_settle (mode : Mode) (value : Option Value) :
    truth.settle (some (mode.settle value)) = truth.settle value := by
  rcases value with _ | (n | content)
  · rfl
  · rfl
  · by_cases yes : content = "y"
    · simp [settle, settleText, yes]
    · by_cases modular : content = "m"
      · simp [settle, settleText, modular]
      · cases mode <;> simp [settle, settleText, yes, modular]

/-- Modes tell apart texts but not the numbers that values count as. -/
theorem magnitude_settle (mode : Mode) (value : Option Value) :
    (mode.settle value).magnitude = (truth.settle value).magnitude := by
  rcases value with _ | (n | content)
  · rfl
  · rfl
  · cases mode with
    | truth => rfl
    | preserve =>
        simp only [settle, settleText]
        split
        · rfl
        · split <;> rfl

theorem Same.truth {mode : Mode} {first second : Option Value} (same : mode.Same first second) :
    Mode.truth.Same first second := by
  have settled : mode.settle first = mode.settle second := same
  rw [Same, ← truth_settle_settle mode first, settled, truth_settle_settle]

end Mode

namespace Expression

/-- Whether an expression compares values. -/
def Compares (expression : String) : Prop :=
  .operator (.binary .equal) ∈ Token.tokenize expression ∨
    .operator (.binary .unequal) ∈ Token.tokenize expression

instance (expression : String) : Decidable (Compares expression) :=
  inferInstanceAs (Decidable (_ ∨ _))

/-- Whether two values count as the same number and the same in conditions. -/
def Weighs (first second : Value) : Prop :=
  Mode.truth.Same (some first) (some second) ∧ first.magnitude = second.magnitude

theorem blind_of_not_compares {expression : String} (plain : ¬Compares expression) {op : Operator}
    (member : .operator op ∈ Token.tokenize expression) : Setting.Blind Weighs op := by
  obtain ⟨unequal, equal⟩ := not_or.mp plain
  cases op with
  | negation => exact fun _ _ same => same.2
  | binary op =>
      intro left other same right another also
      cases op with
      | equal => exact absurd member unequal
      | unequal => exact absurd member equal
      | conjunction => rw [BinaryOperator.combine, BinaryOperator.combine, same.2, also.2]
      | disjunction => rw [BinaryOperator.combine, BinaryOperator.combine, same.2, also.2]

end Expression

namespace Model

section Defaults

variable {first second : Model} (same : first.bare = second.bare) {cut : Error → Prop}
  {firstReading secondReading : Reading} {expression : String}
include same

theorem evaluate_of_preserved
    (alike : ∀ name ∈ Token.symbols expression, ∀ target, first.lookup name = some target →
      (firstReading target).Alike cut Mode.preserve.Same (secondReading target)) (mode : Mode) :
    ((Expression.evaluate (first.scopeOf firstReading) .preserve expression).map some).Alike cut
      mode.Same
      ((Expression.evaluate (second.scopeOf secondReading) .preserve expression).map some) := by
  refine (evaluate_scopeOf_alike same alike).map ?_
  rintro value _ rfl
  exact .refl mode _

/-- An expression that compares nothing has a value that counts the same if the values that it
mentions do. -/
theorem evaluate_of_not_compares (plain : ¬Expression.Compares expression)
    (alike : ∀ name ∈ Token.symbols expression, ∀ target, first.lookup name = some target →
      (firstReading target).Alike cut Mode.truth.Same (secondReading target)) :
    ((Expression.evaluate (first.scopeOf firstReading) .preserve expression).map some).Alike cut
      Mode.truth.Same
      ((Expression.evaluate (second.scopeOf secondReading) .preserve expression).map some) := by
  have reflexive : ∀ value, Expression.Weighs value value := fun _ => ⟨.refl _ _, rfl⟩
  have settles : ∀ value other, Mode.truth.Same value other →
      Expression.Weighs (Mode.preserve.settle value) (Mode.preserve.settle other) := by
    intro value other counts
    have counts : Mode.truth.settle value = Mode.truth.settle other := counts
    constructor
    · rw [Mode.Same, Mode.truth_settle_settle, Mode.truth_settle_settle, counts]
    · rw [Mode.magnitude_settle _ value, Mode.magnitude_settle _ other, counts]
  have names := fun name mentions => nameValue_alike same reflexive settles (alike name mentions)
  exact (Expression.evaluate_alike reflexive
    (fun op member => Expression.blind_of_not_compares plain member) names).map fun _ _ => And.left

end Defaults

/-- Whether the value of an entry keeps its form in a later model: the entry is set to one that
counts the same even among texts, or its defaults mention only entries of which this is true. -/
inductive Steady (first second : Model) : EntryId → Prop
  /-- The entry is set to a value of the same form. -/
  | set {id : EntryId} {value : Option Value} {again : Value} :
      second.override? id = some again → first.value id = .ok value →
      Mode.preserve.Same value (some again) → Steady first second id
  /-- The entry is not set, and its defaults mention only entries that keep their form. -/
  | computed {id : EntryId} : second.override? id = none →
      (∀ default ∈ first.defaultsOf id, ∀ name ∈ Token.symbols default.value, ∀ target,
        first.lookup name = some target → Steady first second target) → Steady first second id

/-- Whether a later model of the same tree has entries set only to values that count the same as
those before. -/
structure Restates (first second : Model) : Prop where
  /-- Both are models of one tree. -/
  bare : first.bare = second.bare
  /-- What an entry is set to counts the same as the value that it had. -/
  keeps : ∀ id again, second.override? id = some again →
    ∃ value, first.value id = .ok value ∧ Mode.truth.Same value (some again)
  /-- No entry was set before only. -/
  unset : ∀ id, second.override? id = none → first.override? id = none
  /-- Where an entry is not set, the defaults that compare mention only entries that keep their
  form. -/
  steady : ∀ id, second.override? id = none → ∀ default ∈ first.defaultsOf id,
    Expression.Compares default.value → ∀ name ∈ Token.symbols default.value, ∀ target,
      first.lookup name = some target → Steady first second target

namespace Restates

variable {first second : Model}

theorem valueWithin_of_set {mode : Mode} {id : EntryId} {value : Option Value} {again : Value}
    (set : second.override? id = some again) (read : first.value id = .ok value)
    (same : mode.Same value (some again)) (depth : Nat) :
    (first.valueWithin (depth + 1) id).Alike Error.Circular mode.Same
      (second.valueWithin (depth + 1) id) := by
  have own : second.valueWithin (depth + 1) id = .ok (some again) := by
    obtain ⟨entry, found, own⟩ := Option.bind_eq_some_iff.mp set
    rw [valueWithin_succ, found]
    simp only [valueFrom, own]
  rw [own]
  exact (valueWithin_alike_value read (depth + 1)).trans same

variable (restates : first.Restates second)
include restates

theorem valueWithin_of_unset {mode : Mode} {id : EntryId} (unset : second.override? id = none)
    {depth : Nat}
    (alike : ∀ target, (first.valueWithin depth target).Alike Error.Circular Mode.truth.Same
      (second.valueWithin depth target))
    (values : ∀ default ∈ first.defaultsOf id,
      ((Expression.evaluate (first.scopeOf (first.valueWithin depth)) .preserve
          default.value).map some).Alike Error.Circular mode.Same
        ((Expression.evaluate (second.scopeOf (second.valueWithin depth)) .preserve
          default.value).map some)) :
    (first.valueWithin (depth + 1) id).Alike Error.Circular mode.Same
      (second.valueWithin (depth + 1) id) := by
  have set : first.override? id = second.override? id := by
    rw [unset, restates.unset id unset]
  rw [valueWithin_succ, valueWithin_succ, ← get?_of_bare restates.bare set]
  cases found : first.get? id with
  | none => exact .same (.refl mode) _
  | some entry =>
      refine valueFrom_alike restates.bare (fun target _ => alike target) (.refl mode)
        (fun _ _ same => same.truth.ofValue?_eq) found fun default member => values default ?_
      simpa [defaultsOf, found] using member

/-- All values count the same, and those that keep their form are the same even among texts. -/
theorem valueWithin (depth : Nat) (id : EntryId) :
    (first.valueWithin depth id).Alike Error.Circular Mode.truth.Same
        (second.valueWithin depth id) ∧
      (Steady first second id → (first.valueWithin depth id).Alike Error.Circular
        Mode.preserve.Same (second.valueWithin depth id)) := by
  -- One induction carries both: a default that compares needs the second for what it mentions.
  induction depth generalizing id with
  | zero => exact ⟨.inl ⟨id, rfl⟩, fun _ => .inl ⟨id, rfl⟩⟩
  | succ depth ih =>
      cases set : second.override? id with
      | some again =>
          constructor
          · obtain ⟨value, read, same⟩ := restates.keeps id again set
            exact valueWithin_of_set set read same depth
          · rintro (⟨set, read, same⟩ | ⟨unset, -⟩)
            · exact valueWithin_of_set set read same depth
            · cases unset.symm.trans set
      | none =>
          have counts := fun target => (ih target).1
          constructor
          · refine restates.valueWithin_of_unset set counts fun default member => ?_
            by_cases compares : Expression.Compares default.value
            · exact evaluate_of_preserved restates.bare (fun name mentions target found =>
                (ih target).2 (restates.steady id set default member compares name mentions target
                  found)) .truth
            · exact evaluate_of_not_compares restates.bare compares fun _ _ target _ =>
                counts target
          · rintro (⟨own, -, -⟩ | ⟨-, steady⟩)
            · cases set.symm.trans own
            · refine restates.valueWithin_of_unset set counts fun default member => ?_
              exact evaluate_of_preserved restates.bare (fun name mentions target found =>
                (ih target).2 (steady default member name mentions target found)) .preserve

theorem value (id : EntryId) :
    (first.value id).Alike Error.Circular Mode.truth.Same (second.value id) := by
  rw [Model.value, Model.value, ← size_of_bare restates.bare]
  exact (restates.valueWithin first.size id).1

theorem tristate (id : EntryId) :
    (first.tristate id).Alike Error.Circular Eq (second.tristate id) :=
  (restates.value id).map fun _ _ => Mode.Same.ofValue?_eq

theorem evaluate (expression : String) :
    (first.evaluate .truth expression).Alike Error.Circular Eq
      (second.evaluate .truth expression) :=
  evaluate_scopeOf_alike restates.bare fun _ _ target _ => restates.value target

theorem holds (condition : Option String) :
    (first.holds condition).Alike Error.Circular Eq (second.holds condition) :=
  holds_scopeOf_alike restates.bare fun _ _ target _ => restates.value target

theorem isVisible (id : EntryId) :
    (first.isVisible id).Alike Error.Circular Eq (second.isVisible id) :=
  isVisible_alike restates.bare (fun _ _ => restates.holds _) fun _ _ _ _ => restates.holds _

end Restates
end Model
end OptionTree
