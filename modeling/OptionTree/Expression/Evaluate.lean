import OptionTree.Error
import OptionTree.OptionType
import OptionTree.Token.Lexer

/-!
# Evaluation of expressions

Tokens are consumed from left to right with two stacks, one of operands and one of operators that
still wait for their right side.  A binary operator first applies the waiting operators that bind
at least as tightly; a negation and an opening parenthesis only wait.  Names keep standing for
themselves on the stack and are read when an operator takes them.
-/

namespace OptionTree

/-- How texts count in an expression. -/
inductive Mode where
  /-- A text other than the letters of states counts as zero. -/
  | truth
  /-- A text other than the letters of states stays a text. -/
  | preserve
  deriving DecidableEq, Repr

/-- What names stand for: nothing for a name that is not declared, which then is a text of its own,
and otherwise the outcome of reading the declared option. -/
abbrev Scope := String → Option (Except Error (Option Value))

namespace Expression

/-- An operand on the stack. -/
inductive Operand where
  /-- A name, not yet read. -/
  | name (symbol : String)
  /-- A quoted text. -/
  | literal (content : String)
  /-- The result of an operator. -/
  | result (n : Int)
  deriving DecidableEq, Repr

/-- What waits on the operator stack. -/
inductive Pending where
  /-- An operator whose right side is not complete. -/
  | operator (op : Operator)
  /-- A parenthesis that is not closed. -/
  | parenthesis
  deriving DecidableEq, Repr

/-- Both stacks, each with its latest item first. -/
structure Machine where
  /-- Operands that no operator has taken. -/
  operands : List Operand
  /-- Operators and parentheses that wait. -/
  pending : List Pending
  deriving DecidableEq, Repr

/-- What an evaluation runs with. -/
structure Setting where
  /-- What names stand for. -/
  scope : Scope
  /-- How texts count. -/
  mode : Mode
  /-- The expression, which errors quote. -/
  expression : String
  /-- What a negation makes of a number. -/
  complement : Int → Int := Numeral.complement

end Expression

namespace Mode

/-- What a text counts as. -/
def settleText (mode : Mode) (content : String) : Value :=
  if content = "y" then .number 2
  else if content = "m" then .number 1
  else match mode with
    | truth => .number 0
    | preserve => .text content

/-- What a value counts as; an absent one counts as zero. -/
def settle (mode : Mode) : Option Value → Value
  | none => .number 0
  | some (.number n) => .number n
  | some (.text content) => mode.settleText content

theorem settle_truth (value : Option Value) :
    Mode.truth.settle value = .number (Mode.truth.settle value).magnitude := by
  rcases value with _ | (n | content)
  · rfl
  · rfl
  · simp only [settle, settleText]
    split
    · rfl
    · split <;> rfl

end Mode

namespace BinaryOperator

/-- The result of an operator on its left and right values. -/
def combine : BinaryOperator → Value → Value → Int
  | equal, left, right => if left = right then 2 else 0
  | unequal, left, right => if left = right then 0 else 2
  | conjunction, left, right => min left.magnitude right.magnitude
  | disjunction, left, right => max left.magnitude right.magnitude

end BinaryOperator

namespace Expression

/-- The value of a name: that of the declared option, or the name itself as a text. -/
def nameValue (scope : Scope) (mode : Mode) (symbol : String) : Except Error Value :=
  match scope symbol with
  | none => .ok (mode.settleText symbol)
  | some reading => reading.map mode.settle

namespace Setting

/-- The value of an operand. -/
def read (setting : Setting) : Operand → Except Error Value
  | .name symbol => nameValue setting.scope setting.mode symbol
  | .literal content => .ok (setting.mode.settleText content)
  | .result n => .ok (.number n)

/-- The error of an expression without structure. -/
def parseError (setting : Setting) (cause : ParseFailure) : Error :=
  .parse setting.expression cause

/-- The error of an expression without value. -/
def evaluationError (setting : Setting) (cause : EvaluationFailure) : Error :=
  .evaluation setting.expression cause

/-- Replaces the operands of an operator by its result. -/
def apply (setting : Setting) : Operator → List Operand → Except Error (List Operand)
  | .negation, operand :: rest =>
    (setting.read operand).bind fun value =>
      .ok (.result (setting.complement value.magnitude) :: rest)
  | .binary op, second :: first :: rest =>
    (setting.read first).bind fun left =>
      (setting.read second).bind fun right => .ok (.result (op.combine left right) :: rest)
  | op, _ => .error (setting.evaluationError (.missingOperand op))

/-- Applies the waiting operators that bind at least as tightly as the given rank. -/
def reduce (setting : Setting) (rank : Nat) :
    List Pending → List Operand → Except Error Machine
  | .operator op :: pending, operands =>
    if op.rank ≤ rank then
      (setting.apply op operands).bind fun operands => setting.reduce rank pending operands
    else .ok ⟨operands, .operator op :: pending⟩
  | pending, operands => .ok ⟨operands, pending⟩

/-- Applies the waiting operators back to the latest open parenthesis, and closes that. -/
def close (setting : Setting) : List Pending → List Operand → Except Error Machine
  | [], _ => .error (setting.parseError .unmatchedClosing)
  | .parenthesis :: pending, operands => .ok ⟨operands, pending⟩
  | .operator op :: pending, operands =>
    (setting.apply op operands).bind fun operands => setting.close pending operands

/-- Applies all waiting operators. -/
def finish (setting : Setting) : List Pending → List Operand → Except Error (List Operand)
  | [], operands => .ok operands
  | .parenthesis :: _, _ => .error (setting.parseError .unclosedOpening)
  | .operator op :: pending, operands =>
    (setting.apply op operands).bind fun operands => setting.finish pending operands

/-- Consumes one token. -/
def step (setting : Setting) (machine : Machine) : Token → Except Error Machine
  | .symbol name => .ok ⟨.name name :: machine.operands, machine.pending⟩
  | .quoted content => .ok ⟨.literal content :: machine.operands, machine.pending⟩
  | .opening => .ok ⟨machine.operands, .parenthesis :: machine.pending⟩
  | .closing => setting.close machine.pending machine.operands
  | .operator .negation => .ok ⟨machine.operands, .operator .negation :: machine.pending⟩
  | .operator (.binary op) =>
    (setting.reduce op.rank machine.pending machine.operands).map fun reduced =>
      ⟨reduced.operands, .operator (.binary op) :: reduced.pending⟩
  | .faulty error => .error (setting.parseError (.lexical error))
  | .endOfInput => .error (setting.evaluationError (.unexpectedToken Token.endOfInput.text))

/-- Consumes a list of tokens. -/
def run (setting : Setting) : List Token → Machine → Except Error Machine
  | [], machine => .ok machine
  | token :: tokens, machine => (setting.step machine token).bind (setting.run tokens)

/-- The value of the only operand that is left. -/
def answer (setting : Setting) : List Operand → Except Error Value
  | [] => .error (setting.evaluationError .empty)
  | [operand] => setting.read operand
  | operands => .error (setting.evaluationError (.leftoverOperands operands.length))

/-- The value of a list of tokens. -/
def evaluate (setting : Setting) (tokens : List Token) : Except Error Value :=
  (setting.run tokens ⟨[], []⟩).bind fun machine =>
    (setting.finish machine.pending machine.operands).bind setting.answer

theorem run_append (setting : Setting) (first second : List Token) (machine : Machine) :
    setting.run (first ++ second) machine =
      (setting.run first machine).bind (setting.run second) := by
  induction first generalizing machine with
  | nil => rfl
  | cons token first ih =>
    rw [List.cons_append, run, run]
    cases setting.step machine token with
    | error _ => rfl
    | ok next => exact ih next

end Setting

/-- The value of an expression. -/
def evaluate (scope : Scope) (mode : Mode) (expression : String) : Except Error Value :=
  Setting.evaluate { scope, mode, expression } (Token.tokenize expression)

/-- Whether an optional condition holds: an absent one does, and otherwise its truth value must be
above zero. -/
def holds (scope : Scope) : Option String → Except Error Bool
  | none => .ok true
  | some condition =>
    (evaluate scope .truth condition).map fun value => decide (0 < value.magnitude)

@[simp]
theorem holds_none (scope : Scope) : holds scope none = .ok true := rfl

end Expression
end OptionTree
