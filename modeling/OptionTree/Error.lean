import OptionTree.Kind
import OptionTree.Numeral
import OptionTree.Token

/-!
# Errors

An error names its cause and what it concerns.  `Error.chain` words it, the widest context first,
and `Error.message` joins that chain into one text.
-/

namespace OptionTree

instance decidableEqExcept {ε α : Type} [DecidableEq ε] [DecidableEq α] :
    DecidableEq (Except ε α)
  | .ok first, .ok second => decidable_of_iff (first = second) ⟨congrArg Except.ok, Except.ok.inj⟩
  | .error first, .error second =>
    decidable_of_iff (first = second) ⟨congrArg Except.error, Except.error.inj⟩
  | .ok _, .error _ => .isFalse nofun
  | .error _, .ok _ => .isFalse nofun

/-- Why an expression has no structure. -/
inductive ParseFailure where
  /-- A piece of it is no token. -/
  | lexical (error : LexicalError)
  /-- A closing parenthesis has no partner. -/
  | unmatchedClosing
  /-- An opening parenthesis has no partner. -/
  | unclosedOpening
  deriving DecidableEq, Repr

/-- Why an expression has no value. -/
inductive EvaluationFailure where
  /-- An operator finds too few operands. -/
  | missingOperand (op : Operator)
  /-- More than one operand is left at the end. -/
  | leftoverOperands (count : Nat)
  /-- No operand is left at the end. -/
  | empty
  /-- A token that belongs into no expression. -/
  | unexpectedToken (text : String)
  deriving DecidableEq, Repr

/-- Why an assignment cannot be read. -/
inductive AssignmentFailure where
  /-- The option has no type. -/
  | missingType
  /-- The type of the option is not known. -/
  | unknownType (name : String)
  /-- The text is no number in the base of the type. -/
  | invalidNumber (raw : String)
  deriving DecidableEq, Repr

/-- Why a value does not fit its option. -/
inductive ValidationFailure where
  /-- The value is no number in base ten. -/
  | notDecimal
  /-- The value is no number in base sixteen. -/
  | notHexadecimal
  /-- The number lies outside of the active range. -/
  | outOfRange (low high : Int)
  deriving DecidableEq, Repr

/-- What can go wrong with an option tree. -/
inductive Error where
  /-- An expression has no structure. -/
  | parse (expression : String) (cause : ParseFailure)
  /-- An expression has no value. -/
  | evaluation (expression : String) (cause : EvaluationFailure)
  /-- A range does not consist of two bounds. -/
  | malformedRange (range : String) (owner : Option String)
  /-- A bound of a range does not denote a number. -/
  | invalidBound (bound : String)
  /-- A value does not fit its option. -/
  | validation (symbol : String) (value : String) (cause : ValidationFailure)
  /-- An assignment cannot be read. -/
  | assignment (line : Nat) (symbol : String) (cause : AssignmentFailure)
  /-- The outermost node is not a menu. -/
  | rootNotMenu (kind : Kind)
  /-- A word declares no kind of node. -/
  | unknownKind (word : String)
  /-- A definition has no value. -/
  | definitionWithoutValue (definition : String)
  /-- A definition is given to something that is no name. -/
  | invalidName (name : String)
  /-- A piece of an expression is no token. -/
  | untokenizable (expression : String) (cause : LexicalError)
  /-- The definitions for an expression cannot be applied. -/
  | applyingDefinitions (cause : Error)
  /-- The value of an entry is needed to compute that value. -/
  | circularValue (entry : Nat)
  /-- Forcing values along selects comes back to an entry without end. -/
  | endlessSelects (entry : Nat)
  deriving DecidableEq, Repr

namespace ParseFailure

/-- The text of a failure. -/
def message : ParseFailure → String
  | lexical error => error.message
  | unmatchedClosing => "unmatched ')'"
  | unclosedOpening => "'(' is never closed"

end ParseFailure

namespace EvaluationFailure

/-- The text of a failure. -/
def message : EvaluationFailure → String
  | missingOperand op => "operator '" ++ op.text ++ "' is missing an operand"
  | leftoverOperands count => toString count ++ " operands left over after reduction"
  | empty => "expression is empty"
  | unexpectedToken text => "unexpected token '" ++ text ++ "'"

end EvaluationFailure

namespace AssignmentFailure

/-- The text of a failure. -/
def message : AssignmentFailure → String
  | missingType => "symbol has no type"
  | unknownType name => "unknown type '" ++ name ++ "'"
  | invalidNumber raw => "'" ++ raw ++ "' is not a valid number"

end AssignmentFailure

namespace ValidationFailure

/-- The text of a failure. -/
def message : ValidationFailure → String
  | notDecimal => "not a decimal integer"
  | notHexadecimal => "not a hexadecimal integer"
  | outOfRange low high =>
    "outside of range [" ++ Numeral.decimal low ++ ", " ++ Numeral.decimal high ++ "]"

end ValidationFailure

namespace Error

/-- The texts of an error from its widest context to its cause. -/
def chain : Error → List String
  | parse expression cause =>
    ["unable to parse expression '" ++ expression ++ "': " ++ cause.message]
  | evaluation expression cause =>
    ["unable to evaluate expression '" ++ expression ++ "': " ++ cause.message]
  | malformedRange range owner =>
    ["malformed range '" ++ range ++ "' on " ++ owner.getD "<none>"]
  | invalidBound bound => ["range bound '" ++ bound ++ "' is not a number"]
  | validation symbol value cause =>
    ["invalid value '" ++ value ++ "' for " ++ symbol ++ ": " ++ cause.message]
  | assignment line symbol cause =>
    ["line " ++ toString line ++ ": cannot import CONFIG_" ++ symbol ++ ": " ++ cause.message]
  | rootNotMenu kind => ["the top-level node must be a menu, found " ++ kind.title]
  | unknownKind word => ["unknown node kind '" ++ word ++ "'"]
  | definitionWithoutValue definition =>
    ["expected NAME[:TYPE]=VALUE, got '" ++ definition ++ "'"]
  | invalidName name => ["'" ++ name ++ "' is not a valid symbol name"]
  | untokenizable expression cause =>
    ["unable to tokenize '" ++ expression ++ "'", cause.message]
  | applyingDefinitions cause => "applying definitions" :: cause.chain
  | circularValue entry => ["the value of #" ++ toString entry ++ " depends on itself"]
  | endlessSelects entry => ["selects from #" ++ toString entry ++ " never come to an end"]

/-- Whether an error stands for a computation that never comes to an end. -/
def isEndless : Error → Bool
  | circularValue _ | endlessSelects _ => true
  | _ => false

/-- The whole text of an error. -/
def message (error : Error) : String := String.intercalate ": " error.chain

end Error
end OptionTree
