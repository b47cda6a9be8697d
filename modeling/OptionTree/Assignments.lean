import OptionTree.Model.Edit
import OptionTree.Text.Quotes

/-!
# Assignments

An assignment is a line `CONFIG_NAME=VALUE`; white space at its end does not count and other lines
are skipped.  The type of the option decides how the value is read and written.
-/

namespace OptionTree

/-- A line that assigns a value. -/
structure Assignment where
  /-- The number of the line, from one. -/
  line : Nat
  /-- The symbol that is assigned. -/
  symbol : String
  /-- The text behind the equals sign. -/
  raw : String
  deriving DecidableEq, Repr

namespace Assignment

/-- What stands in front of every assigned symbol. -/
def mark : List Char := "CONFIG_".toList

/-- The symbol and the text that a line assigns, if it assigns something. -/
def parts? (line : List Char) : Option (List Char × List Char) :=
  let line := Text.trimEnd line
  if mark.isPrefixOf line then
    (Text.cut? '=' (line.drop mark.length)).filter fun parts =>
      !parts.1.isEmpty && parts.1.all Token.isSymbolChar
  else none

/-- The assignments among numbered lines. -/
def ofLines : Nat → List (List Char) → List Assignment
  | _, [] => []
  | number, line :: rest =>
    match parts? line with
    | some (symbol, raw) =>
      ⟨number, String.ofList symbol, String.ofList raw⟩ :: ofLines (number + 1) rest
    | none => ofLines (number + 1) rest

/-- The assignments in a text. -/
def ofText (text : String) : List Assignment := ofLines 1 (Text.lines text.toList)

/-- The error of an assignment. -/
def error (assignment : Assignment) (cause : AssignmentFailure) : Error :=
  .assignment assignment.line assignment.symbol cause

end Assignment

namespace OptionType

/-- The value that a text denotes for an option with an optional type. -/
def read (raw : String) : Option OptionType → Except AssignmentFailure Value
  | none => .error .missingType
  | some bool | some tristate => .ok (.text raw)
  | some string => .ok (.text (Text.unquoted raw))
  | some int =>
    match Numeral.decimal? raw with
    | some n => .ok (.number n)
    | none => .error (.invalidNumber raw)
  | some hex =>
    match Numeral.hexadecimal? raw with
    | some n => .ok (.number n)
    | none => .error (.invalidNumber raw)
  | some (other name) => .error (.unknownType name)

/-- The text of a value for a type that can be read again. -/
def write? (value : Value) : OptionType → Option String
  | bool | tristate => some (String.singleton (Tristate.ofValue? (some value)).letter)
  | string => some ("\"" ++ value.display ++ "\"")
  | int => some ((value.decimal?.map Numeral.decimal).getD value.display)
  | hex => some ((value.hexadecimal?.map Numeral.hexadecimal).getD value.display)
  | other _ => none

end OptionType

/-- What an import did. -/
structure ImportReport where
  /-- How many lines were applied. -/
  applied : Nat := 0
  /-- The symbols that are not declared, in order. -/
  unknown : List String := []
  /-- The lines that failed, each with the text of its error. -/
  failures : List (Nat × String) := []
  deriving DecidableEq, Repr

namespace ImportReport

/-- The report after one more assignment: whether its symbol was declared, or how it failed. -/
def record (report : ImportReport) (assignment : Assignment) :
    Except Error Bool → ImportReport
  | .ok true => { report with applied := report.applied + 1 }
  | .ok false => { report with unknown := report.unknown ++ [assignment.symbol] }
  | .error error =>
    { report with failures := report.failures ++ [(assignment.line, error.message)] }

end ImportReport

namespace Model

/-- Applies one assignment and tells whether its symbol is declared. -/
def assign (assignment : Assignment) (model : Model) : Run Bool :=
  match model.lookup assignment.symbol with
  | none => Run.done model (.ok false)
  | some id =>
    match OptionType.read assignment.raw ((model.get? id).bind fun entry => entry.type) with
    | .error cause => Run.done model (.error (assignment.error cause))
    | .ok value => (model.set id value).andThen fun model _ => Run.done model (.ok true)

/-- How the report goes on after an assignment, unless its failure stops the import.  An assignment
that never comes to an end is not skipped: nothing comes after it. -/
def settle (policy : ImportPolicy) (report : ImportReport) (assignment : Assignment) :
    Except Error Bool → Except Error ImportReport
  | .ok declared => .ok (report.record assignment (.ok declared))
  | .error error =>
    if policy = .skip ∧ error.isEndless = false then .ok (report.record assignment (.error error))
    else .error error

/-- Applies assignments in order. -/
def assignAll (report : ImportReport) : List Assignment → Model → Run ImportReport
  | [], model => Run.done model (.ok report)
  | assignment :: rest, model =>
    let attempt := model.assign assignment
    let settled : Run ImportReport :=
      ⟨attempt.model, attempt.notices,
        settle model.options.importPolicy report assignment attempt.outcome⟩
    settled.andThen fun model report => assignAll report rest model

/-- Applies the assignments in a text. -/
def importText (model : Model) (text : String) : Run ImportReport :=
  assignAll {} (Assignment.ofText text) model

/-- The assignment of the current value of an entry: nothing without symbol, type or value, or
with a type that cannot be read. -/
def exportEntry (model : Model) (id : EntryId) (entry : Entry) :
    Except Error (Option (String × String)) :=
  match entry.symbol, entry.type with
  | some symbol, some type =>
    (model.value id).map fun value =>
      (value.bind fun value => type.write? value).map fun text => (symbol, text)
  | _, _ => .ok none

/-- The assignments of the current values of some entries, numbered from an identifier on. -/
def exportFrom (model : Model) (id : EntryId) :
    List Entry → Except Error (List (String × String))
  | [] => .ok []
  | entry :: rest =>
    (model.exportEntry id entry).bind fun line =>
      (model.exportFrom (id + 1) rest).map fun lines => line.toList ++ lines

/-- The line that assigns a text to a symbol. -/
def assignmentLine (assignment : String × String) : String :=
  String.ofList Assignment.mark ++ assignment.1 ++ "=" ++ assignment.2 ++ "\n"

/-- The assignments of all current values, one in each line. -/
def exportText (model : Model) : Except Error String :=
  (model.exportFrom 0 model.entries).map fun lines => String.join (lines.map assignmentLine)

end Model
end OptionTree
