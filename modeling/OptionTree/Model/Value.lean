import OptionTree.Expression.Evaluate
import OptionTree.Model.Basic
import OptionTree.Text.Fields

/-!
# Values of entries

The value of an entry is what it was set to, or else the first default that applies, or else the
zero of its type; the implies of other entries raise a switch that was not set.  Computing a value
reads other values, so each rule is first stated over a given reading and then closed under
nesting: a chain of readings without repetition is no longer than the number of entries, and a
chain with a repetition would never end.
-/

namespace OptionTree

/-- How the value of an entry is read. -/
abbrev Reading := EntryId → Except Error (Option Value)

namespace Model

/-- What names stand for if the values of entries are read in a given way. -/
def scopeOf (model : Model) (reading : Reading) : Scope :=
  fun name => (model.lookup name).map reading

/-- The value of the first default that applies, or else the fallback. -/
def defaultValue (scope : Scope) (fallback : Option Value) :
    List Conditional → Except Error (Option Value)
  | [] => .ok fallback
  | default :: rest =>
    (Expression.holds scope default.condition).bind fun applies =>
      if applies then (Expression.evaluate scope .preserve default.value).map some
      else defaultValue scope fallback rest

/-- The highest state that applying implies of one entry pass on to a symbol. -/
def passedOn (scope : Scope) (reading : Reading) (symbol : String) (source : EntryId)
    (level : Tristate) : List Conditional → Except Error Tristate
  | [] => .ok level
  | imply :: rest =>
    if imply.value = symbol then
      (Expression.holds scope imply.condition).bind fun applies =>
        if applies then
          (reading source).bind fun value =>
            passedOn scope reading symbol source (level.sup (Tristate.ofValue? value)) rest
        else passedOn scope reading symbol source level rest
    else passedOn scope reading symbol source level rest

/-- The implies of an entry. -/
def impliesOf (model : Model) (id : EntryId) : List Conditional :=
  ((model.get? id).map fun entry => entry.implies).getD []

/-- The highest state that the given entries pass on to a symbol. -/
def impliedBy (model : Model) (reading : Reading) (symbol : String) (level : Tristate) :
    List EntryId → Except Error Tristate
  | [] => .ok level
  | source :: rest =>
    (passedOn (model.scopeOf reading) reading symbol source level (model.impliesOf source)).bind
      fun level => model.impliedBy reading symbol level rest

/-- The highest state that implies pass on to an entry. -/
def impliedLevel (model : Model) (reading : Reading) (entry : Entry) : Except Error Tristate :=
  match entry.symbol with
  | none => .ok .no
  | some symbol =>
    model.impliedBy reading symbol .no (model.implications.entries symbol)

/-- A computed value, raised to the level that implies demand if that is higher. -/
def raised (computed : Option Value) (level : Tristate) : Option Value :=
  if (Tristate.ofValue? computed).rank < level.rank then some level.toValue else computed

/-- The value of an entry if other values are read in a given way. -/
def valueFrom (model : Model) (reading : Reading) (entry : Entry) :
    Except Error (Option Value) :=
  match entry.override with
  | some value => .ok (some value)
  | none =>
    (defaultValue (model.scopeOf reading) (entry.type.bind OptionType.zero?)
      entry.defaults).bind fun computed =>
        if entry.isSwitch then (model.impliedLevel reading entry).map (raised computed)
        else .ok computed

/-- The value of an entry, with readings nested at most as deep as given. -/
def valueWithin (model : Model) : Nat → Reading
  | 0, id => .error (.circularValue id)
  | depth + 1, id =>
    match model.get? id with
    | none => .ok none
    | some entry => model.valueFrom (model.valueWithin depth) entry

/-- The value of an entry. -/
def value (model : Model) : Reading := model.valueWithin model.size

/-- What names stand for in the conditions of a model. -/
def scope (model : Model) : Scope := model.scopeOf model.value

/-- The state of an entry. -/
def tristate (model : Model) (id : EntryId) : Except Error Tristate :=
  (model.value id).map Tristate.ofValue?

/-- The value of an expression over the symbols of a model. -/
def evaluate (model : Model) (mode : Mode) (expression : String) : Except Error Value :=
  Expression.evaluate model.scope mode expression

/-- Whether an optional condition over the symbols of a model holds. -/
def holds (model : Model) (condition : Option String) : Except Error Bool :=
  Expression.holds model.scope condition

/-- Whether an entry is shown: it has a prompt, and what it depends on and the condition of the
prompt hold. -/
def isVisible (model : Model) (id : EntryId) : Except Error Bool :=
  match (model.get? id).bind fun entry => entry.prompt.map fun prompt => (entry, prompt) with
  | none => .ok false
  | some (entry, prompt) =>
    (model.holds entry.depends?).bind fun shown =>
      if shown then model.holds prompt.condition else .ok false

/-- The number that a value denotes for a type. -/
def numberOf (type : Option OptionType) (value : Value) : Option Int :=
  if type = some .hex then value.hexadecimal? else value.decimal?

/-- The number that the expression of a bound denotes for a type. -/
def bound (model : Model) (type : Option OptionType) (text : String) : Except Error Int :=
  (model.evaluate .preserve text).bind fun value =>
    match numberOf type value with
    | some number => .ok number
    | none => .error (.invalidBound text)

/-- The bounds in the first range that applies. -/
def firstRange (model : Model) (entry : Entry) :
    List Conditional → Except Error (Option (Int × Int))
  | [] => .ok none
  | range :: rest =>
    (model.holds range.condition).bind fun applies =>
      if applies then
        match (Text.words range.value.toList).map String.ofList with
        | [low, high] =>
          (model.bound entry.type low).bind fun low =>
            (model.bound entry.type high).map fun high => some (low, high)
        | _ => .error (.malformedRange range.value entry.symbol)
      else model.firstRange entry rest

/-- The bounds of an entry, if one of its ranges applies. -/
def activeRange (model : Model) (id : EntryId) : Except Error (Option (Int × Int)) :=
  match model.get? id with
  | none => .ok none
  | some entry => model.firstRange entry entry.ranges

/-- Why a value does not denote a number of a type, for the types that demand one. -/
def numberFailure? : OptionType → Option ValidationFailure
  | .int => some .notDecimal
  | .hex => some .notHexadecimal
  | _ => none

/-- Checks that the value of an entry of a number type is a number within its bounds. -/
def validate (model : Model) (id : EntryId) : Except Error Unit :=
  match model.get? id with
  | none => .ok ()
  | some entry =>
    (model.value id).bind fun value =>
      match value, entry.type.bind numberFailure? with
      | some value, some failure =>
        let fails := fun cause => .error (.validation (entry.symbol.getD "") value.display cause)
        match numberOf entry.type value with
        | none => fails failure
        | some number =>
          (model.activeRange id).bind fun bounds =>
            match bounds with
            | none => .ok ()
            | some (low, high) =>
              if number < low ∨ high < number then fails (.outOfRange low high) else .ok ()
      | _, _ => .ok ()

theorem valueWithin_succ (model : Model) (depth : Nat) (id : EntryId) :
    model.valueWithin (depth + 1) id =
      match model.get? id with
      | none => .ok none
      | some entry => model.valueFrom (model.valueWithin depth) entry := rfl

end Model
end OptionTree
