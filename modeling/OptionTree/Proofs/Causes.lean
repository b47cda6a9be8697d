import OptionTree.Proofs.Bottom
import OptionTree.Proofs.Footprint
import OptionTree.Proofs.Import

/-!
# Why edits fail

An edit fails because an expression has no value, a range has no bounds, a value does not fit, or
values or selects never come to an end.  No edit fails as an assignment does that cannot be read, so
such an assignment is told apart from one whose value cannot be set.
-/

namespace Except

variable {ε α β : Type} {causes : ε → Prop}

/-- Whether an outcome fails, if at all, for one of some causes. -/
def FailsOnly (causes : ε → Prop) (outcome : Except ε α) : Prop :=
  ∀ cause, outcome = .error cause → causes cause

namespace FailsOnly

theorem ok (a : α) : FailsOnly causes (.ok a) := nofun

theorem error {cause : ε} (known : causes cause) : FailsOnly causes (.error cause : Except ε α) :=
  fun _ same => Except.error.inj same ▸ known

theorem bind {outcome : Except ε α} {next : α → Except ε β} (first : outcome.FailsOnly causes)
    (later : ∀ a, (next a).FailsOnly causes) : (outcome.bind next).FailsOnly causes := by
  cases outcome with
  | error cause => exact error (first cause rfl)
  | ok a => exact later a

theorem map {outcome : Except ε α} {change : α → β} (first : outcome.FailsOnly causes) :
    (outcome.map change).FailsOnly causes := by
  cases outcome with
  | error cause => exact error (first cause rfl)
  | ok a => exact ok (change a)

end FailsOnly
end Except

namespace OptionTree

open Except (FailsOnly)

/-- The errors of edits: those of expressions, of ranges, of values that do not fit, and of what
never comes to an end. -/
def Error.OfEdit : Error → Prop
  | parse _ _ | evaluation _ _ | malformedRange _ _ | invalidBound _ | validation _ _ _
  | circularValue _ | endlessSelects _ => True
  | _ => False

/-- The errors of edits other than those of what never comes to an end. -/
def Error.Reached : Error → Prop
  | parse _ _ | evaluation _ _ | malformedRange _ _ | invalidBound _ | validation _ _ _ => True
  | _ => False

theorem Error.Reached.ofEdit {error : Error} (reached : error.Reached) : error.OfEdit := by
  cases error <;> trivial

theorem Error.Reached.isEndless_eq_false {error : Error} (reached : error.Reached) :
    error.isEndless = false := by
  cases error <;> first | rfl | cases reached

/-- The errors of an expression whose names can be read: they quote it, and none of them is about a
token that belongs into no expression. -/
def Error.OfExpression (expression : String) : Error → Prop
  | parse quoted _ => quoted = expression
  | evaluation _ (.unexpectedToken _) => False
  | evaluation quoted _ => quoted = expression
  | _ => False

theorem Error.OfExpression.reached {expression : String} {error : Error}
    (own : error.OfExpression expression) : error.Reached := by
  cases error <;> trivial

variable {causes : Error → Prop}

namespace Expression
namespace Setting

variable {setting : Setting}
  (known : ∀ error, Error.OfExpression setting.expression error → causes error)
  (reads : ∀ symbol reading, setting.scope symbol = some reading → reading.FailsOnly causes)

section Operands

include reads

theorem failsOnly_read (operand : Operand) : (setting.read operand).FailsOnly causes := by
  cases operand with
  | name symbol =>
      rw [read, nameValue]
      split
      · exact .ok _
      · rename_i reading found
        exact (reads symbol reading found).map
  | literal content => exact .ok _
  | result n => exact .ok _

end Operands

include known reads

theorem failsOnly_apply (op : Operator) (operands : List Operand) :
    (setting.apply op operands).FailsOnly causes := by
  unfold apply
  split
  · exact (failsOnly_read reads _).bind fun _ => .ok _
  · exact (failsOnly_read reads _).bind fun _ => (failsOnly_read reads _).bind fun _ => .ok _
  · exact .error (known _ rfl)

theorem failsOnly_reduce (rank : Nat) (pending : List Pending) (operands : List Operand) :
    (setting.reduce rank pending operands).FailsOnly causes := by
  induction pending generalizing operands with
  | nil => exact .ok _
  | cons item pending ih =>
      cases item with
      | parenthesis => exact .ok _
      | operator op =>
          rw [reduce]
          split
          · exact (failsOnly_apply known reads op operands).bind fun applied => ih applied
          · exact .ok _

theorem failsOnly_close (pending : List Pending) (operands : List Operand) :
    (setting.close pending operands).FailsOnly causes := by
  induction pending generalizing operands with
  | nil => exact .error (known _ rfl)
  | cons item pending ih =>
      cases item with
      | parenthesis => exact .ok _
      | operator op =>
          exact (failsOnly_apply known reads op operands).bind fun applied => ih applied

theorem failsOnly_finish (pending : List Pending) (operands : List Operand) :
    (setting.finish pending operands).FailsOnly causes := by
  induction pending generalizing operands with
  | nil => exact .ok _
  | cons item pending ih =>
      cases item with
      | parenthesis => exact .error (known _ rfl)
      | operator op =>
          exact (failsOnly_apply known reads op operands).bind fun applied => ih applied

theorem failsOnly_step (machine : Machine) {token : Token} (more : token ≠ .endOfInput) :
    (setting.step machine token).FailsOnly causes := by
  cases token with
  | symbol name => exact .ok _
  | quoted content => exact .ok _
  | operator op =>
      cases op with
      | negation => exact .ok _
      | binary op => exact (failsOnly_reduce known reads _ _ _).map
  | opening => exact .ok _
  | closing => exact failsOnly_close known reads _ _
  | faulty error => exact .error (known _ rfl)
  | endOfInput => exact absurd rfl more

theorem failsOnly_run {tokens : List Token} (more : .endOfInput ∉ tokens) (machine : Machine) :
    (setting.run tokens machine).FailsOnly causes := by
  induction tokens generalizing machine with
  | nil => exact .ok _
  | cons token tokens ih =>
      obtain ⟨own, behind⟩ := List.ne_and_not_mem_of_not_mem_cons more
      exact (failsOnly_step known reads machine own.symm).bind fun next => ih behind next

theorem failsOnly_evaluate {tokens : List Token} (more : .endOfInput ∉ tokens) :
    (setting.evaluate tokens).FailsOnly causes := by
  refine (failsOnly_run known reads more _).bind fun machine => ?_
  refine (failsOnly_finish known reads _ _).bind fun operands => ?_
  unfold answer
  split
  · exact .error (known _ rfl)
  · exact failsOnly_read reads _
  · exact .error (known _ rfl)

end Setting

section Scopes

variable {scope : Scope}
  (reads : ∀ symbol reading, scope symbol = some reading → reading.FailsOnly causes)
include reads

/-- An expression fails as its names do, or with an error of its own. -/
theorem failsOnly_evaluate {expression : String}
    (known : ∀ error, Error.OfExpression expression error → causes error) (mode : Mode) :
    (evaluate scope mode expression).FailsOnly causes :=
  @Setting.failsOnly_evaluate _ { scope, mode, expression } known reads _
    (Token.Cursor.endOfInput_not_mem_tokens _)

theorem failsOnly_holds (known : ∀ error, Error.Reached error → causes error)
    (condition : Option String) : (holds scope condition).FailsOnly causes := by
  cases condition with
  | none => exact .ok _
  | some condition =>
      exact (failsOnly_evaluate reads (fun error own => known error own.reached) .truth).map

end Scopes

end Expression

variable (known : ∀ error, Error.Reached error → causes error)

namespace Model

section Readings

variable {reading : Reading} (reads : ∀ id, (reading id).FailsOnly causes)
include reads

theorem failsOnly_scopeOf (model : Model) (symbol : String) (outcome : Except Error (Option Value))
    (found : model.scopeOf reading symbol = some outcome) : outcome.FailsOnly causes := by
  obtain ⟨id, -, rfl⟩ := Option.map_eq_some_iff.mp found
  exact reads id

include known

theorem failsOnly_defaultValue (model : Model) (fallback : Option Value)
    (defaults : List Conditional) :
    (defaultValue (model.scopeOf reading) fallback defaults).FailsOnly causes := by
  have names := failsOnly_scopeOf reads model
  induction defaults with
  | nil => exact .ok _
  | cons default rest ih =>
      refine (Expression.failsOnly_holds names known _).bind fun applies => ?_
      split
      · exact (Expression.failsOnly_evaluate names (fun error own => known error own.reached) _).map
      · exact ih

theorem failsOnly_passedOn (model : Model) (symbol : String) (source : EntryId) (level : Tristate)
    (implies : List Conditional) :
    (passedOn (model.scopeOf reading) reading symbol source level implies).FailsOnly causes := by
  have names := failsOnly_scopeOf reads model
  induction implies generalizing level with
  | nil => exact .ok _
  | cons imply rest ih =>
      rw [passedOn]
      split
      · refine (Expression.failsOnly_holds names known _).bind fun applies => ?_
        split
        · exact (reads source).bind fun value => ih _
        · exact ih level
      · exact ih level

theorem failsOnly_impliedBy (model : Model) (symbol : String) (level : Tristate)
    (impliers : List EntryId) :
    (model.impliedBy reading symbol level impliers).FailsOnly causes := by
  induction impliers generalizing level with
  | nil => exact .ok _
  | cons implier rest ih =>
      exact (failsOnly_passedOn known reads model symbol implier level _).bind fun level => ih level

theorem failsOnly_valueFrom (model : Model) (entry : Entry) :
    (model.valueFrom reading entry).FailsOnly causes := by
  rw [valueFrom]
  split
  · exact .ok _
  · refine (failsOnly_defaultValue known reads model _ _).bind fun computed => ?_
    split
    · refine FailsOnly.map ?_
      rw [impliedLevel]
      split
      · exact .ok _
      · exact failsOnly_impliedBy known reads model _ _ _
    · exact .ok _

/-- A value fails as its parts do, or as what is read at the bottom. -/
theorem failsOnly_valueOver (model : Model) (depth : Nat) (id : EntryId) :
    (model.valueOver reading depth id).FailsOnly causes := by
  induction depth generalizing id with
  | zero => exact reads id
  | succ depth ih =>
      rw [valueOver_succ]
      split
      · exact .ok _
      · exact failsOnly_valueFrom known ih model _

end Readings

section Values

variable {model : Model} (reads : ∀ id, (model.value id).FailsOnly causes)
include reads

theorem failsOnly_tristate (id : EntryId) : (model.tristate id).FailsOnly causes :=
  (reads id).map

theorem failsOnly_scope (symbol : String) (outcome : Except Error (Option Value))
    (found : model.scope symbol = some outcome) : outcome.FailsOnly causes :=
  failsOnly_scopeOf reads model symbol outcome found

include known

theorem failsOnly_holds (condition : Option String) :
    (model.holds condition).FailsOnly causes :=
  Expression.failsOnly_holds (failsOnly_scope reads) known condition

theorem failsOnly_isVisible (id : EntryId) : (model.isVisible id).FailsOnly causes := by
  rw [isVisible]
  split
  · exact .ok _
  · refine (failsOnly_holds known reads _).bind fun shown => ?_
    split
    · exact failsOnly_holds known reads _
    · exact .ok _

theorem failsOnly_bound (type : Option OptionType) (text : String) :
    (model.bound type text).FailsOnly causes := by
  refine (Expression.failsOnly_evaluate (failsOnly_scope reads)
    (fun error own => known error own.reached) _).bind fun value => ?_
  split
  · exact .ok _
  · exact .error (known _ trivial)

theorem failsOnly_firstRange (entry : Entry) (ranges : List Conditional) :
    (model.firstRange entry ranges).FailsOnly causes := by
  induction ranges with
  | nil => exact .ok _
  | cons range rest ih =>
      refine (failsOnly_holds known reads _).bind fun applies => ?_
      split
      · split
        · exact (failsOnly_bound known reads _ _).bind fun low =>
            (failsOnly_bound known reads _ _).map
        · exact .error (known _ trivial)
      · exact ih

theorem failsOnly_activeRange (id : EntryId) : (model.activeRange id).FailsOnly causes := by
  rw [activeRange]
  split
  · exact .ok _
  · exact failsOnly_firstRange known reads _ _

theorem failsOnly_validate (id : EntryId) : (model.validate id).FailsOnly causes := by
  rw [validate]
  split
  · exact .ok _
  · refine (reads id).bind fun value => ?_
    split
    · dsimp only
      split
      · exact .error (known _ trivial)
      · refine (failsOnly_activeRange known reads id).bind fun bounds => ?_
        split
        · exact .ok _
        · split
          · exact .error (known _ trivial)
          · exact .ok _
    · exact .ok _

end Values

end Model

namespace Run

theorem failsOnly_andThen {α β : Type} {run : Run α} {next : Model → α → Run β}
    (first : run.outcome.FailsOnly causes)
    (later : ∀ a, (next run.model a).outcome.FailsOnly causes) :
    (run.andThen next).outcome.FailsOnly causes := by
  rw [andThen]
  cases ended : run.outcome with
  | error cause => exact .error (first cause ended)
  | ok a => exact later a

theorem failsOnly_each {α : Type} {invariant : Model → Prop} {action : α → Model → Run Unit}
    (keeps : ∀ item model, invariant model → invariant (action item model).model)
    (step : ∀ item model, invariant model → (action item model).outcome.FailsOnly causes)
    (items : List α) {model : Model} (holds : invariant model) :
    (each action items model).outcome.FailsOnly causes := by
  induction items generalizing model with
  | nil => exact .ok _
  | cons item rest ih =>
      exact failsOnly_andThen (step item model holds) fun _ => ih (keeps item model holds)

end Run

namespace Model

section Telling

variable {model : Model} (reads : ∀ id, (model.value id).FailsOnly causes)
include known reads

theorem failsOnly_announceVisibility (id : EntryId) :
    (announceVisibility id model).outcome.FailsOnly causes :=
  Run.failsOnly_andThen (failsOnly_isVisible known reads id) fun _ => .ok _

theorem failsOnly_refresh (id : EntryId) : (refresh id model).outcome.FailsOnly causes := by
  have checked : (check id model).outcome.FailsOnly causes := by
    change (if model.options.validateTypes then model.validate id else .ok ()).FailsOnly _
    split
    · exact failsOnly_validate known reads id
    · exact .ok _
  refine Run.failsOnly_andThen checked fun _ => Run.failsOnly_andThen (.ok _) fun _ => ?_
  refine @Run.failsOnly_each _ _ (· = model) _ ?_ ?_ _ _ rfl
  · rintro other _ rfl
    exact model_announceVisibility other _
  · rintro other _ rfl
    exact failsOnly_announceVisibility known reads other

theorem failsOnly_announce (id : EntryId) : (announce id model).outcome.FailsOnly causes := by
  refine Run.failsOnly_andThen (failsOnly_refresh known reads id) fun _ => ?_
  rw [model_refresh]
  refine @Run.failsOnly_each _ _ (· = model) _ ?_ ?_ _ _ rfl
  · rintro imply _ rfl
    split
    · exact model_refresh _ _
    · rfl
  · rintro imply _ rfl
    split
    · exact failsOnly_refresh known reads _
    · exact .ok _

end Telling

section Setting

variable {base : Model}
  (reads : ∀ model : Model, model.bare = base.bare → ∀ id, (model.value id).FailsOnly causes)
  {bottom : EntryId → Model → Run Unit}
  (bare : ∀ id model, (bottom id model).model.bare = model.bare)
  (fails : ∀ id model, (bottom id model).outcome.FailsOnly causes)

include bare in
theorem bare_setOver (value : Value) (depth : Nat) (id : EntryId) (model : Model) :
    (setOver bottom value depth id model).model.bare = model.bare := by
  induction depth generalizing id model with
  | zero => exact bare id model
  | succ depth ih =>
      rw [setOver_succ, model_andThen_announce]
      refine @Run.each_invariant _ (fun current => current.bare = model.bare) _ _
        (fun select _ current same => (bare_force ih select current).trans same) _ ?_
      exact bare_store model id _

include known reads bare fails

/-- An edit fails as its parts do, or as what is done at the bottom. -/
theorem failsOnly_setOver (value : Value) (depth : Nat) (id : EntryId) {model : Model}
    (same : model.bare = base.bare) :
    (setOver bottom value depth id model).outcome.FailsOnly causes := by
  induction depth generalizing id model with
  | zero => exact fails id model
  | succ depth ih =>
      have keeps : ∀ select (current : Model), current.bare = base.bare →
          (force (setOver bottom value depth) select current).model.bare = base.bare :=
        fun select current same =>
          (bare_force (bare_setOver bare value depth) select current).trans same
      have stored : (model.store id (some value)).bare = base.bare :=
        (bare_store model id _).trans same
      refine Run.failsOnly_andThen ?_ fun _ => failsOnly_announce known (reads _ ?_) id
      · refine Run.failsOnly_each keeps (fun select current same => ?_) _ stored
        have held := failsOnly_holds known (reads current same) select.condition
        refine Run.failsOnly_andThen held fun applies => ?_
        split
        · exact ih _ same
        · exact .ok _
      · exact Run.each_invariant (fun select _ => keeps select) stored

end Setting

theorem failsOnly_set (model : Model) (id : EntryId) (value : Value) :
    (model.set id value).outcome.FailsOnly Error.OfEdit := by
  have known : ∀ error, Error.Reached error → Error.OfEdit error := fun _ => Error.Reached.ofEdit
  rw [set, setWithin_eq_setOver]
  refine failsOnly_setOver known (fun current _ other => ?_) (fun _ _ => rfl) (fun other _ => ?_)
    value model.selectDepth id rfl
  · rw [Model.value, valueWithin_eq_valueOver]
    refine failsOnly_valueOver known (fun entry => ?_) current current.size other
    exact .error trivial
  · exact .error trivial

theorem assign_of_error {model : Model} {assignment : Assignment} {line : Nat} {symbol : String}
    {cause : AssignmentFailure}
    (failed : (model.assign assignment).outcome = .error (.assignment line symbol cause)) :
    line = assignment.line ∧ symbol = assignment.symbol ∧
      (model.assign assignment).model = model ∧ (model.assign assignment).notices = [] := by
  rw [assign] at failed ⊢
  split at failed
  · cases failed
  · rename_i id _
    split at failed
    · cases failed
      exact ⟨rfl, rfl, rfl, rfl⟩
    · rename_i value _
      have ended : ((model.set id value).andThen fun model _ =>
          Run.done model (.ok true)).outcome.FailsOnly Error.OfEdit :=
        Run.failsOnly_andThen (failsOnly_set model id value) fun _ => .ok _
      cases ended _ failed

end Model
end OptionTree
