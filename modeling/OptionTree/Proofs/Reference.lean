import Mathlib.Logic.Relation
import OptionTree.Proofs.Reading
import OptionTree.Proofs.SameTree

/-!
# What values refer to

The value of an entry that was not set comes from the entries that its defaults mention, from those
that imply its symbol and from those that the conditions of these implies mention.  Two models of
one description in which all that an entry refers to, directly or not, was set alike give it the
same value.
-/

namespace OptionTree

namespace Expression

/-- The names in an optional condition. -/
def conditionNames (condition : Option String) : List String :=
  (condition.map Token.symbols).getD []

theorem holds_congr {first second : Scope} {condition : Option String}
    (agree : ∀ name ∈ conditionNames condition, first name = second name) :
    holds first condition = holds second condition := by
  cases condition with
  | none => rfl
  | some text => rw [holds, holds, evaluate_congr agree]

end Expression

/-- The names in the expressions of a default. -/
def Conditional.names (default : Conditional) : List String :=
  Token.symbols default.value ++ Expression.conditionNames default.condition

/-- Whether two values count the same in a mode. -/
def Mode.Same (mode : Mode) (first second : Option Value) : Prop :=
  mode.settle first = mode.settle second

theorem Mode.Same.refl (mode : Mode) (value : Option Value) : mode.Same value value := rfl

theorem Tristate.ofValue?_eq_ofNumber (value : Option Value) :
    ofValue? value = ofNumber (Mode.truth.settle value).magnitude := by
  rcases value with _ | (n | content)
  · rfl
  · rfl
  · simp only [ofValue?, ofText, Mode.settle, Mode.settleText]
    split
    · rfl
    · split <;> rfl

theorem Mode.Same.ofValue?_eq {first second : Option Value} (same : Mode.truth.Same first second) :
    Tristate.ofValue? first = Tristate.ofValue? second := by
  have same : Mode.truth.settle first = Mode.truth.settle second := same
  rw [Tristate.ofValue?_eq_ofNumber, same, Tristate.ofValue?_eq_ofNumber]

namespace Model

theorem defaultValue_alike {cut : Error → Prop} {related : Option Value → Option Value → Prop}
    (reflexive : ∀ value, related value value) {first second : Scope} {defaults : List Conditional}
    (conditions : ∀ default ∈ defaults, (Expression.holds first default.condition).Alike cut Eq
      (Expression.holds second default.condition))
    (values : ∀ default ∈ defaults,
      ((Expression.evaluate first .preserve default.value).map some).Alike cut related
        ((Expression.evaluate second .preserve default.value).map some))
    (fallback : Option Value) :
    (defaultValue first fallback defaults).Alike cut related
      (defaultValue second fallback defaults) := by
  induction defaults with
  | nil => exact reflexive fallback
  | cons default rest ih =>
      obtain ⟨applies, conditions⟩ := List.forall_mem_cons.mp conditions
      obtain ⟨own, values⟩ := List.forall_mem_cons.mp values
      refine applies.bind ?_
      rintro applies _ rfl
      cases applies with
      | true => exact own
      | false => exact ih conditions values

theorem passedOn_alike {cut : Error → Prop} {firstScope secondScope : Scope}
    {first second : Reading} {symbol : String} {source : EntryId} {implies : List Conditional}
    (alike : ∀ imply ∈ implies, imply.value = symbol →
      (first source).Alike cut
        (fun value other => Tristate.ofValue? value = Tristate.ofValue? other) (second source) ∧
      (Expression.holds firstScope imply.condition).Alike cut Eq
        (Expression.holds secondScope imply.condition))
    (level : Tristate) :
    (passedOn firstScope first symbol source level implies).Alike cut Eq
      (passedOn secondScope second symbol source level implies) := by
  induction implies generalizing level with
  | nil => exact Except.Alike.of_eq rfl
  | cons imply rest ih =>
      obtain ⟨own, alike⟩ := List.forall_mem_cons.mp alike
      by_cases named : imply.value = symbol
      · obtain ⟨read, applies⟩ := own named
        rw [passedOn, passedOn, if_pos named, if_pos named]
        refine applies.bind ?_
        rintro applies _ rfl
        cases applies with
        | true =>
            refine read.bind fun value other same => ?_
            rw [same]
            exact ih alike _
        | false => exact ih alike level
      · rw [passedOn, passedOn, if_neg named, if_neg named]
        exact ih alike level

theorem raised_alike {related : Option Value → Option Value → Prop}
    (reflexive : ∀ value, related value value)
    (states : ∀ value other, related value other →
      Tristate.ofValue? value = Tristate.ofValue? other)
    {value other : Option Value} (alike : related value other) (level : Tristate) :
    related (raised value level) (raised other level) := by
  rw [raised, raised, states value other alike]
  split
  · exact reflexive _
  · exact alike

/-- The defaults of an entry. -/
def defaultsOf (model : Model) (id : EntryId) : List Conditional :=
  ((model.get? id).map fun entry => entry.defaults).getD []

/-- Whether the value of one entry may be computed from that of another one. -/
inductive Refers (model : Model) (source : EntryId) : EntryId → Prop
  /-- An entry refers to what its defaults and their conditions mention. -/
  | mentioned {default : Conditional} {name : String} {target : EntryId} :
      default ∈ model.defaultsOf source → name ∈ default.names →
      model.lookup name = some target → Refers model source target
  /-- An entry refers to those that imply its symbol. -/
  | implying {imply : Conditional} {symbol : String} {target : EntryId} :
      model.symbol? source = some symbol → imply ∈ model.impliesOf target →
      imply.value = symbol → Refers model source target
  /-- An entry refers to what the conditions of those implies mention. -/
  | condition {imply : Conditional} {symbol name : String} {implier target : EntryId} :
      model.symbol? source = some symbol → imply ∈ model.impliesOf implier →
      imply.value = symbol → name ∈ Expression.conditionNames imply.condition →
      model.lookup name = some target → Refers model source target

section SameTree

variable {first second : Model} (same : first.bare = second.bare)
include same

theorem impliesOf_of_bare (id : EntryId) : first.impliesOf id = second.impliesOf id :=
  list_of_bare same Declaration.implies id

theorem defaultsOf_of_bare (id : EntryId) : first.defaultsOf id = second.defaultsOf id :=
  list_of_bare same Declaration.defaults id

theorem implications_of_bare : first.implications = second.implications := by
  have kept := congrArg Model.implications same
  exact kept

theorem get?_of_bare {id : EntryId} (set : first.override? id = second.override? id) :
    first.get? id = second.get? id := by
  have unset : (first.get? id).map Entry.unset = (second.get? id).map Entry.unset := by
    rw [← get?_bare, same, get?_bare]
  rw [override?, override?] at set
  cases here : first.get? id with
  | none =>
      have absent : second.get? id = none := by simpa [here] using unset.symm
      exact absent.symm
  | some entry =>
      cases there : second.get? id with
      | none => simp [here, there] at unset
      | some other =>
          rw [here, there] at unset set
          have alike : entry.unset = other.unset := Option.some.inj unset
          have restored : entry = { entry.unset with override := other.override } := by
            have own : entry.override = other.override := set
            rw [← own]
            rfl
          rw [restored, alike]
          rfl

theorem refers_of_bare : first.Refers = second.Refers := by
  have step : ∀ {one two : Model}, one.bare = two.bare → ∀ source target,
      one.Refers source target → two.Refers source target := by
    intro one two same source target refers
    cases refers with
    | mentioned member mentions found =>
        rw [defaultsOf_of_bare same] at member
        rw [lookup_of_bare same] at found
        exact .mentioned member mentions found
    | implying named member implies =>
        rw [symbol?_of_bare same] at named
        rw [impliesOf_of_bare same] at member
        exact .implying named member implies
    | condition named member implies mentions found =>
        rw [symbol?_of_bare same] at named
        rw [impliesOf_of_bare same] at member
        rw [lookup_of_bare same] at found
        exact .condition named member implies mentions found
  funext source target
  exact propext ⟨step same source target, step same.symm source target⟩

theorem scopeOf_congr {firstReading secondReading : Reading} {name : String}
    (agree : ∀ target, first.lookup name = some target →
      firstReading target = secondReading target) :
    first.scopeOf firstReading name = second.scopeOf secondReading name := by
  rw [scopeOf, scopeOf, ← lookup_of_bare same]
  cases found : first.lookup name with
  | none => rfl
  | some target => rw [Option.map_some, Option.map_some, agree target found]

theorem nameValue_alike {cut : Error → Prop} {related : Option Value → Option Value → Prop}
    {settled : Value → Value → Prop} (reflexive : ∀ value, settled value value) {mode : Mode}
    (settles : ∀ value other, related value other → settled (mode.settle value) (mode.settle other))
    {firstReading secondReading : Reading} {name : String}
    (alike : ∀ target, first.lookup name = some target →
      (firstReading target).Alike cut related (secondReading target)) :
    (Expression.nameValue (first.scopeOf firstReading) mode name).Alike cut settled
      (Expression.nameValue (second.scopeOf secondReading) mode name) := by
  rw [Expression.nameValue, Expression.nameValue, scopeOf, scopeOf, ← lookup_of_bare same]
  cases found : first.lookup name with
  | none => exact reflexive _
  | some target => exact (alike target found).map settles

theorem evaluate_scopeOf_alike {cut : Error → Prop} {firstReading secondReading : Reading}
    {mode : Mode} {expression : String}
    (alike : ∀ name ∈ Token.symbols expression, ∀ target, first.lookup name = some target →
      (firstReading target).Alike cut mode.Same (secondReading target)) :
    (Expression.evaluate (first.scopeOf firstReading) mode expression).Alike cut Eq
      (Expression.evaluate (second.scopeOf secondReading) mode expression) :=
  Expression.evaluate_alike (fun _ => rfl) (fun op _ => Expression.Setting.blind_eq op)
    fun name mentions => nameValue_alike same (fun _ => rfl) (fun _ _ counts => counts)
      (alike name mentions)

theorem holds_scopeOf_alike {cut : Error → Prop} {firstReading secondReading : Reading}
    {condition : Option String}
    (alike : ∀ name ∈ Expression.conditionNames condition, ∀ target,
      first.lookup name = some target →
        (firstReading target).Alike cut Mode.truth.Same (secondReading target)) :
    (Expression.holds (first.scopeOf firstReading) condition).Alike cut Eq
      (Expression.holds (second.scopeOf secondReading) condition) := by
  cases condition with
  | none => exact .of_eq rfl
  | some text =>
      refine (evaluate_scopeOf_alike same alike).map ?_
      rintro value _ rfl
      rfl

section Values

variable {cut : Error → Prop} {firstReading secondReading : Reading} {id : EntryId}
  (alike : ∀ target, first.Refers id target →
    (firstReading target).Alike cut Mode.truth.Same (secondReading target))
include alike

/-- What implies pass on to a symbol is decided by how the entries count that the entry of the
symbol refers to. -/
theorem impliedBy_alike {symbol : String} (named : first.symbol? id = some symbol)
    (level : Tristate) (impliers : List EntryId) :
    (first.impliedBy firstReading symbol level impliers).Alike cut Eq
      (second.impliedBy secondReading symbol level impliers) := by
  induction impliers generalizing level with
  | nil => exact Except.Alike.of_eq rfl
  | cons implier rest ih =>
      rw [impliedBy, impliedBy, ← impliesOf_of_bare same]
      refine (passedOn_alike (fun imply member implies => ⟨?_, ?_⟩) level).bind ?_
      · exact (alike implier (.implying named member implies)).mono fun _ _ => Mode.Same.ofValue?_eq
      · exact holds_scopeOf_alike same fun name mentions target found =>
          alike target (.condition named member implies mentions found)
      · rintro level _ rfl
        exact ih level

/-- Values of an entry are alike if the entries that it refers to count the same and its defaults
have values alike. -/
theorem valueFrom_alike {related : Option Value → Option Value → Prop}
    (reflexive : ∀ value, related value value)
    (states : ∀ value other, related value other →
      Tristate.ofValue? value = Tristate.ofValue? other)
    {entry : Entry} (found : first.get? id = some entry)
    (values : ∀ default ∈ entry.defaults,
      ((Expression.evaluate (first.scopeOf firstReading) .preserve default.value).map some).Alike
        cut related
        ((Expression.evaluate (second.scopeOf secondReading) .preserve default.value).map some)) :
    (first.valueFrom firstReading entry).Alike cut related
      (second.valueFrom secondReading entry) := by
  have conditions : ∀ default ∈ entry.defaults,
      (Expression.holds (first.scopeOf firstReading) default.condition).Alike cut Eq
        (Expression.holds (second.scopeOf secondReading) default.condition) := by
    refine fun default member => holds_scopeOf_alike same fun name mentions target known => ?_
    have states : default ∈ first.defaultsOf id := by simpa [defaultsOf, found] using member
    exact alike target (.mentioned states (List.mem_append_right _ mentions) known)
  have implied : (first.impliedLevel firstReading entry).Alike cut Eq
      (second.impliedLevel secondReading entry) := by
    rw [impliedLevel, impliedLevel, ← implications_of_bare same]
    cases named : entry.symbol with
    | none => exact Except.Alike.of_eq rfl
    | some symbol => exact impliedBy_alike same alike (by simpa [symbol?, found] using named) _ _
  rw [valueFrom, valueFrom]
  cases entry.override with
  | some value => exact reflexive _
  | none =>
      refine (defaultValue_alike reflexive conditions values _).bind fun computed other same => ?_
      split
      · refine implied.map ?_
        rintro level _ rfl
        exact raised_alike reflexive states same level
      · exact same

end Values

theorem valueFrom_alike_of_refers {cut : Error → Prop} {firstReading secondReading : Reading}
    {id : EntryId} {entry : Entry} (found : first.get? id = some entry)
    (alike : ∀ target, first.Refers id target →
      (firstReading target).Alike cut Eq (secondReading target)) :
    (first.valueFrom firstReading entry).Alike cut Eq (second.valueFrom secondReading entry) := by
  have counts : ∀ mode : Mode, ∀ target, first.Refers id target →
      (firstReading target).Alike cut mode.Same (secondReading target) := by
    refine fun mode target refers => (alike target refers).mono ?_
    rintro value _ rfl
    exact .refl mode value
  refine valueFrom_alike same (counts .truth) (fun _ => rfl) (fun _ _ => congrArg _) found
    fun default member => ?_
  have states : default ∈ first.defaultsOf id := by simpa [defaultsOf, found] using member
  exact (evaluate_scopeOf_alike same fun name mentions target known =>
    counts .preserve target (.mentioned states (List.mem_append_left _ mentions) known)).map
      fun _ _ => congrArg some

/-- The value of an entry is decided by what was set for it and the values that it refers to. -/
theorem valueFrom_congr {firstReading secondReading : Reading} {id : EntryId} {entry : Entry}
    (found : first.get? id = some entry)
    (agree : ∀ target, first.Refers id target → firstReading target = secondReading target) :
    first.valueFrom firstReading entry = second.valueFrom secondReading entry :=
  Except.alike_eq_iff.mp <|
    valueFrom_alike_of_refers same found fun target refers => .of_eq (agree target refers)

/-- Models of one description that set all that an entry refers to alike give it the same value. -/
theorem valueWithin_congr {depth : Nat} {id : EntryId}
    (agree : ∀ other, Relation.ReflTransGen first.Refers id other →
      first.override? other = second.override? other) :
    first.valueWithin depth id = second.valueWithin depth id := by
  induction depth generalizing id with
  | zero => rfl
  | succ depth ih =>
      rw [valueWithin_succ, valueWithin_succ, ← get?_of_bare same (agree id .refl)]
      cases found : first.get? id with
      | none => rfl
      | some entry =>
          refine valueFrom_congr same found fun target refers => ih fun other behind => ?_
          exact agree other (behind.head refers)

theorem value_congr {id : EntryId}
    (agree : ∀ other, Relation.ReflTransGen first.Refers id other →
      first.override? other = second.override? other) : first.value id = second.value id := by
  rw [value, value, size_of_bare same]
  exact valueWithin_congr same agree

theorem holds_congr {condition : Option String}
    (agree : ∀ name ∈ Expression.conditionNames condition, ∀ target,
      first.lookup name = some target → ∀ other, Relation.ReflTransGen first.Refers target other →
        first.override? other = second.override? other) :
    first.holds condition = second.holds condition := by
  refine Expression.holds_congr fun name mentions => ?_
  refine scopeOf_congr same fun target found => ?_
  exact value_congr same (agree name mentions target found)

end SameTree

end Model
end OptionTree
