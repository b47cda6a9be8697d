import OptionTree.Definition
import OptionTree.Expression.Tree
import OptionTree.Proofs.Acceptance
import OptionTree.Proofs.Import
import OptionTree.Proofs.Mentions
import OptionTree.Proofs.Uniqueness

/-!
# Definitions as bindings

Definitions for a single expression are declared in a model, written as assignments and read again.
All of this comes to a table of names: the type of a symbol is that of its first definition, its
value that of its last one, and the first definition whose text denotes nothing is reported.
-/

namespace OptionTree

/-- The first type that declarations state for a symbol. -/
def Declaration.typeIn (declarations : List Declaration) (symbol : String) : Option OptionType :=
  declarations.findSome? fun declaration =>
    if declaration.symbol = some symbol then declaration.type else none

namespace Registry

/-- The type of the entry of a symbol. -/
def typeOf? (registry : Registry) (symbol : String) : Option OptionType :=
  (registry.lookup symbol).bind fun id => (registry.get? id).bind fun entry => entry.type

/-- A symbol keeps the first type that is stated for it. -/
theorem Registered.typeOf?_register {registry : Registry} (registered : registry.Registered)
    (entry : Entry) (symbol : String) :
    (registry.register entry).1.typeOf? symbol =
      (registry.typeOf? symbol).or (if entry.symbol = some symbol then entry.type else none) := by
  rw [typeOf?, typeOf?, Registry.register]
  split
  · rename_i index known
    obtain ⟨own, named, located⟩ := Option.bind_eq_some_iff.mp known
    dsimp only
    rw [lookup_modify]
    by_cases same : own = symbol
    · subst same
      obtain ⟨first, present, -⟩ := Option.bind_eq_some_iff.mp (registered own index located)
      rw [located, named, Option.bind_some, Option.bind_some, get?_modify, if_pos rfl, if_pos rfl,
        present]
      rfl
    · have other : ∀ id, registry.lookup symbol = some id → index ≠ id := by
        rintro id found rfl
        have both := (registered own index located).symm.trans (registered symbol index found)
        exact same (Option.some.inj both)
      rw [named, if_neg (by simpa using same), Option.or_none]
      refine Option.bind_congr fun id found => ?_
      rw [get?_modify, if_neg (other id found)]
  · rename_i unknown
    dsimp only
    rw [lookup_push symbol unknown]
    split
    · rename_i named
      rw [named, Option.bind_some] at unknown
      rw [unknown, Option.bind_some, get?_push, if_pos rfl]
      rfl
    · rw [Option.or_none]
      refine Option.bind_congr fun id found => ?_
      rw [get?_push, if_neg (Nat.ne_of_lt (lt_size_of_symbol? (registered symbol id found)))]

theorem typeOf?_modify {registry : Registry} {change : Entry → Entry}
    (same : ∀ entry, (change entry).type = entry.type) (index : EntryId) (symbol : String) :
    (registry.modify index change).typeOf? symbol = registry.typeOf? symbol := by
  rw [typeOf?, typeOf?, lookup_modify]
  refine Option.bind_congr fun id _ => ?_
  rw [get?_modify]
  split
  · simp [Option.bind_map, same]
  · rfl

end Registry

namespace Model

/-- The type of the entry of a symbol. -/
def typeOf? (model : Model) (symbol : String) : Option OptionType := model.registry.typeOf? symbol

theorem typeOf?_of_bare {first second : Model} (same : first.bare = second.bare)
    (symbol : String) : first.typeOf? symbol = second.typeOf? symbol := by
  have found := lookup_of_bare same symbol
  change (first.lookup symbol).bind _ = (second.lookup symbol).bind _
  rw [found]
  exact Option.bind_congr fun id _ => type_of_bare same id

theorem typeOf?_declare {model : Model} (registered : model.registry.Registered) (parent : EntryId)
    (declaration : Declaration) (symbol : String) :
    (model.declare parent declaration).1.typeOf? symbol = (model.typeOf? symbol).or
      (if declaration.symbol = some symbol then declaration.type else none) := by
  have entered := registered.typeOf?_register (.ofDeclaration declaration (some parent)) symbol
  rw [declare, typeOf?, preset]
  split
  · exact entered
  · refine Eq.trans ?_ entered
    apply Registry.typeOf?_modify
    exact fun entry => rfl

theorem typeOf?_attach (model : Model) (owner child : EntryId) (symbol : String) :
    (model.attach owner child).typeOf? symbol = model.typeOf? symbol := by
  rw [attach]
  split
  · rfl
  · apply Registry.typeOf?_modify
    exact fun entry => rfl

mutual

theorem typeOf?_place {model : Model} (registered : model.registry.Registered) (owner : EntryId)
    (symbol : String) : ∀ unit : Outline, (place owner model unit).typeOf? symbol =
      (model.typeOf? symbol).or (Declaration.typeIn unit.document symbol)
  | .mk declaration children => by
      have entered := registered_kept.declare model owner declaration trivial registered
      rw [place_mk, typeOf?_attach, typeOf?_placeAll entered _ symbol children,
        typeOf?_declare registered, Option.or_assoc, Outline.document_mk, Declaration.typeIn,
        Declaration.typeIn, List.findSome?_cons]
      cases if declaration.symbol = some symbol then declaration.type else none <;> rfl

theorem typeOf?_placeAll {model : Model} (registered : model.registry.Registered) (owner : EntryId)
    (symbol : String) : ∀ units : List Outline, (placeAll owner model units).typeOf? symbol =
      (model.typeOf? symbol).or (Declaration.typeIn (Outline.documentAll units) symbol)
  | [] => Option.or_none.symm
  | unit :: units => by
      have first := registered_kept.place owner model registered unit fun _ _ => trivial
      rw [placeAll, typeOf?_placeAll first owner symbol units,
        typeOf?_place registered owner symbol unit, Option.or_assoc, Outline.documentAll_cons,
        Declaration.typeIn, Declaration.typeIn, Declaration.typeIn, List.findSome?_append]

end

theorem typeOf?_of_build {description : Node} {options : Options} {model : Model}
    (built : build description options = .ok model) (symbol : String) :
    model.typeOf? symbol = Declaration.typeIn (Node.documentAll description.entries) symbol := by
  obtain ⟨-, rfl⟩ := build_eq_ok_iff.mp built
  rw [typeOf?_placeAll (fun _ _ found => by cases found), Outline.documentAll_ofNodes]
  rfl

end Model

namespace Definition

/-- The number that was read from a text, if there is one. -/
def numbered (text : List Char) : Option Int → Except AssignmentFailure Value
  | some n => .ok (.number n)
  | none => .error (.invalidNumber (String.ofList text))

/-- The value that a text denotes for a type with the given name. -/
def denoted (type : String) (text : List Char) : Except AssignmentFailure Value :=
  if type = "bool" ∨ type = "boolean" ∨ type = "tristate" then .ok (.text (String.ofList text))
  else if type = "string" then .ok (.text (String.ofList (Text.unquote text)))
  else if type = "int" then numbered text (Numeral.read? 10 (Text.trim text))
  else if type = "hex" then
    numbered text (Numeral.read? 16 (Numeral.dropHexMark (Text.trim text)))
  else .error (.unknownType type)

/-- What the text of a definition denotes for the type of the first definition of its symbol. -/
def given (definitions : List Definition) (definition : Definition) :
    Except AssignmentFailure Value :=
  let first := definitions.find? fun other => other.symbol = definition.symbol
  denoted (first.getD definition).type (Text.trimEnd definition.value.toList)

/-- The error of a definition whose text denotes nothing. -/
def failureAt? (definitions : List Definition) (numbered : Definition × Nat) : Option Error :=
  match given definitions numbered.1 with
  | .ok _ => none
  | .error cause => some (.assignment numbered.2 numbered.1.symbol cause)

/-- The error of the first definition whose text denotes nothing, with its number from one. -/
def failure? (definitions : List Definition) : Option Error :=
  (definitions.zipIdx 1).findSome? (failureAt? definitions)

/-- The last definition of a symbol. -/
def last? (definitions : List Definition) (symbol : String) : Option Definition :=
  definitions.reverse.find? fun definition => definition.symbol = symbol

/-- Every defined symbol stands for what its last definition denotes. -/
def names (definitions : List Definition) : Expression.Names := fun symbol =>
  (last? definitions symbol).map fun definition => (given definitions definition).toOption

theorem read_ofName (type : String) (text : List Char) :
    OptionType.read (String.ofList text) (some (.ofName type)) = denoted type text := by
  unfold OptionType.ofName
  split
  · rfl
  · rfl
  · rfl
  · simp [OptionType.read, denoted, Text.unquoted]
  · simp only [OptionType.read, denoted, numbered, Numeral.decimal?, String.toList_ofList]
    rfl
  · simp only [OptionType.read, denoted, numbered, Numeral.hexadecimal?, String.toList_ofList]
    rfl
  · simp_all [OptionType.read, denoted]

/-! ## Models of definitions -/

/-- Whether a model declares the symbols of some definitions, and states nothing else that an
assignment could run into. -/
structure Declared (definitions : List Definition) (model : Model) : Prop where
  /-- Every symbol has the type of its first definition. -/
  typed : ∀ definition ∈ definitions, model.typeOf? definition.symbol =
    (definitions.find? fun other => other.symbol = definition.symbol).map fun first =>
      .ofName first.type
  /-- No other symbol is declared. -/
  unknown : ∀ symbol, last? definitions symbol = none → model.lookup symbol = none
  /-- A symbol is declared for its own entry. -/
  registered : ∀ symbol id, model.lookup symbol = some id → model.symbol? id = some symbol
  /-- Nothing is selected. -/
  selects : ∀ id, model.selectsOf id = []
  /-- Nothing is implied. -/
  implies : ∀ id, model.impliesOf id = []
  /-- Nothing has bounds. -/
  ranges : ∀ id, model.stated Declaration.ranges id = []
  /-- No condition mentions a symbol. -/
  dependents : ∀ symbol, model.dependents symbol = []

theorem Declared.of_bare {definitions : List Definition} {first second : Model}
    (declared : Declared definitions first) (same : first.bare = second.bare) :
    Declared definitions second where
  typed := fun definition member => by
    rw [← declared.typed definition member, Model.typeOf?_of_bare same]
  unknown := fun symbol absent => by
    rw [← Model.lookup_of_bare same]
    exact declared.unknown symbol absent
  registered := fun symbol id => by
    rw [← Model.lookup_of_bare same, ← Model.symbol?_of_bare same]
    exact declared.registered symbol id
  selects := fun id => (Model.selectsOf_of_bare same id).symm.trans (declared.selects id)
  implies := fun id => (Model.impliesOf_of_bare same id).symm.trans (declared.implies id)
  ranges := fun id =>
    (Model.list_of_bare same Declaration.ranges id).symm.trans (declared.ranges id)
  dependents := fun symbol =>
    (Model.dependents_of_bare same symbol).symm.trans (declared.dependents symbol)

theorem mem_of_last? {definitions : List Definition} {symbol : String} {definition : Definition}
    (found : last? definitions symbol = some definition) :
    definition ∈ definitions ∧ definition.symbol = symbol := by
  rw [last?] at found
  exact ⟨List.mem_reverse.mp (List.mem_of_find?_eq_some found), by
    simpa using List.find?_some found⟩

theorem last?_eq_none_iff {definitions : List Definition} {symbol : String} :
    last? definitions symbol = none ↔ ∀ definition ∈ definitions, definition.symbol ≠ symbol := by
  simp [last?]

theorem last?_cons (definition : Definition) (rest : List Definition) (symbol : String) :
    last? (definition :: rest) symbol =
      (last? rest symbol).or (if definition.symbol = symbol then some definition else none) := by
  rw [last?, List.reverse_cons, List.find?_append, last?]
  by_cases own : definition.symbol = symbol <;> simp [own]

theorem documentAll_nodes (definitions : List Definition) :
    Node.documentAll (definitions.map node) =
      definitions.map fun definition => definition.node.declaration := by
  induction definitions with
  | nil => rfl
  | cons definition rest ih =>
      rw [List.map_cons, List.map_cons, ← ih]
      rfl

theorem typeIn_nodes (definitions : List Definition) (symbol : String) :
    Declaration.typeIn (Node.documentAll (definitions.map node)) symbol =
      (definitions.find? fun definition => definition.symbol = symbol).map fun first =>
        .ofName first.type := by
  rw [documentAll_nodes, Declaration.typeIn, List.findSome?_map]
  induction definitions with
  | nil => rfl
  | cons definition rest ih =>
      rw [List.findSome?_cons, List.find?_cons]
      by_cases own : definition.symbol = symbol
      · simp [own, node, Node.declaration]
      · simpa [own, node, Node.declaration] using ih

theorem declared_of_build {definitions : List Definition} {options : Options} {model : Model}
    (built : Model.build (description definitions) options = .ok model) :
    Declared definitions model := by
  -- The description states nothing but symbols and types.
  have leaf : ∀ declaration, (description definitions).Declares declaration →
      declaration.selects = [] ∧ declaration.implies = [] ∧ declaration.ranges = [] ∧
        declaration.conditions = [] := by
    intro declaration declares
    cases declares with
    | here => exact ⟨rfl, rfl, rfl, rfl⟩
    | inside member below =>
        obtain ⟨definition, -, rfl⟩ := List.mem_map.mp member
        cases below with
        | here => exact ⟨rfl, rfl, rfl, rfl⟩
        | inside deeper _ => cases deeper
  refine
    { typed := fun definition member => ?_
      unknown := fun symbol absent => ?_
      registered :=
        Model.registered_kept.of_build built (fun _ _ => trivial) fun _ _ found => by cases found
      selects := Model.stated_eq_nil_of_build (fun _ _ _ => mem_mergeItems.mp) built
        fun declaration declares => (leaf declaration declares).1
      implies := Model.stated_eq_nil_of_build (fun _ _ _ => mem_mergeItems.mp) built
        fun declaration declares => (leaf declaration declares).2.1
      ranges := Model.stated_eq_nil_of_build (fun _ _ _ => mem_mergeItems.mp) built
        fun declaration declares => (leaf declaration declares).2.2.1
      dependents := fun symbol => ?_ }
  · rw [Model.typeOf?_of_build built]
    exact typeIn_nodes definitions definition.symbol
  · refine Option.eq_none_iff_forall_ne_some.mpr fun id found => ?_
    obtain ⟨declaration, member, named⟩ :=
      (Model.lookup_isSome_iff_declared built symbol).mp ⟨id, found⟩
    have listed : declaration ∈ Node.documentAll (definitions.map node) := member
    rw [documentAll_nodes] at listed
    obtain ⟨definition, inside, rfl⟩ := List.mem_map.mp listed
    exact last?_eq_none_iff.mp absent definition inside (Option.some.inj named)
  · refine List.eq_nil_iff_forall_not_mem.mpr fun id member => ?_
    obtain ⟨declaration, declares, text, stated, -⟩ := Model.mem_dependents_of_build built member
    rw [(leaf declaration declares).2.2.2] at stated
    cases stated

namespace Declared

variable {definitions : List Definition} {model : Model} (declared : Declared definitions model)
include declared

theorem entry {definition : Definition} (member : definition ∈ definitions) :
    ∃ id, model.lookup definition.symbol = some id ∧ id < model.size ∧ ∀ text,
      OptionType.read (String.ofList text) ((model.get? id).bind fun entry => entry.type) =
        denoted ((definitions.find? fun other => other.symbol = definition.symbol).getD
          definition).type text := by
  have typed := declared.typed definition member
  cases found : definitions.find? fun other => other.symbol = definition.symbol with
  | none => simpa using List.find?_eq_none.mp found definition member
  | some first =>
      rw [found] at typed
      obtain ⟨id, known, type⟩ := Option.bind_eq_some_iff.mp typed
      have own : model.symbol? id = some definition.symbol := declared.registered _ id known
      refine ⟨id, known, Model.lt_size_of_symbol? own, fun text => ?_⟩
      have same : ((model.get? id).bind fun entry => entry.type) = some (.ofName first.type) := type
      rw [same, read_ofName, Option.getD_some]

theorem announce {id : EntryId} {value : Value} {raw : String}
    (set : model.override? id = some value)
    (read : OptionType.read raw ((model.get? id).bind fun entry => entry.type) = .ok value) :
    (model.announce id).outcome = .ok () := by
  have alone : ∀ imply ∈ model.impliesOf id, ∀ target,
      model.lookup imply.value = some target → target = id := by
    rw [declared.implies]
    nofun
  refine (Model.announce_eq_ok_iff alone).mpr (Model.refresh_eq_ok_iff.mpr ⟨fun _ => ?_, ?_⟩)
  · exact (Model.validate_eq_ok_iff set (declared.ranges id)).mpr (Model.fits_of_read read)
  · intro other member
    rw [Model.dependentsOf] at member
    cases named : model.symbol? id with
    | none => simp [named] at member
    | some symbol => simp [named, declared.dependents symbol] at member

theorem assign_of_error {definition : Definition} (member : definition ∈ definitions)
    {cause : AssignmentFailure} (failed : given definitions definition = .error cause)
    (line : Nat) :
    (model.assign ⟨line, definition.symbol, rawOf definition.value⟩).outcome =
      .error (.assignment line definition.symbol cause) := by
  obtain ⟨id, known, -, read⟩ := declared.entry member
  have unread := (read (Text.trimEnd definition.value.toList)).trans failed
  rw [Model.assign]
  simp only [known]
  rw [rawOf, unread]
  rfl

theorem assign_of_ok {definition : Definition} (member : definition ∈ definitions)
    {value : Value} (denotes : given definitions definition = .ok value) (line : Nat) :
    ∃ id, model.lookup definition.symbol = some id ∧ id < model.size ∧
      (model.assign ⟨line, definition.symbol, rawOf definition.value⟩).model =
        model.store id (some value) ∧
      (model.assign ⟨line, definition.symbol, rawOf definition.value⟩).outcome = .ok true := by
  obtain ⟨id, known, present, read⟩ := declared.entry member
  have read := (read (Text.trimEnd definition.value.toList)).trans denotes
  have same := Model.bare_store model id (some value)
  have stored : (model.store id (some value)).override? id = some value := by
    rw [Model.override?_store present, if_pos rfl]
  have reads : OptionType.read (String.ofList (Text.trimEnd definition.value.toList))
      (((model.store id (some value)).get? id).bind fun entry => entry.type) = .ok value := by
    rw [Model.type_of_bare same id]
    exact read
  have set := Model.set_eq_announce present (declared.selects id) value
  have told : ((model.store id (some value)).announce id).outcome = .ok () :=
    (declared.of_bare same.symm).announce stored reads
  have assigned : model.assign ⟨line, definition.symbol, rawOf definition.value⟩ =
      (model.set id value).andThen fun model _ => Run.done model (.ok true) := by
    rw [Model.assign]
    simp only [known]
    rw [rawOf, read]
  refine ⟨id, known, present, ?_, ?_⟩
  · rw [assigned, set, Run.model_andThen told]
    exact Model.model_announce id _
  · rw [assigned, set]
    exact Run.andThen_eq_ok_iff.mpr ⟨(), told, rfl⟩

end Declared

/-- The assignments of some definitions, in lines numbered from the given one on. -/
def assignments (line : Nat) (definitions : List Definition) : List Assignment :=
  (definitions.zipIdx line).map fun numbered =>
    ⟨numbered.2, numbered.1.symbol, rawOf numbered.1.value⟩

theorem assignments_cons (line : Nat) (definition : Definition) (rest : List Definition) :
    assignments line (definition :: rest) =
      ⟨line, definition.symbol, rawOf definition.value⟩ :: assignments (line + 1) rest := by
  rw [assignments, List.zipIdx_cons, List.map_cons, assignments]

/-- Assigning some of the definitions in order stops at the first one whose text denotes nothing;
without one, every symbol has what the last of these definitions denotes. -/
theorem Declared.assignAll {definitions : List Definition} {rest : List Definition}
    (listed : rest ⊆ definitions) {model : Model} (declared : Declared definitions model)
    (abort : model.options.importPolicy = .abort) (report : ImportReport) (line : Nat) :
    match (rest.zipIdx line).findSome? (failureAt? definitions) with
    | some cause => (Model.assignAll report (assignments line rest) model).outcome = .error cause
    | none => ∃ result,
        (Model.assignAll report (assignments line rest) model).outcome = .ok result ∧
        ∀ symbol id, model.lookup symbol = some id →
          (Model.assignAll report (assignments line rest) model).model.override? id =
            ((last? rest symbol).map fun definition => (given definitions definition).toOption).getD
              (model.override? id) := by
  induction rest generalizing model report line with
  | nil => exact ⟨report, rfl, fun _ _ _ => rfl⟩
  | cons definition rest ih =>
      obtain ⟨member, listed⟩ := List.cons_subset.mp listed
      rw [assignments_cons, List.zipIdx_cons, List.findSome?_cons, failureAt?]
      cases denotes : given definitions definition with
      | error cause =>
          have failed := declared.assign_of_error member denotes line
          simp only [Model.assignAll, failed, abort, Model.settle]
          rfl
      | ok value =>
          obtain ⟨target, known, present, stored, assigned⟩ :=
            declared.assign_of_ok member denotes line
          have same := Model.bare_store model target (some value)
          have later := ih listed (declared.of_bare same.symm) abort
            (report.record ⟨line, definition.symbol, rawOf definition.value⟩ (.ok true)) (line + 1)
          obtain ⟨ended, left⟩ := Model.assignAll_cons_of_ok assigned report
            (assignments (line + 1) rest)
          rw [stored] at ended left
          simp only [ended, left]
          split at later
          · exact later
          · obtain ⟨result, ended, values⟩ := later
            refine ⟨result, ended, fun symbol id found => ?_⟩
            rw [values symbol id found, last?_cons, Model.override?_store present]
            cases last? rest symbol with
            | some later => rfl
            | none =>
                by_cases own : definition.symbol = symbol
                · subst own
                  obtain rfl := Option.some.inj (known.symm.trans found)
                  simp [denotes, Except.toOption]
                · have apart : target ≠ id := by
                    rintro rfl
                    have both := (declared.registered _ target known).symm.trans
                      (declared.registered _ target found)
                    exact own (Option.some.inj both)
                  simp [own, apart]

theorem isWord_of_parse {text : String} {definition : Definition}
    (parsed : parse text = .ok definition) : IsWord definition.symbol := by
  rw [parse] at parsed
  split at parsed
  · cases parsed
  · dsimp only at parsed
    split at parsed
    · rename_i word
      obtain rfl := Except.ok.inj parsed
      simpa [isWord_iff] using word
    · cases parsed

/-- The text that is imported assigns the definitions, each in the line of its own number. -/
theorem ofText_assignment {definitions : List Definition}
    (parsed : ∀ definition ∈ definitions, ∃ text, parse text = .ok definition)
    (single : ∀ definition ∈ definitions, '\n' ∉ definition.value.toList) :
    Assignment.ofText (String.join (definitions.map assignment)) = assignments 1 definitions := by
  let lines := definitions.map fun definition => (definition.symbol, definition.value)
  have words : ∀ line ∈ lines, IsWord line.1 := by
    intro line member
    obtain ⟨definition, inside, rfl⟩ := List.mem_map.mp member
    obtain ⟨text, read⟩ := parsed definition inside
    exact isWord_of_parse read
  have alone : ∀ line ∈ lines, '\n' ∉ line.2.toList := by
    intro line member
    obtain ⟨definition, inside, rfl⟩ := List.mem_map.mp member
    exact single definition inside
  have joined := Assignment.ofText_join words alone
  rw [List.map_map, List.zipIdx_map, List.map_map] at joined
  exact joined

theorem given_of_none {definitions : List Definition}
    (none : (definitions.zipIdx 1).findSome? (failureAt? definitions) = none)
    {definition : Definition} (member : definition ∈ definitions) :
    ∃ value, given definitions definition = .ok value := by
  have numbered : definition ∈ (definitions.zipIdx 1).map Prod.fst := by simpa using member
  obtain ⟨⟨_, line⟩, inside, rfl⟩ := List.mem_map.mp numbered
  have passes := List.findSome?_eq_none_iff.mp none _ inside
  rw [failureAt?] at passes
  split at passes
  · rename_i value denotes
    exact ⟨value, denotes⟩
  · cases passes

/-- Where every symbol has what its last definition denotes, names stand for these values. -/
theorem Declared.scope_eq {definitions : List Definition} {model : Model}
    (declared : Declared definitions model)
    (none : (definitions.zipIdx 1).findSome? (failureAt? definitions) = none)
    (values : ∀ symbol id, model.lookup symbol = some id → ∀ definition,
      last? definitions symbol = some definition →
        model.override? id = (given definitions definition).toOption) :
    model.scope = (names definitions).scope := by
  funext symbol
  rw [Model.scope, Model.scopeOf, Expression.Names.scope, names]
  cases found : last? definitions symbol with
  | none =>
      rw [declared.unknown symbol found]
      rfl
  | some definition =>
      obtain ⟨member, rfl⟩ := mem_of_last? found
      obtain ⟨id, known, -, -⟩ := declared.entry member
      obtain ⟨value, denotes⟩ := given_of_none none member
      have stored : model.override? id = some value := by
        rw [values _ id known definition found, denotes]
        rfl
      rw [known, Option.map_some, Model.value_of_override stored]
      simp only [Option.map_some, denotes]
      rfl

theorem evaluate_of_build {definitions : List Definition} {base : Model}
    (built : Model.build (description definitions) {} = .ok base) (mode : Mode)
    (expression : String) :
    let run := base.importText (String.join (definitions.map assignment))
    evaluate definitions mode expression =
      match run.outcome with
      | .error cause => .error (.applyingDefinitions cause)
      | .ok _ => run.model.evaluate mode expression := by
  intro run
  rw [evaluate, model, built, Except.ok_bind]
  dsimp only [run]
  cases (base.importText (String.join (definitions.map assignment))).outcome with
  | error cause => rfl
  | ok report => rfl

/-- Evaluating under definitions looks names up in a table of what the last definition of a symbol
denotes for its first type; the first definition that denotes nothing is reported instead. -/
theorem evaluate_eq_names {definitions : List Definition}
    (parsed : ∀ definition ∈ definitions, ∃ text, parse text = .ok definition)
    (single : ∀ definition ∈ definitions, '\n' ∉ definition.value.toList)
    (mode : Mode) (expression : String) :
    evaluate definitions mode expression =
      match failure? definitions with
      | some cause => .error (.applyingDefinitions cause)
      | none => Expression.evaluate (names definitions).scope mode expression := by
  obtain ⟨base, built⟩ : ∃ base, Model.build (description definitions) {} = .ok base := ⟨_, rfl⟩
  have declared := declared_of_build built
  have abort : base.options.importPolicy = .abort := by rw [Model.options_of_build built]
  have imported := declared.assignAll (List.Subset.refl _) abort {} 1
  rw [← ofText_assignment parsed single] at imported
  rw [evaluate_of_build built, failure?]
  cases failing : (definitions.zipIdx 1).findSome? (failureAt? definitions) with
  | some cause =>
      rw [failing] at imported
      have failed : (base.importText (String.join (definitions.map assignment))).outcome =
          .error cause := imported
      rw [failed]
  | none =>
      rw [failing] at imported
      obtain ⟨result, ended, values⟩ := imported
      have ended : (base.importText (String.join (definitions.map assignment))).outcome =
          .ok result := ended
      have same : (base.importText (String.join (definitions.map assignment))).model.bare =
          base.bare := (Model.bare_after base [.assign _]).1
      rw [ended]
      refine congrArg (Expression.evaluate · mode expression) ?_
      refine (declared.of_bare same.symm).scope_eq failing fun symbol id known definition last => ?_
      rw [Model.lookup_of_bare same] at known
      have stored := values symbol id known
      rw [last] at stored
      exact stored

/-- A symbol with definitions of two types, one with quotes and one in base sixteen; two more
definitions cannot be read, of which the first one is reported. -/
theorem evaluate_eq_names_of_repeated :
    let definitions : List Definition :=
      [⟨"N", "int", " 7"⟩, ⟨"S", "string", "'a b'"⟩, ⟨"H", "hex", "0XfF\t"⟩, ⟨"N", "bool", "-12  "⟩]
    let faulty := definitions ++ [⟨"N", "string", "x"⟩, ⟨"U", "float", "1"⟩]
    evaluate definitions .preserve "!N && (S = 'a b' || H)" = .ok (.number 14) ∧
      evaluate faulty .preserve "!N && (S = 'a b' || H)" =
        .error (.applyingDefinitions (.assignment 5 "N" (.invalidNumber "x"))) := by
  intro definitions faulty
  have parsed : ∀ definition ∈ faulty, ∃ text, parse text = .ok definition := by
    have each : ∀ definition ∈ faulty,
        parse (definition.symbol ++ ":" ++ definition.type ++ "=" ++ definition.value) =
          .ok definition := by decide +kernel
    exact fun definition member => ⟨_, each definition member⟩
  have single : ∀ definition ∈ faulty, '\n' ∉ definition.value.toList := by decide +kernel
  have among : ∀ definition ∈ definitions, definition ∈ faulty := fun _ =>
    List.mem_append_left _
  refine ⟨?_, ?_⟩
  · rw [evaluate_eq_names (fun definition member => parsed definition (among definition member))
      (fun definition member => single definition (among definition member))]
    decide +kernel
  · rw [evaluate_eq_names parsed single]
    decide +kernel

end Definition
end OptionTree
