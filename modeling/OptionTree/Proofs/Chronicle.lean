import OptionTree.Proofs.Mentions
import OptionTree.Proofs.Numbering

/-!
# Entries and their definitions

While a model is built, its declarations come up in the order in which the description has them.
`Threads` carries a property of the declarations so far and of the model through building.  The
property of `Chronicle` is that every entry is what its definitions state together, that the first
variable of theirs which the environment has presets it, and that it is recorded for the names in
the conditions of all its definitions, whether or not the entry keeps these conditions.
-/

namespace OptionTree

namespace Model

/-- Whether declaring adds to the declarations of which a property holds, and handing over keeps the
property. -/
structure Threads (holds : List Declaration → Model → Prop) : Prop where
  /-- A declaration comes behind the earlier ones. -/
  declare : ∀ earlier model owner declaration, holds earlier model →
    holds (earlier ++ [declaration]) (model.declare owner declaration).1
  /-- Handing over declares nothing. -/
  attach : ∀ earlier model owner child, holds earlier model →
    holds earlier (model.attach owner child)

variable {holds : List Declaration → Model → Prop}

mutual

theorem Threads.place (threads : Threads holds) (earlier : List Declaration) (owner : EntryId)
    (model : Model) (start : holds earlier model) :
    ∀ unit : Outline, holds (earlier ++ unit.document) (place owner model unit)
  | .mk declaration children => by
      have inner := threads.placeAll _ (model.declare owner declaration).2 _
        (threads.declare earlier model owner declaration start) children
      rw [List.append_assoc] at inner
      exact threads.attach _ _ owner _ inner

theorem Threads.placeAll (threads : Threads holds) (earlier : List Declaration) (owner : EntryId)
    (model : Model) (start : holds earlier model) :
    ∀ units : List Outline,
      holds (earlier ++ Outline.documentAll units) (placeAll owner model units)
  | [] => by
      rw [Outline.documentAll, List.append_nil]
      exact start
  | unit :: units => by
      rw [Outline.documentAll_cons, ← List.append_assoc]
      exact threads.placeAll _ owner _ (threads.place earlier owner model start unit) units

end

/-- What declaring and handing over keep holds of a built model and of all that is declared below
its root. -/
theorem Threads.of_build (threads : Threads holds) {description : Node} {options : Options}
    {model : Model} (built : build description options = .ok model)
    (start : holds [] (top description.declaration options)) :
    holds (Node.documentAll description.entries) model := by
  obtain ⟨-, rfl⟩ := build_eq_ok_iff.mp built
  have whole := threads.placeAll [] root _ start (Outline.ofNodes description.entries)
  rwa [List.nil_append, Outline.documentAll_ofNodes] at whole

end Model

namespace Declaration

/-- What some definitions of one symbol state together. -/
def together (first : Declaration) (later : List Declaration) : Declaration :=
  later.foldl merge first

theorem together_concat (first : Declaration) (later : List Declaration) (next : Declaration) :
    first.together (later ++ [next]) = (first.together later).merge next :=
  List.foldl_concat ..

theorem findSome?_together {α : Type} {read : Declaration → Option α}
    (merged : ∀ first later, read (first.merge later) = (read first).or (read later))
    (first : Declaration) (later : List Declaration) :
    read (first.together later) = (first :: later).findSome? read := by
  induction later using List.reverseRecOn with
  | nil => simp [together]
  | append_singleton later next ih =>
      rw [together_concat, merged, ih, ← List.cons_append, List.findSome?_append]
      simp

theorem clauses_together (first : Declaration) (later : List Declaration) :
    (first.together later).clauses = (first :: later).flatMap (·.clauses) := by
  induction later using List.reverseRecOn with
  | nil => simp [together]
  | append_singleton later next ih =>
      rw [together_concat, ← List.cons_append, List.flatMap_append, ← ih]
      simp [merge]

/-- The text that an environment has for the variable of a declaration. -/
def preset? (declaration : Declaration) (env : List (String × String)) : Option String :=
  declaration.env.bind (env.lookup ·)

/-- The definitions for which an entry stands, if some declarations are those below the root: all of
its symbol, or only its own one if it has no symbol or is the root. -/
def definitionsIn (declarations : List Declaration) (id : EntryId) (whole : Declaration) :
    List Declaration :=
  match whole.symbol with
  | none => [whole]
  | some symbol =>
    if id = Model.root then [whole]
    else declarations.filter fun declaration => declaration.symbol = some symbol

theorem definitionsIn_root (declarations : List Declaration) (whole : Declaration) :
    definitionsIn declarations Model.root whole = [whole] := by
  rw [definitionsIn]
  split <;> rfl

end Declaration

/-- The definitions for which an entry of a built model stands. -/
def Node.definitions (description : Node) (id : EntryId) (entry : Entry) : List Declaration :=
  Declaration.definitionsIn (documentAll description.entries) id entry.toDeclaration

/-- What an entry states and holds. -/
structure Note where
  /-- What its definitions state together. -/
  declaration : Declaration
  /-- The value it was set to. -/
  override : Option Value

/-- What an entry states and holds that stands for some definitions, in an environment. -/
def Note.ofDefinitions (env : List (String × String)) : List Declaration → Option Note
  | [] => none
  | first :: later => some ⟨first.together later,
      ((first :: later).findSome? (·.preset? env)).map .text⟩

/-- What an entry states and holds. -/
def Entry.note (entry : Entry) : Note := ⟨entry.toDeclaration, entry.override⟩

/-- What is stated and held after one more definition, in an environment. -/
def Note.join (note? : Option Note) (declaration : Declaration) (env : List (String × String)) :
    Note where
  declaration := ((note?.map Note.declaration).map (·.merge declaration)).getD declaration
  override := (note?.bind Note.override).or ((declaration.preset? env).map .text)

theorem Note.ofDefinitions_concat (env : List (String × String)) (definitions : List Declaration)
    (next : Declaration) :
    ofDefinitions env (definitions ++ [next]) =
      some (join (ofDefinitions env definitions) next env) := by
  cases definitions with
  | nil => simp [ofDefinitions, join, Declaration.together]
  | cons first later =>
      have presets : ((first :: later) ++ [next]).findSome? (·.preset? env) =
          ((first :: later).findSome? (·.preset? env)).or (next.preset? env) := by
        rw [List.findSome?_append]
        simp
      rw [List.cons_append, ofDefinitions, Declaration.together_concat, ← List.cons_append, presets]
      simp [ofDefinitions, join, Option.map_or]

namespace Model

/-- What the entry with an identifier states and holds. -/
def note? (model : Model) (id : EntryId) : Option Note := (model.get? id).map Entry.note

theorem note?_attach (model : Model) (owner child id : EntryId) :
    (model.attach owner child).note? id = model.note? id := by
  rw [attach]
  split
  · rfl
  · have found : (model.modify owner (·.adopt child)).get? id =
        if owner = id then (model.get? id).map (·.adopt child) else model.get? id :=
      Registry.get?_modify ..
    rw [note?, note?, found]
    split
    · rw [Option.map_map]
      rfl
    · rfl

theorem note?_size (model : Model) : model.note? model.size = none := by
  simp [note?, get?, Registry.get?, size, Registry.size]

theorem symbol?_eq_bind_note? (model : Model) (id : EntryId) :
    model.symbol? id = (model.note? id).bind fun note => note.declaration.symbol := by
  rw [symbol?, note?, Option.bind_map]
  rfl

theorem note?_preset (model : Model) (declaration : Declaration) (index id : EntryId) :
    (model.preset declaration index).note? id =
      if id = index then (model.note? id).map fun note => ⟨note.declaration,
        note.override.or ((declaration.preset? model.options.env).map .text)⟩
      else model.note? id := by
  rw [preset, ← Declaration.preset?]
  cases declaration.preset? model.options.env with
  | none => simp
  | some content =>
      have found := Registry.get?_modify model.registry index id fun entry =>
        { entry with override := entry.override.or (some (.text content)) }
      dsimp only
      rw [note?, get?, modify, found, note?, get?]
      simp only [eq_comm]
      split
      · rw [Option.map_map, Option.map_map]
        rfl
      · rfl

/-- A declaration joins the entry that stands for it, and changes no other one. -/
theorem note?_declare {model : Model}
    (registered : ∀ symbol id, model.lookup symbol = some id → model.symbol? id = some symbol)
    (owner : EntryId) (declaration : Declaration) (id : EntryId) :
    (model.declare owner declaration).1.note? id =
      if id = (model.declare owner declaration).2 then
        some (Note.join (model.note? id) declaration model.options.env)
      else model.note? id := by
  let entry := Entry.ofDeclaration declaration (some owner)
  have kept : (model.declare owner declaration).1.note? id =
      if id = (model.declare owner declaration).2 then
        ((model.registry.register entry).1.get? id).map fun found => ⟨found.toDeclaration,
          found.override.or ((declaration.preset? model.options.env).map .text)⟩
      else ((model.registry.register entry).1.get? id).map Entry.note := by
    rw [declare, note?_preset]
    split
    · exact Option.map_map ..
    · rfl
  rw [kept, declare]
  dsimp only
  cases known : entry.symbol.bind model.registry.lookup with
  | some index =>
      have merged : model.registry.register entry =
          (model.registry.modify index (·.merge entry), index) := by
        rw [Registry.register, known]
      obtain ⟨symbol, -, located⟩ := Option.bind_eq_some_iff.mp known
      obtain ⟨first, present, -⟩ := Option.bind_eq_some_iff.mp (registered symbol index located)
      rw [merged, Registry.get?_modify]
      split
      · rename_i own
        subst own
        have present : model.registry.get? id = some first := present
        rw [if_pos rfl, note?, get?, present]
        rfl
      · rename_i other
        rw [if_neg (Ne.symm other)]
        rfl
  | none =>
      have pushed : model.registry.register entry = (model.registry.push entry, model.size) := by
        rw [Registry.register, known]
        rfl
      have whole : model.registry.size = model.size := rfl
      rw [pushed, Registry.get?_push, whole]
      change (if id = model.size then _ else _) = if id = model.size then _ else _
      by_cases new : id = model.size
      · rw [if_pos new, if_pos new, if_pos new, new, note?_size]
        rfl
      · rw [if_neg new, if_neg new, if_neg new]
        rfl

theorem declare_cases (model : Model) (owner : EntryId) (declaration : Declaration) :
    (∃ symbol, declaration.symbol = some symbol ∧
        model.lookup symbol = some (model.declare owner declaration).2) ∨
      (∀ symbol, declaration.symbol = some symbol → model.lookup symbol = none) ∧
        (model.declare owner declaration).2 = model.size := by
  rw [declare, Registry.register]
  split
  · rename_i index known
    exact .inl (Option.bind_eq_some_iff.mp known)
  · rename_i unknown
    exact .inr ⟨Option.bind_eq_none_iff.mp unknown, rfl⟩

/-- A symbol is registered for the entry to which its declarations belong. -/
theorem lookup_declare_eq (model : Model) (owner : EntryId) (declaration : Declaration)
    (symbol : String) :
    (model.declare owner declaration).1.lookup symbol =
      if declaration.symbol = some symbol then some (model.declare owner declaration).2
      else model.lookup symbol := by
  have kept : (model.declare owner declaration).1.lookup symbol =
      (model.registry.register (.ofDeclaration declaration (some owner))).1.lookup symbol := by
    rw [declare, lookup_preset]
    rfl
  rw [kept, declare, Registry.register]
  split
  · rename_i index known
    split
    · rename_i named
      rw [Registry.lookup_modify]
      obtain ⟨own, given, located⟩ := Option.bind_eq_some_iff.mp known
      obtain rfl := Option.some.inj (named.symm.trans given)
      exact located
    · rfl
  · rename_i unknown
    exact Registry.lookup_push symbol unknown

/-! ## All declarations -/

/-- The definitions for which an entry of a model stands, if some declarations were made. -/
def definitionsOf (model : Model) (earlier : List Declaration) (id : EntryId) :
    List Declaration :=
  ((model.note? id).map fun note =>
    Declaration.definitionsIn earlier id note.declaration).getD []

/-- What a model remembers of the declarations that were made below its root. -/
structure Chronicle (whole : Declaration) (options : Options) (earlier : List Declaration)
    (model : Model) : Prop where
  /-- The options stay. -/
  configured : model.options = options
  /-- The root states what the description does, and has no value. -/
  top : model.note? root = some ⟨whole, none⟩
  /-- The registered symbols are those of the entries below the root. -/
  registered : ∀ symbol id, model.lookup symbol = some id ↔
    id ≠ root ∧ model.symbol? id = some symbol
  /-- Every symbol that was declared is registered. -/
  declared : ∀ declaration ∈ earlier, ∀ symbol, declaration.symbol = some symbol →
    model.lookup symbol ≠ none
  /-- Other entries state and hold what their definitions do. -/
  states : ∀ id, id ≠ root →
    model.note? id = Note.ofDefinitions options.env (model.definitionsOf earlier id)
  /-- Entries are recorded for the names in the conditions of their definitions. -/
  mentions : ∀ symbol id, id ∈ model.dependents symbol ↔
    ∃ definition ∈ model.definitionsOf earlier id, ∃ text ∈ definition.conditions,
      symbol ∈ Token.symbols text

theorem definitionsOf_of_note? {model : Model} {earlier : List Declaration} {id : EntryId}
    {note : Note} (found : model.note? id = some note) :
    model.definitionsOf earlier id = Declaration.definitionsIn earlier id note.declaration := by
  rw [definitionsOf, found]
  rfl

namespace Chronicle

variable {whole : Declaration} {options : Options} {earlier : List Declaration} {model : Model}

section Declare

variable (chronicle : Chronicle whole options earlier model)
include chronicle

theorem symbol?_of_lookup {symbol : String} {id : EntryId}
    (known : model.lookup symbol = some id) : model.symbol? id = some symbol :=
  ((chronicle.registered symbol id).mp known).2

theorem exists_note {symbol : String} {id : EntryId} (known : model.lookup symbol = some id) :
    ∃ note, model.note? id = some note ∧ note.declaration.symbol = some symbol := by
  obtain ⟨entry, present, named⟩ := Option.bind_eq_some_iff.mp (chronicle.symbol?_of_lookup known)
  exact ⟨entry.note, by rw [note?, present]; rfl, named⟩

variable (owner : EntryId) (declaration : Declaration)

theorem declare_ne_root : (model.declare owner declaration).2 ≠ root := by
  rcases model.declare_cases owner declaration with ⟨symbol, -, known⟩ | ⟨-, new⟩
  · exact ((chronicle.registered symbol _).mp known).1
  · obtain ⟨entry, present, -⟩ := Option.map_eq_some_iff.mp chronicle.top
    have positive : root < model.size := (List.getElem?_eq_some_iff.mp present).1
    rw [new]
    exact Nat.ne_of_gt positive

theorem lookup_iff_own {symbol : String} {id : EntryId} (known : model.lookup symbol = some id) :
    declaration.symbol = some symbol ↔ id = (model.declare owner declaration).2 := by
  rcases model.declare_cases owner declaration with ⟨own, named, located⟩ | ⟨unknown, new⟩
  · constructor
    · intro same
      obtain rfl := Option.some.inj (named.symm.trans same)
      exact Option.some.inj (known.symm.trans located)
    · rintro rfl
      rw [named, ← chronicle.symbol?_of_lookup located, chronicle.symbol?_of_lookup known]
  · constructor
    · intro same
      cases known.symm.trans (unknown symbol same)
    · intro own
      have present := lt_size_of_symbol? (chronicle.symbol?_of_lookup known)
      exact absurd present (by rw [own, new]; exact Nat.lt_irrefl _)

/-- The entry to which a declaration belongs stands for one more definition. -/
theorem definitionsIn_join :
    Declaration.definitionsIn (earlier ++ [declaration]) (model.declare owner declaration).2
        (Note.join (model.note? (model.declare owner declaration).2) declaration
          model.options.env).declaration =
      model.definitionsOf earlier (model.declare owner declaration).2 ++ [declaration] := by
  have below := chronicle.declare_ne_root owner declaration
  rcases model.declare_cases owner declaration with ⟨symbol, named, known⟩ | ⟨unknown, new⟩
  · obtain ⟨note, found, own⟩ := chronicle.exists_note known
    have merged : (note.declaration.merge declaration).symbol = some symbol := by
      rw [Declaration.merge, own]
      rfl
    rw [definitionsOf_of_note? found, found, Note.join]
    simp [Declaration.definitionsIn, merged, own, below, named]
  · have absent := model.note?_size
    rw [← new] at absent
    rw [definitionsOf, absent]
    change Declaration.definitionsIn _ _ declaration = [] ++ [declaration]
    cases named : declaration.symbol with
    | none => simp [Declaration.definitionsIn, named]
    | some symbol =>
        have first : (earlier.filter fun other => other.symbol = some symbol) = [] := by
          refine List.filter_eq_nil_iff.mpr fun other member same => ?_
          exact chronicle.declared other member symbol (of_decide_eq_true same)
            (unknown symbol named)
        simp [Declaration.definitionsIn, named, below, first]

theorem definitionsIn_concat {id : EntryId} (other : id ≠ (model.declare owner declaration).2)
    {note : Note} (found : model.note? id = some note) :
    Declaration.definitionsIn (earlier ++ [declaration]) id note.declaration =
      Declaration.definitionsIn earlier id note.declaration := by
  rw [Declaration.definitionsIn, Declaration.definitionsIn]
  cases named : note.declaration.symbol with
  | none => rfl
  | some symbol =>
      dsimp only
      split
      · rfl
      · rename_i below
        have known : model.lookup symbol = some id :=
          (chronicle.registered symbol id).mpr
            ⟨below, by rw [symbol?_eq_bind_note?, found]; exact named⟩
        have apart : declaration.symbol ≠ some symbol := fun same =>
          other ((chronicle.lookup_iff_own owner declaration known).mp same)
        simp [apart]

theorem definitionsOf_declare (id : EntryId) :
    (model.declare owner declaration).1.definitionsOf (earlier ++ [declaration]) id =
      if id = (model.declare owner declaration).2 then
        model.definitionsOf earlier id ++ [declaration]
      else model.definitionsOf earlier id := by
  rw [definitionsOf, note?_declare (fun _ _ => chronicle.symbol?_of_lookup)]
  split
  · rename_i own
    subst own
    exact chronicle.definitionsIn_join owner declaration
  · rename_i other
    cases found : model.note? id with
    | none => rw [definitionsOf, found]; rfl
    | some note =>
        rw [definitionsOf_of_note? found, ← chronicle.definitionsIn_concat owner declaration other
          found]
        rfl

theorem symbol?_declare (id : EntryId) :
    (model.declare owner declaration).1.symbol? id =
      if id = (model.declare owner declaration).2 then declaration.symbol
      else model.symbol? id := by
  rw [symbol?_eq_bind_note?, note?_declare (fun _ _ => chronicle.symbol?_of_lookup),
    symbol?_eq_bind_note?]
  split
  · rename_i own
    subst own
    rcases model.declare_cases owner declaration with ⟨symbol, named, known⟩ | ⟨-, new⟩
    · obtain ⟨note, found, own⟩ := chronicle.exists_note known
      rw [found, named]
      change note.declaration.symbol.or declaration.symbol = some symbol
      rw [own]
      rfl
    · rw [new, note?_size]
      rfl
  · rfl

theorem registered_declare (symbol : String) (id : EntryId) :
    (model.declare owner declaration).1.lookup symbol = some id ↔
      id ≠ root ∧ (model.declare owner declaration).1.symbol? id = some symbol := by
  rw [lookup_declare_eq, chronicle.symbol?_declare owner declaration]
  have below := chronicle.declare_ne_root owner declaration
  by_cases own : id = (model.declare owner declaration).2
  · rw [if_pos own, own]
    constructor
    · intro found
      split at found
      · rename_i named
        exact ⟨below, named⟩
      · rename_i different
        exact absurd ((chronicle.lookup_iff_own owner declaration found).mpr rfl) different
    · rintro ⟨-, named⟩
      rw [if_pos named]
  · rw [if_neg own, ← chronicle.registered]
    constructor
    · intro found
      split at found
      · exact absurd (Option.some.inj found).symm own
      · exact found
    · intro known
      rw [if_neg fun named => own ((chronicle.lookup_iff_own owner declaration known).mp named),
        known]

/-- The chronicle goes on with every declaration. -/
theorem declare : Chronicle whole options (earlier ++ [declaration])
    (model.declare owner declaration).1 where
  configured := by
    rw [Model.declare, options_preset]
    exact chronicle.configured
  top := by
    rw [note?_declare (fun _ _ => chronicle.symbol?_of_lookup), if_neg, chronicle.top]
    exact (chronicle.declare_ne_root owner declaration).symm
  registered := chronicle.registered_declare owner declaration
  declared := by
    intro other member symbol named
    rw [lookup_declare_eq]
    split
    · exact Option.some_ne_none _
    · rename_i different
      rcases List.mem_append.mp member with before | last
      · exact chronicle.declared other before symbol named
      · obtain rfl := List.mem_singleton.mp last
        exact absurd named different
  states := by
    intro id below
    rw [note?_declare (fun _ _ => chronicle.symbol?_of_lookup),
      chronicle.definitionsOf_declare owner declaration]
    split
    · rw [Note.ofDefinitions_concat, ← chronicle.states id below, chronicle.configured]
    · exact chronicle.states id below
  mentions := by
    intro symbol id
    rw [dependents, SymbolIndex.mem_entries, mem_mentions_declare,
      chronicle.definitionsOf_declare owner declaration, ← SymbolIndex.mem_entries]
    have before := chronicle.mentions symbol id
    rw [dependents] at before
    rw [before]
    split
    · rename_i own
      simp [own, or_and_right, exists_or]
    · rename_i other
      simp [other]

end Declare

/-- Handing over changes neither what entries state nor what they hold. -/
theorem attach (chronicle : Chronicle whole options earlier model) (owner child : EntryId) :
    Chronicle whole options earlier (model.attach owner child) := by
  have notes := model.note?_attach owner child
  have definitions : (model.attach owner child).definitionsOf earlier =
      model.definitionsOf earlier := by
    funext id
    rw [definitionsOf, notes, definitionsOf]
  have symbols : (model.attach owner child).symbol? = model.symbol? := by
    funext id
    rw [symbol?_eq_bind_note?, notes, symbol?_eq_bind_note?]
  have same : (model.attach owner child).options = model.options ∧
      (model.attach owner child).lookup = model.lookup ∧
      (model.attach owner child).dependents = model.dependents := by
    rw [Model.attach]
    split <;> exact ⟨rfl, rfl, rfl⟩
  obtain ⟨options, lookup, dependents⟩ := same
  constructor
  · exact options.trans chronicle.configured
  · exact (notes root).trans chronicle.top
  · rw [lookup, symbols]
    exact chronicle.registered
  · rw [lookup]
    exact chronicle.declared
  · intro id below
    rw [notes, definitions]
    exact chronicle.states id below
  · rw [dependents, definitions]
    exact chronicle.mentions

end Chronicle

theorem threads_chronicle (whole : Declaration) (options : Options) :
    Threads (Chronicle whole options) where
  declare _ _ owner declaration chronicle := chronicle.declare owner declaration
  attach _ _ owner child chronicle := chronicle.attach owner child

theorem note?_top (declaration : Declaration) (options : Options) (id : EntryId) :
    (top declaration options).note? id = if id = root then some ⟨declaration, none⟩ else none := by
  cases id <;> rfl

theorem chronicle_top (declaration : Declaration) (options : Options) :
    Chronicle declaration options [] (top declaration options) where
  configured := rfl
  top := note?_top declaration options root
  registered symbol id := by
    have unknown : (top declaration options).lookup symbol = none := rfl
    rw [unknown, symbol?_eq_bind_note?, note?_top]
    split
    · simp [*]
    · simp
  declared := fun _ member => by cases member
  states id below := by
    rw [definitionsOf, note?_top, if_neg below]
    rfl
  mentions symbol id := by
    rw [dependents, SymbolIndex.mem_entries, definitionsOf, note?_top]
    refine SymbolIndex.mem_records_foldl.trans ?_
    by_cases own : id = root
    · simp [own, Declaration.definitionsIn_root, empty, Declaration.conditions]
    · simp [own, empty]

/-- A built model remembers all that is declared below its root. -/
theorem chronicle_of_build {description : Node} {options : Options} {model : Model}
    (built : build description options = .ok model) :
    Chronicle description.declaration options (Node.documentAll description.entries) model :=
  (threads_chronicle _ _).of_build built (chronicle_top _ _)

section Built

variable {description : Node} {options : Options} {model : Model} {id : EntryId} {entry : Entry}

theorem definitionsOf_of_get? (found : model.get? id = some entry) :
    model.definitionsOf (Node.documentAll description.entries) id =
      description.definitions id entry :=
  @definitionsOf_of_note? model _ id entry.note (by rw [note?, found]; rfl)

variable (built : build description options = .ok model) (found : model.get? id = some entry)
include built found

/-- An entry of a built model states what its definitions state together.  Below the root it has the
text of the first variable of theirs that the environment has; the root has no value. -/
theorem exists_definitions_of_build :
    ∃ first later, description.definitions id entry = first :: later ∧
      entry.toDeclaration = first.together later ∧
      entry.override = (if id = root then none
        else (first :: later).findSome? (·.preset? options.env)).map .text := by
  have chronicle := chronicle_of_build built
  have noted : model.note? id = some entry.note := by rw [note?, found]; rfl
  by_cases top : id = root
  · have own : entry.note = ⟨description.declaration, none⟩ := by
      rw [top, chronicle.top] at noted
      exact (Option.some.inj noted).symm
    refine ⟨entry.toDeclaration, [], ?_, rfl, ?_⟩
    · rw [Node.definitions, top, Declaration.definitionsIn_root]
    · rw [if_pos top]
      exact congrArg Note.override own
  · have states := chronicle.states id top
    rw [noted, definitionsOf_of_get? found] at states
    cases definitions : description.definitions id entry with
    | nil =>
        rw [definitions] at states
        cases states
    | cons first later =>
        rw [definitions] at states
        have own := Option.some.inj states
        refine ⟨first, later, rfl, congrArg Note.declaration own, ?_⟩
        rw [if_neg top]
        exact congrArg Note.override own

theorem exists_declaration_of_lookup {symbol : String} (named : entry.symbol = some symbol)
    (below : id ≠ root) :
    ∃ declaration ∈ Node.documentAll description.entries, declaration.symbol = some symbol := by
  obtain ⟨first, later, definitions, -⟩ := exists_definitions_of_build built found
  have member : first ∈ description.definitions id entry := by
    rw [definitions]
    exact List.mem_cons_self
  rw [Node.definitions, Declaration.definitionsIn, named] at member
  dsimp only at member
  rw [if_neg below, List.mem_filter] at member
  exact ⟨first, member.1, of_decide_eq_true member.2⟩

end Built

end Model
end OptionTree
