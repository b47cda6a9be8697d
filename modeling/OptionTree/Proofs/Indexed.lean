import OptionTree.Proofs.Skeleton

/-!
# Declared symbols and their entries

The entries with a symbol are those of the registered symbols: building keeps both in step, and
every symbol of an entry was declared by the description.
-/

namespace OptionTree

/-- Whether a node or a node inside of it has a declaration. -/
inductive Node.Declares : Node → Declaration → Prop
  /-- A node has its own declaration. -/
  | here (declaration : Declaration) (entries : List Node) :
      Declares (.mk declaration entries) declaration
  /-- A node declares what the nodes that it lists declare. -/
  | inside {declaration inner : Declaration} {entries : List Node} {node : Node} :
      node ∈ entries → Declares node inner → Declares (.mk declaration entries) inner

/-- Whether a unit or a unit under it has a declaration. -/
inductive Outline.Declares : Outline → Declaration → Prop
  /-- A unit has the declaration of its head. -/
  | here (declaration : Declaration) (children : List Outline) :
      Declares (.mk declaration children) declaration
  /-- A unit declares what the units under it declare. -/
  | inside {declaration inner : Declaration} {children : List Outline} {unit : Outline} :
      unit ∈ children → Declares unit inner → Declares (.mk declaration children) inner

namespace Outline

theorem declares_of_mem_arrange {declaration inner : Declaration} {listed later : List Outline}
    {unit : Outline} (member : unit ∈ arrange declaration listed later)
    (declares : unit.Declares inner) :
    inner = declaration ∨ (∃ other ∈ listed, other.Declares inner) ∨
      ∃ other ∈ later, other.Declares inner := by
  have headed : ∀ children : List Outline, unit = mk declaration children →
      inner = declaration ∨ ∃ other ∈ children, other.Declares inner := by
    rintro children rfl
    cases declares with
    | here => exact .inl rfl
    | inside below declares => exact .inr ⟨_, below, declares⟩
  rw [arrange] at member
  split at member
  · rcases List.mem_cons.mp member with head | behind
    · exact (headed listed head).imp_right .inl
    · exact .inr (.inr ⟨unit, behind, declares⟩)
  · rcases List.mem_cons.mp member with head | behind
    · refine (headed _ head).imp_right fun ⟨other, below, found⟩ => .inr ⟨other, ?_, found⟩
      exact (List.takeWhile_prefix _).subset below
    · exact .inr (.inr ⟨unit, (List.dropWhile_subset _) behind, declares⟩)
  · rcases List.mem_cons.mp member with head | behind
    · exact (headed [] head).imp_right fun ⟨other, below, _⟩ => by cases below
    · exact .inr (.inr ⟨unit, behind, declares⟩)

theorem declares_of_mem_ofNodes {inner : Declaration} : ∀ (nodes : List Node) {unit : Outline},
    unit ∈ ofNodes nodes → unit.Declares inner → ∃ node ∈ nodes, node.Declares inner
  | [], _, member, _ => by cases member
  | .mk declaration entries :: rest, unit, member, declares => by
      rw [ofNodes_cons] at member
      rcases declares_of_mem_arrange member declares with rfl | ⟨other, listed, found⟩ |
        ⟨other, later, found⟩
      · exact ⟨_, List.mem_cons_self, .here inner entries⟩
      · obtain ⟨node, present, found⟩ := declares_of_mem_ofNodes entries listed found
        exact ⟨_, List.mem_cons_self, .inside present found⟩
      · obtain ⟨node, present, found⟩ := declares_of_mem_ofNodes rest later found
        exact ⟨node, List.mem_cons_of_mem _ present, found⟩

end Outline

namespace Registry

/-- The symbol of an entry. -/
def symbol? (registry : Registry) (id : EntryId) : Option String :=
  (registry.get? id).bind fun entry => entry.symbol

/-- Whether the registered symbols are those of the entries. -/
def Indexed (registry : Registry) : Prop :=
  ∀ id symbol, registry.symbol? id = some symbol ↔ registry.lookup symbol = some id

theorem symbol?_modify {registry : Registry} {index : EntryId} {change : Entry → Entry}
    (same : ∀ entry, registry.get? index = some entry → (change entry).symbol = entry.symbol)
    (id : EntryId) : (registry.modify index change).symbol? id = registry.symbol? id := by
  rw [symbol?, symbol?, get?_modify]
  split
  · subst_vars
    cases found : registry.get? id with
    | none => rfl
    | some entry => exact same entry found
  · rfl

theorem symbol?_push (registry : Registry) (entry : Entry) (id : EntryId) :
    (registry.push entry).symbol? id =
      if id = registry.size then entry.symbol else registry.symbol? id := by
  rw [symbol?, get?_push]
  split <;> rfl

theorem lookup_push {registry : Registry} {entry : Entry} (symbol : String)
    (unknown : entry.symbol.bind registry.lookup = none) :
    (registry.push entry).lookup symbol =
      if entry.symbol = some symbol then some registry.size else registry.lookup symbol := by
  simp only [lookup, push, List.lookup_append]
  cases named : entry.symbol with
  | none => simp
  | some name =>
      rw [named] at unknown
      by_cases same : name = symbol
      · subst same
        have unknown : registry.names.lookup name = none := unknown
        simp [unknown]
      · have other : (symbol == name) = false := beq_false_of_ne (Ne.symm same)
        simp [List.lookup_cons, other, same]

theorem lt_size_of_symbol? {registry : Registry} {id : EntryId} {symbol : String}
    (named : registry.symbol? id = some symbol) : id < registry.size := by
  obtain ⟨entry, present, -⟩ := Option.bind_eq_some_iff.mp named
  exact (List.getElem?_eq_some_iff.mp present).1

theorem symbol?_modify_merge {registry : Registry} {index : EntryId} {symbol : String}
    (own : registry.symbol? index = some symbol) (entry : Entry) (id : EntryId) :
    (registry.modify index (·.merge entry)).symbol? id = registry.symbol? id := by
  refine symbol?_modify (fun first present => ?_) id
  have named : first.symbol = some symbol := by simpa [symbol?, present] using own
  change first.symbol.or entry.symbol = first.symbol
  rw [named]
  rfl

/-- Whether every registered symbol is that of its entry. -/
def Registered (registry : Registry) : Prop :=
  ∀ symbol id, registry.lookup symbol = some id → registry.symbol? id = some symbol

theorem Registered.register {registry : Registry} (registered : registry.Registered)
    (entry : Entry) : (registry.register entry).1.Registered := by
  intro symbol id found
  rw [Registry.register] at found ⊢
  split at found
  · rename_i index known
    obtain ⟨own, -, located⟩ := Option.bind_eq_some_iff.mp known
    rw [lookup_modify] at found
    dsimp only
    rw [symbol?_modify_merge (registered own index located)]
    exact registered symbol id found
  · rename_i unknown
    dsimp only
    rw [lookup_push symbol unknown] at found
    rw [symbol?_push]
    split at found
    · rename_i named
      obtain rfl := Option.some.inj found
      rw [if_pos rfl, named]
    · have before := registered symbol id found
      rw [if_neg (Nat.ne_of_lt (lt_size_of_symbol? before)), before]

/-- Registering an entry keeps symbols and entries in step. -/
theorem Indexed.register {registry : Registry} (indexed : registry.Indexed) (entry : Entry) :
    (registry.register entry).1.Indexed := by
  have registered : registry.Registered := fun symbol id => (indexed id symbol).mpr
  refine fun id symbol => ⟨fun named => ?_, registered.register entry symbol id⟩
  rw [Registry.register] at named ⊢
  split at named
  · rename_i index known
    obtain ⟨own, -, located⟩ := Option.bind_eq_some_iff.mp known
    dsimp only at named ⊢
    rw [symbol?_modify_merge (registered own index located)] at named
    exact (indexed id symbol).mp named
  · rename_i unknown
    dsimp only at named ⊢
    rw [symbol?_push] at named
    rw [lookup_push symbol unknown]
    split at named
    · rename_i new
      rw [if_pos named, new]
    · have found := (indexed id symbol).mp named
      rw [if_neg fun own => ?_, found]
      rw [own, Option.bind_some, found] at unknown
      cases unknown

theorem symbol?_register {registry : Registry} {entry : Entry} {id : EntryId} {symbol : String}
    (found : (registry.register entry).1.symbol? id = some symbol) :
    registry.symbol? id = some symbol ∨ entry.symbol = some symbol := by
  rw [register] at found
  split at found
  · rename_i index known
    rw [symbol?, get?_modify] at found
    split at found
    · rename_i same
      subst same
      cases present : registry.get? index with
      | none => simp [present] at found
      | some first =>
          have either : first.symbol.or entry.symbol = some symbol := by
            rw [present] at found
            exact found
          rcases Option.or_eq_some_iff.mp either with own | ⟨-, given⟩
          · exact .inl (by simp [symbol?, present, own])
          · exact .inr given
    · exact .inl found
  · rw [symbol?_push] at found
    split at found
    · exact .inr found
    · exact .inl found

/-- An entry of a registry with one more definition was there before, or it is the one that stands
for the definition. -/
theorem get?_register {registry : Registry} {entry found : Entry} {id : EntryId}
    (present : (registry.register entry).1.get? id = some found) :
    registry.get? id = some found ∨ id = (registry.register entry).2 ∧
      (found = entry ∨ ∃ first, registry.get? id = some first ∧ found = first.merge entry) := by
  rw [register] at present ⊢
  split at present
  · rename_i index known
    dsimp only
    rw [get?_modify] at present
    split at present
    · rename_i same
      subst same
      obtain ⟨first, before, rfl⟩ := Option.map_eq_some_iff.mp present
      exact .inr ⟨rfl, .inr ⟨first, before, rfl⟩⟩
    · exact .inl present
  · rename_i unknown
    dsimp only
    rw [get?_push] at present
    split at present
    · rename_i same
      exact .inr ⟨same, .inl (Option.some.inj present).symm⟩
    · exact .inl present

end Registry

namespace Model

/-! ## Building -/

/-- Whether declaring and handing over keep a property of models, as long as every declaration is
known. -/
structure Kept (keeps : Model → Prop) (known : Declaration → Prop) : Prop where
  /-- Declaring keeps the property. -/
  declare : ∀ model parent declaration, known declaration → keeps model →
    keeps (model.declare parent declaration).1
  /-- Handing over keeps the property. -/
  attach : ∀ model owner child, keeps model → keeps (model.attach owner child)

mutual

theorem Kept.place {keeps : Model → Prop} {known : Declaration → Prop} (kept : Kept keeps known)
    (owner : EntryId) (model : Model) (holds : keeps model) :
    ∀ unit : Outline, (∀ declaration, unit.Declares declaration → known declaration) →
      keeps (place owner model unit)
  | .mk declaration children, knows => by
      rw [place_mk]
      refine kept.attach _ _ _ (kept.placeAll _ _ ?_ children fun unit member inner declares => ?_)
      · exact kept.declare model owner declaration (knows _ (.here declaration children)) holds
      · exact knows inner (.inside member declares)

theorem Kept.placeAll {keeps : Model → Prop} {known : Declaration → Prop} (kept : Kept keeps known)
    (owner : EntryId) (model : Model) (holds : keeps model) :
    ∀ units : List Outline, (∀ unit ∈ units, ∀ declaration, unit.Declares declaration →
      known declaration) → keeps (placeAll owner model units)
  | [], _ => holds
  | unit :: units, knows => by
      rw [Model.placeAll]
      refine kept.placeAll owner _ (kept.place owner model holds unit ?_) units ?_
      · exact knows unit List.mem_cons_self
      · exact fun other member => knows other (List.mem_cons_of_mem _ member)

end

theorem lt_size_of_symbol? {model : Model} {id : EntryId} {symbol : String}
    (named : model.symbol? id = some symbol) : id < model.size :=
  Registry.lt_size_of_symbol? named

/-- Whether the registered symbols are those of the entries. -/
def Indexed (model : Model) : Prop :=
  ∀ id symbol, model.symbol? id = some symbol ↔ model.lookup symbol = some id

theorem symbol?_modify {model : Model} {change : Entry → Entry}
    (same : ∀ entry, (change entry).symbol = entry.symbol) (index id : EntryId) :
    (model.modify index change).symbol? id = model.symbol? id :=
  Registry.symbol?_modify (fun entry _ => same entry) id

theorem symbol?_preset (model : Model) (declaration : Declaration) (index id : EntryId) :
    (model.preset declaration index).symbol? id = model.symbol? id := by
  rw [preset]
  split
  · rfl
  · apply symbol?_modify
    exact fun entry => rfl

theorem lookup_preset (model : Model) (declaration : Declaration) (index : EntryId)
    (symbol : String) : (model.preset declaration index).lookup symbol = model.lookup symbol := by
  rw [preset]
  split <;> rfl

theorem registered_kept : Kept (fun model => model.registry.Registered) fun _ => True where
  declare := by
    intro model parent declaration _ registered symbol id found
    have entered := registered.register (.ofDeclaration declaration (some parent)) symbol id
    exact (symbol?_preset _ declaration _ id).trans
      (entered ((lookup_preset _ declaration _ symbol).symm.trans found))
  attach := by
    intro model owner child registered
    rw [attach]
    split
    · exact registered
    · intro symbol id found
      have same := @symbol?_modify model (·.adopt child) (fun _ => rfl) owner id
      exact same.trans (registered symbol id found)

/-- A list that the definitions of an entry state. -/
def stated {α : Type} (read : Declaration → List α) (model : Model) (id : EntryId) : List α :=
  ((model.get? id).map fun entry => read entry.toDeclaration).getD []

theorem mem_stated {α : Type} {read : Declaration → List α} {model : Model} {id : EntryId}
    {item : α} : item ∈ model.stated read id ↔
      ∃ entry, model.get? id = some entry ∧ item ∈ read entry.toDeclaration := by
  rw [stated]
  cases model.get? id with
  | none => simp
  | some entry => simp

theorem stated_modify {α : Type} {read : Declaration → List α} {model : Model}
    {change : Entry → Entry} (same : ∀ entry, (change entry).toDeclaration = entry.toDeclaration)
    (index id : EntryId) :
    (model.modify index change).stated read id = model.stated read id := by
  have found : (model.modify index change).get? id =
      if index = id then (model.get? id).map change else model.get? id :=
    Registry.get?_modify ..
  rw [stated, stated, found]
  split
  · simp only [Option.map_map, Function.comp_def, same]
  · rfl

theorem stated_preset {α : Type} (read : Declaration → List α) (model : Model)
    (declaration : Declaration) (index id : EntryId) :
    (model.preset declaration index).stated read id = model.stated read id := by
  rw [preset]
  split
  · rfl
  · apply stated_modify
    exact fun entry => rfl

theorem mem_stated_declare {α : Type} {read : Declaration → List α}
    (merged : ∀ first later item, item ∈ read (first.merge later) →
      item ∈ read first ∨ item ∈ read later)
    {model : Model} {parent : EntryId} {declaration : Declaration} {id : EntryId} {item : α}
    (member : item ∈ (model.declare parent declaration).1.stated read id) :
    item ∈ model.stated read id ∨
      id = (model.declare parent declaration).2 ∧ item ∈ read declaration := by
  rw [declare, stated_preset] at member
  obtain ⟨entry, present, inside⟩ := mem_stated.mp member
  rcases Registry.get?_register present with before | ⟨own, rfl | ⟨first, before, rfl⟩⟩
  · exact .inl (mem_stated.mpr ⟨entry, before, inside⟩)
  · exact .inr ⟨own, inside⟩
  · rcases merged _ _ item inside with early | late
    · exact .inl (mem_stated.mpr ⟨first, before, early⟩)
    · exact .inr ⟨own, late⟩

/-- Whether symbols and entries are in step, and all symbols were declared by a description. -/
def Follows (description : Node) (model : Model) : Prop :=
  model.Indexed ∧ ∀ id symbol, model.symbol? id = some symbol →
    ∃ declaration, description.Declares declaration ∧ declaration.symbol = some symbol

theorem follows_kept (description : Node) : Kept (Follows description) description.Declares where
  declare := by
    rintro model parent declaration known ⟨indexed, declared⟩
    have registered : model.registry.Indexed := indexed
    constructor
    · intro id symbol
      rw [declare, symbol?_preset, lookup_preset]
      exact registered.register (.ofDeclaration declaration (some parent)) id symbol
    · intro id symbol found
      rw [declare, symbol?_preset] at found
      rcases Registry.symbol?_register found with before | own
      · exact declared id symbol before
      · exact ⟨declaration, known, own⟩
  attach := by
    rintro model owner child follows
    rw [attach]
    split
    · exact follows
    · have same := @symbol?_modify model (·.adopt child) (fun _ => rfl) owner
      obtain ⟨indexed, declared⟩ := follows
      constructor
      · intro id symbol
        rw [same]
        exact indexed id symbol
      · intro id symbol found
        rw [same] at found
        exact declared id symbol found

/-- What building keeps holds of a built model if it holds before anything is placed. -/
theorem Kept.of_build {keeps : Model → Prop} {known : Declaration → Prop}
    (kept : Kept keeps known) {description : Node} {options : Options} {model : Model}
    (built : build description options = .ok model)
    (knows : ∀ declaration, description.Declares declaration → known declaration)
    (start : keeps (top description.declaration options)) : keeps model := by
  obtain ⟨-, rfl⟩ := build_eq_ok_iff.mp built
  refine kept.placeAll root _ start _ fun unit member declaration declares => ?_
  obtain ⟨node, listed, found⟩ := Outline.declares_of_mem_ofNodes _ member declares
  cases description with
  | mk head entries => exact knows declaration (.inside listed found)

theorem build_follows {description : Node} {options : Options} {model : Model}
    (built : build description options = .ok model)
    (unnamed : description.declaration.symbol = none) : model.Follows description := by
  have empty : ∀ id, (top description.declaration options).symbol? id = none := by
    intro id
    cases id with
    | zero => exact unnamed
    | succ id => rfl
  refine (follows_kept description).of_build built (fun _ declares => declares) ⟨?_, ?_⟩
  · intro id symbol
    rw [empty]
    constructor
    · intro found
      cases found
    · intro found
      cases found
  · intro id symbol found
    rw [empty] at found
    cases found

/-- Lists in a built model are stated by its description. -/
theorem mem_stated_of_build {α : Type} {read : Declaration → List α}
    (merged : ∀ first later item, item ∈ read (first.merge later) →
      item ∈ read first ∨ item ∈ read later)
    {description : Node} {options : Options} {model : Model}
    (built : build description options = .ok model) {id : EntryId} {item : α}
    (member : item ∈ model.stated read id) :
    ∃ declaration, description.Declares declaration ∧ item ∈ read declaration := by
  have kept : Kept (fun model => ∀ id, ∀ item ∈ model.stated read id,
      ∃ declaration, description.Declares declaration ∧ item ∈ read declaration)
      description.Declares :=
    { declare := by
        intro model parent declaration declares before id item member
        rcases mem_stated_declare merged member with early | ⟨-, own⟩
        · exact before id item early
        · exact ⟨declaration, declares, own⟩
      attach := by
        intro model owner child before
        rw [attach]
        split
        · exact before
        · intro id item member
          rw [@stated_modify α read model (·.adopt child) (fun _ => rfl) owner] at member
          exact before id item member }
  refine kept.of_build built (fun _ declares => declares) (fun id item member => ?_) id item member
  cases id with
  | zero =>
      cases description with
      | mk head entries => exact ⟨head, .here head entries, member⟩
  | succ id => cases member

theorem stated_eq_nil_of_build {α : Type} {read : Declaration → List α}
    (merged : ∀ first later item, item ∈ read (first.merge later) →
      item ∈ read first ∨ item ∈ read later)
    {description : Node} {options : Options} {model : Model}
    (built : build description options = .ok model)
    (empty : ∀ declaration, description.Declares declaration → read declaration = [])
    (id : EntryId) : model.stated read id = [] := by
  refine List.eq_nil_iff_forall_not_mem.mpr fun item member => ?_
  obtain ⟨declaration, declares, stated⟩ := mem_stated_of_build merged built member
  rw [empty declaration declares] at stated
  cases stated

theorem options_preset (model : Model) (declaration : Declaration) (index : EntryId) :
    (model.preset declaration index).options = model.options := by
  rw [preset]
  split <;> rfl

theorem options_of_build {description : Node} {options : Options} {model : Model}
    (built : build description options = .ok model) : model.options = options := by
  have kept : Kept (fun model => model.options = options) fun _ => True :=
    { declare := by
        rintro model parent declaration - rfl
        exact options_preset _ declaration _
      attach := by
        rintro model owner child rfl
        rw [attach]
        split <;> rfl }
  exact kept.of_build built (fun _ _ => trivial) rfl

end Model
end OptionTree
