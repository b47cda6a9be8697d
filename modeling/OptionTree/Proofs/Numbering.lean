import OptionTree.Proofs.Indexed
import OptionTree.Proofs.Lists

/-!
# Entries in the order of the description

If no symbol is declared twice, every declaration gets an entry of its own.  The entries are then
numbered as the declarations are written, those under a unit directly behind the head of the unit,
and a walk over the children of entries finds each of them once, in that order.
-/

namespace OptionTree

namespace Node

mutual

/-- What a node and all nodes under it declare, in order.  Only menus list nodes. -/
def document : Node → List Declaration
  | .mk declaration entries =>
    declaration :: if declaration.kind = .menu then documentAll entries else []

/-- What some nodes and all nodes under them declare, in order. -/
def documentAll : List Node → List Declaration
  | [] => []
  | node :: rest => document node ++ documentAll rest

end

end Node

namespace Outline

mutual

/-- What the head of a unit and all units under it declare, in order. -/
def document : Outline → List Declaration
  | .mk declaration children => declaration :: documentAll children

/-- What some units and all units under them declare, in order. -/
def documentAll : List Outline → List Declaration
  | [] => []
  | unit :: rest => document unit ++ documentAll rest

end

@[simp]
theorem document_mk (declaration : Declaration) (children : List Outline) :
    document (.mk declaration children) = declaration :: documentAll children := rfl

@[simp]
theorem documentAll_cons (unit : Outline) (rest : List Outline) :
    documentAll (unit :: rest) = unit.document ++ documentAll rest := rfl

theorem documentAll_append (first second : List Outline) :
    documentAll (first ++ second) = documentAll first ++ documentAll second := by
  induction first with
  | nil => rfl
  | cons unit rest ih => simp [ih]

theorem documentAll_arrange (declaration : Declaration) (listed later : List Outline) :
    documentAll (arrange declaration listed later) =
      declaration :: (if declaration.kind = .menu then documentAll listed else []) ++
        documentAll later := by
  rw [arrange]
  split
  · rename_i menu
    simp [menu]
  · rename_i symbol option named
    rw [if_neg (by rw [option]; decide), documentAll_cons, document_mk, List.cons_append,
      ← documentAll_append, List.takeWhile_append_dropWhile]
    rfl
  · rename_i other _
    rw [if_neg fun menu => other menu]
    rfl

theorem documentAll_ofNodes : ∀ nodes, documentAll (ofNodes nodes) = Node.documentAll nodes
  | [] => rfl
  | .mk declaration entries :: rest => by
      rw [ofNodes_cons, documentAll_arrange, documentAll_ofNodes entries, documentAll_ofNodes rest]
      rfl

theorem documentAll_subset {unit : Outline} {units : List Outline} (member : unit ∈ units) :
    unit.document ⊆ documentAll units := by
  induction member with
  | head => exact List.subset_append_left _ _
  | tail _ _ ih => exact fun _ found => List.mem_append_right _ (ih found)

theorem mem_document {unit : Outline} {inner : Declaration} (declares : unit.Declares inner) :
    inner ∈ unit.document := by
  induction declares with
  | here => exact List.mem_cons_self
  | inside member _ ih => exact List.mem_cons_of_mem _ (documentAll_subset member ih)

theorem length_document_pos (unit : Outline) : 0 < unit.document.length := by
  cases unit with
  | mk declaration children => exact Nat.succ_pos _

/-- The numbers of the heads of some units, if the first one has the number `next`. -/
def heads (next : EntryId) : List Outline → List EntryId
  | [] => []
  | unit :: rest => next :: heads (next + unit.document.length) rest

theorem le_of_mem_heads {next id : EntryId} {units : List Outline}
    (member : id ∈ heads next units) : next ≤ id := by
  induction units generalizing next with
  | nil => cases member
  | cons unit rest ih =>
      rcases List.mem_cons.mp member with rfl | later
      · exact Nat.le_refl id
      · exact Nat.le_trans (Nat.le_add_right _ _) (ih later)

theorem nodup_heads (next : EntryId) (units : List Outline) : (heads next units).Nodup := by
  induction units generalizing next with
  | nil => exact List.nodup_nil
  | cons unit rest ih =>
      refine List.nodup_cons.mpr ⟨fun member => ?_, ih _⟩
      have later := le_of_mem_heads member
      have positive := unit.length_document_pos
      exact Nat.not_lt.mpr later (Nat.lt_add_of_pos_right positive)

mutual

/-- The entries of a unit under an owner, if its head has the number `next`. -/
def entries (owner next : EntryId) : Outline → List Entry
  | .mk declaration children =>
    { Entry.ofDeclaration declaration (some owner) with children := heads (next + 1) children } ::
      entriesAll next (next + 1) children

/-- The entries of some units under an owner, numbered from `next` on. -/
def entriesAll (owner next : EntryId) : List Outline → List Entry
  | [] => []
  | unit :: rest => entries owner next unit ++ entriesAll owner (next + unit.document.length) rest

end

mutual

theorem toDeclaration_entries (owner next : EntryId) : ∀ unit,
    (entries owner next unit).map (fun entry => entry.toDeclaration) = document unit
  | .mk declaration children => by
      rw [entries, List.map_cons, toDeclaration_entriesAll next (next + 1) children]
      rfl

theorem toDeclaration_entriesAll (owner next : EntryId) : ∀ units,
    (entriesAll owner next units).map (fun entry => entry.toDeclaration) = documentAll units
  | [] => rfl
  | unit :: rest => by
      rw [entriesAll, List.map_append, toDeclaration_entries owner next unit,
        toDeclaration_entriesAll owner _ rest]
      rfl

end

theorem length_entries (owner next : EntryId) (unit : Outline) :
    (entries owner next unit).length = unit.document.length := by
  rw [← toDeclaration_entries owner next unit, List.length_map]

theorem length_entriesAll (owner next : EntryId) (units : List Outline) :
    (entriesAll owner next units).length = (documentAll units).length := by
  rw [← toDeclaration_entriesAll owner next units, List.length_map]

end Outline

theorem mergeItems_append {α : Type} [DecidableEq α] (first second third : List α) :
    mergeItems first (second ++ third) = mergeItems (mergeItems first second) third :=
  List.foldl_append

theorem mergeItems_of_nodup {α : Type} [DecidableEq α] {first later : List α}
    (distinct : (first ++ later).Nodup) : mergeItems first later = first ++ later := by
  induction later generalizing first with
  | nil => simp [mergeItems]
  | cons item later ih =>
      have distinct : (first ++ [item] ++ later).Nodup := by simpa using distinct
      have new : item ∉ first := fun member =>
        (List.nodup_append.mp (List.nodup_append.mp distinct).1).2.2 item member item
          List.mem_cons_self rfl
      have rest := ih distinct
      rw [mergeItems, List.foldl_cons, if_neg new]
      simpa [mergeItems] using rest

/-- The entry with more children, as far as it does not have them. -/
def Entry.adoptAll (entry : Entry) (more : List EntryId) : Entry :=
  { entry with children := mergeItems entry.children more }

theorem Entry.adoptAll_comp (first later : List EntryId) :
    ((·.adoptAll later) ∘ (·.adoptAll first) : Entry → Entry) = (·.adoptAll (first ++ later)) := by
  funext entry
  simp [adoptAll, mergeItems_append]

theorem Entry.adoptAll_ofDeclaration (declaration : Declaration) (parent : Option EntryId)
    (next : EntryId) (units : List Outline) :
    (ofDeclaration declaration parent).adoptAll (Outline.heads next units) =
      { ofDeclaration declaration parent with children := Outline.heads next units } := by
  have merged := @mergeItems_of_nodup _ _ [] _ (Outline.nodup_heads next units)
  rw [adoptAll]
  exact congrArg (fun children =>
    { ofDeclaration declaration parent with children := children }) merged

/-- The symbols of some declarations. -/
def Declaration.symbols (declarations : List Declaration) : List String :=
  declarations.filterMap fun declaration => declaration.symbol

theorem Declaration.symbols_append (first later : List Declaration) :
    symbols (first ++ later) = symbols first ++ symbols later :=
  List.filterMap_append

theorem Registry.lookup_register_of_ne {registry : Registry} {entry : Entry} {symbol : String}
    (other : entry.symbol ≠ some symbol) :
    (registry.register entry).1.lookup symbol = registry.lookup symbol := by
  rw [register]
  split
  · rfl
  · rename_i unknown
    rw [lookup_push symbol unknown, if_neg other]

namespace Model

theorem unknown_kept (symbol : String) :
    Kept (fun model => model.lookup symbol = none)
      fun declaration => declaration.symbol ≠ some symbol where
  declare := by
    intro model parent declaration other unknown
    have kept := @Registry.lookup_register_of_ne model.registry
      (.ofDeclaration declaration (some parent)) symbol other
    rw [declare, lookup_preset]
    exact kept.trans unknown
  attach := by
    intro model owner child unknown
    rw [attach]
    split
    · exact unknown
    · exact unknown

theorem declare_of_new {model : Model} {declaration : Declaration} (owner : EntryId)
    (new : ∀ symbol, declaration.symbol = some symbol → model.lookup symbol = none) :
    (model.declare owner declaration).2 = model.size ∧
      (model.declare owner declaration).1.bare.entries =
        model.bare.entries ++ [.ofDeclaration declaration (some owner)] := by
  have unknown : (Entry.ofDeclaration declaration (some owner)).symbol.bind
      model.registry.lookup = none := by
    cases named : declaration.symbol with
    | none => simp [Entry.ofDeclaration, named]
    | some symbol =>
        have absent : model.registry.lookup symbol = none := new symbol named
        simpa [Entry.ofDeclaration, named] using absent
  have pushed : model.registry.register (.ofDeclaration declaration (some owner)) =
      (model.registry.push (.ofDeclaration declaration (some owner)), model.size) := by
    rw [Registry.register, unknown]
    rfl
  simp only [declare, bare_preset, pushed, true_and]
  exact congrArg Registry.entries (model.registry.unset_push _)

theorem entries_attach {model : Model} {owner child : EntryId} (different : owner ≠ child) :
    (model.attach owner child).bare.entries =
      model.bare.entries.modify owner (·.adoptAll [child]) := by
  rw [← attach_bare, attach, if_neg different]
  rfl

theorem length_entries_bare (model : Model) : model.bare.entries.length = model.size :=
  model.size_bare

theorem size_of_entries {model : Model} {entries : List Entry}
    (found : model.bare.entries = entries) : model.size = entries.length := by
  rw [← found, length_entries_bare]

/-- What it takes to place declarations as they are written: their owner is there, and their
symbols are new. -/
structure Fresh (model : Model) (owner : EntryId) (declarations : List Declaration) : Prop where
  /-- The owner is there. -/
  present : owner < model.size
  /-- No symbol is known. -/
  new : ∀ symbol ∈ Declaration.symbols declarations, model.lookup symbol = none
  /-- No symbol is declared twice. -/
  distinct : (Declaration.symbols declarations).Nodup

namespace Fresh

variable {model : Model} {owner : EntryId}

theorem left {first later : List Declaration} (fresh : model.Fresh owner (first ++ later)) :
    model.Fresh owner first where
  present := fresh.present
  new := fun symbol member => fresh.new symbol (by
    rw [Declaration.symbols_append]
    exact List.mem_append_left _ member)
  distinct := by
    have distinct := fresh.distinct
    rw [Declaration.symbols_append] at distinct
    exact (List.nodup_append.mp distinct).1

theorem ne_of_mem {first later : List Declaration} (fresh : model.Fresh owner (first ++ later))
    {symbol : String} (member : symbol ∈ Declaration.symbols later) {declaration : Declaration}
    (before : declaration ∈ first) : declaration.symbol ≠ some symbol := by
  intro named
  have distinct := fresh.distinct
  rw [Declaration.symbols_append] at distinct
  exact (List.nodup_append.mp distinct).2.2 symbol (List.mem_filterMap.mpr ⟨_, before, named⟩)
    symbol member rfl

theorem under {declaration : Declaration} {later : List Declaration}
    (fresh : model.Fresh owner (declaration :: later)) :
    (model.declare owner declaration).1.Fresh model.size later := by
  have whole : model.Fresh owner ([declaration] ++ later) := fresh
  have added := (declare_of_new owner fun symbol named =>
    fresh.new symbol (List.mem_filterMap.mpr ⟨_, List.mem_cons_self, named⟩)).2
  have size := size_of_entries added
  rw [List.length_append, length_entries_bare] at size
  refine ⟨Nat.lt_of_lt_of_eq (Nat.lt_succ_self _) size.symm, fun symbol member => ?_, ?_⟩
  · refine (unknown_kept symbol).declare model owner declaration
      (whole.ne_of_mem member List.mem_cons_self) ?_
    refine fresh.new symbol ?_
    exact ((List.sublist_cons_self declaration later).filterMap _).subset member
  · exact fresh.distinct.sublist ((List.sublist_cons_self declaration later).filterMap _)

theorem behind {unit : Outline} {later : List Declaration}
    (fresh : model.Fresh owner (unit.document ++ later))
    (grows : model.size ≤ (place owner model unit).size) :
    (place owner model unit).Fresh owner later := by
  refine ⟨Nat.lt_of_lt_of_le fresh.present grows, fun symbol member => ?_, ?_⟩
  · refine (unknown_kept symbol).place owner model ?_ unit fun inner declares =>
      fresh.ne_of_mem member (Outline.mem_document declares)
    refine fresh.new symbol ?_
    exact ((List.sublist_append_right unit.document later).filterMap _).subset member
  · exact fresh.distinct.sublist ((List.sublist_append_right unit.document later).filterMap _)

end Fresh

mutual

/-- A unit whose symbols are new is placed behind all entries. -/
theorem entries_place {owner : EntryId} {model : Model} : ∀ unit : Outline,
    model.Fresh owner unit.document →
      (place owner model unit).bare.entries =
        model.bare.entries.modify owner (·.adoptAll [model.size]) ++
          unit.entries owner model.size
  | .mk declaration children, fresh => by
      obtain ⟨id, added⟩ := declare_of_new owner fun symbol named =>
        fresh.new symbol (List.mem_filterMap.mpr ⟨_, List.mem_cons_self, named⟩)
      have size : (model.declare owner declaration).1.size = model.size + 1 := by
        rw [size_of_entries added, List.length_append, length_entries_bare, List.length_singleton]
      have own : ∀ (entry : Entry) (change : Entry → Entry),
          (model.bare.entries ++ [entry]).modify model.size change =
            model.bare.entries ++ [change entry] := by
        rw [← length_entries_bare]
        exact fun entry change => List.modify_append_length _ change entry
      have inside : owner < model.bare.entries.length := by
        rw [length_entries_bare]
        exact fresh.present
      -- The new entry is behind all others, so what is under it starts at the next number.
      have below := entries_placeAll children fresh.under
      rw [size, added, own] at below
      rw [place_mk, id, entries_attach (Nat.ne_of_lt fresh.present), below, List.append_assoc,
        List.modify_append_of_lt inside, Outline.entries, Entry.adoptAll_ofDeclaration]
      rfl

theorem entries_placeAll {owner : EntryId} {model : Model} : ∀ units : List Outline,
    model.Fresh owner (Outline.documentAll units) →
      (placeAll owner model units).bare.entries =
        model.bare.entries.modify owner (·.adoptAll (Outline.heads model.size units)) ++
          Outline.entriesAll owner model.size units
  | [], _ => by
      have same : (fun entry : Entry => entry.adoptAll []) = id := rfl
      rw [Outline.heads, same, List.modify_id]
      exact (List.append_nil _).symm
  | unit :: rest, fresh => by
      have first := entries_place unit fresh.left
      have size : (place owner model unit).size = model.size + unit.document.length := by
        rw [size_of_entries first, List.length_append, List.length_modify, length_entries_bare,
          Outline.length_entries]
      have inside : owner < (model.bare.entries.modify owner (·.adoptAll [model.size])).length := by
        rw [List.length_modify, length_entries_bare]
        exact fresh.present
      rw [placeAll, entries_placeAll rest (fresh.behind (size ▸ Nat.le_add_right ..)), first,
        List.modify_append_of_lt inside, List.modify_modify_eq, Entry.adoptAll_comp, size,
        List.append_assoc]
      rfl

end

/-- The entries of a description that declares no symbol twice, as they are before one is set. -/
theorem entries_build {description : Node} {options : Options} {model : Model}
    (built : build description options = .ok model)
    (distinct : (Declaration.symbols (Node.documentAll description.entries)).Nodup) :
    model.bare.entries =
      { Entry.ofDeclaration description.declaration none with
        children := Outline.heads 1 (Outline.ofNodes description.entries) } ::
        Outline.entriesAll root 1 (Outline.ofNodes description.entries) := by
  rw [← Outline.documentAll_ofNodes] at distinct
  obtain ⟨-, rfl⟩ := build_eq_ok_iff.mp built
  have fresh : (top description.declaration options).Fresh root
      (Outline.documentAll (Outline.ofNodes description.entries)) :=
    ⟨Nat.zero_lt_one, fun _ _ => rfl, distinct⟩
  have alone : (top description.declaration options).bare.entries =
      [.ofDeclaration description.declaration none] := rfl
  rw [entries_placeAll _ fresh, alone, size_of_entries alone, ← Entry.adoptAll_ofDeclaration]
  rfl

/-! ## Walks over children -/

/-- A walk over some entries that have a parent, each one followed by a walk over its children, and
the order in which it comes to all these entries. -/
inductive Walk (model : Model) : Option EntryId → List EntryId → List EntryId → Prop
  /-- A walk over no entries. -/
  | nil (parent : Option EntryId) : Walk model parent [] []
  /-- An entry is visited before what is under it, and that before the next entry. -/
  | cons {parent : Option EntryId} {id : EntryId} {entry : Entry}
      {rest below behind : List EntryId} :
      model.get? id = some entry → entry.parent = parent →
      Walk model (some id) entry.children below → Walk model parent rest behind →
      Walk model parent (id :: rest) (id :: (below ++ behind))

theorem Walk.cons_of_bare {model : Model} {entry : Entry} {before after : List Entry}
    {rest below behind : List EntryId} (split : model.bare.entries = before ++ entry :: after)
    (inner : model.Walk (some before.length) entry.children below)
    (later : model.Walk entry.parent rest behind) :
    model.Walk entry.parent (before.length :: rest) (before.length :: (below ++ behind)) := by
  have found : model.bare.get? before.length = some entry := by
    have found : model.bare.entries[before.length]? = some entry := by
      rw [split]
      simp
    exact found
  rw [get?_bare] at found
  obtain ⟨own, present, rfl⟩ := Option.map_eq_some_iff.mp found
  exact .cons present rfl inner later

/-- A walk over the heads of units visits everything under them in the order of the description. -/
theorem walk_heads {model : Model} {owner : EntryId} : ∀ (units : List Outline)
    {before after : List Entry},
    model.bare.entries = before ++ Outline.entriesAll owner before.length units ++ after →
      model.Walk (some owner) (Outline.heads before.length units)
        (List.range' before.length (Outline.documentAll units).length)
  | [], _, _, _ => .nil _
  | .mk declaration children :: rest, before, after, split => by
      let unit : Outline := .mk declaration children
      let head : Entry :=
        { Entry.ofDeclaration declaration (some owner) with
          children := Outline.heads (before.length + 1) children }
      have inner : (before ++ [head]).length = before.length + 1 := by simp
      have later : (before ++ unit.entries owner before.length).length =
          before.length + unit.document.length := by
        rw [List.length_append, Outline.length_entries]
      have whole : model.bare.entries = before ++ head ::
          (Outline.entriesAll before.length (before.length + 1) children ++
            (Outline.entriesAll owner (before.length + unit.document.length) rest ++ after)) := by
        rw [split, Outline.entriesAll, Outline.entries, List.append_assoc, List.cons_append,
          List.cons_append, List.append_assoc]
      have below := @walk_heads model before.length children (before ++ [head]) _ (by
        rw [inner, whole, List.append_assoc, List.append_assoc]
        rfl)
      have behind := @walk_heads model owner rest (before ++ unit.entries owner before.length) _ (by
        rw [later, split, Outline.entriesAll, ← List.append_assoc])
      rw [inner] at below
      rw [later] at behind
      have numbers : List.range' before.length (Outline.documentAll (unit :: rest)).length =
          before.length :: (List.range' (before.length + 1) (Outline.documentAll children).length ++
            List.range' (before.length + unit.document.length)
              (Outline.documentAll rest).length) := by
        rw [Outline.documentAll_cons, List.length_append, ← List.range'_append_1]
        rfl
      rw [numbers]
      exact @Walk.cons_of_bare model head before _ _ _ _ whole below behind

end Model
end OptionTree
