import OptionTree.Proofs.Runs

/-!
# The part of a model that stays

Apart from the values that were set and the options, a model is determined by its description, and
no edit changes it.  In this part every symbol of an entry is registered for that entry.
-/

namespace OptionTree

namespace Entry

/-- The entry as if it had not been set. -/
def unset (entry : Entry) : Entry := { entry with override := none }

@[simp]
theorem toDeclaration_unset (entry : Entry) :
    entry.unset.toDeclaration = entry.toDeclaration := rfl

theorem unset_merge (first later : Entry) :
    (first.merge later).unset = first.unset.merge later := rfl

theorem unset_adopt (entry : Entry) (child : EntryId) :
    (entry.adopt child).unset = entry.unset.adopt child := rfl

end Entry

namespace Registry

/-- The registry as if no entry had been set. -/
def unset (registry : Registry) : Registry :=
  { registry with entries := registry.entries.map Entry.unset }

theorem unset_modify {registry : Registry} {change bareChange : Entry → Entry} (index : EntryId)
    (commutes : ∀ entry, (change entry).unset = bareChange entry.unset) :
    (registry.modify index change).unset = registry.unset.modify index bareChange := by
  have entries : (registry.entries.modify index change).map Entry.unset =
      (registry.entries.map Entry.unset).modify index bareChange := by
    apply List.ext_getElem?
    intro other
    rw [List.getElem?_map, List.getElem?_modify, List.getElem?_modify, List.getElem?_map]
    cases registry.entries[other]? with
    | none => rfl
    | some entry =>
        by_cases same : index = other
        · simp [same, commutes]
        · simp [same]
  simp only [unset, modify, entries]

theorem unset_modify_of_eq {registry : Registry} {change : Entry → Entry} (index : EntryId)
    (same : ∀ entry, (change entry).unset = entry.unset) :
    (registry.modify index change).unset = registry.unset := by
  rw [@unset_modify registry change id index same]
  simp [modify]

theorem unset_push (registry : Registry) (entry : Entry) :
    (registry.push entry).unset = registry.unset.push entry.unset := by
  simp [unset, push, size, Entry.unset]

theorem unset_register (registry : Registry) {entry : Entry} (bare : entry.unset = entry) :
    registry.unset.register entry =
      ((registry.register entry).1.unset, (registry.register entry).2) := by
  have same : entry.symbol.bind registry.unset.lookup = entry.symbol.bind registry.lookup := rfl
  unfold register
  rw [same]
  split
  · rename_i index _
    rw [@unset_modify registry (·.merge entry) (·.merge entry) index
      fun first => first.unset_merge entry]
  · rw [unset_push, bare]
    simp [unset, size]

end Registry

namespace Model

/-- The model as if nothing had been set in it, and without options. -/
def bare (model : Model) : Model :=
  { model with
    registry := model.registry.unset
    options := {} }

theorem get?_bare (model : Model) (id : EntryId) :
    model.bare.get? id = (model.get? id).map Entry.unset := by
  simp [get?, bare, Registry.get?, Registry.unset]

@[simp]
theorem lookup_bare (model : Model) (symbol : String) :
    model.bare.lookup symbol = model.lookup symbol := rfl

@[simp]
theorem size_bare (model : Model) : model.bare.size = model.size := by
  simp [size, bare, Registry.size, Registry.unset]

theorem bare_modify_of_eq {model : Model} {change : Entry → Entry} (id : EntryId)
    (same : ∀ entry, (change entry).unset = entry.unset) :
    (model.modify id change).bare = model.bare := by
  simp only [bare, modify, Registry.unset_modify_of_eq id same]

theorem bare_store (model : Model) (id : EntryId) (value : Option Value) :
    (model.store id value).bare = model.bare :=
  bare_modify_of_eq id fun _ => rfl

/-- Edits change only the values that were set. -/
theorem bare_after (model : Model) (history : List Edit) :
    (model.after history).bare = model.bare ∧ (model.after history).options = model.options := by
  refine @after_related (fun first second =>
    second.bare = first.bare ∧ second.options = first.options) ?_ ?_ ?_ model history
  · exact fun _ => ⟨rfl, rfl⟩
  · exact fun _ _ _ first second => ⟨second.1.trans first.1, second.2.trans first.2⟩
  · exact fun model id value => ⟨bare_store model id value, rfl⟩

theorem bare_preset (model : Model) (declaration : Declaration) (id : EntryId) :
    (model.preset declaration id).bare = model.bare := by
  rw [preset]
  split
  · rfl
  · exact bare_modify_of_eq id fun _ => rfl

theorem preset_bare (model : Model) (declaration : Declaration) (id : EntryId) :
    model.bare.preset declaration id = model.bare := by
  have absent : declaration.env.bind (model.bare.options.env.lookup ·) = none := by
    cases declaration.env <;> rfl
  simp only [preset, absent]

theorem declare_bare (parent : EntryId) (model : Model) (declaration : Declaration) :
    model.bare.declare parent declaration =
      ((model.declare parent declaration).1.bare, (model.declare parent declaration).2) := by
  have registered : model.bare.registry.register (.ofDeclaration declaration (some parent)) =
      ((model.registry.register (.ofDeclaration declaration (some parent))).1.unset,
        (model.registry.register (.ofDeclaration declaration (some parent))).2) :=
    model.registry.unset_register rfl
  simp only [declare, bare_preset, registered, Prod.mk.injEq, and_true]
  generalize model.registry.register (.ofDeclaration declaration (some parent)) = added
  let recorded := (({ model with registry := added.1 } : Model).recordConditions declaration
    added.2).recordImplications declaration added.2
  exact preset_bare recorded declaration added.2

theorem attach_bare (model : Model) (owner child : EntryId) :
    model.bare.attach owner child = (model.attach owner child).bare := by
  unfold attach
  split
  · rfl
  · have commutes := @Registry.unset_modify model.registry (·.adopt child) (·.adopt child) owner
      fun entry => entry.unset_adopt child
    simp only [bare, modify, commutes]

mutual

theorem place_bare (owner : EntryId) (model : Model) :
    ∀ unit, place owner model.bare unit = (place owner model unit).bare
  | .mk declaration children => by
      rw [place_mk, place_mk, declare_bare, placeAll_bare, attach_bare]

theorem placeAll_bare (owner : EntryId) (model : Model) :
    ∀ units, placeAll owner model.bare units = (placeAll owner model units).bare
  | [] => rfl
  | unit :: units => by
      rw [placeAll, placeAll, place_bare, placeAll_bare]

end

/-- A description is built if its outermost node is a menu, by placing the units under it. -/
theorem build_eq_ok_iff {description : Node} {options : Options} {model : Model} :
    build description options = .ok model ↔ description.declaration.kind = .menu ∧
      placeAll root (top description.declaration options)
        (Outline.ofNodes description.entries) = model := by
  rw [build]
  split
  · rename_i menu
    simp [menu]
  · rename_i other
    simp [other]

/-- Two models of one description differ only by what was set in them and by their options. -/
theorem build_bare {description : Node} {options : Options} {model : Model}
    (built : build description options = .ok model) : build description {} = .ok model.bare := by
  obtain ⟨menu, rfl⟩ := build_eq_ok_iff.mp built
  refine build_eq_ok_iff.mpr ⟨menu, ?_⟩
  rw [← placeAll_bare]
  rfl

end Model
end OptionTree
