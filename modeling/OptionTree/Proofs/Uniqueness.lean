import OptionTree.Proofs.Scopes

/-!
# Entries with the same symbol

Declaring keeps one entry for each symbol, but the root of a description gets its symbol without
being registered.  Every entry below the root is the registered one of its symbol, the root never
is, and two entries share a symbol exactly if the symbol of the root is declared again below it.
-/

namespace OptionTree
namespace Model

theorem symbol?_eq_some_iff_site {model : Model} {id : EntryId} {symbol : String} :
    model.symbol? id = some symbol ↔
      ∃ site, model.site? id = some site ∧ site.symbol = some symbol := by
  rw [symbol?, site?, Option.bind_eq_some_iff]
  constructor
  · rintro ⟨entry, present, own⟩
    exact ⟨entry.site, by rw [present, Option.map_some], own⟩
  · rintro ⟨site, found, own⟩
    obtain ⟨entry, present, rfl⟩ := Option.map_eq_some_iff.mp found
    exact ⟨entry, present, own⟩

section Built

variable {description : Node} {options : Options} {model : Model}
  (built : build description options = .ok model)
include built

/-- The registered entries of a built model are those below the root that have a symbol. -/
theorem lookup_of_build (symbol : String) (id : EntryId) :
    model.lookup symbol = some id ↔ id ≠ root ∧ model.symbol? id = some symbol := by
  rw [(places_of_build built).rising.registered, symbol?_eq_some_iff_site]

theorem symbol?_root_of_build : model.symbol? root = description.declaration.symbol := by
  obtain ⟨later, there, le⟩ := (places_of_build built).grown.site root
    ⟨description.declaration.kind, description.declaration.symbol, none, []⟩ rfl
  obtain ⟨entry, present, rfl⟩ := Option.map_eq_some_iff.mp there
  rw [symbol?, present]
  exact le.symbol

/-- A symbol has a registered entry exactly if it is declared below the root. -/
theorem lookup_isSome_iff_declared (symbol : String) :
    (∃ id, model.lookup symbol = some id) ↔
      ∃ declaration ∈ Node.documentAll description.entries, declaration.symbol = some symbol := by
  have kinds := kindOf_of_build built symbol
  have declared : (Declaration.first? (Node.documentAll description.entries) symbol).isSome ↔
      ∃ declaration ∈ Node.documentAll description.entries,
        declaration.symbol = some symbol := by
    simp [Declaration.first?]
  rw [← declared]
  constructor
  · rintro ⟨id, found⟩
    obtain ⟨-, site, there, -⟩ := ((places_of_build built).rising.registered symbol id).mp found
    rw [kindOf, found, Option.bind_some, kind?, there, Option.map_some] at kinds
    obtain ⟨first, known, -⟩ := Option.map_eq_some_iff.mp kinds.symm
    exact Option.isSome_iff_exists.mpr ⟨first, known⟩
  · intro known
    obtain ⟨first, known⟩ := Option.isSome_iff_exists.mp known
    rw [known, Option.map_some, kindOf] at kinds
    obtain ⟨id, found, -⟩ := Option.bind_eq_some_iff.mp kinds
    exact ⟨id, found⟩

theorem eq_root_of_shared_symbol {symbol : String} {id : EntryId}
    (fresh : ∀ declaration ∈ Node.documentAll description.entries,
      declaration.symbol ≠ some symbol) (own : model.symbol? id = some symbol) : id = root := by
  refine Decidable.by_contra fun inner => ?_
  obtain ⟨declaration, member, again⟩ := (lookup_isSome_iff_declared built symbol).mp
    ⟨id, (lookup_of_build built symbol id).mpr ⟨inner, own⟩⟩
  exact fresh declaration member again

end Built

/-- Entries below the root are the registered ones of their symbols, and no two entries share one
exactly if that of the root is not declared again. -/
theorem unique_symbols_iff (description : Node) (options : Options)
    (menu : description.declaration.kind = .menu) :
    ∃ model, build description options = .ok model ∧
      (∀ id symbol, model.symbol? id = some symbol → id ≠ root →
        model.lookup symbol = some id) ∧
      ((∀ id symbol, model.symbol? id = some symbol → model.lookup symbol = some id) ↔
        description.declaration.symbol = none) ∧
      ((∀ first second symbol, model.symbol? first = some symbol →
          model.symbol? second = some symbol → first = second) ↔
        ∀ symbol, description.declaration.symbol = some symbol →
          ∀ declaration ∈ Node.documentAll description.entries,
            declaration.symbol ≠ some symbol) := by
  obtain ⟨model, built⟩ : ∃ model, build description options = .ok model := ⟨_, if_pos menu⟩
  have registered := lookup_of_build built
  have top := symbol?_root_of_build built
  have below : ∀ id symbol, model.symbol? id = some symbol → id ≠ root →
      model.lookup symbol = some id :=
    fun id symbol own inner => (registered symbol id).mpr ⟨inner, own⟩
  refine ⟨model, built, below, ⟨fun all => ?_, fun nameless id symbol own => ?_⟩, ⟨?_, ?_⟩⟩
  · cases named : description.declaration.symbol with
    | none => rfl
    | some symbol =>
        exact absurd rfl ((registered symbol root).mp (all root symbol (top.trans named))).1
  · refine below id symbol own fun same => ?_
    rw [same, top, nameless] at own
    cases own
  · intro unique symbol named declaration member own
    obtain ⟨id, found⟩ := (lookup_isSome_iff_declared built symbol).mpr ⟨declaration, member, own⟩
    obtain ⟨inner, again⟩ := (registered symbol id).mp found
    exact inner (unique id root symbol again (top.trans named))
  · intro fresh first second symbol own other
    by_cases upper : first = root
    · subst upper
      exact (eq_root_of_shared_symbol built (fresh symbol (top.symm.trans own)) other).symm
    · by_cases lower : second = root
      · subst lower
        exact eq_root_of_shared_symbol built (fresh symbol (top.symm.trans other)) own
      · exact Option.some.inj
          ((below first symbol own upper).symm.trans (below second symbol other lower))

/-- An option with the symbol of the root is another entry with this symbol. -/
theorem unique_symbols_of_named_root :
    let description : Node :=
      .mk { kind := .menu, symbol := some "R" } [.mk { symbol := some "R" } []]
    ∃ model, build description {} = .ok model ∧
      model.entries.map (fun entry => entry.symbol) = [some "R", some "R"] ∧
      ¬(∀ id symbol, model.symbol? id = some symbol → model.lookup symbol = some id) ∧
      ¬∀ first second symbol, model.symbol? first = some symbol →
        model.symbol? second = some symbol → first = second := by
  intro description
  obtain ⟨model, built, -, registered, unique⟩ := unique_symbols_iff description {} rfl
  have shape : ((build description {}).toOption.map fun model =>
      model.entries.map fun entry => entry.symbol) = some [some "R", some "R"] := by
    decide +kernel
  rw [built] at shape
  refine ⟨model, built, Option.some.inj shape, fun all => ?_, fun all => ?_⟩
  · cases registered.mp all
  · exact unique.mp all "R" rfl { symbol := some "R" } (by decide) rfl

end Model
end OptionTree
