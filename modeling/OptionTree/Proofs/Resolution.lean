import OptionTree.Proofs.Export
import OptionTree.Proofs.Implications
import OptionTree.Proofs.Nesting

/-!
# How values are resolved

The value of an entry that was not set is the one that its defaults compute, but a switch is raised
to the highest state that an imply of any entry of the model asks for.  The value can be told
exactly if all conditions and values that this takes can.
-/

namespace OptionTree
namespace Model

/-- What an entry has without implies: the value of the first of its defaults whose condition holds,
or the zero of its type if none does. -/
inductive Computes (model : Model) (entry : Entry) : Option Value → Prop
  /-- The first default whose condition holds is evaluated with texts kept as they are. -/
  | default {before behind : List Conditional} {default : Conditional} {value : Value} :
      entry.defaults = before ++ default :: behind →
      (∀ other ∈ before, model.holds other.condition = .ok false) →
      model.holds default.condition = .ok true →
      model.evaluate .preserve default.value = .ok value → Computes model entry (some value)
  /-- Without such a default it is the zero of the type. -/
  | zero : (∀ default ∈ entry.defaults, model.holds default.condition = .ok false) →
      Computes model entry (entry.type.bind OptionType.zero?)

theorem defaultValue_append {scope : Scope} {before : List Conditional}
    (skipped : ∀ other ∈ before, Expression.holds scope other.condition = .ok false)
    (fallback : Option Value) (behind : List Conditional) :
    defaultValue scope fallback (before ++ behind) = defaultValue scope fallback behind := by
  induction before with
  | nil => rfl
  | cons default rest ih =>
      rw [List.cons_append, defaultValue, skipped default List.mem_cons_self]
      exact ih fun other member => skipped other (List.mem_cons_of_mem _ member)

/-- Some of the defaults applies if none of those before it does, or else all are passed over. -/
theorem applies_of_defaultValue {scope : Scope} {fallback computed : Option Value}
    {defaults : List Conditional} (found : defaultValue scope fallback defaults = .ok computed) :
    (∃ before default behind value, defaults = before ++ default :: behind ∧
      (∀ other ∈ before, Expression.holds scope other.condition = .ok false) ∧
      Expression.holds scope default.condition = .ok true ∧
      Expression.evaluate scope .preserve default.value = .ok value ∧ computed = some value) ∨
    (∀ default ∈ defaults, Expression.holds scope default.condition = .ok false) ∧
      computed = fallback := by
  induction defaults with
  | nil => exact .inr ⟨nofun, (Except.ok.inj found).symm⟩
  | cons default rest ih =>
      obtain ⟨applies, held, behind⟩ := Except.bind_eq_ok_iff.mp found
      cases applies with
      | true =>
          obtain ⟨value, evaluated, rfl⟩ := Except.map_eq_ok_iff.mp behind
          exact .inl ⟨[], default, rest, value, rfl, nofun, held, evaluated, rfl⟩
      | false =>
          rcases ih behind with ⟨before, later, last, value, rfl, skipped, applied⟩ |
            ⟨skipped, same⟩
          · exact .inl ⟨default :: before, later, last, value, rfl,
              List.forall_mem_cons.mpr ⟨held, skipped⟩, applied⟩
          · exact .inr ⟨List.forall_mem_cons.mpr ⟨held, skipped⟩, same⟩

theorem computes_iff {model : Model} {entry : Entry} {computed : Option Value} :
    model.Computes entry computed ↔
      defaultValue model.scope (entry.type.bind OptionType.zero?) entry.defaults =
        .ok computed := by
  constructor
  · rintro (⟨split, skipped, held, evaluated⟩ | skipped)
    · have applies : Expression.holds model.scope _ = .ok true := held
      have value : Expression.evaluate model.scope .preserve _ = .ok _ := evaluated
      rw [split, defaultValue_append skipped, defaultValue, applies, value]
      rfl
    · rw [← List.append_nil entry.defaults, defaultValue_append skipped, defaultValue]
  · intro found
    rcases applies_of_defaultValue found with
      ⟨before, default, behind, value, split, skipped, held, evaluated, rfl⟩ | ⟨skipped, rfl⟩
    · exact .default split skipped held evaluated
    · exact .zero skipped

/-- What the value of an entry that was not set is, if its defaults compute a value. -/
structure Resolves (model : Model) (id : EntryId) (entry : Entry) (computed value : Option Value) :
    Prop where
  /-- The state of a switch is the highest of the computed one and those that implies ask for. -/
  highest : entry.isSwitch = true → ∃ level, model.tristate id = .ok level ∧
    IsGreatest (insert (Tristate.ofValue? computed) (model.demands entry.symbol)) level
  /-- A switch keeps the computed value if no imply asks for a higher state. -/
  kept : entry.isSwitch = true →
    (∀ level ∈ model.demands entry.symbol, level ≤ Tristate.ofValue? computed) → value = computed
  /-- Anything else has the computed value. -/
  plain : entry.isSwitch = false → value = computed

/-- The state of a raised value is the highest of the computed one and those that are asked for. -/
theorem isGreatest_raised {computed : Option Value} {level : Tristate} {asked : Set Tristate}
    (highest : IsGreatest (insert .no asked) level) :
    IsGreatest (insert (Tristate.ofValue? computed) asked)
      (Tristate.ofValue? (raised computed level)) := by
  obtain ⟨reached, above⟩ := highest
  rw [raised]
  split
  · rename_i lower
    rw [Tristate.ofValue?_toValue]
    refine ⟨.inr (reached.resolve_left ?_), ?_⟩
    · rintro rfl
      exact absurd lower (Nat.not_lt_zero _)
    · rintro state (rfl | member)
      · exact Nat.le_of_lt lower
      · exact above (.inr member)
  · rename_i higher
    refine ⟨.inl rfl, ?_⟩
    rintro state (rfl | member)
    · exact le_rfl
    · exact (above (.inr member)).trans (Tristate.le_of_not_lt higher)

theorem raised_eq_self {computed : Option Value} {level : Tristate} {asked : Set Tristate}
    (highest : IsGreatest (insert .no asked) level)
    (lower : ∀ state ∈ asked, state ≤ Tristate.ofValue? computed) :
    raised computed level = computed := by
  have bounded : level ≤ Tristate.ofValue? computed := by
    rcases highest.1 with rfl | member
    · exact Nat.zero_le _
    · exact lower level member
  rw [raised, if_neg (Nat.not_lt.mpr bounded)]

section Unset

variable {model : Model} (located : ∀ symbol id, model.lookup symbol = some id → id < model.size)
  (acyclic : model.Acyclic) {id : EntryId} {entry : Entry} (found : model.get? id = some entry)
  (unset : entry.override = none)
include located acyclic found unset

theorem value_eq_ok_iff {value : Option Value} :
    model.value id = .ok value ↔ ∃ computed, model.Computes entry computed ∧
      (if entry.isSwitch then (model.impliedLevel model.value entry).map (raised computed)
        else .ok computed) = .ok value := by
  rw [value_eq_valueFrom located acyclic found, valueFrom, unset]
  refine Except.bind_eq_ok_iff.trans (exists_congr fun computed => and_congr_left fun _ => ?_)
  exact computes_iff.symm

variable (listed : model.Listed)
include listed

/-- The value of an entry that was not set can be told exactly if its defaults compute a value and,
for a switch, it can be told what implies ask for. -/
theorem exists_value_iff :
    (∃ value, model.value id = .ok value) ↔ (∃ computed, model.Computes entry computed) ∧
      (entry.isSwitch = true → model.TellsAll entry.symbol) := by
  obtain ⟨step, raises, level⟩ := raises_impliedLevel listed entry
  simp only [value_eq_ok_iff located acyclic found unset, level]
  cases switch : entry.isSwitch with
  | false => simp
  | true =>
      constructor
      · rintro ⟨value, computed, computes, passed⟩
        obtain ⟨level, reached, -⟩ := Except.map_eq_ok_iff.mp passed
        exact ⟨⟨computed, computes⟩, fun _ => (raises.succeeds .no).mp ⟨level, reached⟩⟩
      · rintro ⟨⟨computed, computes⟩, told⟩
        obtain ⟨level, reached⟩ := (raises.succeeds .no).mpr (told rfl)
        exact ⟨raised computed level, computed, computes,
          Except.map_eq_ok_iff.mpr ⟨level, reached, rfl⟩⟩

theorem resolves_of_value {computed value : Option Value}
    (computes : model.Computes entry computed) (read : model.value id = .ok value) :
    model.Resolves id entry computed value := by
  obtain ⟨step, raises, level⟩ := raises_impliedLevel listed entry
  obtain ⟨same, again, passed⟩ := (value_eq_ok_iff located acyclic found unset).mp read
  obtain rfl : same = computed :=
    Except.ok.inj ((computes_iff.mp again).symm.trans (computes_iff.mp computes))
  cases switch : entry.isSwitch with
  | false =>
      rw [switch] at passed
      have plain : value = same := (Except.ok.inj passed).symm
      exact ⟨by simp [switch], by simp [switch], fun _ => plain⟩
  | true =>
      rw [switch, if_pos rfl, level] at passed
      obtain ⟨reached, told, rfl⟩ := Except.map_eq_ok_iff.mp passed
      have highest := raises.greatest .no reached told
      refine ⟨fun _ => ⟨_, ?_, isGreatest_raised highest⟩, fun _ => raised_eq_self highest,
        by simp [switch]⟩
      rw [tristate, read, Except.ok_map]

end Unset

/-- The value of an entry that was not set is computed from its defaults, and a switch is raised to
the highest state that the implies of all entries ask for. -/
theorem value_resolves {description : Node} {options : Options} {built : Model}
    (builds : build description options = .ok built)
    (unimplied : description.declaration.implies = [])
    (acyclic : built.Acyclic) (history : List Edit) {id : EntryId} {entry : Entry}
    (found : (built.after history).get? id = some entry) :
    let model := built.after history
    (∀ value, entry.override = some value → model.value id = .ok (some value)) ∧
      (entry.override = none →
        ((∃ value, model.value id = .ok value) ↔ (∃ computed, model.Computes entry computed) ∧
          (entry.isSwitch = true → model.TellsAll entry.symbol)) ∧
        ∀ computed value, model.Computes entry computed → model.value id = .ok value →
          model.Resolves id entry computed value) := by
  intro model
  have same : built.bare = model.bare := (bare_after built history).1.symm
  have watched := (watched_of_build builds).of_bare same
  have located : ∀ symbol id, model.lookup symbol = some id → id < model.size :=
    fun symbol id known => lt_size_of_symbol? (watched.registered symbol id known)
  have acyclic := acyclic.of_bare same
  have listed := (listed_of_build builds unimplied).of_bare same
  constructor
  · intro value set
    exact value_of_override (by rw [override?, found]; exact set)
  · intro unset
    exact ⟨exists_value_iff located acyclic found unset listed,
      fun computed value => resolves_of_value located acyclic found unset listed⟩

/-- A switch whose second default applies, raised by an imply without a condition; the condition of
another imply does not hold. -/
theorem value_resolves_of_implies :
    let last : Declaration :=
      { symbol := some "Y", type := some .tristate, defaults := [⟨"y", some "ALLOW"⟩, ⟨"n", none⟩] }
    let leaves : List Declaration :=
      [{ symbol := some "X", type := some .tristate, implies := [⟨"Y", none⟩] },
        { symbol := some "W", type := some .bool, implies := [⟨"Y", some "ALLOW"⟩] },
        { symbol := some "ALLOW", type := some .bool }, last]
    let nodes : List Node := leaves.map (.mk · [])
    let built : Model := placeAll root (top { kind := .menu } {}) (Outline.ofNodes nodes)
    let model := built.after [.set 1 (.text "m"), .set 2 (.text "y")]
    let entry : Entry := .ofDeclaration last (some root)
    built.Acyclic ∧ model.get? 4 = some entry ∧ model.value 4 = .ok (some (.text "m")) ∧
      model.Resolves 4 entry (some (.text "n")) (some (.text "m")) := by
  intro last leaves nodes built model entry
  have found : model.get? 4 = some entry := by decide +kernel
  have read : model.value 4 = .ok (some (.text "m")) := by decide +kernel
  have computes : model.Computes entry (some (.text "n")) := by
    refine @Computes.default model entry [⟨"y", some "ALLOW"⟩] [] ⟨"n", none⟩ _ rfl ?_ rfl ?_
    · decide +kernel
    · decide +kernel
  have acyclic : built.Acyclic :=
    acyclic_of_descending (by decide +kernel) (by decide +kernel)
  exact ⟨acyclic, found, read, ((@value_resolves (.mk { kind := .menu } nodes) {} built rfl rfl
    acyclic [.set 1 (.text "m"), .set 2 (.text "y")] 4 entry found).2 rfl).2 _ _ computes read⟩

end Model
end OptionTree
