import OptionTree.Proofs.Chronicle
import OptionTree.Proofs.Concealment

/-!
# Entries that are recorded and entries that mention

An entry is recorded for the names in the conditions of its definitions, clause by clause and as
they were given.  What decides whether it is shown is the conjunction of its trimmed clauses, and
the condition of the first prompt.  The two differ in the prompts that are passed over and in
clauses that start with white space which separates no tokens, and in nothing else if every clause
can be read by itself.
-/

namespace OptionTree

/-- Whether what decides that an entry is shown has a name: what it depends on, or the condition of
its prompt. -/
def Entry.Mentions (entry : Entry) (symbol : String) : Prop :=
  symbol ∈ Expression.conditionNames entry.depends? ∨
    symbol ∈ Expression.conditionNames (entry.prompt.bind Prompt.condition)

instance (entry : Entry) (symbol : String) : Decidable (entry.Mentions symbol) :=
  inferInstanceAs (Decidable (_ ∨ _))

theorem Entry.mem_conditionNames_depends? {entry : Entry} {symbol : String} :
    symbol ∈ Expression.conditionNames entry.depends? ↔
      symbol ∈ Token.symbols (Clause.conjunction entry.clauses) := by
  rw [depends?]
  split
  · rename_i empty
    have none : Token.symbols "" = [] := by decide +kernel
    rw [empty, none]
    rfl
  · rfl

namespace Declaration

theorem exists_mem_conditions {declaration : Declaration} {symbol : String} :
    (∃ text ∈ declaration.conditions, symbol ∈ Token.symbols text) ↔
      (∃ clause ∈ declaration.clauses, symbol ∈ Token.symbols clause) ∨
        symbol ∈ Expression.conditionNames (declaration.prompt.bind Prompt.condition) := by
  simp only [conditions, List.mem_append, Option.mem_toList, or_and_right, exists_or]
  refine or_congr_right ?_
  cases declaration.prompt.bind Prompt.condition <;> simp [Expression.conditionNames]

end Declaration

namespace Model

section Built

variable {description : Node} {options : Options} {model : Model}
  (built : build description options = .ok model) {id : EntryId} {entry : Entry}
  (found : model.get? id = some entry)
include built found

/-- An entry is recorded for the names in the conditions of its definitions. -/
theorem mem_dependents_iff_of_build (symbol : String) :
    id ∈ model.dependents symbol ↔ ∃ definition ∈ description.definitions id entry,
      ∃ text ∈ definition.conditions, symbol ∈ Token.symbols text := by
  rw [(chronicle_of_build built).mentions, definitionsOf_of_get? found]

/-- An entry has the clauses of its definitions and the first of their prompts. -/
theorem conditions_of_build :
    entry.clauses = (description.definitions id entry).flatMap (·.clauses) ∧
      entry.prompt = (description.definitions id entry).findSome? (·.prompt) := by
  obtain ⟨first, later, definitions, whole, -⟩ := exists_definitions_of_build built found
  rw [definitions]
  constructor
  · exact (congrArg Declaration.clauses whole).trans (Declaration.clauses_together first later)
  · exact (congrArg Declaration.prompt whole).trans
      (Declaration.findSome?_together (fun _ _ => rfl) first later)

theorem mem_dependents_iff_clauses (symbol : String) :
    id ∈ model.dependents symbol ↔
      (∃ clause ∈ entry.clauses, symbol ∈ Token.symbols clause) ∨
        ∃ definition ∈ description.definitions id entry,
          symbol ∈ Expression.conditionNames (definition.prompt.bind Prompt.condition) := by
  rw [mem_dependents_iff_of_build built found, (conditions_of_build built found).1]
  simp only [Declaration.exists_mem_conditions, List.mem_flatMap]
  constructor
  · rintro ⟨definition, member, ⟨clause, inside, mentions⟩ | asked⟩
    · exact .inl ⟨clause, ⟨definition, member, inside⟩, mentions⟩
    · exact .inr ⟨definition, member, asked⟩
  · rintro (⟨clause, ⟨definition, member, inside⟩, mentions⟩ | ⟨definition, member, asked⟩)
    · exact ⟨definition, member, .inl ⟨clause, inside, mentions⟩⟩
    · exact ⟨definition, member, .inr asked⟩

theorem mem_dependents_of_prompt {symbol : String}
    (asked : symbol ∈ Expression.conditionNames (entry.prompt.bind Prompt.condition)) :
    id ∈ model.dependents symbol := by
  rw [mem_dependents_iff_clauses built found]
  have first := (conditions_of_build built found).2
  cases prompt : entry.prompt with
  | none =>
      rw [prompt] at asked
      cases asked
  | some prompt' =>
      rw [prompt] at first asked
      obtain ⟨definition, member, own⟩ := List.exists_of_findSome?_eq_some first.symm
      exact .inr ⟨definition, member, by rw [own]; exact asked⟩

/-- If its clauses can be read, an entry is recorded exactly for the names that it mentions,
provided that it mentions those in all prompts and that white space conceals none. -/
theorem mem_dependents_iff_mentions (readable : ∀ clause ∈ entry.clauses, Clause.Readable clause) :
    (∀ symbol, id ∈ model.dependents symbol ↔ entry.Mentions symbol) ↔
      (∀ definition ∈ description.definitions id entry,
        ∀ symbol ∈ Expression.conditionNames (definition.prompt.bind Prompt.condition),
          entry.Mentions symbol) ∧
      (∀ clause ∈ entry.clauses, Clause.Concealed clause →
        ∀ symbol ∈ Token.symbols (Clause.trimmed clause), id ∈ model.dependents symbol) := by
  have recorded := mem_dependents_iff_clauses built found
  have depends : ∀ symbol, symbol ∈ Expression.conditionNames entry.depends? ↔
      ∃ clause ∈ entry.clauses, symbol ∈ Token.symbols (Clause.trimmed clause) := fun symbol =>
    Entry.mem_conditionNames_depends?.trans (Clause.mem_symbols_conjunction_iff readable)
  constructor
  · refine fun alike => ⟨fun definition member symbol asked => ?_,
      fun clause member _ symbol mentions => ?_⟩
    · exact (alike symbol).mp ((recorded symbol).mpr (.inr ⟨definition, member, asked⟩))
    · exact (alike symbol).mpr (.inl ((depends symbol).mpr ⟨clause, member, mentions⟩))
  · rintro ⟨passed, concealed⟩ symbol
    constructor
    · intro member
      rcases (recorded symbol).mp member with ⟨clause, own, mentions⟩ | ⟨definition, own, asked⟩
      · have shown : ¬Clause.Concealed clause := fun hidden => by
          rw [Clause.symbols_of_concealed hidden] at mentions
          cases mentions
        rw [Clause.symbols_of_not_concealed (readable clause own) shown] at mentions
        exact .inl ((depends symbol).mpr ⟨clause, own, mentions⟩)
      · exact passed definition own symbol asked
    · rintro (mentions | asked)
      · obtain ⟨clause, own, mentions⟩ := (depends symbol).mp mentions
        by_cases hidden : Clause.Concealed clause
        · exact concealed clause own hidden symbol mentions
        · rw [← Clause.symbols_of_not_concealed (readable clause own) hidden] at mentions
          exact (recorded symbol).mpr (.inl ⟨clause, own, mentions⟩)
      · exact mem_dependents_of_prompt built found asked

end Built

/-- An entry is recorded for the names in the conditions of its definitions, and these decide
whether it is shown unless a prompt was passed over or white space conceals a name. -/
theorem dependents_of_build (description : Node) (options : Options)
    (menu : description.declaration.kind = .menu) :
    ∃ model, build description options = .ok model ∧ ∀ id entry, model.get? id = some entry →
      (∀ symbol, id ∈ model.dependents symbol ↔
        ∃ definition ∈ description.definitions id entry, ∃ text ∈ definition.conditions,
          symbol ∈ Token.symbols text) ∧
      ((∀ clause ∈ entry.clauses, Clause.Readable clause) →
        ((∀ symbol, id ∈ model.dependents symbol ↔ entry.Mentions symbol) ↔
          (∀ definition ∈ description.definitions id entry,
            ∀ symbol ∈ Expression.conditionNames (definition.prompt.bind Prompt.condition),
              entry.Mentions symbol) ∧
          (∀ clause ∈ entry.clauses, Clause.Concealed clause →
            ∀ symbol ∈ Token.symbols (Clause.trimmed clause),
              id ∈ model.dependents symbol))) := by
  obtain ⟨model, built⟩ : ∃ model, build description options = .ok model := ⟨_, if_pos menu⟩
  exact ⟨model, built, fun id entry found =>
    ⟨mem_dependents_iff_of_build built found, mem_dependents_iff_mentions built found⟩⟩

/-- A form feed conceals a clause that can be read otherwise, and a second prompt is passed over:
the entry is not recorded for the name on which it depends, but for one that it does not mention. -/
theorem dependents_of_build_of_form_feed :
    let nodes : List Node :=
      [.mk { symbol := some "X", type := some .bool } [],
        .mk { symbol := some "Y", type := some .bool } [],
        .mk { symbol := some "A", prompt := some ⟨"A", none⟩, clauses := ["\x0cX"] } [],
        .mk { symbol := some "A", prompt := some ⟨"again", some "Y"⟩ } []]
    ∃ model, build (.mk { kind := .menu } nodes) {} = .ok model ∧
      ∃ entry, model.get? 3 = some entry ∧ entry.prompt = some ⟨"A", none⟩ ∧
        model.holds entry.depends? = .ok false ∧ entry.Mentions "X" ∧
        3 ∉ model.dependents "X" ∧ 3 ∈ model.dependents "Y" ∧ ¬entry.Mentions "Y" ∧
        ¬∀ symbol, 3 ∈ model.dependents symbol ↔ entry.Mentions symbol := by
  intro nodes
  obtain ⟨model, built, states⟩ := dependents_of_build (.mk { kind := .menu } nodes) {} rfl
  obtain rfl := Except.ok.inj (Eq.trans rfl built)
  obtain ⟨recorded, exact⟩ := states 3 _ rfl
  refine ⟨_, rfl, _, rfl, rfl, by decide +kernel, by decide +kernel, ?_, ?_, by decide +kernel, ?_⟩
  · rw [recorded]
    decide +kernel
  · rw [recorded]
    decide +kernel
  · rw [exact (by decide +kernel)]
    decide +kernel

end Model
end OptionTree
