import OptionTree.Proofs.Chronicle

/-!
# Values from the environment

Every definition presets the entry that stands for it, from the variable that the definition itself
names, while the entry keeps the first variable that any of its definitions names.  So an entry can
have a value from a variable that is not its own, and the root, which is not declared but put in
place, has none at all.
-/

namespace OptionTree

namespace Declaration

theorem env_together (first : Declaration) (later : List Declaration) :
    (first.together later).env = (first :: later).findSome? (·.env) :=
  findSome?_together (fun _ _ => rfl) first later

/-- If the environment has the first variable that some definitions name, no other one is read. -/
theorem findSome?_preset? {env : List (String × String)} {definitions : List Declaration}
    {content : String} (has : (definitions.findSome? (·.env)).bind (env.lookup ·) = some content) :
    definitions.findSome? (·.preset? env) = some content := by
  induction definitions with
  | nil => cases has
  | cons first later ih =>
      cases names : first.env with
      | none =>
          have skipped : first.preset? env = none := by rw [preset?, names]; rfl
          rw [List.findSome?_cons, names] at has
          rw [List.findSome?_cons, skipped]
          exact ih has
      | some name =>
          rw [List.findSome?_cons, names] at has
          have own : first.preset? env = some content := by rw [preset?, names]; exact has
          rw [List.findSome?_cons, own]

end Declaration

namespace Model

/-- In a fresh model an entry has the text of the first variable of its definitions that the
environment has, also if it names another one; the root has none. -/
theorem override_of_build (description : Node) (options : Options)
    (menu : description.declaration.kind = .menu) :
    ∃ model, build description options = .ok model ∧ ∀ id entry, model.get? id = some entry →
      entry.env = (description.definitions id entry).findSome? (·.env) ∧
      entry.override = (if id = root then none
        else (description.definitions id entry).findSome? (·.preset? options.env)).map .text ∧
      (entry.override = (entry.preset? options.env).map .text ↔
        (entry.preset? options.env = none → ∀ definition ∈ description.definitions id entry,
          definition.preset? options.env = none) ∧
        (id = root → entry.preset? options.env = none)) := by
  obtain ⟨model, built⟩ : ∃ model, build description options = .ok model := ⟨_, if_pos menu⟩
  refine ⟨model, built, fun id entry found => ?_⟩
  obtain ⟨first, later, definitions, whole, override⟩ := exists_definitions_of_build built found
  rw [definitions]
  have env : entry.env = (first :: later).findSome? (·.env) :=
    (congrArg Declaration.env whole).trans (Declaration.env_together first later)
  refine ⟨env, override, ?_⟩
  by_cases top : id = root
  · have alone : first :: later = [entry.toDeclaration] := by
      rw [← definitions, Node.definitions, top, Declaration.definitionsIn_root]
    rw [override, if_pos top, alone]
    simp [top, eq_comm]
  · rw [override, if_neg top]
    cases own : entry.preset? options.env with
    | some content =>
        have has : ((first :: later).findSome? (·.env)).bind (options.env.lookup ·) =
            some content := by
          rw [← env]
          exact own
        simp [Declaration.findSome?_preset? has, top]
    | none => simp [top]

/-- The root names a variable that the environment has, and an option is defined twice: the
environment lacks the variable of its first definition and has that of the second one. -/
theorem override_of_build_of_later_variable :
    let menu : Declaration := { kind := .menu, env := some "TOP" }
    let first : Declaration := { symbol := some "A", type := some .string, env := some "FIRST" }
    let second : Declaration := { symbol := some "A", env := some "SECOND" }
    let options : Options := { env := [("SECOND", "later"), ("TOP", "above")] }
    ∃ model, build (.mk menu [.mk first [], .mk second []]) options = .ok model ∧
      ∃ root option, model.get? 0 = some root ∧ model.get? 1 = some option ∧
        root.preset? options.env = some "above" ∧ root.override = none ∧
        option.env = some "FIRST" ∧ option.override = some (.text "later") := by
  intro menu first second options
  obtain ⟨model, built, states⟩ :=
    override_of_build (.mk menu [.mk first [], .mk second []]) options rfl
  obtain rfl := Except.ok.inj (Eq.trans rfl built)
  refine ⟨_, rfl, _, _, rfl, rfl, rfl, ?_, ?_, ?_⟩
  · exact (states 0 _ rfl).2.1
  · exact (states 1 _ rfl).1
  · exact (states 1 _ rfl).2.1

end Model
end OptionTree
