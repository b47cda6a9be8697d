import Mathlib.Order.Bounds.Basic
import OptionTree.Proofs.Mentions

/-!
# What implies ask for

An imply that applies asks for a symbol to have at least the state of the implying entry.  A built
model knows, for every symbol, the entries that imply it, so the level to which a switch is raised
is the highest of the states that any entry of the model asks for.
-/

namespace OptionTree

namespace Tristate

/-- States are ordered by their ranks. -/
instance : PartialOrder Tristate := PartialOrder.lift rank fun _ _ => rank_injective

theorem le_of_not_lt {first second : Tristate} (higher : ¬first.rank < second.rank) :
    second ≤ first :=
  Nat.le_of_not_lt higher

theorem isGreatest_sup (first second : Tristate) :
    IsGreatest {first, second} (first.sup second) := by
  rw [sup]
  split
  · rename_i lower
    refine ⟨.inr rfl, ?_⟩
    rintro state (rfl | rfl)
    · exact Nat.le_of_lt lower
    · exact le_rfl
  · rename_i higher
    refine ⟨.inl rfl, ?_⟩
    rintro state (rfl | rfl)
    · exact le_rfl
    · exact le_of_not_lt higher

/-- Whether a step succeeds exactly if something can be told, and then raises a state to the highest
one that is asked for. -/
structure Raises (step : Tristate → Except Error Tristate) (told : Prop) (asked : Set Tristate) :
    Prop where
  /-- Whether the step succeeds does not depend on the state. -/
  succeeds : ∀ level, (∃ result, step level = .ok result) ↔ told
  /-- The result is the highest state of the one before and those that are asked for. -/
  greatest : ∀ level result, step level = .ok result → IsGreatest (insert level asked) result

namespace Raises

theorem of_eq {step same : Tristate → Except Error Tristate} {told known : Prop}
    {asked wanted : Set Tristate} (raises : Raises step told asked)
    (steps : ∀ level, same level = step level) (tells : known ↔ told) (asks : wanted = asked) :
    Raises same known wanted := by
  obtain rfl : same = step := funext steps
  rw [tells, asks]
  exact raises

theorem nothing : Raises .ok True ∅ where
  succeeds := fun level => ⟨fun _ => trivial, fun _ => ⟨level, rfl⟩⟩
  greatest := by
    rintro level _ ⟨⟩
    rw [insert_empty_eq]
    exact isGreatest_singleton

theorem state (asked : Tristate) :
    Raises (fun level => .ok (level.sup asked)) True {asked} where
  succeeds := fun level => ⟨fun _ => trivial, fun _ => ⟨level.sup asked, rfl⟩⟩
  greatest := by
    rintro level _ ⟨⟩
    exact isGreatest_sup level asked

theorem failure (cause : Error) (asked : Set Tristate) :
    Raises (fun _ => .error cause) False asked where
  succeeds := fun _ => ⟨nofun, nofun⟩
  greatest := nofun

theorem both {first second : Tristate → Except Error Tristate} {early late : Prop}
    {asked more : Set Tristate} (before : Raises first early asked)
    (behind : Raises second late more) :
    Raises (fun level => (first level).bind second) (early ∧ late) (asked ∪ more) where
  succeeds := by
    intro level
    constructor
    · rintro ⟨result, passed⟩
      obtain ⟨middle, raised, again⟩ := Except.bind_eq_ok_iff.mp passed
      exact ⟨(before.succeeds level).mp ⟨middle, raised⟩,
        (behind.succeeds middle).mp ⟨result, again⟩⟩
    · rintro ⟨told, known⟩
      obtain ⟨middle, raised⟩ := (before.succeeds level).mpr told
      obtain ⟨result, again⟩ := (behind.succeeds middle).mpr known
      exact ⟨result, Except.bind_eq_ok_iff.mpr ⟨middle, raised, again⟩⟩
  greatest := by
    intro level result passed
    obtain ⟨middle, raised, again⟩ := Except.bind_eq_ok_iff.mp passed
    obtain ⟨reached, above⟩ := before.greatest level middle raised
    obtain ⟨found, highest⟩ := behind.greatest middle result again
    have further : middle ≤ result := highest (.inl rfl)
    constructor
    · rcases found with rfl | later
      · exact reached.imp_right .inl
      · exact .inr (.inr later)
    · rintro state (rfl | early | late)
      · exact (above (.inl rfl)).trans further
      · exact (above (.inr early)).trans further
      · exact highest (.inr late)

end Raises

end Tristate

namespace Model

/-- Whether entries are recorded for all symbols that they imply. -/
def Listed (model : Model) : Prop :=
  ∀ source, ∀ imply ∈ model.impliesOf source, source ∈ model.implications.entries imply.value

theorem implications_preset (model : Model) (declaration : Declaration) (index : EntryId) :
    (model.preset declaration index).implications = model.implications := by
  rw [preset]
  split <;> rfl

theorem mem_implications_declare {model : Model} {parent : EntryId} {declaration : Declaration}
    {pair : String × EntryId} :
    pair ∈ (model.declare parent declaration).1.implications.records ↔
      pair ∈ model.implications.records ∨ ∃ imply ∈ declaration.implies,
        pair = (imply.value, (model.declare parent declaration).2) := by
  rw [declare, implications_preset]
  refine SymbolIndex.mem_records_recordAll.trans (or_congr_right ?_)
  simp only [List.mem_map, exists_exists_and_eq_and]

theorem listed_kept : Kept Listed fun _ => True where
  declare := by
    rintro model parent declaration - listed source imply member
    rw [SymbolIndex.mem_entries, mem_implications_declare]
    have merged : ∀ (first later : Declaration) (item : Conditional),
        item ∈ (first.merge later).implies → item ∈ first.implies ∨ item ∈ later.implies :=
      fun _ _ _ => mem_mergeItems.mp
    rcases mem_stated_declare merged member with before | ⟨rfl, own⟩
    · exact .inl (SymbolIndex.mem_entries.mp (listed source imply before))
    · exact .inr ⟨imply, own, rfl⟩
  attach := by
    intro model owner child listed
    rw [attach]
    split
    · exact listed
    · intro source imply member
      have same : (model.modify owner (·.adopt child)).impliesOf source = model.impliesOf source :=
        @stated_modify _ Declaration.implies model (·.adopt child) (fun _ => rfl) owner source
      rw [same] at member
      exact listed source imply member

/-- In a built model whose root implies nothing, all implying entries are recorded. -/
theorem listed_of_build {description : Node} {options : Options} {model : Model}
    (built : build description options = .ok model)
    (unimplied : description.declaration.implies = []) : model.Listed := by
  refine listed_kept.of_build built (fun _ _ => trivial) fun source imply member => ?_
  cases source with
  | zero =>
      have own : imply ∈ description.declaration.implies := member
      rw [unimplied] at own
      cases own
  | succ source => cases member

theorem Listed.of_bare {first second : Model} (listed : first.Listed)
    (same : first.bare = second.bare) : second.Listed := by
  intro source imply member
  rw [← impliesOf_of_bare same] at member
  rw [← implications_of_bare same]
  exact listed source imply member

/-- What an imply of an entry asks for a symbol: the state of the entry, if the imply names the
symbol and applies. -/
def asks (model : Model) (symbol : Option String) (source : EntryId) (imply : Conditional) :
    Set Tristate :=
  {state | symbol = some imply.value ∧ model.holds imply.condition = .ok true ∧
    model.tristate source = .ok state}

/-- Whether it can be told what an imply of an entry asks for a symbol. -/
def Tells (model : Model) (symbol : Option String) (source : EntryId) (imply : Conditional) :
    Prop :=
  symbol = some imply.value → ∃ applies, model.holds imply.condition = .ok applies ∧
    (applies = true → ∃ state, model.tristate source = .ok state)

/-- What all implies of all entries ask for a symbol. -/
def demands (model : Model) (symbol : Option String) : Set Tristate :=
  {state | ∃ source, ∃ imply ∈ model.impliesOf source, state ∈ model.asks symbol source imply}

/-- Whether it can be told what all implies of all entries ask for a symbol. -/
def TellsAll (model : Model) (symbol : Option String) : Prop :=
  ∀ source, ∀ imply ∈ model.impliesOf source, model.Tells symbol source imply

section Passing

variable {model : Model} {symbol : String} {source : EntryId}

/-- What one imply does to a level. -/
def passedBy (model : Model) (symbol : String) (source : EntryId) (imply : Conditional)
    (level : Tristate) : Except Error Tristate :=
  if imply.value = symbol then
    (model.holds imply.condition).bind fun applies =>
      if applies then (model.tristate source).map level.sup else .ok level
  else .ok level

theorem passedOn_cons (level : Tristate) (imply : Conditional) (rest : List Conditional) :
    passedOn model.scope model.value symbol source level (imply :: rest) =
      (model.passedBy symbol source imply level).bind fun level =>
        passedOn model.scope model.value symbol source level rest := by
  rw [passedOn, passedBy]
  split
  · rw [holds]
    cases Expression.holds model.scope imply.condition with
    | error cause => rfl
    | ok applies =>
        cases applies with
        | false => rfl
        | true =>
            simp only [Except.ok_bind, if_pos, tristate]
            cases model.value source with
            | error cause => rfl
            | ok value => rfl
  · rfl

theorem raises_passedBy (imply : Conditional) :
    Tristate.Raises (model.passedBy symbol source imply) (model.Tells (some symbol) source imply)
      (model.asks (some symbol) source imply) := by
  by_cases named : imply.value = symbol
  · cases held : model.holds imply.condition with
    | error cause =>
        exact (Tristate.Raises.failure cause _).of_eq (by simp [passedBy, named, held])
          (by simp [Tells, named, held]) rfl
    | ok applies =>
        cases applies with
        | false =>
            exact Tristate.Raises.nothing.of_eq (by simp [passedBy, held]) (by simp [Tells, held])
              (by simp [asks, held])
        | true =>
            cases read : model.tristate source with
            | error cause =>
                exact (Tristate.Raises.failure cause _).of_eq
                  (by simp [passedBy, named, held, read]) (by simp [Tells, named, held, read]) rfl
            | ok state =>
                exact (Tristate.Raises.state state).of_eq (by simp [passedBy, named, held, read])
                  (by simp [Tells, held, read]) (by simp [asks, named, held, read])
  · exact Tristate.Raises.nothing.of_eq (by simp [passedBy, named])
      (by simp [Tells, Ne.symm named]) (by simp [asks, Ne.symm named])

theorem raises_passedOn (implies : List Conditional) :
    Tristate.Raises
      (fun level => passedOn model.scope model.value symbol source level implies)
      (∀ imply ∈ implies, model.Tells (some symbol) source imply)
      {state | ∃ imply ∈ implies, state ∈ model.asks (some symbol) source imply} := by
  induction implies with
  | nil => exact Tristate.Raises.nothing.of_eq (fun _ => rfl) (by simp) (by simp)
  | cons imply rest ih =>
      refine ((raises_passedBy imply).both ih).of_eq (fun level => passedOn_cons level imply rest)
        List.forall_mem_cons ?_
      ext state
      simp

theorem raises_impliedBy (sources : List EntryId) :
    Tristate.Raises (fun level => model.impliedBy model.value symbol level sources)
      (∀ source ∈ sources, ∀ imply ∈ model.impliesOf source, model.Tells (some symbol) source imply)
      {state | ∃ source ∈ sources, ∃ imply ∈ model.impliesOf source,
        state ∈ model.asks (some symbol) source imply} := by
  induction sources with
  | nil => exact Tristate.Raises.nothing.of_eq (fun _ => rfl) (by simp) (by simp)
  | cons source rest ih =>
      refine ((raises_passedOn (model.impliesOf source)).both ih).of_eq (fun level => rfl)
        List.forall_mem_cons ?_
      ext state
      simp

/-- The level of an entry is the highest state that implies ask for its symbol, and can be told if
it can be told what all of them ask for. -/
theorem raises_impliedLevel (listed : model.Listed) (entry : Entry) :
    ∃ step, Tristate.Raises step (model.TellsAll entry.symbol) (model.demands entry.symbol) ∧
      model.impliedLevel model.value entry = step .no := by
  cases named : entry.symbol with
  | none =>
      refine ⟨.ok, Tristate.Raises.nothing.of_eq (fun _ => rfl) ?_ ?_, ?_⟩
      · simp [TellsAll, Tells]
      · simp [demands, asks]
      · rw [impliedLevel, named]
  | some symbol =>
      have raises := @raises_impliedBy model symbol (model.implications.entries symbol)
      refine ⟨_, raises.of_eq (fun _ => rfl) ?_ ?_, by rw [impliedLevel, named]⟩
      · constructor
        · exact fun told source _ => told source
        · -- An entry that is not recorded has no implies of the symbol.
          intro told source imply member own
          obtain rfl := Option.some.inj own
          exact told source (listed source imply member) imply member rfl
      · ext state
        constructor
        · rintro ⟨source, imply, member, own, asked⟩
          obtain rfl := Option.some.inj own
          exact ⟨source, listed source imply member, imply, member, rfl, asked⟩
        · rintro ⟨source, -, imply, member, asked⟩
          exact ⟨source, imply, member, asked⟩

end Passing

end Model
end OptionTree
