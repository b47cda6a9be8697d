import OptionTree.Proofs.Footprint
import OptionTree.Proofs.Joining
import OptionTree.Proofs.Reference

/-!
# Entries that mention a symbol

Whether an entry is shown is decided by its clauses and by the condition of its prompt.  A built
model knows, for every symbol, the entries whose clauses or prompts mention it, so an edit of one
entry cannot show or hide another one that is not among those that mention its symbol, unless
values refer to each other.
-/

namespace OptionTree

/-- The expressions that decide whether what is declared is shown. -/
def Declaration.conditions (declaration : Declaration) : List String :=
  declaration.clauses ++ (declaration.prompt.bind Prompt.condition).toList

theorem Declaration.mem_conditions_merge {first later : Declaration} {text : String}
    (member : text ∈ (first.merge later).conditions) :
    text ∈ first.conditions ∨ text ∈ later.conditions := by
  simp only [conditions, merge, List.mem_append] at member ⊢
  rcases member with (own | other) | prompt
  · exact .inl (.inl own)
  · exact .inr (.inl other)
  · cases asked : first.prompt with
    | none => exact .inr (.inr (by simpa [asked] using prompt))
    | some own => exact .inl (.inr (by simpa [asked] using prompt))

namespace SymbolIndex

theorem mem_records_record {index : SymbolIndex} {symbol : String} {id : EntryId}
    {pair : String × EntryId} :
    pair ∈ (index.record symbol id).records ↔ pair ∈ index.records ∨ pair = (symbol, id) := by
  rw [record]
  split
  · rename_i known
    exact ⟨.inl, fun either => either.elim (fun before => before) fun same => same ▸ known⟩
  · simp

theorem mem_records_recordAll {symbols : List String} {index : SymbolIndex} {id : EntryId}
    {pair : String × EntryId} :
    pair ∈ (index.recordAll symbols id).records ↔
      pair ∈ index.records ∨ ∃ symbol ∈ symbols, pair = (symbol, id) := by
  rw [recordAll]
  induction symbols generalizing index with
  | nil => simp
  | cons symbol symbols ih =>
      rw [List.foldl_cons, ih, mem_records_record, or_assoc]
      simp

theorem mem_records_foldl {texts : List String} {index : SymbolIndex} {id : EntryId}
    {pair : String × EntryId} :
    pair ∈ (texts.foldl (fun index text => index.recordExpression text id) index).records ↔
      pair ∈ index.records ∨ ∃ text ∈ texts, ∃ symbol ∈ Token.symbols text,
        pair = (symbol, id) := by
  induction texts generalizing index with
  | nil => simp
  | cons text texts ih =>
      rw [List.foldl_cons, ih, recordExpression, mem_records_recordAll, or_assoc]
      simp

end SymbolIndex

namespace Expression

/-- Scopes in which the mentioned names stand for the same give an expression the same outcome, so
it does not depend on a symbol under which its entry was not recorded. -/
theorem evaluate_reads_mentioned {first second : Scope} {expression : String}
    (agree : ∀ symbol ∈ Token.symbols expression, first symbol = second symbol) (mode : Mode) :
    evaluate first mode expression = evaluate second mode expression ∧
      ∀ (index : SymbolIndex) (id : EntryId) (symbol : String),
        id ∉ (index.recordExpression expression id).entries symbol →
          ∀ reading, evaluate (Function.update first symbol reading) mode expression =
            evaluate second mode expression := by
  refine ⟨evaluate_congr agree mode, fun index id symbol absent reading => ?_⟩
  have unmentioned : symbol ∉ Token.symbols expression := by
    intro mentions
    refine absent (SymbolIndex.mem_entries.mpr ?_)
    exact SymbolIndex.mem_records_recordAll.mpr (.inr ⟨symbol, mentions, rfl⟩)
  refine evaluate_congr (fun other mentions => ?_) mode
  have apart : other ≠ symbol := fun same => unmentioned (same ▸ mentions)
  rw [Function.update_of_ne apart, agree other mentions]

/-- A single `&` is no token, so the name behind it is not mentioned: it may be unknown, unreadable
or known. -/
theorem evaluate_reads_mentioned_of_fault :
    let expression := "!(A = m) || B & C"
    let second : Scope := fun name => if name = "A" then some (.ok (some (.number 1))) else none
    let first : Scope := Function.update second "C" (some (.error (.circularValue 3)))
    let failure : Error :=
      .parse expression (.lexical { fault := .unexpected '&', offset := 14 })
    Token.symbols expression = ["A", "m", "B"] ∧
      evaluate first .truth expression = .error failure ∧
      evaluate (Function.update first "C" (some (.ok none))) .truth expression =
        .error failure := by
  intro expression second first failure
  have mentioned : Token.symbols expression = ["A", "m", "B"] := by decide +kernel
  have agree : ∀ symbol ∈ Token.symbols expression, first symbol = second symbol := by
    rw [mentioned]
    decide +kernel
  have fails : evaluate second .truth expression = .error failure := by decide +kernel
  have absent : 3 ∉ (({} : SymbolIndex).recordExpression expression 3).entries "C" := by
    decide +kernel
  obtain ⟨alike, changed⟩ := evaluate_reads_mentioned agree .truth
  exact ⟨mentioned, alike.trans fails, (changed {} 3 "C" absent _).trans fails⟩

end Expression

namespace Model

/-- The expressions that decide whether an entry is shown. -/
def conditionsOf (model : Model) (id : EntryId) : List String :=
  ((model.get? id).map fun entry => entry.conditions).getD []

theorem conditionsOf_of_bare {first second : Model} (same : first.bare = second.bare)
    (id : EntryId) : first.conditionsOf id = second.conditionsOf id :=
  list_of_bare same Declaration.conditions id

theorem conditionsOf_modify {model : Model} {change : Entry → Entry}
    (same : ∀ entry, (change entry).toDeclaration = entry.toDeclaration) (index id : EntryId) :
    (model.modify index change).conditionsOf id = model.conditionsOf id :=
  stated_modify same index id

/-- Whether all names in the conditions of entries are recorded for them, and every registered
symbol is that of its entry. -/
structure Watched (model : Model) : Prop where
  /-- An entry is recorded for the names in its conditions. -/
  recorded : ∀ id, ∀ text ∈ model.conditionsOf id, ∀ symbol ∈ Token.symbols text,
    id ∈ model.dependents symbol
  /-- A registered symbol is that of its entry. -/
  registered : ∀ symbol id, model.lookup symbol = some id → model.symbol? id = some symbol

theorem mentions_preset (model : Model) (declaration : Declaration) (index : EntryId) :
    (model.preset declaration index).mentions = model.mentions := by
  rw [preset]
  split <;> rfl

theorem mem_conditionsOf_declare {model : Model} {parent : EntryId} {declaration : Declaration}
    {id : EntryId} {text : String}
    (member : text ∈ (model.declare parent declaration).1.conditionsOf id) :
    text ∈ model.conditionsOf id ∨
      id = (model.declare parent declaration).2 ∧ text ∈ declaration.conditions :=
  mem_stated_declare (fun _ _ _ => Declaration.mem_conditions_merge) member

theorem mem_mentions_declare {model : Model} {parent : EntryId} {declaration : Declaration}
    {pair : String × EntryId} :
    pair ∈ (model.declare parent declaration).1.mentions.records ↔
      pair ∈ model.mentions.records ∨ ∃ text ∈ declaration.conditions,
        ∃ symbol ∈ Token.symbols text, pair = (symbol, (model.declare parent declaration).2) := by
  rw [declare, mentions_preset]
  exact SymbolIndex.mem_records_foldl

theorem watched_kept : Kept Watched fun _ => True where
  declare := by
    rintro model parent declaration known ⟨recorded, registered⟩
    refine ⟨?_, registered_kept.declare model parent declaration known registered⟩
    intro id text member symbol mentions
    rw [dependents, SymbolIndex.mem_entries, mem_mentions_declare]
    rcases mem_conditionsOf_declare member with before | ⟨rfl, own⟩
    · exact .inl (SymbolIndex.mem_entries.mp (recorded id text before symbol mentions))
    · exact .inr ⟨text, own, symbol, mentions, rfl⟩
  attach := by
    rintro model owner child ⟨recorded, registered⟩
    refine ⟨?_, registered_kept.attach model owner child registered⟩
    rw [attach]
    split
    · exact recorded
    · intro id text
      rw [@conditionsOf_modify model (·.adopt child) (fun _ => rfl) owner]
      exact recorded id text

theorem watched_of_build {description : Node} {options : Options} {model : Model}
    (built : build description options = .ok model) : model.Watched := by
  refine watched_kept.of_build built (fun _ _ => trivial) ⟨?_, fun _ _ found => by cases found⟩
  intro id text member symbol mentions
  rw [dependents, SymbolIndex.mem_entries]
  refine SymbolIndex.mem_records_foldl.mpr (.inr ⟨text, ?_⟩)
  cases id with
  | zero => exact ⟨member, symbol, mentions, rfl⟩
  | succ id => cases member

/-- An entry of a built model mentions only symbols in the conditions of its description. -/
theorem mem_dependents_of_build {description : Node} {options : Options} {model : Model}
    (built : build description options = .ok model) {symbol : String} {id : EntryId}
    (member : id ∈ model.dependents symbol) :
    ∃ declaration, description.Declares declaration ∧ ∃ text ∈ declaration.conditions,
      symbol ∈ Token.symbols text := by
  have kept : Kept (fun model => ∀ pair ∈ model.mentions.records,
      ∃ declaration, description.Declares declaration ∧ ∃ text ∈ declaration.conditions,
        pair.1 ∈ Token.symbols text) description.Declares :=
    { declare := by
        intro model parent declaration declares before pair member
        rcases mem_mentions_declare.mp member with early | ⟨text, own, symbol, mentions, rfl⟩
        · exact before pair early
        · exact ⟨declaration, declares, text, own, mentions⟩
      attach := by
        intro model owner child before
        rw [attach]
        split <;> exact before }
  refine kept.of_build built (fun _ declares => declares) (fun pair member => ?_) (symbol, id)
    (SymbolIndex.mem_entries.mp member)
  rcases SymbolIndex.mem_records_foldl.mp member with none | ⟨text, own, symbol, mentions, rfl⟩
  · cases none
  · cases description with
    | mk head entries => exact ⟨head, .here head entries, text, own, mentions⟩

theorem dependents_of_bare {first second : Model} (same : first.bare = second.bare)
    (symbol : String) : first.dependents symbol = second.dependents symbol := by
  have kept := congrArg (fun model => model.mentions.entries symbol) same
  exact kept

theorem dependentsOf_of_bare {first second : Model} (same : first.bare = second.bare)
    (id : EntryId) : first.dependentsOf id = second.dependentsOf id := by
  have dependents : first.dependents = second.dependents := funext (dependents_of_bare same)
  rw [dependentsOf, dependentsOf, symbol?_of_bare same, dependents]

theorem Watched.of_bare {first second : Model} (watched : first.Watched)
    (same : first.bare = second.bare) : second.Watched := by
  obtain ⟨recorded, registered⟩ := watched
  constructor
  · intro id text member symbol
    rw [← conditionsOf_of_bare same] at member
    rw [← dependents_of_bare same]
    exact recorded id text member symbol
  · intro symbol id
    rw [← lookup_of_bare same, ← symbol?_of_bare same]
    exact registered symbol id

/-- An entry is shown alike by models of one tree in which its conditions hold alike. -/
theorem isVisible_alike {cut : Error → Prop} {first second : Model}
    (same : first.bare = second.bare) {id : EntryId}
    (depends : ∀ entry, first.get? id = some entry →
      (first.holds entry.depends?).Alike cut Eq (second.holds entry.depends?))
    (asked : ∀ entry prompt, first.get? id = some entry → entry.prompt = some prompt →
      (first.holds prompt.condition).Alike cut Eq (second.holds prompt.condition)) :
    (first.isVisible id).Alike cut Eq (second.isVisible id) := by
  rw [isVisible, isVisible]
  cases found : first.get? id with
  | none =>
      have absent : second.get? id = none := by
        have declared := declaration_of_bare same id
        simpa [found] using declared.symm
      rw [absent]
      exact Except.Alike.of_eq rfl
  | some entry =>
      obtain ⟨other, there, declared⟩ := entry_of_bare same found
      have prompt : other.prompt = entry.prompt := congrArg Declaration.prompt declared
      have clauses : other.depends? = entry.depends? :=
        congrArg (fun clauses => if Clause.conjunction clauses = "" then none
          else some (Clause.conjunction clauses)) (congrArg Declaration.clauses declared)
      rw [there, Option.bind_some, Option.bind_some, prompt]
      cases shown : entry.prompt with
      | none => exact Except.Alike.of_eq rfl
      | some prompt =>
          simp only [Option.map_some, clauses]
          refine (depends entry found).bind ?_
          rintro holds _ rfl
          cases holds with
          | true =>
              rw [if_pos rfl, if_pos rfl]
              exact asked entry prompt found shown
          | false =>
              rw [if_neg Bool.false_ne_true, if_neg Bool.false_ne_true]
              exact Except.Alike.of_eq rfl

/-- Whether all conditions of entries can be read as tokens to their end. -/
def Sound (model : Model) : Prop :=
  ∀ id, ∀ text ∈ model.conditionsOf id, ∀ token ∈ Token.tokenize text, token.error? = none

theorem mem_conditionsOf_of_depends {model : Model} (sound : model.Sound) {id : EntryId}
    {entry : Entry} (found : model.get? id = some entry) {name : String}
    (mentions : name ∈ Expression.conditionNames entry.depends?) :
    ∃ text ∈ model.conditionsOf id, name ∈ Token.symbols text := by
  have stated : ∀ clause ∈ entry.clauses, clause ∈ model.conditionsOf id := by
    intro clause member
    simpa [conditionsOf, found, Declaration.conditions] using .inl member
  have inside : name ∈ Token.symbols (Clause.conjunction entry.clauses) := by
    rw [Entry.depends?] at mentions
    split at mentions
    · cases mentions
    · exact mentions
  obtain ⟨clause, member, symbol⟩ := Clause.symbols_conjunction
    (fun clause member => sound id clause (stated clause member)) inside
  exact ⟨clause, stated clause member, symbol⟩

/-- If values do not refer to each other, setting an entry shows and hides only entries that mention
its symbol. -/
theorem isVisible_store {model : Model} (watched : model.Watched) (sound : model.Sound)
    (unrelated : ∀ source target, ¬model.Refers source target) {id other : EntryId}
    (beyond : other ∉ model.dependentsOf id) (value : Value) :
    (model.store id (some value)).isVisible other = model.isVisible other := by
  have same := bare_store model id (some value)
  -- A name that is mentioned belongs to an entry other than the one that is set.
  have agree : ∀ text ∈ model.conditionsOf other, ∀ name ∈ Token.symbols text, ∀ target,
      model.lookup name = some target → ∀ read, Relation.ReflTransGen model.Refers target read →
        model.override? read = (model.store id (some value)).override? read := by
    intro text member name mentions target found read path
    rcases path.cases_head with rfl | ⟨next, refers, -⟩
    · rcases override?_store_or model id value target with stays | ⟨-, rfl⟩
      · exact stays.symm
      · refine absurd ?_ beyond
        rw [dependentsOf, watched.registered name id found]
        exact watched.recorded other text member name mentions
    · exact absurd refers (unrelated target next)
  refine (Except.alike_eq_iff.mp (isVisible_alike same.symm
    (fun entry found => .of_eq ?_) fun entry prompt found asked => .of_eq ?_)).symm
  · refine holds_congr same.symm fun name mentions => ?_
    obtain ⟨text, member, symbol⟩ := mem_conditionsOf_of_depends sound found mentions
    exact agree text member name symbol
  · refine holds_congr same.symm fun name mentions => ?_
    cases condition : prompt.condition with
    | none =>
        rw [condition] at mentions
        cases mentions
    | some text =>
        rw [condition] at mentions
        refine agree text ?_ name mentions
        simp [conditionsOf, found, Declaration.conditions, asked, condition]

end Model
end OptionTree
