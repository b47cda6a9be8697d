import OptionTree.Model.Value
import OptionTree.Proofs.Exposure

/-!
# What an entry depends on

The clauses of an entry are joined into one expression.  If no clause is exposed, its value is the
lowest one of the clauses, so that it holds if all of them do.  The alternatives of exposed clauses
divide the conjunction instead: it holds if all alternatives that meet between two of the exposed
disjunctions hold.
-/

namespace OptionTree
namespace Expression

/-- The scope in which a name that cannot be read has no value. -/
def readable (scope : Scope) : Names := fun symbol =>
  (scope symbol).map fun reading => reading.toOption.join

theorem evaluate_readable {scope : Scope} {tokens : List Token}
    (reads : ∀ symbol, .symbol symbol ∈ tokens → ∀ cause, scope symbol ≠ some (.error cause))
    (mode : Mode) (expression : String) :
    Setting.evaluate { scope, mode, expression } tokens =
      Setting.evaluate { scope := (readable scope).scope, mode, expression } tokens := by
  apply Setting.evaluate_congr
  · rfl
  · rfl
  · rfl
  intro symbol member
  have same : scope symbol = (readable scope).scope symbol := by
    unfold Names.scope readable
    cases found : scope symbol with
    | none => rfl
    | some reading =>
        cases reading with
        | error cause => exact absurd found (reads symbol member cause)
        | ok value => rfl
  simp only [Setting.read, nameValue, same]

theorem weight_readable {scope : Scope} {tokens : List Token}
    (reads : ∀ symbol, .symbol symbol ∈ tokens → ∀ cause, scope symbol ≠ some (.error cause)) :
    weight scope tokens = weight (readable scope).scope tokens := by
  rw [weight, evaluate_readable reads, weight]

end Expression

namespace Clause

open Token Expression

/-- The alternatives of some clauses that meet in their conjunction: those between two disjunctions
outside of all parentheses. -/
def meetings : List String → List (List (List Token))
  | [] => [[]]
  | clause :: clauses => goingOn ((divisions clause).map fun part => [part]) (meetings clauses)

theorem meetings_ne_nil (clauses : List String) : meetings clauses ≠ [] := by
  induction clauses with
  | nil => simp [meetings]
  | cons clause clauses ih =>
      obtain ⟨next, others, shape⟩ := List.exists_cons_of_ne_nil ih
      simp [meetings, goingOn, shape]

theorem meetings_cons (clause : String) (clauses : List String) :
    ∃ before last next others, divisions clause = before ++ [last] ∧
      meetings clauses = next :: others ∧
      meetings (clause :: clauses) =
        before.map (fun part => [part]) ++ (last :: next) :: others := by
  obtain ⟨before, last, divided⟩ := (List.eq_nil_or_concat (divisions clause)).resolve_left
    (alternatives_ne_nil 0 (guardedTokens clause))
  rw [List.concat_eq_append] at divided
  obtain ⟨next, others, meeting⟩ := List.exists_cons_of_ne_nil (meetings_ne_nil clauses)
  refine ⟨before, last, next, others, divided, meeting, ?_⟩
  rw [meetings, divided, meeting, List.map_append, List.map_singleton, goingOn_append]
  rfl

theorem mem_divisions_of_mem_meetings {clauses : List String} {group : List (List Token)}
    {part : List Token} (member : group ∈ meetings clauses) (inside : part ∈ group) :
    ∃ clause ∈ clauses, part ∈ divisions clause := by
  induction clauses generalizing group with
  | nil =>
      obtain rfl : group = [] := by simpa [meetings] using member
      cases inside
  | cons clause clauses ih =>
      obtain ⟨before, last, next, others, divided, meeting, shape⟩ := meetings_cons clause clauses
      have later : ∀ other ∈ meetings clauses, part ∈ other →
          ∃ clause' ∈ clause :: clauses, part ∈ divisions clause' := by
        intro other found within
        obtain ⟨origin, present, division⟩ := ih found within
        exact ⟨origin, List.mem_cons_of_mem _ present, division⟩
      rw [shape] at member
      rcases List.mem_append.mp member with single | rest
      · obtain ⟨own, early, rfl⟩ := List.mem_map.mp single
        obtain rfl := List.mem_singleton.mp inside
        exact ⟨clause, List.mem_cons_self, by simp [divided, early]⟩
      · rcases List.mem_cons.mp rest with rfl | behind
        · rcases List.mem_cons.mp inside with rfl | ahead
          · exact ⟨clause, List.mem_cons_self, by simp [divided]⟩
          · exact later next (by simp [meeting]) ahead
        · exact later group (by simp [meeting, behind]) inside

theorem ne_nil_of_mem_meetings {clauses : List String} (some_clause : clauses ≠ [])
    {group : List (List Token)} (member : group ∈ meetings clauses) : group ≠ [] := by
  induction clauses with
  | nil => exact absurd rfl some_clause
  | cons clause clauses ih =>
      obtain ⟨before, last, next, others, -, meeting, shape⟩ := meetings_cons clause clauses
      rw [shape] at member
      rcases List.mem_append.mp member with single | rest
      · obtain ⟨part, -, rfl⟩ := List.mem_map.mp single
        simp
      · rcases List.mem_cons.mp rest with rfl | behind
        · simp
        · cases clauses with
          | nil =>
              obtain ⟨-, rfl⟩ := List.cons.inj (meeting : [[]] = next :: others)
              cases behind
          | cons second clauses => exact ih (by simp) (by simp [meeting, behind])

theorem meetings_of_not_exposed {clauses : List String}
    (wellFormed : ∀ clause ∈ clauses, Derivable (tokenize clause))
    (sheltered : ∀ clause ∈ clauses, ¬Exposed clause) :
    meetings clauses = [clauses.map guardedTokens] := by
  induction clauses with
  | nil => rfl
  | cons clause clauses ih =>
      have rest := ih (fun other member => wellFormed other (List.mem_cons_of_mem _ member))
        fun other member => sheltered other (List.mem_cons_of_mem _ member)
      have single := (divisions_of_not_exposed (wellFormed clause List.mem_cons_self)
        (sheltered clause List.mem_cons_self)).2
      rw [meetings, rest, single]
      rfl

/-- The alternatives of a conjunction are the conjunctions of those that meet. -/
theorem alternatives_joined {clauses : List String} (some_clause : clauses ≠ [])
    (wellFormed : ∀ clause ∈ clauses, Derivable (tokenize clause)) :
    Within BinaryOperator.disjunction.rank (joinedTokens clauses) ∧
      alternatives 0 (joinedTokens clauses) =
        (meetings clauses).map (List.intercalate [.operator (.binary .conjunction)]) := by
  induction clauses with
  | nil => exact absurd rfl some_clause
  | cons clause clauses ih =>
      have first := within_guarded (wellFormed clause List.mem_cons_self)
      obtain ⟨before, last, next, others, divided, meeting, shape⟩ := meetings_cons clause clauses
      have singles : before.map (List.intercalate [.operator (.binary .conjunction)] ∘
          fun part => [part]) = before := by
        simp [Function.comp_def]
      cases clauses with
      | nil =>
          obtain ⟨rfl, rfl⟩ := List.cons.inj (meeting : [[]] = next :: others)
          rw [shape]
          simp only [joinedTokens, List.map_cons, List.map_nil, List.intercalate_singleton,
            List.map_append, List.map_map, singles]
          exact ⟨first, divided⟩
      | cons second clauses =>
          obtain ⟨within, later⟩ := ih (by simp) fun other member =>
            wellFormed other (List.mem_cons_of_mem _ member)
          have joined : joinedTokens (clause :: second :: clauses) =
              guardedTokens clause ++ .operator (.binary .conjunction) ::
                joinedTokens (second :: clauses) := by
            simp [joinedTokens, List.intercalate_cons_cons]
          obtain ⟨part, rest, rfl⟩ := List.exists_cons_of_ne_nil
            (ne_nil_of_mem_meetings (by simp) (meeting ▸ List.mem_cons_self) : next ≠ [])
          rw [joined, shape]
          refine ⟨.binary .conjunction (by decide) first within, ?_⟩
          rw [alternatives_append first, alternatives_conjunction, later, meeting]
          have divided : alternatives 0 (guardedTokens clause) = before ++ [last] := divided
          rw [divided, goingOn_append]
          simp [singles, List.intercalate_cons_cons]

/-! ## Which clauses a conjunction needs -/

/-- Whether a clause is an expression all of whose names can be read. -/
structure Answers (scope : Scope) (clause : String) : Prop where
  /-- The clause is an infix expression. -/
  derivable : Derivable (tokenize clause)
  /-- Its names can be read. -/
  reads : ∀ symbol, .symbol symbol ∈ tokenize clause → ∀ cause, scope symbol ≠ some (.error cause)

section Needs

variable {scope : Scope} {clauses : List String}

theorem Answers.weight_readable {clause : String} (answers : Answers scope clause)
    {part : List Token} (division : part ∈ divisions clause) :
    weight scope part = weight (readable scope).scope part :=
  Expression.weight_readable fun symbol inside => answers.reads symbol
    (symbol_mem_of_guarded (mem_of_mem_alternatives division inside))

theorem Answers.weight_eq {clause : String} (answers : Answers scope clause) {value : Value}
    (evaluated : evaluate scope .truth clause = .ok value) :
    weight scope (tokenize clause) = value.magnitude := by
  rw [evaluate, evaluate_readable answers.reads, evaluate_eq_weight answers.derivable,
    ← Expression.weight_readable answers.reads] at evaluated
  cases evaluated
  rfl

/-- A clause has the highest weight of its alternatives. -/
theorem Answers.weight_divisions {clause : String} (answers : Answers scope clause) :
    ((divisions clause).map (weight scope)).max? = some (weight scope (tokenize clause)) := by
  rw [List.map_congr_left fun part division => answers.weight_readable division, divisions,
    weight_alternatives (within_guarded answers.derivable), weight_guarded answers.derivable,
    Expression.weight_readable answers.reads]

theorem Answers.weight_pos_iff {clause : String} (answers : Answers scope clause) :
    0 < weight scope (tokenize clause) ↔ ∃ part ∈ divisions clause, 0 < weight scope part := by
  obtain ⟨attained, bound⟩ := List.max?_eq_some_iff.mp answers.weight_divisions
  constructor
  · intro holds
    obtain ⟨part, member, same⟩ := List.mem_map.mp attained
    exact ⟨part, member, same ▸ holds⟩
  · rintro ⟨part, member, holds⟩
    exact lt_of_lt_of_le holds (bound _ (List.mem_map_of_mem member))

variable (answers : ∀ clause ∈ clauses, Answers scope clause)
include answers

theorem reads_joined (symbol : String) (member : .symbol symbol ∈ joinedTokens clauses)
    (cause : Error) : scope symbol ≠ some (.error cause) := by
  obtain ⟨clause, origin, inside⟩ := symbol_mem_of_joined member
  exact (answers clause origin).reads symbol inside cause

theorem evaluate_joined (some_clause : clauses ≠ []) (expression : String) :
    Setting.evaluate { scope, mode := .truth, expression } (joinedTokens clauses) =
      .ok (.number (weight scope (joinedTokens clauses))) := by
  have within := (alternatives_joined some_clause fun clause member =>
    (answers clause member).derivable).1
  have reads := reads_joined answers
  rw [evaluate_readable reads, Expression.weight_readable reads]
  exact evaluate_eq_weight within.derivable expression

/-- The weight of a conjunction is the highest one of what meets in it, and what meets has the
lowest weight of its alternatives. -/
theorem weight_joined (some_clause : clauses ≠ []) :
    ((meetings clauses).map fun group =>
        weight scope (List.intercalate [.operator (.binary .conjunction)] group)).max? =
      some (weight scope (joinedTokens clauses)) ∧
    ∀ group ∈ meetings clauses, (group.map (weight scope)).min? =
      some (weight scope (List.intercalate [.operator (.binary .conjunction)] group)) := by
  have wellFormed := fun clause member => (answers clause member).derivable
  obtain ⟨within, divided⟩ := alternatives_joined some_clause wellFormed
  have meets : ∀ group ∈ meetings clauses,
      weight scope (List.intercalate [.operator (.binary .conjunction)] group) =
        weight (readable scope).scope
          (List.intercalate [.operator (.binary .conjunction)] group) := by
    intro group member
    refine Expression.weight_readable fun symbol inside => ?_
    obtain ⟨part, present, inside⟩ := symbol_mem_of_intercalate inside
    obtain ⟨clause, origin, division⟩ := mem_divisions_of_mem_meetings member present
    exact (answers clause origin).reads symbol
      (symbol_mem_of_guarded (mem_of_mem_alternatives division inside))
  constructor
  · have highest := @weight_alternatives (readable scope) _ within
    rw [divided, List.map_map] at highest
    rw [List.map_congr_left meets, Expression.weight_readable (reads_joined answers)]
    exact highest
  · intro group member
    have parts : ∀ part ∈ group, weight scope part = weight (readable scope).scope part := by
      intro part inside
      obtain ⟨clause, present, division⟩ := mem_divisions_of_mem_meetings member inside
      exact (answers clause present).weight_readable division
    rw [List.map_congr_left parts, meets group member]
    refine (weight_intercalate (ne_nil_of_mem_meetings some_clause member) fun part inside => ?_).2
    obtain ⟨clause, present, division⟩ := mem_divisions_of_mem_meetings member inside
    exact within_of_mem_alternatives (within_guarded (wellFormed clause present)) division

theorem weight_joined_pos_iff (some_clause : clauses ≠ []) :
    0 < weight scope (joinedTokens clauses) ↔
      ∃ group ∈ meetings clauses, ∀ part ∈ group, 0 < weight scope part := by
  obtain ⟨highest, lowest⟩ := weight_joined answers some_clause
  obtain ⟨attained, bound⟩ := List.max?_eq_some_iff.mp highest
  constructor
  · intro holds
    obtain ⟨group, member, same⟩ := List.mem_map.mp attained
    obtain ⟨-, below⟩ := List.min?_eq_some_iff.mp (lowest group member)
    rw [← same] at holds
    exact ⟨group, member, fun part inside =>
      lt_of_lt_of_le holds (below _ (List.mem_map_of_mem inside))⟩
  · rintro ⟨group, member, all⟩
    obtain ⟨reached, -⟩ := List.min?_eq_some_iff.mp (lowest group member)
    obtain ⟨part, inside, same⟩ := List.mem_map.mp reached
    have holds := all part inside
    rw [same] at holds
    exact lt_of_lt_of_le holds (bound _ (List.mem_map_of_mem member))

theorem weight_joined_of_not_exposed (some_clause : clauses ≠ [])
    (sheltered : ∀ clause ∈ clauses, ¬Exposed clause) :
    (clauses.map fun clause => weight scope (tokenize clause)).min? =
      some (weight scope (joinedTokens clauses)) := by
  have same : clauses.map (fun clause => weight scope (tokenize clause)) =
      (clauses.map guardedTokens).map (weight scope) := by
    rw [List.map_map]
    refine List.map_congr_left fun clause member => ?_
    have single := (divisions_of_not_exposed (answers clause member).derivable
      (sheltered clause member)).2
    have guarded := (answers clause member).weight_divisions
    rw [single] at guarded
    exact (Option.some.inj guarded).symm
  have meeting := meetings_of_not_exposed
    (fun clause member => (answers clause member).derivable) sheltered
  rw [same]
  exact (weight_joined answers some_clause).2 _ (by rw [meeting]; exact List.mem_singleton_self _)

/-- If all clauses hold, so do some alternatives that meet. -/
theorem exists_meeting (all : ∀ clause ∈ clauses, 0 < weight scope (tokenize clause)) :
    ∃ group ∈ meetings clauses, ∀ part ∈ group, 0 < weight scope part := by
  induction clauses with
  | nil => exact ⟨[], List.mem_singleton_self [], nofun⟩
  | cons clause clauses ih =>
      obtain ⟨before, last, next, others, divided, meeting, shape⟩ := meetings_cons clause clauses
      obtain ⟨part, division, holds⟩ :=
        (answers clause List.mem_cons_self).weight_pos_iff.mp (all clause List.mem_cons_self)
      rw [shape]
      rw [divided] at division
      rcases List.mem_append.mp division with early | late
      · refine ⟨[part], List.mem_append_left _ (List.mem_map_of_mem early), ?_⟩
        exact List.forall_mem_singleton.mpr holds
      · obtain rfl := List.mem_singleton.mp late
        obtain ⟨group, member, rest⟩ := ih
          (fun other present => answers other (List.mem_cons_of_mem _ present))
          fun other present => all other (List.mem_cons_of_mem _ present)
        rw [meeting] at member
        rcases List.mem_cons.mp member with rfl | behind
        · refine ⟨part :: group, List.mem_append_right _ List.mem_cons_self, ?_⟩
          exact List.forall_mem_cons.mpr ⟨holds, rest⟩
        · refine ⟨group, List.mem_append_right _ (List.mem_cons_of_mem _ behind), rest⟩

/-- If no exposed clause holds, alternatives that meet hold only if all clauses do. -/
theorem forall_of_meeting
    (exposed : ∀ clause ∈ clauses, Exposed clause → weight scope (tokenize clause) ≤ 0)
    {group : List (List Token)} (member : group ∈ meetings clauses)
    (holds : ∀ part ∈ group, 0 < weight scope part) :
    ∀ clause ∈ clauses, 0 < weight scope (tokenize clause) := by
  induction clauses generalizing group with
  | nil => exact nofun
  | cons clause clauses ih =>
      obtain ⟨before, last, next, others, divided, meeting, shape⟩ := meetings_cons clause clauses
      have laterAnswers := fun other (present : other ∈ clauses) =>
        answers other (List.mem_cons_of_mem _ present)
      have laterExposed := fun other (present : other ∈ clauses) =>
        exposed other (List.mem_cons_of_mem _ present)
      have later : ∀ rest ∈ meetings clauses, (∀ part ∈ rest, 0 < weight scope part) →
          ∀ other ∈ clauses, 0 < weight scope (tokenize other) := fun rest member =>
        ih laterAnswers laterExposed member
      have positive : ∀ part ∈ divisions clause, 0 < weight scope part →
          0 < weight scope (tokenize clause) := fun part division above =>
        (answers clause List.mem_cons_self).weight_pos_iff.mpr ⟨part, division, above⟩
      rw [shape] at member
      rcases List.mem_append.mp member with single | rest
      · -- An alternative that meets no other one belongs to an exposed clause.
        obtain ⟨part, early, rfl⟩ := List.mem_map.mp single
        have above := positive part (by simp [divided, early]) (holds part List.mem_cons_self)
        have divides : Exposed clause := by
          rw [Exposed, divided, List.length_append, List.length_singleton]
          exact Nat.lt_add_of_pos_left (List.length_pos_of_mem early)
        exact absurd above (not_lt_of_ge (exposed clause List.mem_cons_self divides))
      · rcases List.mem_cons.mp rest with rfl | behind
        · obtain ⟨first, rest⟩ := List.forall_mem_cons.mp holds
          refine List.forall_mem_cons.mpr ⟨positive last (by simp [divided]) first, ?_⟩
          exact later next (by simp [meeting]) rest
        · -- If all later clauses hold, none of them is exposed, and then they all meet.
          have all := later group (by simp [meeting, behind]) holds
          have sheltered : ∀ other ∈ clauses, ¬Exposed other := fun other present divides =>
            absurd (all other present) (not_lt_of_ge (laterExposed other present divides))
          rw [meetings_of_not_exposed (fun other present => (laterAnswers other present).derivable)
            sheltered] at meeting
          obtain ⟨-, rfl⟩ := List.cons.inj meeting
          cases behind

end Needs

/-- Whether a conjunction of clauses holds although one of them does not: alternatives that meet
between two exposed disjunctions all hold. -/
def Overridden (scope : Scope) (clauses : List String) : Prop :=
  (∃ clause ∈ clauses, weight scope (tokenize clause) ≤ 0) ∧
    ∃ group ∈ meetings clauses, ∀ part ∈ group, 0 < weight scope part

theorem exposed_of_overridden {scope : Scope} {clauses : List String}
    (answers : ∀ clause ∈ clauses, Answers scope clause)
    (overridden : Overridden scope clauses) :
    ∃ clause ∈ clauses, Exposed clause ∧ 0 < weight scope (tokenize clause) ∧
      ∃ content, .quoted content ∈ tokenize clause ∧ ¬Plain content.toList := by
  obtain ⟨⟨failing, present, low⟩, group, member, holds⟩ := overridden
  by_contra none
  refine absurd (forall_of_meeting answers (fun clause origin exposed => ?_) member holds failing
    present) (not_lt_of_ge low)
  by_contra high
  refine none ⟨clause, origin, exposed, lt_of_not_ge high, ?_⟩
  by_contra quotes
  refine not_exposed_of_plain (answers clause origin).derivable (fun content inside => ?_) exposed
  by_contra marked
  exact quotes ⟨content, inside, marked⟩

/-- An exposed clause that holds overrides any clause that does not, in front of it or behind it. -/
theorem overridden_of_exposed {scope : Scope} {clause : String} (answers : Answers scope clause)
    (exposed : Exposed clause) (holds : 0 < weight scope (tokenize clause)) {other : String}
    (low : weight scope (tokenize other) ≤ 0) :
    Overridden scope [clause, other] ∨ Overridden scope [other, clause] := by
  obtain ⟨part, division, above⟩ := answers.weight_pos_iff.mp holds
  obtain ⟨before, last, next, others, divided, -, shape⟩ := meetings_cons clause [other]
  rw [divided] at division
  rcases List.mem_append.mp division with early | late
  · refine .inl ⟨⟨other, by simp, low⟩, [part], ?_, List.forall_mem_singleton.mpr above⟩
    rw [shape]
    exact List.mem_append_left _ (List.mem_map_of_mem early)
  · obtain rfl := List.mem_singleton.mp late
    refine .inr ⟨⟨other, by simp, low⟩, [part], ?_, List.forall_mem_singleton.mpr above⟩
    obtain ⟨front, rest, split⟩ := List.exists_cons_of_ne_nil
      (fun empty => by simp [Exposed, divided, empty] at exposed : before ≠ [])
    have alone : meetings [clause] = (before ++ [part]).map fun part => [part] := by
      simp [meetings, divided, goingOn]
    obtain ⟨earlier, final, first, behind, -, meeting, joined⟩ := meetings_cons other [clause]
    rw [alone, split] at meeting
    obtain ⟨rfl, rfl⟩ := List.cons.inj meeting
    rw [joined]
    exact List.mem_append_right _ (List.mem_cons_of_mem _ (by simp))

end Clause

namespace Model

open Token Expression

section Depends

variable {model : Model} {entry : Entry}
  (answers : ∀ clause ∈ entry.clauses, Clause.Answers model.scope clause)
include answers

theorem evaluate_depends (some_clause : entry.clauses ≠ []) :
    ∃ joined, entry.depends? = some joined ∧ model.evaluate .truth joined =
      .ok (.number (weight model.scope (Clause.joinedTokens entry.clauses))) := by
  have wellFormed := fun clause member => (answers clause member).derivable
  have tokens : tokenize (Clause.conjunction entry.clauses) = Clause.joinedTokens entry.clauses :=
    Clause.tokenize_conjunction (fun clause member => (wellFormed clause member).sound)
      fun clause member => (wellFormed clause member).ne_nil
  refine ⟨Clause.conjunction entry.clauses, ?_, ?_⟩
  · rw [Entry.depends?]
    refine if_neg fun empty => ?_
    have within := (Clause.alternatives_joined some_clause wellFormed).1
    rw [← tokens, empty] at within
    exact within.derivable.ne_nil (tokenize_of_printed (.nil nofun))
  · rw [evaluate, Expression.evaluate, tokens]
    exact Clause.evaluate_joined answers some_clause _

/-- What an entry depends on holds if alternatives that meet in the conjunction all hold. -/
theorem holds_depends_iff :
    model.holds entry.depends? = .ok true ↔
      ∃ group ∈ Clause.meetings entry.clauses, ∀ part ∈ group, 0 < weight model.scope part := by
  by_cases none : entry.clauses = []
  · have absent : entry.depends? = Option.none := by
      simp [Entry.depends?, none, Clause.conjunction]
    rw [absent, none]
    exact ⟨fun _ => ⟨[], List.mem_singleton_self [], by simp⟩, fun _ => rfl⟩
  · obtain ⟨joined, found, evaluated⟩ := evaluate_depends answers none
    have evaluated : Expression.evaluate model.scope .truth joined = _ := evaluated
    rw [← Clause.weight_joined_pos_iff answers none, found, holds, Expression.holds, evaluated,
      Except.ok_map, Except.ok.injEq]
    exact decide_eq_true_iff

theorem holds_depends_iff_forall :
    model.holds entry.depends? = .ok true ↔
      (∀ clause ∈ entry.clauses, 0 < weight model.scope (tokenize clause)) ∨
        Clause.Overridden model.scope entry.clauses := by
  rw [holds_depends_iff answers]
  constructor
  · intro meeting
    by_cases all : ∀ clause ∈ entry.clauses, 0 < weight model.scope (tokenize clause)
    · exact .inl all
    · push Not at all
      exact .inr ⟨all, meeting⟩
  · rintro (all | overridden)
    · exact Clause.exists_meeting answers all
    · exact overridden.2

end Depends

theorem isVisible_eq_ok_true_iff {model : Model} {id : EntryId} {entry : Entry} {prompt : Prompt}
    (found : model.get? id = some entry) (shown : entry.prompt = some prompt) :
    model.isVisible id = .ok true ↔
      model.holds entry.depends? = .ok true ∧ model.holds prompt.condition = .ok true := by
  have visible : model.isVisible id = (model.holds entry.depends?).bind fun depends =>
      if depends then model.holds prompt.condition else .ok false := by
    simp [isVisible, found, shown]
  rw [visible]
  constructor
  · intro both
    obtain ⟨applies, holds, rest⟩ := Except.bind_eq_ok_iff.mp both
    cases applies with
    | true => exact ⟨holds, rest⟩
    | false => cases rest
  · rintro ⟨holds, rest⟩
    rw [holds, Except.ok_bind]
    exact rest

/-- An entry is visible if all clauses and the condition of its prompt hold, except that a clause
with a parenthesis in a quoted text may override others. -/
theorem isVisible_iff_clauses {model : Model} {id : EntryId} {entry : Entry} {prompt : Prompt}
    {worth : String → Value} (found : model.get? id = some entry)
    (shown : entry.prompt = some prompt)
    (wellFormed : ∀ clause ∈ entry.clauses, Derivable (tokenize clause))
    (evaluates : ∀ clause ∈ entry.clauses, model.evaluate .truth clause = .ok (worth clause)) :
    (model.isVisible id = .ok true ↔
      ((∀ clause ∈ entry.clauses, 0 < (worth clause).magnitude) ∨
          Clause.Overridden model.scope entry.clauses) ∧
        model.holds prompt.condition = .ok true) ∧
    (Clause.Overridden model.scope entry.clauses → ∃ clause ∈ entry.clauses,
      Clause.Exposed clause ∧ 0 < (worth clause).magnitude ∧
        ∃ content, .quoted content ∈ tokenize clause ∧ ¬Clause.Plain content.toList) ∧
    (∀ clause ∈ entry.clauses, Clause.Exposed clause → 0 < (worth clause).magnitude →
      ∀ other, weight model.scope (tokenize other) ≤ 0 →
        Clause.Overridden model.scope [clause, other] ∨
          Clause.Overridden model.scope [other, clause]) ∧
    ((∀ clause ∈ entry.clauses, ¬Clause.Exposed clause) → ∀ least,
      (entry.clauses.map fun clause => (worth clause).magnitude).min? = some least →
        ∃ joined, entry.depends? = some joined ∧
          model.evaluate .truth joined = .ok (.number least)) := by
  have answers : ∀ clause ∈ entry.clauses, Clause.Answers model.scope clause := by
    intro clause member
    refine ⟨wellFormed clause member, fun symbol inside => ?_⟩
    exact scope_of_evaluate (evaluates clause member) (mem_symbols.mpr inside)
  have weighs : ∀ clause ∈ entry.clauses,
      weight model.scope (tokenize clause) = (worth clause).magnitude := fun clause member =>
    (answers clause member).weight_eq (evaluates clause member)
  refine ⟨?_, fun overridden => ?_, fun clause member exposed above other low => ?_,
    fun sheltered least lowest => ?_⟩
  · rw [isVisible_eq_ok_true_iff found shown, holds_depends_iff_forall answers]
    have weighed : (∀ clause ∈ entry.clauses, 0 < weight model.scope (tokenize clause)) ↔
        ∀ clause ∈ entry.clauses, 0 < (worth clause).magnitude :=
      forall₂_congr fun clause member => by rw [weighs clause member]
    rw [weighed]
  · obtain ⟨clause, member, exposed, above, quotes⟩ :=
      Clause.exposed_of_overridden answers overridden
    exact ⟨clause, member, exposed, weighs clause member ▸ above, quotes⟩
  · rw [← weighs clause member] at above
    exact Clause.overridden_of_exposed (answers clause member) exposed above low
  · have some_clause : entry.clauses ≠ [] := by
      intro none
      simp [none] at lowest
    obtain ⟨joined, depends, evaluated⟩ := evaluate_depends answers some_clause
    have smallest := Clause.weight_joined_of_not_exposed answers some_clause sheltered
    rw [List.map_congr_left weighs, lowest] at smallest
    cases smallest
    exact ⟨joined, depends, evaluated⟩

/-- An entry that is visible although one of its two clauses does not hold: the other one looks
enclosed because of the parentheses that it quotes. -/
theorem isVisible_of_quoted_parentheses :
    let first : Entry := { symbol := some "X", type := some .bool }
    let second : Entry := { symbol := some "Y", type := some .bool, override := some (.text "y") }
    let third : Entry :=
      { prompt := some ⟨"A", none⟩, clauses := ["(Y != \"(\") || (Y = \")\")", "X"] }
    let model : Model :=
      { registry :=
          { entries := [{ kind := .menu }, first, second, third]
            names := [("X", 1), ("Y", 2)] } }
    model.get? 3 = some third ∧ model.evaluate .truth "X" = .ok (.number 0) ∧
      model.isVisible 3 = .ok true := by
  intro first second third model
  have zero : model.evaluate .truth "X" = .ok (.number 0) := by decide +kernel
  have two : model.evaluate .truth "(Y != \"(\") || (Y = \")\")" = .ok (.number 2) := by
    decide +kernel
  have tokens : tokenize "(Y != \"(\") || (Y = \")\")" =
      [.opening, .symbol "Y", .operator (.binary .unequal), .quoted "(", .closing,
        .operator (.binary .disjunction),
        .opening, .symbol "Y", .operator (.binary .equal), .quoted ")", .closing] := by
    decide +kernel
  have name : tokenize "X" = [.symbol "X"] := by decide +kernel
  have wellFormed : ∀ clause ∈ third.clauses, Derivable (tokenize clause) := by
    refine List.forall_mem_cons.mpr ⟨?_, List.forall_mem_singleton.mpr ?_⟩
    · have left : Derivable [.symbol "Y", .operator (.binary .unequal), .quoted "("] :=
        .binary .unequal (.symbol "Y") (.quoted "(")
      have right : Derivable [.symbol "Y", .operator (.binary .equal), .quoted ")"] :=
        .binary .equal (.symbol "Y") (.quoted ")")
      rw [tokens]
      exact .binary .disjunction (.parentheses left) (.parentheses right)
    · rw [name]
      exact .symbol "X"
  have overridden : Clause.Overridden model.scope third.clauses := by
    refine ⟨⟨"X", by simp [third], by decide +kernel⟩,
      [[.opening, .symbol "Y", .operator (.binary .unequal), .quoted "(", .closing]], ?_, ?_⟩
    · decide +kernel
    · exact List.forall_mem_singleton.mpr (by decide +kernel)
  have whole := @isVisible_iff_clauses model 3 third ⟨"A", none⟩
    (fun clause => if clause = "X" then .number 0 else .number 2) rfl rfl wellFormed
    (List.forall_mem_cons.mpr ⟨two, List.forall_mem_singleton.mpr zero⟩)
  exact ⟨rfl, zero, whole.1.mpr ⟨.inr overridden, rfl⟩⟩

end Model
end OptionTree
