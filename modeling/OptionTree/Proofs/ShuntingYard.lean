import Mathlib
import OptionTree.Expression.Tree
import OptionTree.Proofs.Reading

/-!
# Two stacks against climbing over ranks

An expression that was read but whose operators still wait leaves a residue on top of both stacks.
Settling the residue leaves one operand with the value of the tree that climbing over ranks finds.
What lies below the residue takes no part, as long as its topmost operator binds more loosely than
the operators of the expression.
-/

namespace OptionTree
namespace Expression

namespace Setting

variable {setting : Setting}

theorem apply_append {op : Operator} {operands applied : List Operand}
    (done : setting.apply op operands = .ok applied) (base : List Operand) :
    setting.apply op (operands ++ base) = .ok (applied ++ base) := by
  rcases apply_eq_ok done with ⟨operand, rest, value, rfl, rfl, read, rfl⟩ |
    ⟨sort, second, first, rest, left, right, rfl, rfl, readLeft, readRight, rfl⟩
  · simp [apply, read]
  · simp [apply, readLeft, readRight]

theorem finish_waiting_append {waiting : List Operator} {operands left : List Operand}
    (settled : setting.finish (waiting.map .operator) operands = .ok left)
    (base : List Operand) :
    setting.finish (waiting.map .operator) (operands ++ base) = .ok (left ++ base) := by
  induction waiting generalizing operands with
  | nil =>
      cases settled
      rfl
  | cons op waiting ih =>
      obtain ⟨applied, application, rest⟩ := Except.bind_eq_ok_iff.mp settled
      simp only [List.map_cons, finish, apply_append application base, Except.ok_bind]
      exact ih rest

/-- An operator settles all operators above it that bind at least as tightly. -/
theorem reduce_waiting {rank : Nat} {waiting : List Operator} {operands left : List Operand}
    (settled : setting.finish (waiting.map .operator) operands = .ok left)
    (tight : ∀ op ∈ waiting, op.rank ≤ rank) (below : List Pending) :
    setting.reduce rank (waiting.map .operator ++ below) operands =
      setting.reduce rank below left := by
  induction waiting generalizing operands with
  | nil =>
      cases settled
      rfl
  | cons op waiting ih =>
      obtain ⟨applied, application, rest⟩ := Except.bind_eq_ok_iff.mp settled
      simp only [List.map_cons, List.cons_append, reduce, application, Except.ok_bind]
      rw [if_pos (tight op (by simp))]
      exact ih rest fun other member => tight other (by simp [member])

theorem close_waiting {waiting : List Operator} {operands left : List Operand}
    (settled : setting.finish (waiting.map .operator) operands = .ok left)
    (below : List Pending) :
    setting.close (waiting.map .operator ++ .parenthesis :: below) operands =
      .ok ⟨left, below⟩ := by
  induction waiting generalizing operands with
  | nil =>
      cases settled
      rfl
  | cons op waiting ih =>
      obtain ⟨applied, application, rest⟩ := Except.bind_eq_ok_iff.mp settled
      simp only [List.map_cons, List.cons_append, close, application, Except.ok_bind]
      exact ih rest

theorem finish_append {first : List Operator} {operands left : List Operand}
    (settled : setting.finish (first.map .operator) operands = .ok left)
    (second : List Pending) :
    setting.finish (first.map .operator ++ second) operands = setting.finish second left := by
  induction first generalizing operands with
  | nil =>
      cases settled
      rfl
  | cons op first ih =>
      obtain ⟨applied, application, rest⟩ := Except.bind_eq_ok_iff.mp settled
      simp only [List.map_cons, List.cons_append, finish, application, Except.ok_bind]
      exact ih rest

/-- Whether the topmost waiting operator binds more loosely than all operators up to a rank. -/
def Blocks (rank : Nat) : List Pending → Prop
  | .operator op :: _ => ∀ other : BinaryOperator, other.rank ≤ rank → other.rank < op.rank
  | _ => True

theorem reduce_of_blocks {rank : Nat} {op : BinaryOperator} {pending : List Pending}
    (blocks : Blocks rank pending) (bound : op.rank ≤ rank) (operands : List Operand) :
    setting.reduce op.rank pending operands = .ok ⟨operands, pending⟩ := by
  rcases pending with _ | ⟨_ | _, below⟩
  · rfl
  · exact if_neg (Nat.not_le_of_lt (blocks op bound))
  · rfl

end Setting

/-- What an expression with operators up to a rank leaves on top of both stacks while its last
operators wait. -/
structure Residue (setting : Setting) (rank : Nat) (value : Value) where
  /-- The operands that the expression left. -/
  operands : List Operand
  /-- The operators that still wait. -/
  waiting : List Operator
  /-- The operand that remains once no operator waits. -/
  result : Operand
  /-- No operator that waits binds more loosely than a negation or than the rank. -/
  tight : ∀ op ∈ waiting, op.rank ≤ max rank Operator.negation.rank
  /-- Settling the operators leaves the result. -/
  settles : setting.finish (waiting.map .operator) operands = .ok [result]
  /-- The result has the value of the expression. -/
  reads : setting.read result = .ok value

namespace Residue

variable {setting : Setting} {rank : Nat} {value : Value}

/-- The machine with a residue on top of another one. -/
def onto (residue : Residue setting rank value) (below : Machine) : Machine :=
  ⟨residue.operands ++ below.operands, residue.waiting.map .operator ++ below.pending⟩

/-- The residue of a single operand. -/
def single (operand : Operand) (reads : setting.read operand = .ok value) :
    Residue setting rank value where
  operands := [operand]
  waiting := []
  result := operand
  tight := by simp
  settles := rfl
  reads := reads

/-- Any rank above negation bounds a residue of a lower rank. -/
def widen {wider : Nat} (residue : Residue setting rank value) (le : rank ≤ wider) :
    Residue setting wider value :=
  { residue with tight := fun op member => Nat.le_trans (residue.tight op member) (by omega) }

theorem settles_above (residue : Residue setting rank value) (base : List Operand) :
    setting.finish (residue.waiting.map .operator) (residue.operands ++ base) =
      .ok (residue.result :: base) :=
  Setting.finish_waiting_append residue.settles base

/-- The residue of an operand under a negation. -/
def negate (residue : Residue setting Operator.negation.rank value) :
    Residue setting rank (.number (setting.complement value.magnitude)) where
  operands := residue.operands
  waiting := residue.waiting ++ [.negation]
  result := .result (setting.complement value.magnitude)
  tight := by
    intro op member
    rcases List.mem_append.mp member with inner | outer
    · have := residue.tight op inner
      omega
    · obtain rfl := List.mem_singleton.mp outer
      omega
  settles := by
    rw [List.map_append, Setting.finish_append residue.settles]
    simp [Setting.finish, Setting.apply, residue.reads]
  reads := rfl

/-- The residue of two sides of an operator, of which the left one has settled. -/
def join {right : Value} (op : BinaryOperator) (bound : op.rank ≤ rank) (first : Operand)
    (reads : setting.read first = .ok value)
    (residue : Residue setting (op.rank - 1) right) :
    Residue setting rank (.number (op.combine value right)) where
  operands := residue.operands ++ [first]
  waiting := residue.waiting ++ [.binary op]
  result := .result (op.combine value right)
  tight := by
    intro other member
    rcases List.mem_append.mp member with inner | outer
    · have := residue.tight other inner
      omega
    · obtain rfl := List.mem_singleton.mp outer
      exact Nat.le_trans bound (Nat.le_max_left ..)
  settles := by
    rw [List.map_append, Setting.finish_append (residue.settles_above [first])]
    simp [Setting.finish, Setting.apply, residue.reads, reads]
  reads := rfl

/-- A binary operator to which all operators of a residue yield finds the result alone. -/
theorem step_binary (residue : Residue setting rank value) {op : BinaryOperator} {below : Machine}
    (yields : ∀ waiting ∈ residue.waiting, waiting.rank ≤ op.rank)
    (blocks : Setting.Blocks op.rank below.pending) :
    setting.step (residue.onto below) (.operator (.binary op)) =
      .ok ⟨residue.result :: below.operands, .operator (.binary op) :: below.pending⟩ := by
  have reduced : setting.reduce op.rank (residue.onto below).pending (residue.onto below).operands =
      .ok ⟨residue.result :: below.operands, below.pending⟩ := by
    rw [onto, Setting.reduce_waiting (residue.settles_above _) yields]
    exact Setting.reduce_of_blocks blocks (Nat.le_refl _) _
  simp only [Setting.step, reduced, Except.ok_map]

theorem step_closing (residue : Residue setting rank value) (below : Machine) :
    setting.step (residue.onto ⟨below.operands, .parenthesis :: below.pending⟩) .closing =
      .ok ⟨residue.result :: below.operands, below.pending⟩ :=
  Setting.close_waiting (residue.settles_above _) _

theorem finish_onto_empty (residue : Residue setting rank value) :
    (setting.finish (residue.onto ⟨[], []⟩).pending (residue.onto ⟨[], []⟩).operands).bind
      setting.answer = .ok value := by
  simp only [onto, List.append_nil, residue.settles]
  exact residue.reads

end Residue

/-- Whether a binary operator in front of some tokens binds more loosely than a rank. -/
def Stops (rank : Nat) : List Token → Prop
  | .operator (.binary op) :: _ => rank < op.rank
  | _ => True

/-- Whether a binary operator in front of some tokens settles all waiting operators. -/
def Yields (waiting : List Operator) : List Token → Prop
  | .operator (.binary op) :: _ => ∀ other ∈ waiting, other.rank ≤ op.rank
  | _ => True

/-- Reading tokens up to a rest puts a residue with the given value on every machine whose waiting
operators stay out of it. -/
def Leaves (setting : Setting) (rank : Nat) (value : Value) (tokens rest : List Token) : Prop :=
  ∃ residue : Residue setting rank value, Yields residue.waiting rest ∧
    ∀ below : Machine, Setting.Blocks rank below.pending →
      setting.run tokens below = setting.run rest (residue.onto below)

/-- An expression that leaves a residue and nothing to read has its value. -/
theorem Leaves.evaluate {setting : Setting} {rank : Nat} {value : Value} {tokens : List Token}
    (leaves : Leaves setting rank value tokens []) : setting.evaluate tokens = .ok value := by
  obtain ⟨residue, -, runs⟩ := leaves
  rw [Setting.evaluate, runs ⟨[], []⟩ trivial]
  exact residue.finish_onto_empty

theorem yields_nil (tokens : List Token) : Yields [] tokens := by
  unfold Yields
  split
  · simp
  · trivial

theorem Yields.negate {waiting : List Operator} {rest : List Token} (yields : Yields waiting rest)
    (stops : Stops Operator.negation.rank rest) : Yields (waiting ++ [.negation]) rest := by
  unfold Yields at yields ⊢
  split
  · intro other member
    rcases List.mem_append.mp member with inner | outer
    · exact yields other inner
    · obtain rfl := List.mem_singleton.mp outer
      exact Nat.le_of_lt stops
  · trivial

/-- Operators that yield to some tokens still do so together with the operator whose right side
has stopped. -/
theorem Yields.join {waiting : List Operator} {rest : List Token} {op : BinaryOperator}
    (yields : Yields waiting rest) (stops : Stops (op.rank - 1) rest) :
    Yields (waiting ++ [.binary op]) rest := by
  unfold Yields at yields ⊢
  split
  · rename_i next _
    intro other member
    rcases List.mem_append.mp member with inner | outer
    · exact yields other inner
    · obtain rfl := List.mem_singleton.mp outer
      have after : op.rank - 1 < next.rank := stops
      change op.rank ≤ next.rank
      omega
  · trivial

theorem blocks_zero (pending : List Pending) : Setting.Blocks 0 pending := by
  unfold Setting.Blocks
  split
  · intro other bound
    cases other <;> simp [BinaryOperator.rank] at bound
  · trivial

theorem blocks_negation (pending : List Pending) :
    Setting.Blocks Operator.negation.rank (.operator .negation :: pending) := by
  intro other bound
  cases other <;> simp_all [BinaryOperator.rank, Operator.rank]

theorem blocks_right (op : BinaryOperator) (pending : List Pending) :
    Setting.Blocks (op.rank - 1) (.operator (.binary op) :: pending) := by
  intro other bound
  have positive : 0 < op.rank := by cases op <;> decide
  change other.rank < op.rank
  omega

theorem Setting.Blocks.mono {narrow wide : Nat} {pending : List Pending}
    (blocks : Setting.Blocks wide pending) (le : narrow ≤ wide) :
    Setting.Blocks narrow pending := by
  unfold Setting.Blocks at blocks ⊢
  split
  · exact fun other bound => blocks other (Nat.le_trans bound le)
  · trivial

section Climbing

variable {names : Names} {setting : Setting}

mutual

theorem operand?_leaves
    (known : ∀ symbol, setting.read (.name symbol) =
      .ok ((Tree.name symbol).valueWith setting.complement names setting.mode))
    (tokens : List Token) (parsed : Tree.Parsed tokens)
    (found : Tree.operand? tokens = some parsed) :
    Leaves setting 0 (parsed.1.1.valueWith setting.complement names setting.mode) tokens
      parsed.1.2 := by
  match tokens, parsed, found with
  | .symbol name :: rest, parsed, found =>
      rw [Tree.operand?] at found
      cases found
      exact ⟨.single (.name name) (known name), yields_nil _, fun below _ => rfl⟩
  | .quoted content :: rest, parsed, found =>
      rw [Tree.operand?] at found
      cases found
      exact ⟨.single (.literal content) rfl, yields_nil _, fun below _ => rfl⟩
  | .operator .negation :: rest, parsed, found =>
      rw [Tree.operand?] at found
      obtain ⟨operand, climbed, rfl⟩ := Option.map_eq_some_iff.mp found
      obtain ⟨⟨residue, yields, runs⟩, stops⟩ := climb?_leaves known _ _ _ climbed
      refine ⟨residue.negate, yields.negate stops, fun below _ => ?_⟩
      have inner := runs ⟨below.operands, .operator .negation :: below.pending⟩
        (blocks_negation _)
      rw [Setting.run]
      simpa [Setting.step, Residue.onto, Residue.negate] using inner
  | .opening :: rest, parsed, found =>
      rw [Tree.operand?] at found
      split at found
      · rename_i tree after shorter climbed
        cases found
        obtain ⟨⟨residue, -, runs⟩, -⟩ := climb?_leaves known _ _ _ climbed
        refine ⟨.single residue.result residue.reads, yields_nil _, fun below _ => ?_⟩
        have inner := runs ⟨below.operands, .parenthesis :: below.pending⟩ trivial
        rw [Setting.run]
        change setting.run rest ⟨below.operands, .parenthesis :: below.pending⟩ = _
        rw [inner, Setting.run, residue.step_closing]
        rfl
      · cases found
  | [], _, found => simp [Tree.operand?] at found
  | .operator (.binary _) :: _, _, found => simp [Tree.operand?] at found
  | .closing :: _, _, found => simp [Tree.operand?] at found
  | .faulty _ :: _, _, found => simp [Tree.operand?] at found
  | .endOfInput :: _, _, found => simp [Tree.operand?] at found
termination_by (tokens.length, 0)

theorem climb?_leaves
    (known : ∀ symbol, setting.read (.name symbol) =
      .ok ((Tree.name symbol).valueWith setting.complement names setting.mode))
    (rank : Nat) (tokens : List Token) (parsed : Tree.Parsed tokens)
    (found : Tree.climb? rank tokens = some parsed) :
    Leaves setting rank (parsed.1.1.valueWith setting.complement names setting.mode) tokens
        parsed.1.2 ∧
      Stops rank parsed.1.2 := by
  rw [Tree.climb?] at found
  obtain ⟨first, operand, rest⟩ := Option.bind_eq_some_iff.mp found
  obtain ⟨extended, extension, rfl⟩ := Option.map_eq_some_iff.mp rest
  obtain ⟨residue, yields, runs⟩ := operand?_leaves known _ _ operand
  have shorter := first.2
  obtain ⟨⟨whole, yieldsWhole, runsWhole⟩, stops⟩ :=
    extend?_leaves known _ _ _ _ extension (residue.widen (Nat.zero_le rank)) yields
  refine ⟨⟨whole, yieldsWhole, fun below blocks => ?_⟩, stops⟩
  rw [runs below (blocks_zero _)]
  exact runsWhole below blocks
termination_by (tokens.length, 1)

theorem extend?_leaves
    (known : ∀ symbol, setting.read (.name symbol) =
      .ok ((Tree.name symbol).valueWith setting.complement names setting.mode))
    (rank : Nat) (left : Tree) (tokens : List Token)
    (parsed : { parsed : Tree × List Token // parsed.2.length ≤ tokens.length })
    (found : Tree.extend? rank left tokens = some parsed)
    (residue : Residue setting rank (left.valueWith setting.complement names setting.mode))
    (yields : Yields residue.waiting tokens) :
    (∃ extended : Residue setting rank (parsed.1.1.valueWith setting.complement names setting.mode),
      Yields extended.waiting parsed.1.2 ∧
        ∀ below : Machine, Setting.Blocks rank below.pending →
          setting.run tokens (residue.onto below) =
            setting.run parsed.1.2 (extended.onto below)) ∧
      Stops rank parsed.1.2 := by
  unfold Tree.extend? at found
  split at found
  · rename_i op rest
    split at found
    · rename_i bound
      obtain ⟨right, climbed, remaining⟩ := Option.bind_eq_some_iff.mp found
      obtain ⟨extended, extension, rfl⟩ := Option.map_eq_some_iff.mp remaining
      have shorter := right.2
      obtain ⟨⟨side, yieldsSide, runsSide⟩, stopsSide⟩ := climb?_leaves known _ _ _ climbed
      obtain ⟨⟨whole, yieldsWhole, runsWhole⟩, stops⟩ :=
        extend?_leaves known _ _ _ _ extension (.join op bound residue.result residue.reads side)
          (yieldsSide.join stopsSide)
      refine ⟨⟨whole, yieldsWhole, fun below blocks => ?_⟩, stops⟩
      have after := runsSide ⟨residue.result :: below.operands,
        .operator (.binary op) :: below.pending⟩ (blocks_right op _)
      rw [← runsWhole below blocks, Setting.run,
        residue.step_binary yields (blocks.mono bound), Except.ok_bind, after]
      simp [Residue.onto, Residue.join]
    · rename_i loose
      cases found
      exact ⟨⟨residue, yields, fun below _ => rfl⟩, Nat.lt_of_not_le loose⟩
  · rename_i other
    cases found
    refine ⟨⟨residue, yields, fun below _ => rfl⟩, ?_⟩
    change Stops rank tokens
    unfold Stops
    split
    · exact (other _ _ rfl).elim
    · trivial
termination_by (tokens.length, 2)
decreasing_by
  all_goals
    subst_vars
    simp only [List.length_cons, Prod.lex_def]
    omega

end

end Climbing

/-- A list of tokens with a tree has the value of that tree. -/
theorem Setting.evaluate_of_parse? {names : Names} {setting : Setting}
    (known : ∀ symbol, setting.read (.name symbol) =
      .ok ((Tree.name symbol).valueWith setting.complement names setting.mode))
    {tokens : List Token} {tree : Tree} (parsed : Tree.parse? tokens = some tree) :
    setting.evaluate tokens = .ok (tree.valueWith setting.complement names setting.mode) := by
  rw [Tree.parse?] at parsed
  split at parsed
  · rename_i climbed
    cases parsed
    exact (climb?_leaves known _ _ _ climbed).1.evaluate
  · cases parsed

theorem Names.read_name (names : Names) (mode : Mode) {complement : Int → Int}
    (expression symbol : String) :
    Setting.read { scope := names.scope, mode, expression, complement } (.name symbol) =
      .ok ((Tree.name symbol).valueWith complement names mode) := by
  simp only [Setting.read, nameValue, Names.scope, Tree.valueWith]
  cases names symbol <;> rfl

/-- Evaluating with two stacks agrees with climbing over ranks where all options can be read, be it
with machine words or with whatever else negations make of numbers, such as exact integers. -/
theorem evaluate_eq_tree_value (names : Names) (mode : Mode) :
    (∀ expression tree, Tree.parse? (Token.tokenize expression) = some tree →
      evaluate names.scope mode expression = .ok (tree.value names mode) ∧
      ∀ complement : Int → Int,
        Setting.evaluate { scope := names.scope, mode, expression, complement }
          (Token.tokenize expression) = .ok (tree.valueWith complement names mode)) ∧
    (∀ a b, Tree.parse? [.operator .negation, .symbol a, .operator (.binary .equal), .symbol b] =
      some (.negation (.binary .equal (.name a) (.name b)))) ∧
    ∀ a b c, Tree.parse? [.symbol a, .operator (.binary .equal), .operator .negation, .symbol b,
        .operator (.binary .equal), .symbol c] =
      some (.binary .equal (.name a) (.negation (.binary .equal (.name b) (.name c)))) := by
  refine ⟨fun expression tree parsed => ?_, fun a b => ?_, fun a b c => ?_⟩
  · have values (complement : Int → Int) :=
      @Setting.evaluate_of_parse? names { scope := names.scope, mode, expression, complement }
        (names.read_name mode expression) _ _ parsed
    exact ⟨values Numeral.complement, values⟩
  · simp [Tree.parse?, Tree.climb?, Tree.operand?, Tree.extend?, BinaryOperator.rank,
      Operator.rank]
  · simp [Tree.parse?, Tree.climb?, Tree.operand?, Tree.extend?, BinaryOperator.rank,
      Operator.rank]

/-- A negation of an equality between an option and a text that stays a text. -/
theorem evaluate_negated_equality :
    let names : Names := fun symbol => if symbol = "A" then some (some (.text "m")) else none
    Tree.parse? (Token.tokenize "!A = B") =
        some (.negation (.binary .equal (.name "A") (.name "B"))) ∧
      evaluate names.scope .preserve "!A = B" = .ok (.number 2) := by
  intro names
  have parsed : Tree.parse? (Token.tokenize "!A = B") =
      some (.negation (.binary .equal (.name "A") (.name "B"))) := by cbv
  refine ⟨parsed, ?_⟩
  rw [((evaluate_eq_tree_value names .preserve).1 _ _ parsed).1]
  decide

end Expression
end OptionTree
