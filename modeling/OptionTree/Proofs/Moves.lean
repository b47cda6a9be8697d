import Mathlib.Logic.Relation
import OptionTree.Proofs.Reading

/-!
# Evaluations move by move

A token may have many operators applied before it is consumed.  `Moves` takes an evaluation apart
into single moves, each of which applies one operator or consumes one token, so that everything
that ever stands on the stacks can be told.  An evaluation with a value makes exactly the moves
that lead from its tokens to that value.
-/

namespace OptionTree
namespace Expression

/-- How far an evaluation has come. -/
structure Progress where
  /-- The tokens that are not consumed. -/
  ahead : List Token
  /-- The stacks. -/
  machine : Machine
  deriving DecidableEq, Repr

/-- Nothing is consumed and nothing waits. -/
def Progress.start (tokens : List Token) : Progress := ⟨tokens, ⟨[], []⟩⟩

/-- Everything is consumed and applied, and one operand is left. -/
def Progress.done (result : Operand) : Progress := ⟨[], ⟨[result], []⟩⟩

/-- Whether an operator that waits is applied before some tokens: at the end, in front of a closing
parenthesis, and in front of a binary operator that binds no more tightly. -/
def Due (op : Operator) : List Token → Prop
  | [] | .closing :: _ => True
  | .operator (.binary incoming) :: _ => op.rank ≤ incoming.rank
  | _ => False

/-- Whether the latest of what waits is not applied before some tokens. -/
def Settled (pending : List Pending) (ahead : List Token) : Prop :=
  ∀ op below, pending = .operator op :: below → ¬Due op ahead

namespace Setting

variable {setting : Setting}

/-- The moves of an evaluation. -/
inductive Moves (setting : Setting) : Progress → Progress → Prop
  /-- An operator that is due takes its operands and leaves its result. -/
  | application {ahead : List Token} {op : Operator} {operands applied : List Operand}
      {pending : List Pending} (due : Due op ahead)
      (applies : setting.apply op operands = .ok applied) :
      Moves setting ⟨ahead, ⟨operands, .operator op :: pending⟩⟩ ⟨ahead, ⟨applied, pending⟩⟩
  /-- A name or a text becomes an operand. -/
  | operand {token : Token} {ahead : List Token} {operand : Operand} {operands : List Operand}
      {pending : List Pending} (pushes : pushed? token = some operand) :
      Moves setting ⟨token :: ahead, ⟨operands, pending⟩⟩ ⟨ahead, ⟨operand :: operands, pending⟩⟩
  /-- An operator waits once no other one is due. -/
  | operator {op : Operator} {ahead : List Token} {operands : List Operand}
      {pending : List Pending} (settled : Settled pending (.operator op :: ahead)) :
      Moves setting ⟨.operator op :: ahead, ⟨operands, pending⟩⟩
        ⟨ahead, ⟨operands, .operator op :: pending⟩⟩
  /-- An opening parenthesis waits. -/
  | opening {ahead : List Token} {operands : List Operand} {pending : List Pending} :
      Moves setting ⟨.opening :: ahead, ⟨operands, pending⟩⟩
        ⟨ahead, ⟨operands, .parenthesis :: pending⟩⟩
  /-- A closing parenthesis takes its partner away. -/
  | closing {ahead : List Token} {operands : List Operand} {pending : List Pending} :
      Moves setting ⟨.closing :: ahead, ⟨operands, .parenthesis :: pending⟩⟩
        ⟨ahead, ⟨operands, pending⟩⟩

/-- What an evaluation comes to in any number of moves. -/
def Reaches (setting : Setting) : Progress → Progress → Prop :=
  Relation.ReflTransGen setting.Moves

theorem not_due_of_pushed {token : Token} {operand : Operand}
    (pushes : pushed? token = some operand) (op : Operator) (ahead : List Token) :
    ¬Due op (token :: ahead) := by
  cases token with
  | symbol name => exact id
  | quoted content => exact id
  | _ => cases pushes

/-- There is never a choice between two moves. -/
theorem Moves.unique {progress first second : Progress} (move : setting.Moves progress first)
    (other : setting.Moves progress second) : first = second := by
  cases move with
  | application due applies =>
      cases other with
      | application _ again =>
          obtain rfl := Except.ok.inj (applies.symm.trans again)
          rfl
      | operand pushes => exact absurd due (not_due_of_pushed pushes _ _)
      | operator settled => exact absurd due (settled _ _ rfl)
      | opening => cases due
  | operand pushes =>
      cases other with
      | application due _ => exact absurd due (not_due_of_pushed pushes _ _)
      | operand again =>
          obtain rfl := Option.some.inj (pushes.symm.trans again)
          rfl
      | operator _ => cases pushes
      | opening => cases pushes
      | closing => cases pushes
  | operator settled =>
      cases other with
      | application due _ => exact absurd due (settled _ _ rfl)
      | operand pushes => cases pushes
      | operator _ => rfl
  | opening =>
      cases other with
      | application due _ => cases due
      | operand pushes => cases pushes
      | opening => rfl
  | closing =>
      cases other with
      | operand pushes => cases pushes
      | closing => rfl

theorem reaches_of_reduce {op : BinaryOperator} {ahead : List Token} {pending : List Pending}
    {operands : List Operand} {machine : Machine}
    (reduced : setting.reduce op.rank pending operands = .ok machine) :
    setting.Reaches ⟨.operator (.binary op) :: ahead, ⟨operands, pending⟩⟩
        ⟨.operator (.binary op) :: ahead, machine⟩ ∧
      Settled machine.pending (.operator (.binary op) :: ahead) := by
  induction pending generalizing operands with
  | nil =>
      cases reduced
      exact ⟨.refl, fun _ _ => nofun⟩
  | cons item pending ih =>
      cases item with
      | parenthesis =>
          cases reduced
          exact ⟨.refl, fun _ _ => nofun⟩
      | operator waiting =>
          rw [reduce] at reduced
          split at reduced
          · rename_i due
            obtain ⟨applied, applies, rest⟩ := Except.bind_eq_ok_iff.mp reduced
            obtain ⟨reaches, settled⟩ := ih rest
            exact ⟨reaches.head (.application due applies), settled⟩
          · rename_i loose
            cases reduced
            refine ⟨.refl, fun op below same => ?_⟩
            cases same
            exact loose

theorem reaches_of_close {ahead : List Token} {pending : List Pending} {operands : List Operand}
    {machine : Machine} (closed : setting.close pending operands = .ok machine) :
    setting.Reaches ⟨.closing :: ahead, ⟨operands, pending⟩⟩ ⟨ahead, machine⟩ := by
  induction pending generalizing operands with
  | nil => cases closed
  | cons item pending ih =>
      cases item with
      | parenthesis =>
          cases closed
          exact .single .closing
      | operator op =>
          obtain ⟨applied, applies, rest⟩ := Except.bind_eq_ok_iff.mp closed
          exact (ih rest).head (.application trivial applies)

theorem reaches_of_finish {pending : List Pending} {operands left : List Operand}
    (finished : setting.finish pending operands = .ok left) :
    setting.Reaches ⟨[], ⟨operands, pending⟩⟩ ⟨[], ⟨left, []⟩⟩ := by
  induction pending generalizing operands with
  | nil =>
      cases finished
      exact .refl
  | cons item pending ih =>
      cases item with
      | parenthesis => cases finished
      | operator op =>
          obtain ⟨applied, applies, rest⟩ := Except.bind_eq_ok_iff.mp finished
          exact (ih rest).head (.application trivial applies)

theorem reaches_of_step {token : Token} {ahead : List Token} {machine next : Machine}
    (stepped : setting.step machine token = .ok next) :
    setting.Reaches ⟨token :: ahead, machine⟩ ⟨ahead, next⟩ := by
  cases token with
  | symbol name =>
      cases stepped
      exact .single (.operand rfl)
  | quoted content =>
      cases stepped
      exact .single (.operand rfl)
  | operator op =>
      cases op with
      | negation =>
          cases stepped
          exact .single (.operator fun _ _ _ => id)
      | binary op =>
          obtain ⟨reduced, reduction, rfl⟩ := Except.map_eq_ok_iff.mp stepped
          obtain ⟨reaches, settled⟩ := reaches_of_reduce reduction
          exact reaches.tail (.operator settled)
  | opening =>
      cases stepped
      exact .single .opening
  | closing => exact reaches_of_close stepped
  | faulty error => cases stepped
  | endOfInput => cases stepped

theorem reaches_of_run {tokens : List Token} {machine last : Machine}
    (ran : setting.run tokens machine = .ok last) :
    setting.Reaches ⟨tokens, machine⟩ ⟨[], last⟩ := by
  induction tokens generalizing machine with
  | nil =>
      cases ran
      exact .refl
  | cons token tokens ih =>
      obtain ⟨next, stepped, rest⟩ := Except.bind_eq_ok_iff.mp ran
      exact (reaches_of_step stepped).trans (ih rest)

/-- Some tokens have a value only if all moves from them lead to one operand with that value. -/
theorem exists_done_of_evaluate {tokens : List Token} {value : Value}
    (evaluated : setting.evaluate tokens = .ok value) :
    ∃ result, setting.read result = .ok value ∧
      setting.Reaches (.start tokens) (.done result) ∧
      ∀ reached, setting.Reaches (.start tokens) reached →
        setting.Reaches reached (.done result) := by
  obtain ⟨machine, ran, finished⟩ := Except.bind_eq_ok_iff.mp evaluated
  obtain ⟨left, finished, answered⟩ := Except.bind_eq_ok_iff.mp finished
  have path := (reaches_of_run ran).trans (reaches_of_finish finished)
  match left, answered with
  | [result], reads =>
      refine ⟨result, reads, path, fun reached between => ?_⟩
      have choiceless : Relator.RightUnique setting.Moves := fun _ _ _ => Moves.unique
      rcases between.total_of_right_unique choiceless path with leads | beyond
      · exact leads
      · -- No move leads on from the end.
        rcases Relation.ReflTransGen.cases_head beyond with same | ⟨next, move, -⟩
        · exact same ▸ .refl
        · cases move
  | [], answered => cases answered
  | _ :: _ :: _, answered => cases answered

end Setting
end Expression
end OptionTree
