import Mathlib.Data.List.Forall2
import OptionTree.Proofs.Outcome
import OptionTree.Expression.Evaluate

/-!
# What an expression reads

An evaluation reads the names among its tokens and no others, and it succeeds only if all of them
can be read: a name stays on the stack until an operator or the end takes it.
-/

namespace OptionTree
namespace Expression

namespace Pending

/-- The operator that waits. -/
def operator? : Pending → Option Operator
  | operator op => some op
  | parenthesis => none

/-- The operators among what waits. -/
def operators (pending : List Pending) : List Operator := pending.filterMap operator?

/-- How many open parentheses wait. -/
def parentheses (pending : List Pending) : Nat := pending.count .parenthesis

@[simp]
theorem operators_operator (op : Operator) (pending : List Pending) :
    operators (operator op :: pending) = op :: operators pending := rfl

@[simp]
theorem operators_parenthesis (pending : List Pending) :
    operators (parenthesis :: pending) = operators pending := rfl

@[simp]
theorem parentheses_operator (op : Operator) (pending : List Pending) :
    parentheses (operator op :: pending) = parentheses pending :=
  List.count_cons_of_ne (by simp)

@[simp]
theorem parentheses_parenthesis (pending : List Pending) :
    parentheses (parenthesis :: pending) = parentheses pending + 1 :=
  List.count_cons_self

end Pending

namespace Setting

theorem apply_eq_ok {setting : Setting} {op : Operator} {operands applied : List Operand}
    (application : setting.apply op operands = .ok applied) :
    (∃ operand rest value, op = .negation ∧ operands = operand :: rest ∧
      setting.read operand = .ok value ∧
        applied = .result (setting.complement value.magnitude) :: rest) ∨
    ∃ sort second first rest left right, op = .binary sort ∧ operands = second :: first :: rest ∧
      setting.read first = .ok left ∧ setting.read second = .ok right ∧
        applied = .result (sort.combine left right) :: rest := by
  rcases op with _ | sort
  · rcases operands with _ | ⟨operand, rest⟩
    · cases application
    · obtain ⟨value, read, rest⟩ := Except.bind_eq_ok_iff.mp application
      cases rest
      exact .inl ⟨_, _, value, rfl, rfl, read, rfl⟩
  · rcases operands with _ | ⟨second, _ | ⟨first, rest⟩⟩
    · cases application
    · cases application
    · obtain ⟨left, readLeft, rest⟩ := Except.bind_eq_ok_iff.mp application
      obtain ⟨right, readRight, rest⟩ := Except.bind_eq_ok_iff.mp rest
      cases rest
      exact .inr ⟨sort, _, _, _, left, right, rfl, rfl, readLeft, readRight, rfl⟩

/-- Whether a property of the operands and of the operators that wait is kept when the latest of
these is applied. -/
def Consumes (setting : Setting) (property : List Operand → List Operator → Prop) : Prop :=
  ∀ op waiting operands applied, property operands (op :: waiting) →
    setting.apply op operands = .ok applied → property applied waiting

namespace Consumes

variable {setting : Setting} {property : List Operand → List Operator → Prop}
  (consumes : setting.Consumes property)
include consumes

theorem reduce {rank : Nat} {pending : List Pending} {operands : List Operand} {machine : Machine}
    (holds : property operands (Pending.operators pending))
    (reduced : setting.reduce rank pending operands = .ok machine) :
    property machine.operands (Pending.operators machine.pending) ∧
      Pending.parentheses machine.pending = Pending.parentheses pending := by
  induction pending generalizing operands with
  | nil =>
      cases reduced
      exact ⟨holds, rfl⟩
  | cons item pending ih =>
      cases item with
      | parenthesis =>
          cases reduced
          exact ⟨holds, rfl⟩
      | operator op =>
          rw [Setting.reduce] at reduced
          split at reduced
          · obtain ⟨applied, application, rest⟩ := Except.bind_eq_ok_iff.mp reduced
            rw [Pending.parentheses_operator]
            exact ih (consumes op _ operands applied holds application) rest
          · cases reduced
            exact ⟨holds, rfl⟩

theorem close {pending : List Pending} {operands : List Operand} {machine : Machine}
    (holds : property operands (Pending.operators pending))
    (closed : setting.close pending operands = .ok machine) :
    property machine.operands (Pending.operators machine.pending) ∧
      Pending.parentheses pending = Pending.parentheses machine.pending + 1 := by
  induction pending generalizing operands with
  | nil => cases closed
  | cons item pending ih =>
      cases item with
      | parenthesis =>
          cases closed
          exact ⟨holds, Pending.parentheses_parenthesis pending⟩
      | operator op =>
          obtain ⟨applied, application, rest⟩ := Except.bind_eq_ok_iff.mp closed
          rw [Pending.parentheses_operator]
          exact ih (consumes op _ operands applied holds application) rest

theorem finish {pending : List Pending} {operands left : List Operand}
    (holds : property operands (Pending.operators pending))
    (finished : setting.finish pending operands = .ok left) :
    property left [] ∧ Pending.parentheses pending = 0 := by
  induction pending generalizing operands with
  | nil =>
      cases finished
      exact ⟨holds, rfl⟩
  | cons item pending ih =>
      cases item with
      | parenthesis => cases finished
      | operator op =>
          obtain ⟨applied, application, rest⟩ := Except.bind_eq_ok_iff.mp finished
          rw [Pending.parentheses_operator]
          exact ih (consumes op _ operands applied holds application) rest

end Consumes

/-- Whether a property of the operands survives the application of operators. -/
def Stable (setting : Setting) (property : List Operand → Prop) : Prop :=
  ∀ op operands applied, property operands → setting.apply op operands = .ok applied →
    property applied

/-- The operand that a token puts on the stack. -/
def pushed? : Token → Option Operand
  | .symbol name => some (.name name)
  | .quoted content => some (.literal content)
  | _ => none

namespace Stable

variable {setting : Setting} {property : List Operand → Prop}

theorem consumes (stable : setting.Stable property) :
    setting.Consumes fun operands _ => property operands :=
  fun op _ operands applied => stable op operands applied

theorem step (stable : setting.Stable property) {token : Token} {machine next : Machine}
    (push : ∀ operand ∈ pushed? token, property machine.operands →
      property (operand :: machine.operands))
    (holds : property machine.operands) (stepped : setting.step machine token = .ok next) :
    property next.operands := by
  cases token with
  | symbol name =>
      cases stepped
      exact push _ rfl holds
  | quoted content =>
      cases stepped
      exact push _ rfl holds
  | operator op =>
      rcases op with _ | op
      · cases stepped
        exact holds
      · obtain ⟨reduced, reduction, rfl⟩ := Except.map_eq_ok_iff.mp stepped
        exact (stable.consumes.reduce holds reduction).1
  | opening =>
      cases stepped
      exact holds
  | closing => exact (stable.consumes.close holds stepped).1
  | faulty error => cases stepped
  | endOfInput => cases stepped

theorem run (stable : setting.Stable property) {tokens : List Token} {machine last : Machine}
    (push : ∀ token ∈ tokens, ∀ operand ∈ pushed? token, ∀ operands, property operands →
      property (operand :: operands))
    (holds : property machine.operands) (ran : setting.run tokens machine = .ok last) :
    property last.operands := by
  induction tokens generalizing machine with
  | nil =>
      cases ran
      exact holds
  | cons token tokens ih =>
      obtain ⟨next, stepped, rest⟩ := Except.bind_eq_ok_iff.mp ran
      refine ih (fun other member => push other (by simp [member])) ?_ rest
      exact stable.step (fun operand member => push token (by simp) operand member _) holds stepped

end Stable

/-- An operand that cannot be read stays where it is. -/
theorem stable_of_unreadable {setting : Setting} {operand : Operand} {cause : Error}
    (unreadable : setting.read operand = .error cause) : setting.Stable (operand ∈ ·) := by
  intro op operands applied member application
  rcases apply_eq_ok application with ⟨first, rest, value, rfl, rfl, read, rfl⟩ |
    ⟨sort, second, first, rest, left, right, rfl, rfl, readLeft, readRight, rfl⟩
  · rcases List.mem_cons.mp member with rfl | inside
    · cases unreadable.symm.trans read
    · exact List.mem_cons_of_mem _ inside
  · rcases List.mem_cons.mp member with rfl | inside
    · cases unreadable.symm.trans readRight
    rcases List.mem_cons.mp inside with rfl | inside
    · cases unreadable.symm.trans readLeft
    · exact List.mem_cons_of_mem _ inside

theorem answer_ne_ok_of_unreadable {setting : Setting} {operand : Operand} {cause : Error}
    (unreadable : setting.read operand = .error cause) {operands : List Operand}
    (member : operand ∈ operands) (value : Value) : setting.answer operands ≠ .ok value := by
  intro answered
  rcases operands with _ | ⟨first, _ | ⟨second, rest⟩⟩
  · cases member
  · obtain rfl := List.mem_singleton.mp member
    cases unreadable.symm.trans answered
  · cases answered

/-- A successful evaluation can read every name among its tokens. -/
theorem read_of_evaluate {setting : Setting} {tokens : List Token} {value : Value}
    (evaluated : setting.evaluate tokens = .ok value) {symbol : String}
    (member : .symbol symbol ∈ tokens) : ∃ reading, setting.read (.name symbol) = .ok reading := by
  cases read : setting.read (.name symbol) with
  | ok reading => exact ⟨reading, rfl⟩
  | error cause =>
      have stable := stable_of_unreadable read
      have push : ∀ (operand : Operand) (operands : List Operand), Operand.name symbol ∈ operands →
          Operand.name symbol ∈ operand :: operands := fun _ _ => List.mem_cons_of_mem _
      obtain ⟨machine, ran, finished⟩ := Except.bind_eq_ok_iff.mp evaluated
      obtain ⟨left, finished, answered⟩ := Except.bind_eq_ok_iff.mp finished
      obtain ⟨before, after, rfl⟩ := List.append_of_mem member
      rw [run_append] at ran
      obtain ⟨reached, -, ran⟩ := Except.bind_eq_ok_iff.mp ran
      obtain ⟨next, stepped, ran⟩ := Except.bind_eq_ok_iff.mp ran
      have onStack : Operand.name symbol ∈ next.operands := by
        cases stepped
        exact List.mem_cons_self
      have ended := stable.run (fun _ _ operand _ => push operand) onStack ran
      have atEnd := (stable.consumes.finish ended finished).1
      exact absurd answered (answer_ne_ok_of_unreadable read atEnd value)

/-! ## Settings that read alike -/

/-- Whether an operator makes related results of related values in two settings. -/
def Respects (first second : Setting) (related : Value → Value → Prop) : Operator → Prop
  | .negation => ∀ value other, related value other →
      related (.number (first.complement value.magnitude))
        (.number (second.complement other.magnitude))
  | .binary op => ∀ left other, related left other → ∀ right another, related right another →
      related (.number (op.combine left right)) (.number (op.combine other another))

/-- Whether an operator cannot tell related values apart. -/
def Blind (related : Value → Value → Prop) : Operator → Prop
  | .negation => ∀ first second, related first second → first.magnitude = second.magnitude
  | .binary op => ∀ left other, related left other → ∀ right another, related right another →
      op.combine left right = op.combine other another

theorem blind_eq (op : Operator) : Blind Eq op := by
  cases op with
  | negation =>
      rintro value _ rfl
      rfl
  | binary op =>
      rintro left _ rfl right _ rfl
      rfl

theorem Blind.respects {first second : Setting} (complement : first.complement = second.complement)
    {related : Value → Value → Prop} (reflexive : ∀ value, related value value)
    {op : Operator} (blind : Blind related op) : Respects first second related op := by
  cases op with
  | negation =>
      intro value other alike
      rw [blind value other alike, complement]
      exact reflexive _
  | binary op =>
      intro left other alike right another alikeRight
      rw [blind left other alike right another alikeRight]
      exact reflexive _

section Alike

variable (cut : Error → Prop) (related : Value → Value → Prop) (first second : Setting)

/-- Whether two settings read the operands of two stacks alike, each with its counterpart. -/
def Reads : List Operand → List Operand → Prop :=
  List.Forall₂ fun operand other => (first.read operand).Alike cut related (second.read other)

/-- Whether the same operators wait on two machines, all of which keep values related, and two
settings read the operands of these alike. -/
structure Matches (machine other : Machine) : Prop where
  /-- The same operators and parentheses wait. -/
  same : machine.pending = other.pending
  /-- The operands are read alike. -/
  reads : Reads cut related first second machine.operands other.operands
  /-- The operators that wait keep values related. -/
  respects : ∀ op ∈ Pending.operators machine.pending, Respects first second related op

variable {cut : Error → Prop} {related : Value → Value → Prop} {first second : Setting}
  (expression : first.expression = second.expression)
include expression

theorem apply_alike {op : Operator} (respects : Respects first second related op)
    {operands others : List Operand} (reads : Reads cut related first second operands others) :
    (first.apply op operands).Alike cut (Reads cut related first second)
      (second.apply op others) := by
  have failed : (.error (first.evaluationError (.missingOperand op)) :
      Except Error (List Operand)).Alike cut (Reads cut related first second)
        (.error (second.evaluationError (.missingOperand op))) :=
    .inr (by simp [evaluationError, expression])
  rcases op with _ | sort
  · cases reads with
    | nil => exact failed
    | cons own behind => exact own.bind fun _ _ alike => .cons (respects _ _ alike) behind
  · cases reads with
    | nil => exact failed
    | cons right reads =>
        cases reads with
        | nil => exact failed
        | cons left behind =>
            exact left.bind fun _ _ alike => right.bind fun _ _ alikeRight =>
              .cons (respects _ _ alike _ _ alikeRight) behind

theorem reduce_alike (rank : Nat) {pending : List Pending}
    (respects : ∀ op ∈ Pending.operators pending, Respects first second related op)
    {operands others : List Operand} (reads : Reads cut related first second operands others) :
    (first.reduce rank pending operands).Alike cut (Matches cut related first second)
      (second.reduce rank pending others) := by
  induction pending generalizing operands others with
  | nil => exact ⟨rfl, reads, respects⟩
  | cons item pending ih =>
      cases item with
      | parenthesis => exact ⟨rfl, reads, respects⟩
      | operator op =>
          obtain ⟨own, behind⟩ := List.forall_mem_cons.mp respects
          rw [reduce, reduce]
          split
          · exact (apply_alike expression own reads).bind fun _ _ reads => ih behind reads
          · exact ⟨rfl, reads, respects⟩

theorem close_alike {pending : List Pending}
    (respects : ∀ op ∈ Pending.operators pending, Respects first second related op)
    {operands others : List Operand} (reads : Reads cut related first second operands others) :
    (first.close pending operands).Alike cut (Matches cut related first second)
      (second.close pending others) := by
  induction pending generalizing operands others with
  | nil => exact .inr (by simp [close, parseError, expression])
  | cons item pending ih =>
      cases item with
      | parenthesis => exact ⟨rfl, reads, respects⟩
      | operator op =>
          obtain ⟨own, behind⟩ := List.forall_mem_cons.mp respects
          exact (apply_alike expression own reads).bind fun _ _ reads => ih behind reads

theorem finish_alike {pending : List Pending}
    (respects : ∀ op ∈ Pending.operators pending, Respects first second related op)
    {operands others : List Operand} (reads : Reads cut related first second operands others) :
    (first.finish pending operands).Alike cut (Reads cut related first second)
      (second.finish pending others) := by
  induction pending generalizing operands others with
  | nil => exact reads
  | cons item pending ih =>
      cases item with
      | parenthesis => exact .inr (by simp [finish, parseError, expression])
      | operator op =>
          obtain ⟨own, behind⟩ := List.forall_mem_cons.mp respects
          exact (apply_alike expression own reads).bind fun _ _ reads => ih behind reads

theorem step_alike {token : Token}
    (respects : ∀ op, token = .operator op → Respects first second related op)
    (pushes : ∀ operand ∈ pushed? token,
      (first.read operand).Alike cut related (second.read operand))
    {machine other : Machine} (alike : Matches cut related first second machine other) :
    (first.step machine token).Alike cut (Matches cut related first second)
      (second.step other token) := by
  obtain ⟨operands, pending⟩ := machine
  obtain ⟨others, _⟩ := other
  obtain ⟨rfl, reads, waiting⟩ := alike
  cases token with
  | symbol name => exact ⟨rfl, .cons (pushes _ rfl) reads, waiting⟩
  | quoted content => exact ⟨rfl, .cons (pushes _ rfl) reads, waiting⟩
  | operator op =>
      cases op with
      | negation => exact ⟨rfl, reads, List.forall_mem_cons.mpr ⟨respects _ rfl, waiting⟩⟩
      | binary op =>
          refine (reduce_alike expression op.rank waiting reads).map ?_
          rintro reduced other ⟨same, reads, waiting⟩
          exact ⟨congrArg (List.cons _) same, reads,
            List.forall_mem_cons.mpr ⟨respects _ rfl, waiting⟩⟩
  | opening => exact ⟨rfl, reads, waiting⟩
  | closing => exact close_alike expression waiting reads
  | faulty error => exact .inr (by simp [step, parseError, expression])
  | endOfInput => exact .inr (by simp [step, evaluationError, expression])

theorem run_alike {tokens : List Token}
    (respects : ∀ op, .operator op ∈ tokens → Respects first second related op)
    (pushes : ∀ token ∈ tokens, ∀ operand ∈ pushed? token,
      (first.read operand).Alike cut related (second.read operand))
    {machine other : Machine} (alike : Matches cut related first second machine other) :
    (first.run tokens machine).Alike cut (Matches cut related first second)
      (second.run tokens other) := by
  induction tokens generalizing machine other with
  | nil => exact alike
  | cons token tokens ih =>
      obtain ⟨own, behind⟩ := List.forall_mem_cons.mp pushes
      have stepped := step_alike expression
        (fun op same => respects op (same ▸ List.mem_cons_self)) own alike
      exact stepped.bind fun _ _ alike =>
        ih (fun op member => respects op (List.mem_cons_of_mem _ member)) behind alike

/-- Evaluations of the same tokens are alike if their names and texts are read alike and all
operators among them keep values related. -/
theorem evaluate_related {tokens : List Token}
    (respects : ∀ op, .operator op ∈ tokens → Respects first second related op)
    (pushes : ∀ token ∈ tokens, ∀ operand ∈ pushed? token,
      (first.read operand).Alike cut related (second.read operand)) :
    (first.evaluate tokens).Alike cut related (second.evaluate tokens) := by
  have start : Matches cut related first second ⟨[], []⟩ ⟨[], []⟩ := ⟨rfl, .nil, fun _ => nofun⟩
  refine (run_alike expression respects pushes start).bind ?_
  rintro machine other ⟨same, reads, waiting⟩
  rw [← same]
  refine (finish_alike expression waiting reads).bind fun operands others reads => ?_
  match operands, others, reads with
  | [], [], _ => exact .inr (by simp [answer, evaluationError, expression])
  | [_], [_], .cons own _ => exact own
  | _ :: _ :: _, _ :: _ :: _, .cons _ (.cons _ behind) =>
      exact .inr (by simp [answer, evaluationError, expression, behind.length_eq])

theorem evaluate_alike {tokens : List Token} (reflexive : ∀ value, related value value)
    (mode : first.mode = second.mode) (complement : first.complement = second.complement)
    (blind : ∀ op, .operator op ∈ tokens → Blind related op)
    (reads : ∀ symbol, .symbol symbol ∈ tokens →
      (first.read (.name symbol)).Alike cut related (second.read (.name symbol))) :
    (first.evaluate tokens).Alike cut related (second.evaluate tokens) := by
  refine evaluate_related expression
    (fun op member => (blind op member).respects complement reflexive) ?_
  intro token member operand pushed
  cases token with
  | symbol name =>
      cases pushed
      exact reads name member
  | quoted content =>
      cases pushed
      rw [read, read, mode]
      exact reflexive _
  | _ => cases pushed

end Alike

theorem evaluate_congr {first second : Setting} (same : first.expression = second.expression)
    (complement : first.complement = second.complement) {tokens : List Token}
    (mode : first.mode = second.mode)
    (reads : ∀ symbol, .symbol symbol ∈ tokens →
      first.read (.name symbol) = second.read (.name symbol)) :
    first.evaluate tokens = second.evaluate tokens :=
  Except.alike_eq_iff.mp <| evaluate_alike same (fun _ => rfl) mode complement
    (fun op _ => blind_eq op) fun symbol member => .of_eq (reads symbol member)

end Setting

theorem evaluate_alike {cut : Error → Prop} {related : Value → Value → Prop}
    (reflexive : ∀ value, related value value) {first second : Scope} {mode : Mode}
    {expression : String}
    (blind : ∀ op, .operator op ∈ Token.tokenize expression → Setting.Blind related op)
    (reads : ∀ symbol ∈ Token.symbols expression,
      (nameValue first mode symbol).Alike cut related (nameValue second mode symbol)) :
    (evaluate first mode expression).Alike cut related (evaluate second mode expression) := by
  apply Setting.evaluate_alike
  · rfl
  · exact reflexive
  · rfl
  · rfl
  · exact blind
  · exact fun symbol member => reads symbol (Token.mem_symbols.mpr member)

/-- Two scopes that agree on the names in an expression give it the same outcome. -/
theorem evaluate_congr {first second : Scope} {expression : String}
    (agree : ∀ symbol ∈ Token.symbols expression, first symbol = second symbol) (mode : Mode) :
    evaluate first mode expression = evaluate second mode expression := by
  apply Setting.evaluate_congr
  · rfl
  · rfl
  · rfl
  · intro symbol member
    simp only [Setting.read, nameValue, agree symbol (Token.mem_symbols.mpr member)]

theorem scope_of_evaluate {scope : Scope} {mode : Mode} {expression : String} {value : Value}
    (evaluated : evaluate scope mode expression = .ok value) {symbol : String}
    (member : symbol ∈ Token.symbols expression) (cause : Error) :
    scope symbol ≠ some (.error cause) := by
  intro failing
  obtain ⟨reading, read⟩ := Setting.read_of_evaluate evaluated (Token.mem_symbols.mp member)
  simp [Setting.read, nameValue, failing] at read

end Expression
end OptionTree
