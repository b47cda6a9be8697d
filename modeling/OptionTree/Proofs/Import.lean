import OptionTree.Proofs.AssignmentLines
import OptionTree.Proofs.Cascade

/-!
# Imports as settings

An import that comes to its end sets the entries of its assignments one after the other.  If the
first failure stops it, there is none, and every assignment is counted.
-/

namespace OptionTree
namespace Model

/-- What an assignment sets: the entry of its symbol, to what its text denotes there. -/
def target? (model : Model) (assignment : String × String) : Option (EntryId × Value) :=
  (model.lookup assignment.1).bind fun id =>
    match OptionType.read assignment.2 ((model.get? id).bind fun entry => entry.type) with
    | .ok value => some (id, value)
    | .error _ => none

theorem target?_of_bare {first second : Model} (same : first.bare = second.bare)
    (assignment : String × String) : first.target? assignment = second.target? assignment := by
  simp only [target?, lookup_of_bare same, type_of_bare same]

theorem model_assign (model : Model) (assignment : Assignment) :
    (model.assign assignment).model =
      setAll (model.target? assignment.content).toList model := by
  have content : assignment.content = (assignment.symbol, assignment.raw) := rfl
  rw [assign]
  rw [target?, content]
  cases model.lookup assignment.symbol with
  | none => rfl
  | some id =>
      simp only [Option.bind_some]
      cases OptionType.read assignment.raw ((model.get? id).bind fun entry => entry.type) with
      | error cause => rfl
      | ok value =>
          cases ended : (model.set id value).outcome with
          | error cause => exact Run.model_andThen_error ended _
          | ok done => exact Run.model_andThen ended _

theorem bare_assign (model : Model) (assignment : Assignment) :
    (model.assign assignment).model.bare = model.bare := by
  rw [model_assign, bare_setAll]

theorem options_assign (model : Model) (assignment : Assignment) :
    (model.assign assignment).model.options = model.options :=
  @assign_related (fun first second => second.options = first.options) (fun _ => rfl)
    (fun _ _ _ first second => second.trans first) (fun _ _ _ => rfl) assignment model

theorem settle_eq_ok {policy : ImportPolicy} {report next : ImportReport}
    {assignment : Assignment} {outcome : Except Error Bool}
    (settled : settle policy report assignment outcome = .ok next) :
    next = report.record assignment outcome := by
  cases outcome with
  | ok declared => exact (Except.ok.inj settled).symm
  | error error =>
      rw [settle] at settled
      split at settled
      · exact (Except.ok.inj settled).symm
      · cases settled

theorem settle_ok (policy : ImportPolicy) (report : ImportReport) (assignment : Assignment)
    (declared : Bool) :
    settle policy report assignment (.ok declared) =
      .ok (report.record assignment (.ok declared)) := rfl

theorem assignAll_cons_of_ok {assignment : Assignment} {model : Model} {declared : Bool}
    (assigned : (model.assign assignment).outcome = .ok declared) (report : ImportReport)
    (rest : List Assignment) :
    let later := assignAll (report.record assignment (.ok declared)) rest
      (model.assign assignment).model
    (assignAll report (assignment :: rest) model).outcome = later.outcome ∧
      (assignAll report (assignment :: rest) model).model = later.model := by
  simp only [assignAll, assigned, settle_ok, Run.andThen, and_self]

/-- An import goes on behind an assignment with the report about it. -/
theorem assignAll_cons {report result : ImportReport} {assignment : Assignment}
    {rest : List Assignment} {model : Model}
    (ended : (assignAll report (assignment :: rest) model).outcome = .ok result) :
    (assignAll (report.record assignment (model.assign assignment).outcome) rest
        (model.assign assignment).model).outcome = .ok result ∧
      (assignAll report (assignment :: rest) model).model =
        (assignAll (report.record assignment (model.assign assignment).outcome) rest
          (model.assign assignment).model).model := by
  obtain ⟨next, settled, later⟩ := Run.andThen_eq_ok_iff.mp ended
  have recorded := settle_eq_ok settled
  subst recorded
  refine ⟨later, ?_⟩
  rw [assignAll]
  exact Run.model_andThen settled _

/-- An import that comes to its end sets what its assignments say. -/
theorem model_assignAll {report result : ImportReport} {assignments : List Assignment}
    {model : Model} (ended : (assignAll report assignments model).outcome = .ok result) :
    (assignAll report assignments model).model =
      setAll (assignments.filterMap fun assignment => model.target? assignment.content) model := by
  induction assignments generalizing report model with
  | nil => rfl
  | cons assignment rest ih =>
      obtain ⟨later, left⟩ := assignAll_cons ended
      have targets : (rest.filterMap fun other =>
          (model.assign assignment).model.target? other.content) =
            rest.filterMap fun other => model.target? other.content :=
        List.filterMap_congr fun other _ => target?_of_bare (bare_assign model assignment) _
      rw [left, ih later, targets, model_assign, List.filterMap_cons]
      cases model.target? assignment.content with
      | none => rfl
      | some setting => rfl

theorem assign_eq_ok {model : Model} {assignment : Assignment}
    (known : (model.lookup assignment.symbol).isSome) {declared : Bool}
    (ended : (model.assign assignment).outcome = .ok declared) :
    declared = true ∧ (model.target? assignment.content).isSome := by
  obtain ⟨id, known⟩ := Option.isSome_iff_exists.mp known
  rw [assign] at ended
  simp only [known] at ended
  split at ended
  · cases ended
  · rename_i value read
    obtain ⟨_, -, told⟩ := Run.andThen_eq_ok_iff.mp ended
    refine ⟨(Except.ok.inj told).symm, ?_⟩
    simp [target?, Assignment.content, known, read]

theorem exists_of_applied {report result : ImportReport} {assignments : List Assignment}
    {model : Model} (ended : (assignAll report assignments model).outcome = .ok result)
    (more : report.applied < result.applied) :
    ∃ assignment ∈ assignments, (model.target? assignment.content).isSome := by
  induction assignments generalizing report model with
  | nil =>
      obtain rfl := Except.ok.inj ended
      exact absurd more (Nat.lt_irrefl _)
  | cons assignment rest ih =>
      have behind : report.applied =
          (report.record assignment (model.assign assignment).outcome).applied →
            ∃ other ∈ assignment :: rest, (model.target? other.content).isSome := by
        intro same
        obtain ⟨other, member, sets⟩ := ih (assignAll_cons ended).1 (same ▸ more)
        rw [target?_of_bare (bare_assign model assignment)] at sets
        exact ⟨other, List.mem_cons_of_mem _ member, sets⟩
      cases known : model.lookup assignment.symbol with
      | none =>
          refine behind ?_
          rw [assign, known]
          rfl
      | some id =>
          cases outcome : (model.assign assignment).outcome with
          | error cause => exact behind (by rw [outcome]; rfl)
          | ok declared =>
              have declares : (model.lookup assignment.symbol).isSome := by rw [known]; rfl
              exact ⟨assignment, List.mem_cons_self, (assign_eq_ok declares outcome).2⟩

theorem model_assignAll_singleton (report : ImportReport) (assignment : Assignment)
    (model : Model) :
    (assignAll report [assignment] model).model = (model.assign assignment).model := by
  rw [assignAll, Run.andThen]
  split <;> rfl

theorem applied_eq_one_iff {assignment : Assignment} {model : Model} :
    (∃ report, (assignAll {} [assignment] model).outcome = .ok report ∧ report.applied = 1) ↔
      (model.assign assignment).outcome = .ok true := by
  constructor
  · rintro ⟨report, ended, applied⟩
    obtain rfl := Except.ok.inj (assignAll_cons ended).1
    rcases outcome : (model.assign assignment).outcome with cause | (_ | _)
    · rw [outcome] at applied
      cases applied
    · rw [outcome] at applied
      cases applied
    · rfl
  · intro assigned
    exact ⟨_, (assignAll_cons_of_ok assigned {} []).1, rfl⟩

/-- If failures stop an import, one of declared symbols that comes to its end applies all of its
assignments. -/
theorem report_of_import {report result : ImportReport} {assignments : List Assignment}
    {model : Model} (abort : model.options.importPolicy = .abort)
    (known : ∀ assignment ∈ assignments, (model.lookup assignment.symbol).isSome)
    (ended : (assignAll report assignments model).outcome = .ok result) :
    result.applied = report.applied + assignments.length ∧ result.unknown = report.unknown ∧
      ∀ assignment ∈ assignments, (model.target? assignment.content).isSome := by
  induction assignments generalizing report model with
  | nil =>
      obtain rfl := Except.ok.inj ended
      exact ⟨rfl, rfl, nofun⟩
  | cons assignment rest ih =>
      have bare := bare_assign model assignment
      have later := (assignAll_cons ended).1
      cases outcome : (model.assign assignment).outcome with
      | error cause =>
          -- A failure would have stopped the import.
          obtain ⟨next, settled, -⟩ := Run.andThen_eq_ok_iff.mp ended
          simp [settle, abort, outcome] at settled
      | ok declared =>
          obtain ⟨rfl, own⟩ := assign_eq_ok (known assignment List.mem_cons_self) outcome
          rw [outcome] at later
          have others : ∀ other ∈ rest,
              ((model.assign assignment).model.lookup other.symbol).isSome := by
            intro other member
            rw [lookup_of_bare bare]
            exact known other (List.mem_cons_of_mem _ member)
          rw [← options_assign model assignment] at abort
          obtain ⟨applied, unknown, behind⟩ := ih abort others later
          refine ⟨?_, unknown, ?_⟩
          · rw [applied]
            simp only [ImportReport.record, List.length_cons]
            omega
          · intro other member
            rcases List.mem_cons.mp member with rfl | inside
            · exact own
            · rw [← target?_of_bare bare]
              exact behind other inside

end Model
end OptionTree
