import OptionTree.Proofs.Policies
import OptionTree.Proofs.Termination

/-!
# Failing lines

An import that skips failing lines accounts for every line that assigns something, if it comes to
its end; what keeps it from that is no failure, but a line whose effects never come to an end.  As
long as no line fails, an import that stops at failures does the same, and when a line fails it has
done what skipping does up to and including that line.
-/

namespace OptionTree

namespace Text

theorem exists_fields_eq_take (separates : Char → Bool) (text : List Char) (count : Nat) :
    ∃ head tail, text = head ++ tail ∧
      fields separates head = (fields separates text).take (count + 1) := by
  induction text generalizing count with
  | nil => exact ⟨[], [], rfl, by simp [fields]⟩
  | cons c rest ih =>
      by_cases mark : separates c = true
      · cases count with
        | zero => exact ⟨[], c :: rest, rfl, by simp [fields, mark]⟩
        | succ count =>
            obtain ⟨head, tail, rfl, same⟩ := ih count
            exact ⟨c :: head, tail, rfl, by simp [fields, mark, same]⟩
      · obtain ⟨head, tail, split, same⟩ := ih count
        refine ⟨c :: head, tail, by rw [split, List.cons_append], ?_⟩
        rw [fields, fields, if_neg mark, if_neg mark, same]
        cases fields separates rest <;> rfl

end Text

namespace Assignment

/-- Whether a line assigns something: but for the white space at its end, it consists of the mark, a
word, an equals sign and any text. -/
def Assigns (line : List Char) : Prop :=
  ∃ assignment : String × String, IsWord assignment.1 ∧ Text.trimEnd line = lineOf assignment

theorem assigns_iff (line : List Char) : Assigns line ↔ (parts? line).isSome := by
  constructor
  · rintro ⟨assignment, word, same⟩
    have trimmed : parts? line = parts? (Text.trimEnd line) := by
      simp only [parts?, Text.trimEnd_trimEnd]
    rw [trimmed, same, parts?_lineOf word]
    rfl
  · intro found
    obtain ⟨⟨symbol, raw⟩, found⟩ := Option.isSome_iff_exists.mp found
    obtain ⟨same, word⟩ := eq_of_parts? found
    exact ⟨_, word, same⟩

instance (line : List Char) : Decidable (Assigns line) :=
  decidable_of_iff _ (assigns_iff line).symm

theorem length_ofLines (number : Nat) (lines : List (List Char)) :
    (ofLines number lines).length = lines.countP fun line => Assigns line := by
  induction lines generalizing number with
  | nil => rfl
  | cons line rest ih =>
      rw [ofLines, List.countP_cons]
      cases found : parts? line with
      | none => simp [ih, assigns_iff, found]
      | some parts => simp [ih, assigns_iff, found]

theorem le_of_mem_ofLines {number : Nat} {lines : List (List Char)} {assignment : Assignment}
    (member : assignment ∈ ofLines number lines) : number ≤ assignment.line := by
  induction lines generalizing number with
  | nil => cases member
  | cons line rest ih =>
      rw [ofLines] at member
      split at member
      · rcases List.mem_cons.mp member with rfl | behind
        · exact Nat.le_refl _
        · exact Nat.le_of_succ_le (ih behind)
      · exact Nat.le_of_succ_le (ih member)

theorem pairwise_ofLines (number : Nat) (lines : List (List Char)) :
    (ofLines number lines).Pairwise fun first second => first.line < second.line := by
  induction lines generalizing number with
  | nil => exact .nil
  | cons line rest ih =>
      rw [ofLines]
      split
      · exact .cons (fun other member => le_of_mem_ofLines member) (ih (number + 1))
      · exact ih (number + 1)

theorem ofLines_take (number count : Nat) (lines : List (List Char)) :
    ofLines number (lines.take count) =
      (ofLines number lines).filter fun assignment => assignment.line < number + count := by
  induction lines generalizing number count with
  | nil => simp [ofLines]
  | cons line rest ih =>
      cases count with
      | zero =>
          symm
          rw [List.take_zero, ofLines, List.filter_eq_nil_iff]
          intro assignment member
          simpa using le_of_mem_ofLines member
      | succ count =>
          have later := ih (number + 1) count
          rw [Nat.add_right_comm, Nat.add_assoc] at later
          rw [List.take_succ_cons, ofLines, ofLines]
          cases parts? line with
          | none => exact later
          | some parts => simp [later]

/-- The start of a text up to the line of an assignment has the assignments up to that one. -/
theorem exists_ofText_eq {text : String} {before after : List Assignment} {last : Assignment}
    (split : ofText text = before ++ last :: after) :
    ∃ head tail : String, text = head ++ tail ∧
      Text.lines head.toList = (Text.lines text.toList).take last.line ∧
      ofText head = before ++ [last] := by
  have positive : 1 ≤ last.line := by
    have member : last ∈ ofLines 1 (Text.lines text.toList) := by
      rw [← ofText, split]
      simp
    exact le_of_mem_ofLines member
  obtain ⟨head, tail, whole, same⟩ :=
    Text.exists_fields_eq_take (· == '\n') text.toList (last.line - 1)
  rw [Nat.sub_add_cancel positive] at same
  refine ⟨String.ofList head, String.ofList tail, ?_, ?_, ?_⟩
  · rw [← String.ofList_append, ← whole, String.ofList_toList]
  · rw [String.toList_ofList]
    exact same
  · -- The line numbers increase, so those up to the last one are cut off right behind it.
    have ordered := pairwise_ofLines 1 (Text.lines text.toList)
    rw [← ofText, split] at ordered
    obtain ⟨-, ordered, early⟩ := List.pairwise_append.mp ordered
    have lines : Text.lines head = (Text.lines text.toList).take last.line := same
    rw [ofText, String.toList_ofList, lines, ofLines_take, ← ofText, split, List.filter_append,
      List.filter_cons_of_pos (by simp)]
    congr 1
    · refine List.filter_eq_self.mpr fun assignment member => ?_
      have less := early assignment member last List.mem_cons_self
      simp only [decide_eq_true_eq]
      omega
    · refine congrArg _ (List.filter_eq_nil_iff.mpr fun assignment member => ?_)
      have more := List.rel_of_pairwise_cons ordered member
      simp only [decide_eq_true_eq]
      omega

end Assignment

namespace ImportReport

/-- How many assignments a report is about. -/
def total (report : ImportReport) : Nat :=
  report.applied + report.unknown.length + report.failures.length

/-- The numbers of the lines that failed. -/
def failedLines (report : ImportReport) : List Nat := report.failures.map Prod.fst

theorem total_record (report : ImportReport) (assignment : Assignment)
    (outcome : Except Error Bool) :
    (report.record assignment outcome).total = report.total + 1 := by
  rcases outcome with cause | (_ | _)
  all_goals
    simp only [record, total, List.length_append, List.length_singleton]
    omega

theorem failedLines_record (report : ImportReport) (assignment : Assignment)
    (outcome : Except Error Bool) :
    (report.record assignment outcome).failedLines = report.failedLines ∨
      (report.record assignment outcome).failedLines = report.failedLines ++ [assignment.line] := by
  rcases outcome with cause | (_ | _)
  · exact .inr (by simp [record, failedLines])
  · exact .inl rfl
  · exact .inl rfl

end ImportReport

/-- Whether a run leaves behind and tells what another one does, perhaps under another import
policy. -/
structure Run.Repeats {α : Type} (run other : Run α) : Prop where
  /-- The models are the same but for the import policy. -/
  model : ∃ policy, run.model = other.model.under policy
  /-- All values are the same. -/
  values : run.model.value = other.model.value
  /-- Observers are told the same. -/
  notices : run.notices = other.notices

theorem Run.Repeats.of_under {α : Type} {run other : Run α} {policy : ImportPolicy}
    (model : run.model = other.model.under policy) (notices : run.notices = other.notices) :
    run.Repeats other :=
  ⟨⟨policy, model⟩, by rw [model, Model.value_under], notices⟩

namespace Model

/-! ## Both policies -/

section Assignments

variable {report : ImportReport} {assignment : Assignment} {rest : List Assignment} {model : Model}

theorem assignAll_of_settled {policy : ImportPolicy} {next : ImportReport}
    (settled : settle policy report assignment (model.assign assignment).outcome = .ok next) :
    assignAll report (assignment :: rest) (model.under policy) =
      let later := assignAll next rest ((model.assign assignment).model.under policy)
      ⟨later.model, (model.assign assignment).notices ++ later.notices, later.outcome⟩ := by
  rw [assignAll, assign_under]
  dsimp only [Run.under, importPolicy_under]
  rw [settled]
  rfl

theorem assignAll_of_assigned {policy : ImportPolicy} {declared : Bool}
    (assigned : (model.assign assignment).outcome = .ok declared) :
    assignAll report (assignment :: rest) (model.under policy) =
      let later := assignAll (report.record assignment (.ok declared)) rest
        ((model.assign assignment).model.under policy)
      ⟨later.model, (model.assign assignment).notices ++ later.notices, later.outcome⟩ := by
  refine assignAll_of_settled ?_
  rw [assigned]
  exact settle_ok policy report assignment declared

theorem settle_eq_error_iff {policy : ImportPolicy} {outcome : Except Error Bool} {cause : Error} :
    settle policy report assignment outcome = .error cause ↔
      outcome = .error cause ∧ (policy = .abort ∨ cause.isEndless = true) := by
  cases outcome with
  | ok declared => simp [settle]
  | error error =>
      rw [settle]
      split
      · rename_i skipped
        refine iff_of_false (fun same => by cases same) ?_
        rintro ⟨same, stops⟩
        obtain rfl := Except.error.inj same
        rcases stops with rfl | endless
        · cases skipped.1
        · cases skipped.2.symm.trans endless
      · rename_i stopped
        refine ⟨fun same => ?_, fun stops => congrArg _ (Except.error.inj stops.1)⟩
        obtain rfl := Except.error.inj same
        refine ⟨rfl, ?_⟩
        cases policy with
        | abort => exact .inl rfl
        | skip => exact .inr (by simpa using stopped)

theorem settle_skip {cause : Error} (ends : cause.isEndless = false) :
    settle .skip report assignment (.error cause) =
      .ok (report.record assignment (.error cause)) :=
  if_pos ⟨rfl, ends⟩

theorem assignAll_of_stopped {policy : ImportPolicy} {cause : Error}
    (stopped : settle policy report assignment (model.assign assignment).outcome = .error cause) :
    assignAll report (assignment :: rest) (model.under policy) =
      ⟨(model.assign assignment).model.under policy, (model.assign assignment).notices,
        .error cause⟩ := by
  rw [assignAll, assign_under]
  dsimp only [Run.under, importPolicy_under]
  rw [stopped]
  rfl

theorem failures_record_ok (report : ImportReport) (assignment : Assignment) (declared : Bool) :
    (report.record assignment (.ok declared)).failures = report.failures := by
  cases declared <;> rfl

/-- An import that comes to its end reports every assignment. -/
theorem total_assignAll {result : ImportReport} {assignments : List Assignment}
    (ended : (assignAll report assignments model).outcome = .ok result) :
    ∃ failed, result.total = report.total + assignments.length ∧
      result.failedLines = report.failedLines ++ failed ∧
      failed.Sublist (assignments.map fun assignment => assignment.line) := by
  induction assignments generalizing report model with
  | nil =>
      obtain rfl := Except.ok.inj ended
      exact ⟨[], rfl, by simp, List.Sublist.refl _⟩
  | cons assignment rest ih =>
      obtain ⟨failed, total, lines, among⟩ := ih (assignAll_cons ended).1
      rw [ImportReport.total_record, Nat.add_assoc, Nat.add_comm 1] at total
      rcases ImportReport.failedLines_record report assignment (model.assign assignment).outcome
        with same | longer
      · rw [same] at lines
        exact ⟨failed, total, lines, among.cons _⟩
      · rw [longer, List.append_assoc] at lines
        exact ⟨assignment.line :: failed, total, lines, among.cons_cons _⟩

/-- An import that skips failing lines is stopped only by one that never comes to an end. -/
theorem isEndless_of_assignAll {cause : Error} {assignments : List Assignment}
    (failed : (assignAll report assignments (model.under .skip)).outcome = .error cause) :
    cause.isEndless = true := by
  induction assignments generalizing report model with
  | nil => cases failed
  | cons assignment rest ih =>
      cases settled : settle .skip report assignment (model.assign assignment).outcome with
      | ok next =>
          rw [assignAll_of_settled settled] at failed
          exact ih failed
      | error other =>
          rw [assignAll_of_stopped settled] at failed
          obtain rfl := Except.error.inj failed
          exact (settle_eq_error_iff.mp settled).2.resolve_left fun abort => by cases abort

/-- As long as no assignment fails, skipping failures does what stopping at them does. -/
theorem assignAll_of_abort_ok {result : ImportReport} {assignments : List Assignment}
    (ended : (assignAll report assignments (model.under .abort)).outcome = .ok result) :
    assignAll report assignments (model.under .skip) =
        (assignAll report assignments (model.under .abort)).under .skip ∧
      result.failures = report.failures := by
  induction assignments generalizing report model with
  | nil => exact ⟨rfl, (Except.ok.inj ended).symm ▸ rfl⟩
  | cons assignment rest ih =>
      cases outcome : (model.assign assignment).outcome with
      | error cause =>
          rw [assignAll_of_stopped (settle_eq_error_iff.mpr ⟨outcome, .inl rfl⟩)] at ended
          cases ended
      | ok declared =>
          rw [assignAll_of_assigned outcome] at ended ⊢
          rw [assignAll_of_assigned outcome]
          obtain ⟨same, failures⟩ := ih ended
          refine ⟨by rw [same]; rfl, ?_⟩
          rw [failures, failures_record_ok]

/-- When an assignment fails, stopping there has done what skipping does up to it. -/
theorem assignAll_of_abort_error {cause : Error} (ends : cause.isEndless = false)
    {assignments : List Assignment}
    (ended : (assignAll report assignments (model.under .abort)).outcome = .error cause) :
    ∃ before last after result, assignments = before ++ last :: after ∧
      assignAll report (before ++ [last]) (model.under .skip) =
        ⟨(assignAll report assignments (model.under .abort)).model.under .skip,
          (assignAll report assignments (model.under .abort)).notices, .ok result⟩ ∧
      result.failures = report.failures ++ [(last.line, cause.message)] := by
  induction assignments generalizing report model with
  | nil => cases ended
  | cons assignment rest ih =>
      cases outcome : (model.assign assignment).outcome with
      | error other =>
          rw [assignAll_of_stopped (settle_eq_error_iff.mpr ⟨outcome, .inl rfl⟩)] at ended ⊢
          obtain rfl := Except.error.inj ended
          refine ⟨[], assignment, rest, report.record assignment (.error other), rfl, ?_, rfl⟩
          have skipped : settle .skip report assignment (model.assign assignment).outcome =
              .ok (report.record assignment (.error other)) := outcome.symm ▸ settle_skip ends
          rw [List.nil_append, assignAll_of_settled skipped, assignAll]
          simp only [Run.done, List.append_nil]
          rfl
      | ok declared =>
          rw [assignAll_of_assigned outcome] at ended ⊢
          obtain ⟨before, last, after, result, rfl, same, failures⟩ := ih ended
          refine ⟨assignment :: before, last, after, result, rfl, ?_, ?_⟩
          · rw [List.cons_append, assignAll_of_assigned outcome, same]
          · rw [failures, failures_record_ok]

end Assignments

theorem failsOnly_assignAll {causes : Error → Prop} {base model : Model}
    (fails : ∀ current : Model, current.bare = base.bare → ∀ assignment,
      (current.assign assignment).outcome.FailsOnly causes)
    (report : ImportReport) (assignments : List Assignment) (same : model.bare = base.bare) :
    (assignAll report assignments model).outcome.FailsOnly causes := by
  induction assignments generalizing report model with
  | nil => exact .ok _
  | cons assignment rest ih =>
      refine Run.failsOnly_andThen (fun cause stopped => ?_) fun next => ih next ?_
      · exact fails model same assignment cause (settle_eq_error_iff.mp stopped).1
      · exact (bare_assign model assignment).trans same

/-- No assignment is without end where neither values nor selects go round. -/
theorem assign_ends {description : Node} {options : Options} {built model : Model}
    (builds : build description options = .ok built) (same : model.bare = built.bare)
    (acyclic : model.Acyclic) (selects : model.AcyclicSelects) (assignment : Assignment) :
    (model.assign assignment).outcome.FailsOnly fun cause => cause.isEndless = false := by
  have complete := complete_of_build builds same
  have ends := ((computations_end builds same acyclic).2 selects).set
  rw [assign]
  split
  · exact .ok _
  · rename_i id known
    split
    · exact .error rfl
    · rename_i value _
      refine Run.failsOnly_andThen (fun cause failed => ?_) fun _ => .ok _
      exact (ends id (complete _ _ known) value cause failed).isEndless_eq_false

/-- Only a line whose effects have no end keeps an import that skips failing lines from accounting
for all of them; one that stops at failures does the same up to the first failing line. -/
theorem importText_under_policies (model : Model) (text : String) :
    ((∀ cause, ((model.under .skip).importText text).outcome = .error cause →
        cause.isEndless = true) ∧
      (∀ description options built, build description options = .ok built →
        model.bare = built.bare → model.Acyclic → model.AcyclicSelects →
          ∃ report, ((model.under .skip).importText text).outcome = .ok report) ∧
      ∀ report, ((model.under .skip).importText text).outcome = .ok report →
        report.applied + report.unknown.length + report.failures.length =
          (Text.lines text.toList).countP (fun line => Assignment.Assigns line) ∧
        (report.failures.map Prod.fst).Pairwise (· < ·)) ∧
    (∀ report, ((model.under .abort).importText text).outcome = .ok report →
      ((model.under .skip).importText text).outcome = .ok report ∧
        ((model.under .skip).importText text).Repeats ((model.under .abort).importText text)) ∧
    (∀ cause, ((model.under .abort).importText text).outcome = .error cause →
      cause.isEndless = false →
      ∃ number head tail report, text = head ++ tail ∧
        Text.lines head.toList = (Text.lines text.toList).take number ∧
        ((model.under .skip).importText head).outcome = .ok report ∧
        report.failures = [(number, cause.message)] ∧
        ((model.under .skip).importText head).Repeats ((model.under .abort).importText text)) ∧
    ∀ (assignment : Assignment) (line : Nat) (symbol : String) (cause : AssignmentFailure),
      (model.assign assignment).outcome = .error (.assignment line symbol cause) →
        line = assignment.line ∧ symbol = assignment.symbol ∧
          (model.assign assignment).model = model ∧ (model.assign assignment).notices = [] := by
  refine ⟨⟨fun _ => isEndless_of_assignAll, ?_, fun report ended => ?_⟩, fun report ended => ?_,
    fun cause failed ends => ?_, fun _ _ _ _ => assign_of_error⟩
  · intro description options built builds same acyclic selects
    have ends : ((model.under .skip).importText text).outcome.FailsOnly
        fun cause => cause.isEndless = false := by
      refine failsOnly_assignAll (fun current kept => ?_) _ _ same
      have alike : model.bare = current.bare := same.trans kept.symm
      exact assign_ends builds kept (acyclic.of_bare alike) (selects.of_bare alike)
    cases ended : ((model.under .skip).importText text).outcome with
    | ok report => exact ⟨report, rfl⟩
    | error cause => cases (isEndless_of_assignAll ended).symm.trans (ends cause ended)
  · obtain ⟨failed, total, lines, among⟩ := total_assignAll ended
    constructor
    · rw [← Assignment.length_ofLines 1]
      exact total.trans (Nat.zero_add _)
    · have ordered := Assignment.pairwise_ofLines 1 (Text.lines text.toList)
      have numbers : report.failures.map Prod.fst = failed := lines
      rw [numbers]
      exact (List.pairwise_map.mpr ordered).sublist among
  · obtain ⟨same, -⟩ := assignAll_of_abort_ok ended
    have skipped : (model.under .skip).importText text =
        ((model.under .abort).importText text).under .skip := same
    rw [skipped]
    exact ⟨ended, .of_under rfl rfl⟩
  · obtain ⟨before, last, after, report, split, same, failures⟩ :=
      assignAll_of_abort_error ends failed
    obtain ⟨head, tail, whole, lines, assigned⟩ := Assignment.exists_ofText_eq split
    have skipped : (model.under .skip).importText head =
        ⟨((model.under .abort).importText text).model.under .skip,
          ((model.under .abort).importText text).notices, .ok report⟩ := by
      rw [importText, assigned]
      exact same
    refine ⟨last.line, head, tail, report, whole, lines, by rw [skipped], failures, ?_⟩
    rw [skipped]
    exact .of_under rfl rfl

/-- A text whose second line is no number, and the text of its first line alone. -/
theorem importText_under_policies_of_number :
    let first : Declaration :=
      { symbol := some "A", type := some .bool, selects := [⟨"B", some "B"⟩] }
    let second : Declaration := { symbol := some "B", type := some .int }
    let nodes : List Node := [first, second].map (.mk · [])
    let model : Model := placeAll root (top { kind := .menu } {}) (Outline.ofNodes nodes)
    let text := "CONFIG_A=y\nCONFIG_B=x\nCONFIG_A=n\n"
    let cause : Error := .assignment 2 "B" (.invalidNumber "x")
    (∃ report, ((model.under .skip).importText text).outcome = .ok report ∧
      report.applied + report.unknown.length + report.failures.length = 3) ∧
    ((model.under .abort).importText text).outcome = .error cause ∧
      (∃ number head tail report, text = head ++ tail ∧
        Text.lines head.toList = (Text.lines text.toList).take number ∧
        ((model.under .skip).importText head).outcome = .ok report ∧
        report.failures = [(number, cause.message)] ∧
        ((model.under .skip).importText head).Repeats ((model.under .abort).importText text)) ∧
      ((model.under .abort).importText "CONFIG_A=y\n").outcome = .ok { applied := 1 } ∧
      ((model.under .skip).importText "CONFIG_A=y\n").outcome = .ok { applied := 1 } ∧
      (model.assign ⟨2, "B", "x"⟩).outcome = .error cause ∧
      (model.assign ⟨2, "B", "x"⟩).model = model := by
  intro first second nodes model text cause
  obtain ⟨⟨-, returns, counts⟩, succeeds, fails, unread⟩ := importText_under_policies model text
  have acyclic : model.Acyclic := acyclic_of_descending (by decide +kernel) (by decide +kernel)
  have forward : model.Forward := by decide +kernel
  obtain ⟨report, ended⟩ :=
    returns (.mk { kind := .menu } nodes) {} model rfl rfl acyclic forward.acyclicSelects
  have total := (counts report ended).1
  have lines : (Text.lines text.toList).countP (fun line => Assignment.Assigns line) = 3 := by
    decide +kernel
  have failed : ((model.under .abort).importText text).outcome = .error cause := by
    decide +kernel
  have single : ((model.under .abort).importText "CONFIG_A=y\n").outcome =
      .ok { applied := 1 } := by decide +kernel
  have wrong : (model.assign ⟨2, "B", "x"⟩).outcome = .error cause := by decide +kernel
  refine ⟨⟨report, ended, total.trans lines⟩, failed, fails cause failed rfl, single, ?_, wrong, ?_⟩
  · exact ((importText_under_policies model "CONFIG_A=y\n").2.1 _ single).1
  · exact (unread ⟨2, "B", "x"⟩ 2 "B" _ wrong).2.2.1

/-- Two options that select each other: the import of a single line has no end, however deep
settings are nested, and no report. -/
theorem importText_ne_ok_of_circle :
    let first : Declaration := { symbol := some "A", type := some .bool, selects := [⟨"B", none⟩] }
    let second : Declaration := { symbol := some "B", type := some .bool, selects := [⟨"A", none⟩] }
    let nodes : List Node := [first, second].map (.mk · [])
    let options : Options := { importPolicy := .skip }
    let model : Model := placeAll root (top { kind := .menu } options) (Outline.ofNodes nodes)
    build (.mk { kind := .menu } nodes) options = .ok model ∧
      model.target? ("A", "y") = some (1, .text "y") ∧
      (∀ depth, (setWithin (.text "y") depth 1 model).outcome ≠ .ok ()) ∧
      ∀ report, (model.importText "CONFIG_A=y\n").outcome ≠ .ok report := by
  intro first second nodes options model
  refine ⟨rfl, by decide +kernel, fun depth => ?_, fun report ended => ?_⟩
  · have leads : ∀ id, id = 1 ∨ id = 2 →
        ∃ target, model.Requires id target ∧ (target = 1 ∨ target = 2) := by
      rintro id (rfl | rfl)
      · exact ⟨2, ⟨⟨"B", none⟩, by decide +kernel, rfl, by decide +kernel⟩, .inr rfl⟩
      · exact ⟨1, ⟨⟨"A", none⟩, by decide +kernel, rfl, by decide +kernel⟩, .inl rfl⟩
    exact setWithin_ne_ok_of_requires leads _ depth (.inl rfl) rfl
  · have endless : (model.importText "CONFIG_A=y\n").outcome = .error (.endlessSelects 2) := by
      decide +kernel
    cases endless.symm.trans ended

end Model
end OptionTree
