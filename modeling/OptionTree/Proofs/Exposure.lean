import OptionTree.Proofs.Alternatives
import OptionTree.Proofs.Joining

/-!
# Exposed disjunctions

A clause with a disjunction is put into parentheses unless one pair seems to enclose all of it.
Parentheses in quoted texts count like any others in this, so that a disjunction may stay outside
of all parentheses.  No disjunction is exposed in this way where quoted texts have none.
-/

namespace OptionTree
namespace Expression

theorem Derivable.sound {tokens : List Token} (derivable : Derivable tokens) :
    ∀ token ∈ tokens, token.error? = none := by
  induction derivable with
  | symbol name => simp [Token.error?]
  | quoted content => simp [Token.error?]
  | negation _ ih => exact List.forall_mem_cons.mpr ⟨rfl, ih⟩
  | binary op _ _ left right =>
      exact List.forall_mem_append.mpr ⟨left, List.forall_mem_cons.mpr ⟨rfl, right⟩⟩
  | parentheses _ ih =>
      refine List.forall_mem_cons.mpr ⟨rfl, List.forall_mem_append.mpr ⟨ih, ?_⟩⟩
      exact List.forall_mem_singleton.mpr rfl

theorem length_alternatives {tokens : List Token}
    (absent : .operator (.binary .disjunction) ∉ tokens) (depth : Nat) :
    (alternatives depth tokens).length = 1 := by
  induction tokens generalizing depth with
  | nil => rfl
  | cons token rest ih =>
      obtain ⟨other, absent⟩ := List.ne_and_not_mem_of_not_mem_cons absent
      rw [alternatives, if_neg fun both => other both.2.symm, List.length_modifyHead]
      exact ih absent _

/-- Whether no closing parenthesis in front of other tokens brings the number of open ones to
zero. -/
def ClosesLast : Nat → List Token → Prop
  | _, [] => True
  | depth, token :: rest =>
    (token = .closing → depth - 1 ≠ 0 ∨ rest = []) ∧ ClosesLast (levelAfter depth token) rest

theorem Derivable.closesLast {tokens : List Token} (derivable : Derivable tokens) {depth : Nat}
    {rest : List Token} (closes : ClosesLast depth (tokens ++ rest)) : ClosesLast depth rest := by
  induction derivable generalizing depth rest with
  | symbol name => exact closes.2
  | quoted content => exact closes.2
  | negation _ ih => exact ih closes.2
  | binary op _ _ left right =>
      rw [List.append_assoc] at closes
      exact right (left closes).2
  | parentheses _ ih =>
      rw [List.cons_append, List.append_assoc] at closes
      exact (ih closes.2).2

theorem Derivable.not_closesLast {tokens : List Token} (derivable : Derivable tokens)
    (opens : tokens.head? = some .opening) {rest : List Token} (more : rest ≠ []) :
    ¬ClosesLast 0 (tokens ++ rest) := by
  induction derivable generalizing rest with
  | symbol name => cases opens
  | quoted content => cases opens
  | negation _ ih => cases opens
  | @binary left right op inLeft _ ih _ =>
      rw [List.append_assoc]
      refine ih ?_ (by simp)
      obtain ⟨first, left, rfl⟩ := List.exists_cons_of_ne_nil inLeft.ne_nil
      exact opens
  | @parentheses inner derivable _ =>
      intro closes
      rw [List.cons_append, List.append_assoc] at closes
      have behind : ClosesLast 1 ([.closing] ++ rest) := derivable.closesLast closes.2
      rcases behind.1 rfl with above | last
      · exact above rfl
      · exact more last

end Expression

namespace Clause

open Token Expression

/-- Whether there is no parenthesis in a text. -/
def Plain (text : List Char) : Prop := '(' ∉ text ∧ ')' ∉ text

theorem closesLast_append {text : List Char} (plain : Plain text) (depth : Nat)
    (rest : List Char) : closesLast depth (text ++ rest) = closesLast depth rest := by
  induction text with
  | nil => rfl
  | cons c text ih =>
      obtain ⟨notOpening, opening⟩ := List.ne_and_not_mem_of_not_mem_cons plain.1
      obtain ⟨notClosing, closing⟩ := List.ne_and_not_mem_of_not_mem_cons plain.2
      rw [List.cons_append, closesLast, if_neg notOpening.symm, if_neg notClosing.symm]
      exact ih ⟨opening, closing⟩

theorem plain_of_forall {text : List Char} {property : Char → Bool}
    (opening : property '(' = false) (closing : property ')' = false)
    (all : ∀ c ∈ text, property c = true) : Plain text := by
  constructor
  · intro member
    exact Bool.false_ne_true (opening.symm.trans (all _ member))
  · intro member
    exact Bool.false_ne_true (closing.symm.trans (all _ member))

theorem plain_of_source {token : Token} {source : List Char} (written : Source token source)
    (quotes : ∀ content, token = .quoted content → Plain content.toList)
    (notOpening : token ≠ .opening) (notClosing : token ≠ .closing) : Plain source := by
  cases written with
  | symbol nonempty word => exact plain_of_forall rfl rfl word
  | @quoted quote content isMark closed =>
      have inside : Plain content := by simpa using quotes _ rfl
      have mark : Plain [quote] := by
        simp only [isQuote, Bool.or_eq_true, beq_iff_eq] at isMark
        rcases isMark with rfl | rfl <;> simp [Plain]
      constructor
      · simpa [inside.1] using mark.1
      · simpa [inside.2] using mark.2
  | operator op => rcases op with _ | (_ | _ | _ | _) <;> constructor <;> decide
  | opening => exact absurd rfl notOpening
  | closing => exact absurd rfl notClosing

/-- Where quoted texts have no parentheses, those that are counted are tokens. -/
theorem closesLast_of_printed {tokens : List Token} {text : List Char}
    (printed : Printed tokens text)
    (quotes : ∀ content, .quoted content ∈ tokens → Plain content.toList) {depth : Nat}
    (closes : closesLast depth text = true) : ClosesLast depth tokens := by
  induction printed generalizing depth with
  | nil spaces => trivial
  | @cons gap source rest token tokens spaces written printed apart ih =>
      have later : ∀ {level}, closesLast level rest = true → ClosesLast level tokens := ih
        fun content member => quotes content (List.mem_cons_of_mem _ member)
      rw [List.append_assoc, closesLast_append (plain_of_forall rfl rfl spaces)] at closes
      by_cases opening : token = .opening
      · subst opening
        cases written
        exact ⟨nofun, later closes⟩
      by_cases closing : token = .closing
      · subst closing
        cases written
        have split : (depth - 1 != 0 || rest.isEmpty) = true ∧ closesLast (depth - 1) rest = true :=
          Bool.and_eq_true_iff.mp closes
        refine ⟨fun _ => ?_, later split.2⟩
        rcases Bool.or_eq_true_iff.mp split.1 with above | empty
        · exact .inl (bne_iff_ne.mp above)
        · exact .inr (printed.eq_nil_of_nil (List.isEmpty_iff.mp empty))
      · have plain := plain_of_source written
          (fun content same => quotes content (same ▸ List.mem_cons_self)) opening closing
        rw [closesLast_append plain] at closes
        refine ⟨fun same => absurd same closing, ?_⟩
        rw [levelAfter_of_ne opening closing]
        exact later closes

theorem head_of_printed {tokens : List Token} {text : List Char} (printed : Printed tokens text)
    (opens : text.head? = some '(') : tokens.head? = some .opening := by
  cases printed with
  | nil spaces => exact absurd (spaces '(' (List.mem_of_mem_head? opens)) (by decide)
  | @cons gap source rest token tokens spaces written printed apart =>
      rw [List.append_assoc, List.head?_append] at opens
      cases gap with
      | cons c gap =>
          obtain rfl : c = '(' := by simpa using opens
          exact absurd (spaces '(' List.mem_cons_self) (by decide)
      | nil =>
          cases written with
          | symbol nonempty word =>
              obtain ⟨c, name, rfl⟩ := List.exists_cons_of_ne_nil nonempty
              obtain rfl : c = '(' := by simpa using opens
              exact absurd (word '(' List.mem_cons_self) (by decide)
          | quoted isMark closed =>
              cases Option.some.inj opens
              cases isMark
          | operator op => rcases op with _ | (_ | _ | _ | _) <;> cases opens
          | opening => rfl
          | closing => cases opens

/-- What a clause contributes to a conjunction: the alternatives of its tokens there. -/
def divisions (clause : String) : List (List Token) := alternatives 0 (guardedTokens clause)

/-- Whether a clause stands in a conjunction with a disjunction outside of all parentheses. -/
def Exposed (clause : String) : Prop := 1 < (divisions clause).length

section Divisions

variable {clause : String} (derivable : Derivable (tokenize clause))
include derivable

theorem within_guarded : Within BinaryOperator.disjunction.rank (guardedTokens clause) := by
  unfold guardedTokens
  dsimp only
  split
  · exact .parentheses derivable.within
  · exact derivable.within

theorem divisions_of_not_exposed (sheltered : ¬Exposed clause) :
    Within BinaryOperator.conjunction.rank (guardedTokens clause) ∧
      divisions clause = [guardedTokens clause] := by
  have within := (within_guarded derivable).conjunction_of_alternatives (Nat.le_of_not_lt sheltered)
  exact ⟨within, within.alternatives_eq (by decide)⟩

/-- An exposed clause is one that seems to be enclosed in parentheses. -/
theorem isEnclosed_of_exposed (exposed : Exposed clause) :
    isEnclosed (Text.trim clause.toList) = true ∧ guardedTokens clause = tokenize clause := by
  have printed := (printed_of_tokenize derivable.sound).trim
  unfold Exposed divisions guardedTokens at exposed
  rw [guardedTokens]
  dsimp only at exposed ⊢
  split at exposed
  · have single : Within BinaryOperator.conjunction.rank
        (.opening :: (tokenize clause ++ [.closing])) := .parentheses derivable.within
    rw [single.alternatives_eq (by decide)] at exposed
    exact absurd exposed (by simp)
  · rename_i unguarded
    refine ⟨?_, if_neg unguarded⟩
    by_contra free
    have bars : hasDisjunction (Text.trim clause.toList) = true := by
      refine hasDisjunction_of_printed printed ?_
      by_contra absent
      rw [length_alternatives absent] at exposed
      exact absurd exposed (by simp)
    simp [bars, free] at unguarded

/-- Without parentheses in its quoted texts a clause is not exposed. -/
theorem not_exposed_of_plain
    (quotes : ∀ content, .quoted content ∈ tokenize clause → Plain content.toList) :
    ¬Exposed clause := by
  intro exposed
  obtain ⟨enclosed, same⟩ := isEnclosed_of_exposed derivable exposed
  have printed := (printed_of_tokenize derivable.sound).trim.trim
  simp only [isEnclosed, Bool.and_eq_true, beq_iff_eq] at enclosed
  obtain ⟨⟨opens, -⟩, closes⟩ := enclosed
  have balanced : ClosesLast 0 (tokenize clause) := closesLast_of_printed printed quotes closes
  have opening := head_of_printed printed opens
  rcases derivable.within.split with tight | ⟨left, right, shape, inLeft, -⟩
  · have tight : Within BinaryOperator.conjunction.rank (tokenize clause) := tight
    rw [Exposed, divisions, same, tight.alternatives_eq (by decide)] at exposed
    exact absurd exposed (by simp)
  · obtain ⟨first, rest, nonempty⟩ := List.exists_cons_of_ne_nil inLeft.derivable.ne_nil
    rw [shape] at opening balanced
    refine inLeft.derivable.not_closesLast ?_ (by simp) balanced
    rw [nonempty] at opening ⊢
    exact opening

theorem weight_guarded (names : Names) :
    weight names.scope (guardedTokens clause) = weight names.scope (tokenize clause) := by
  unfold guardedTokens
  dsimp only
  split
  · rw [weight, evaluate_parentheses (names.read_name .truth "") derivable]
    rfl
  · rfl

end Divisions

end Clause
end OptionTree
