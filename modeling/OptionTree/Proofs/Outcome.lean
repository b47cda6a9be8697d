/-!
# Outcomes that may fail

A chain of steps succeeds exactly if each of its steps does.  Two chains have related outcomes if
their steps have, up to a failure that cuts the first one off.
-/

namespace Except

variable {ε α β γ δ : Type}

@[simp]
theorem ok_bind (a : α) (next : α → Except ε β) : (Except.ok a).bind next = next a := rfl

@[simp]
theorem error_bind (cause : ε) (next : α → Except ε β) :
    (Except.error cause : Except ε α).bind next = .error cause := rfl

@[simp]
theorem ok_map (change : α → β) (a : α) : (Except.ok a : Except ε α).map change = .ok (change a) :=
  rfl

@[simp]
theorem error_map (change : α → β) (cause : ε) :
    (Except.error cause : Except ε α).map change = .error cause := rfl

theorem bind_eq_ok_iff {first : Except ε α} {next : α → Except ε β} {b : β} :
    first.bind next = .ok b ↔ ∃ a, first = .ok a ∧ next a = .ok b := by
  cases first with
  | error cause => simp
  | ok a => simp

theorem map_eq_ok_iff {first : Except ε α} {change : α → β} {b : β} :
    first.map change = .ok b ↔ ∃ a, first = .ok a ∧ change a = b := by
  cases first with
  | error cause => simp
  | ok a => simp

theorem toOption_eq_some_iff {outcome : Except ε α} {a : α} :
    outcome.toOption = some a ↔ outcome = .ok a := by
  cases outcome <;> simp [Except.toOption]

/-- Whether a second outcome is like a first one: the first one was cut off, both fail for the same
cause, or their results are related. -/
def Alike (cut : ε → Prop) (related : α → β → Prop) : Except ε α → Except ε β → Prop
  | .error cause, second => cut cause ∨ second = .error cause
  | .ok first, .ok second => related first second
  | .ok _, .error _ => False

namespace Alike

variable {cut : ε → Prop} {related : α → β → Prop}

theorem same {related : α → α → Prop} (reflexive : ∀ a, related a a) (outcome : Except ε α) :
    outcome.Alike cut related outcome := by
  cases outcome with
  | error cause => exact .inr rfl
  | ok a => exact reflexive a

theorem of_eq {first second : Except ε α} (equal : first = second) :
    first.Alike cut Eq second :=
  equal ▸ same (fun _ => rfl) first

theorem bind {first : Except ε α} {second : Except ε β} (alike : first.Alike cut related second)
    {later : γ → δ → Prop} {next : α → Except ε γ} {other : β → Except ε δ}
    (goesOn : ∀ a b, related a b → (next a).Alike cut later (other b)) :
    (first.bind next).Alike cut later (second.bind other) := by
  cases first with
  | error cause =>
      rcases alike with ends | rfl
      · exact .inl ends
      · exact .inr rfl
  | ok a =>
      cases second with
      | error cause => exact alike.elim
      | ok b => exact goesOn a b alike

theorem map {first : Except ε α} {second : Except ε β} (alike : first.Alike cut related second)
    {later : γ → δ → Prop} {change : α → γ} {other : β → δ}
    (keeps : ∀ a b, related a b → later (change a) (other b)) :
    (first.map change).Alike cut later (second.map other) := by
  cases first with
  | error cause =>
      rcases alike with ends | rfl
      · exact .inl ends
      · exact .inr rfl
  | ok a =>
      cases second with
      | error cause => exact alike.elim
      | ok b => exact keeps a b alike

theorem mono {first : Except ε α} {second : Except ε β} (alike : first.Alike cut related second)
    {weaker : α → β → Prop} (weaken : ∀ a b, related a b → weaker a b) :
    first.Alike cut weaker second := by
  cases first with
  | error cause => exact alike
  | ok a =>
      cases second with
      | error cause => exact alike.elim
      | ok b => exact weaken a b alike

theorem trans {first middle : Except ε α} {last : Except ε β}
    (alike : first.Alike cut Eq middle) (later : middle.Alike cut related last) :
    first.Alike cut related last := by
  cases first with
  | error cause =>
      rcases alike with ends | rfl
      · exact .inl ends
      · exact later
  | ok a =>
      cases middle with
      | error cause => exact alike.elim
      | ok b =>
          obtain rfl : a = b := alike
          exact later

theorem eq {first second : Except ε α} (alike : first.Alike cut Eq second)
    (whole : ∀ cause, cut cause → first ≠ .error cause) : second = first := by
  cases first with
  | error cause => exact alike.resolve_left fun ends => whole cause ends rfl
  | ok a =>
      cases second with
      | error cause => exact alike.elim
      | ok b => exact congrArg Except.ok (alike : a = b).symm

end Alike

/-- Where nothing is cut off, outcomes are alike only if they are the same. -/
theorem alike_eq_iff {first second : Except ε α} :
    first.Alike (fun _ => False) Eq second ↔ first = second :=
  ⟨fun alike => (alike.eq fun _ => False.elim).symm, Alike.of_eq⟩

end Except
