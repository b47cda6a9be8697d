import Mathlib.Data.Finset.Card
import Mathlib.Data.Finset.Range
import OptionTree.Proofs.Bottom
import OptionTree.Proofs.Reference

/-!
# How deep readings nest

If no value refers to itself, be it through other values, each value refers to more entries than any
value that it reads.  So readings nest no deeper than there are entries, and the value of an entry
is what its override, its defaults and implies make of the values of others.  Where some values do
refer to themselves, this still holds of every entry that has a value: each further step down
settles an entry or none ever again.
-/

namespace OptionTree

/-- The errors of readings that are cut off. -/
def Error.Circular (error : Error) : Prop := ∃ id, error = .circularValue id

namespace Model

/-- A reading that goes one step deeper differs only where the other one is cut off. -/
theorem valueWithin_alike_succ (model : Model) (depth : Nat) (id : EntryId) :
    (model.valueWithin depth id).Alike Error.Circular Eq (model.valueWithin (depth + 1) id) := by
  induction depth generalizing id with
  | zero => exact .inl ⟨id, rfl⟩
  | succ depth ih =>
      rw [valueWithin_succ model depth, valueWithin_succ]
      cases found : model.get? id with
      | none => exact .of_eq rfl
      | some entry => exact valueFrom_alike_of_refers rfl found fun target _ => ih target

theorem valueWithin_alike (model : Model) {shallow deep : Nat} (deeper : shallow ≤ deep)
    (id : EntryId) :
    (model.valueWithin shallow id).Alike Error.Circular Eq (model.valueWithin deep id) := by
  induction deep, deeper using Nat.le_induction with
  | base => exact .of_eq rfl
  | succ deep _ ih => exact ih.trans (valueWithin_alike_succ model deep id)

theorem valueWithin_alike_value {model : Model} {id : EntryId} {value : Option Value}
    (read : model.value id = .ok value) (depth : Nat) :
    (model.valueWithin depth id).Alike Error.Circular Eq (.ok value) := by
  rw [← read]
  rcases Nat.le_total depth model.size with within | beyond
  · exact valueWithin_alike model within id
  · have deeper := valueWithin_alike model beyond id
    have same : model.valueWithin depth id = model.value id := deeper.eq fun cause _ fails =>
      nomatch read.symm.trans fails
    exact .of_eq same

/-- Whether no value refers to itself, be it through other values. -/
def Acyclic (model : Model) : Prop := ∀ id, ¬Relation.TransGen model.Refers id id

theorem Acyclic.of_bare {first second : Model} (acyclic : first.Acyclic)
    (same : first.bare = second.bare) : second.Acyclic := by
  rwa [Acyclic, ← refers_of_bare same]

theorem lt_size_of_mem_impliesOf {model : Model} {id : EntryId} {imply : Conditional}
    (member : imply ∈ model.impliesOf id) : id < model.size := by
  have stated : imply ∈ model.stated Declaration.implies id := member
  obtain ⟨entry, found, -⟩ := mem_stated.mp stated
  exact (List.getElem?_eq_some_iff.mp found).1

theorem lt_size_of_mem_defaultsOf {model : Model} {id : EntryId} {default : Conditional}
    (member : default ∈ model.defaultsOf id) : id < model.size := by
  have stated : default ∈ model.stated Declaration.defaults id := member
  obtain ⟨entry, found, -⟩ := mem_stated.mp stated
  exact (List.getElem?_eq_some_iff.mp found).1

/-- No value refers to itself if all of them refer to earlier entries only, which can be checked
entry by entry. -/
theorem acyclic_of_descending {model : Model}
    (defaults : ∀ source < model.size, ∀ default ∈ model.defaultsOf source,
      ∀ name ∈ default.names, ∀ target ∈ model.lookup name, target < source)
    (implies : ∀ implier < model.size, ∀ imply ∈ model.impliesOf implier, ∀ source < model.size,
      model.symbol? source = some imply.value → implier < source ∧
        ∀ name ∈ Expression.conditionNames imply.condition, ∀ target ∈ model.lookup name,
          target < source) : model.Acyclic := by
  have descends : ∀ source target, model.Refers source target → target < source := by
    intro source target refers
    cases refers with
    | mentioned member mentions found =>
        exact defaults source (lt_size_of_mem_defaultsOf member) _ member _ mentions target found
    | implying named member own =>
        exact (implies target (lt_size_of_mem_impliesOf member) _ member source
          (lt_size_of_symbol? named) (named.trans (congrArg some own.symm))).1
    | condition named member own mentions found =>
        exact (implies _ (lt_size_of_mem_impliesOf member) _ member source
          (lt_size_of_symbol? named) (named.trans (congrArg some own.symm))).2 _ mentions target
            found
  intro id path
  have below : ∀ target, Relation.TransGen model.Refers id target → target < id := by
    intro target path
    induction path with
    | single refers => exact descends id _ refers
    | tail _ refers ih => exact Nat.lt_trans (descends _ _ refers) ih
  exact Nat.lt_irrefl id (below id path)

section Reach

variable {model : Model} {edge : EntryId → EntryId → Prop}

open Classical in
/-- The entries that a relation leads to, in one step or more. -/
noncomputable def reach (model : Model) (edge : EntryId → EntryId → Prop) (id : EntryId) :
    Finset EntryId :=
  (Finset.range model.size).filter fun other => Relation.TransGen edge id other

@[simp]
theorem mem_reach {id other : EntryId} :
    other ∈ model.reach edge id ↔ other < model.size ∧ Relation.TransGen edge id other := by
  simp [reach]

variable (acyclic : ∀ id, ¬Relation.TransGen edge id id)
include acyclic

theorem card_reach_lt_size {id : EntryId} (present : id < model.size) :
    (model.reach edge id).card < model.size := by
  rw [← Finset.card_range model.size]
  refine Finset.card_lt_card ⟨fun other member => ?_, fun subset => ?_⟩
  · exact Finset.mem_range.mpr (mem_reach.mp member).1
  · exact acyclic id (mem_reach.mp (subset (Finset.mem_range.mpr present))).2

/-- A relation without cycles leads to fewer entries after each step. -/
theorem card_reach_lt {source target : EntryId} (step : edge source target)
    (present : target < model.size) :
    (model.reach edge target).card < (model.reach edge source).card := by
  refine Finset.card_lt_card ⟨fun other member => ?_, fun subset => ?_⟩
  · obtain ⟨bounded, path⟩ := mem_reach.mp member
    exact mem_reach.mpr ⟨bounded, path.head step⟩
  · exact acyclic target (mem_reach.mp (subset (mem_reach.mpr ⟨present, .single step⟩))).2

end Reach

section Located

variable {model : Model} (located : ∀ symbol id, model.lookup symbol = some id → id < model.size)
include located

theorem lt_size_of_refers {source target : EntryId} (refers : model.Refers source target) :
    target < model.size := by
  cases refers with
  | mentioned _ _ found => exact located _ target found
  | condition _ _ _ _ found => exact located _ target found
  | implying _ member _ => exact lt_size_of_mem_impliesOf member

variable (acyclic : model.Acyclic)
include acyclic

/-- Where readings go as deep as an entry refers to others, its value does not depend on how deep
they go, nor on what is read at the bottom. -/
theorem valueOver_eq {bottom other : Reading} {first second : Nat} {id : EntryId}
    (deep : (model.reach model.Refers id).card < first)
    (deep' : (model.reach model.Refers id).card < second) :
    model.valueOver bottom first id = model.valueOver other second id := by
  induction first generalizing id second with
  | zero => exact absurd deep (Nat.not_lt_zero _)
  | succ first ih =>
      obtain ⟨depth, rfl⟩ := Nat.exists_eq_add_one_of_ne_zero (Nat.ne_zero_of_lt deep')
      rw [valueOver_succ, valueOver_succ]
      cases found : model.get? id with
      | none => rfl
      | some entry =>
          refine valueFrom_congr rfl found fun target refers => ?_
          have less := card_reach_lt acyclic refers (lt_size_of_refers located refers)
          exact ih (Nat.lt_of_lt_of_le less (Nat.le_of_lt_succ deep))
            (Nat.lt_of_lt_of_le less (Nat.le_of_lt_succ deep'))

theorem value_eq_valueFrom {id : EntryId} {entry : Entry} (found : model.get? id = some entry) :
    model.value id = model.valueFrom model.value entry := by
  have deep := card_reach_lt_size acyclic (List.getElem?_eq_some_iff.mp found).1
  rw [value, valueWithin_eq_valueOver, valueOver_eq located acyclic deep (Nat.lt_succ_of_lt deep),
    valueOver_succ, found]

end Located

section Settled

open Classical in
/-- The entries whose values are not cut off if readings are nested at most as deep as given. -/
noncomputable def settled (model : Model) (depth : Nat) : Finset EntryId :=
  (Finset.range model.size).filter fun id =>
    ∀ cause, cause.Circular → model.valueWithin depth id ≠ .error cause

variable {model : Model}

@[simp]
theorem mem_settled {depth : Nat} {id : EntryId} :
    id ∈ model.settled depth ↔ id < model.size ∧
      ∀ cause, cause.Circular → model.valueWithin depth id ≠ .error cause := by
  simp [settled]

theorem valueWithin_of_settled {shallow deep : Nat} (deeper : shallow ≤ deep) {id : EntryId}
    (settled : id ∈ model.settled shallow) :
    model.valueWithin deep id = model.valueWithin shallow id :=
  (valueWithin_alike model deeper id).eq (mem_settled.mp settled).2

theorem settled_mono : Monotone model.settled := by
  intro shallow deep deeper id settled
  rw [mem_settled, valueWithin_of_settled deeper settled]
  exact mem_settled.mp settled

variable (located : ∀ symbol id, model.lookup symbol = some id → id < model.size)
include located

/-- If one step deeper no more values are settled, then neither are they two steps deeper: what is
read there is cut off as before or settled. -/
theorem settled_stays {depth : Nat} (same : model.settled depth = model.settled (depth + 1)) :
    model.settled (depth + 1) = model.settled (depth + 2) := by
  refine (settled_mono (Nat.le_succ _)).antisymm fun id settled => ?_
  have present := (mem_settled.mp settled).1
  have found : model.get? id = some model.entries[id] := List.getElem?_eq_getElem present
  have back : (model.valueWithin (depth + 2) id).Alike Error.Circular Eq
      (model.valueWithin (depth + 1) id) := by
    rw [valueWithin_succ, valueWithin_succ, found]
    refine valueFrom_alike_of_refers rfl found fun target refers => ?_
    by_cases before : target ∈ model.settled depth
    · exact .of_eq (valueWithin_of_settled (Nat.le_succ _) before)
    · rw [same, mem_settled] at before
      push Not at before
      obtain ⟨cause, circular, cut⟩ := before (lt_size_of_refers located refers)
      rw [cut]
      exact .inl circular
  rw [mem_settled, back.eq (mem_settled.mp settled).2]
  exact mem_settled.mp settled

/-- Whatever is settled at some depth is settled at the depth of the number of entries. -/
theorem settled_subset_size (depth : Nat) : model.settled depth ⊆ model.settled model.size := by
  have bounded : ∀ depth, (model.settled depth).card ≤ model.size := by
    intro depth
    rw [← Finset.card_range model.size]
    exact Finset.card_le_card fun id settled => Finset.mem_range.mpr (mem_settled.mp settled).1
  have rises : Monotone fun depth => (model.settled depth).card := fun _ _ deeper =>
    Finset.card_le_card (settled_mono deeper)
  have stays : ∀ depth, (model.settled depth).card = (model.settled (depth + 1)).card →
      (model.settled (depth + 1)).card = (model.settled (depth + 2)).card := by
    intro depth same
    have equal := Finset.eq_of_subset_of_card_le (settled_mono (Nat.le_succ depth)) same.ge
    rw [settled_stays located equal]
  rcases Nat.le_total depth model.size with within | beyond
  · exact settled_mono within
  · have last := Nat.stabilises_of_monotone rises bounded stays beyond
    exact (Finset.eq_of_subset_of_card_le (settled_mono beyond) last.le).ge

variable {id : EntryId} {entry : Entry} (found : model.get? id = some entry)
include found

theorem value_of_valueWithin {depth : Nat} {value : Option Value}
    (read : model.valueWithin depth id = .ok value) : model.value id = .ok value := by
  have settled : id ∈ model.settled depth := by
    refine mem_settled.mpr ⟨(List.getElem?_eq_some_iff.mp found).1, fun cause _ fails => ?_⟩
    cases read.symm.trans fails
  rcases Nat.le_total depth model.size with within | beyond
  · exact (valueWithin_of_settled within settled).trans read
  · have within := settled_subset_size located depth settled
    exact (valueWithin_of_settled beyond within).symm.trans read

/-- An entry has a value exactly if its override, its defaults and implies make it of the values of
others, even where some values refer to themselves. -/
theorem value_eq_ok_iff_valueFrom {value : Option Value} :
    model.value id = .ok value ↔ model.valueFrom model.value entry = .ok value := by
  have deeper : model.valueWithin (model.size + 1) id = model.valueFrom model.value entry := by
    rw [valueWithin_succ, found]
    rfl
  rw [← deeper]
  constructor
  · intro read
    have alike := valueWithin_alike model (Nat.le_succ model.size) id
    exact (alike.eq fun cause _ fails => nomatch read.symm.trans fails).trans read
  · exact value_of_valueWithin located found

end Settled

end Model
end OptionTree
