import OptionTree.Proofs.Chronicle
import OptionTree.Proofs.OwnExport
import OptionTree.Proofs.Repetition
import OptionTree.Proofs.TextDefaults

/-!
# Bounds that are numbers

The bounds of a range are expressions.  A number that is not negative is a name in an expression,
and stands for itself unless a symbol has that name; the sign of a negative number belongs to no
token, so such a number has to stand between quotes.  Bounds that are written so are those that
values are checked against.
-/

namespace OptionTree

namespace Numeral

/-- What writes a number as a bound, either bare or between quotes. -/
def bound (quoted : Bool) (n : Int) : String :=
  if quoted then "\"" ++ decimal n ++ "\"" else decimal n

/-- Whether a number can be read as a bound: a negative one must stand between quotes. -/
def Boundable (quoted : Bool) (n : Int) : Prop := quoted = true ∨ 0 ≤ n

instance (quoted : Bool) (n : Int) : Decidable (Boundable quoted n) :=
  inferInstanceAs (Decidable (_ ∨ _))

theorem decimalChars_ne_nil (n : Int) : decimalChars n ≠ [] := by
  rw [decimalChars]
  split
  · exact List.cons_ne_nil _ _
  · exact Nat.toDigits_ne_nil

theorem plain_decimal (n : Int) : '"' ∉ (decimal n).toList ∧ '\\' ∉ (decimal n).toList := by
  have plain := @forall_mem_decimalChars (fun c => decide (c ≠ '"' ∧ c ≠ '\\')) (by decide)
    (by decide) n
  rw [toList_decimal]
  exact ⟨fun member => (of_decide_eq_true (plain _ member)).1 rfl,
    fun member => (of_decide_eq_true (plain _ member)).2 rfl⟩

theorem isWord_decimal {n : Int} (positive : 0 ≤ n) : IsWord (decimal n) := by
  have chars : decimalChars n = Nat.toDigits 10 n.natAbs :=
    if_neg (Int.not_lt.mpr positive)
  refine ⟨fun empty => decimalChars_ne_nil n ?_, ?_⟩
  · rw [← toList_decimal, empty]
    rfl
  · rw [toList_decimal, chars]
    exact Nat.forall_mem_toDigits (by decide) (by decide) (by decide) n.natAbs

theorem solid_bound (quoted : Bool) (n : Int) :
    (bound quoted n).toList ≠ [] ∧ ∀ c ∈ (bound quoted n).toList, Text.isBlank c = false := by
  have solid := solid_decimalChars n
  cases quoted with
  | false => exact ⟨by simpa [bound] using decimalChars_ne_nil n, by simpa [bound] using solid⟩
  | true =>
      constructor
      · simp [bound]
      · intro c member
        simp only [bound, if_pos, String.toList_append, toList_decimal, List.mem_append] at member
        rcases member with (quote | inside) | quote
        · obtain rfl : c = '"' := by simpa using quote
          decide
        · exact solid c inside
        · obtain rfl : c = '"' := by simpa using quote
          decide

end Numeral

theorem Text.words_range {low high : String} (condition : Option String)
    (lowSolid : low.toList ≠ [] ∧ ∀ c ∈ low.toList, isBlank c = false)
    (highSolid : high.toList ≠ [] ∧ ∀ c ∈ high.toList, isBlank c = false) :
    (words (Conditional.range low high condition).value.toList).map String.ofList =
      [low, high] := by
  have cut : fields isBlank (low.toList ++ ' ' :: high.toList) = [low.toList, high.toList] := by
    rw [fields_append_cons lowSolid.2 (by decide), fields_of_none highSolid.2]
  have parts : (Conditional.range low high condition).value.toList =
      low.toList ++ ' ' :: high.toList := by
    simp [Conditional.range]
  rw [parts, words, cut]
  simp [lowSolid.1, highSolid.1]

namespace Token

/-- A text that starts with the sign of negative numbers has no tokens. -/
theorem tokenize_of_minus {text : String} {rest : List Char} (signed : text.toList = '-' :: rest) :
    tokenize text = [.faulty ⟨.unexpected '-', 0⟩] := by
  have here : (Cursor.start text).skipSpace = ⟨0, '-' :: rest⟩ := by
    rw [Cursor.start, signed]
    rfl
  have next : (Cursor.start text).next.1 = .faulty ⟨.unexpected '-', 0⟩ := by
    rw [Cursor.next, Cursor.lexeme, here]
    rfl
  rw [tokenize, Cursor.tokens, next]
  rfl

end Token

namespace Expression

open Numeral

theorem settleText_decimal (n : Int) :
    Mode.preserve.settleText (decimal n) = .text (decimal n) := by
  obtain ⟨notYes, notModular⟩ := decimal_ne_letter n
  rw [Mode.settleText, if_neg notYes, if_neg notModular]

theorem evaluate_bound {quoted : Bool} {n : Int} (boundable : Boundable quoted n) {scope : Scope}
    (free : scope (decimal n) = none) :
    evaluate scope .preserve (Numeral.bound quoted n) = .ok (.text (decimal n)) := by
  cases quoted with
  | true =>
      obtain ⟨unquoted, unescaped⟩ := plain_decimal n
      rw [Numeral.bound, if_pos rfl, evaluate_quoted _ _ unquoted unescaped, settleText_decimal]
  | false =>
      have positive : 0 ≤ n := boundable.resolve_left Bool.false_ne_true
      rw [Numeral.bound, if_neg Bool.false_ne_true, evaluate_of_isWord (isWord_decimal positive),
        nameValue, free, settleText_decimal]

theorem evaluate_bound_of_negative {quoted : Bool} {n : Int} (sole : ¬Boundable quoted n)
    (scope : Scope) (mode : Mode) :
    evaluate scope mode (Numeral.bound quoted n) =
      .error (.parse (decimal n) (.lexical ⟨.unexpected '-', 0⟩)) := by
  obtain ⟨bare, negative⟩ := not_or.mp sole
  obtain rfl : quoted = false := Bool.eq_false_iff.mpr bare
  have signed : (decimal n).toList = '-' :: Nat.toDigits 10 n.natAbs := by
    rw [toList_decimal, decimalChars, if_pos (Int.not_le.mp negative)]
  rw [Numeral.bound, if_neg Bool.false_ne_true, evaluate, Token.tokenize_of_minus signed]
  rfl

end Expression

namespace Model

open Numeral

theorem idle_of_force {assign : EntryId → Model → Run Unit} {model : Model}
    {select : Conditional}
    (fails : ∀ target, model.lookup select.value = some target →
      (assign target model).outcome ≠ .ok ())
    (ended : (force assign select model).outcome = .ok ()) : model.Idle select := by
  rw [force, Run.andThen_eq_ok_iff] at ended
  obtain ⟨applies, known, rest⟩ := ended
  refine ⟨applies, known, fun holds => Option.eq_none_iff_forall_ne_some.mpr fun target found => ?_⟩
  simp only [holds, if_pos, found, Run.done] at rest
  exact fails target found rest

theorem idle_of_each_force {assign : EntryId → Model → Run Unit} {model : Model}
    (fails : ∀ symbol target, model.lookup symbol = some target →
      (assign target model).outcome ≠ .ok ()) {selects : List Conditional}
    (ended : (Run.each (force assign) selects model).outcome = .ok ()) :
    ∀ select ∈ selects, model.Idle select := by
  induction selects with
  | nil => exact fun _ member => by cases member
  | cons select rest ih =>
      rw [Run.each, Run.andThen_eq_ok_iff] at ended
      obtain ⟨done, first, others⟩ := ended
      have idle := idle_of_force (fails select.value) first
      rw [force_of_idle assign idle] at others
      exact List.forall_mem_cons.mpr ⟨idle, ih others⟩

section Alone

variable {model : Model} {id : EntryId} {value : Value}

/-- If only one entry has a symbol and one of its selects is not idle, then setting it to the value
that it has fails: what it forces can only be itself. -/
theorem setWithin_ne_ok (alone : ∀ symbol target, model.lookup symbol = some target → target = id)
    (set : model.store id (some value) = model)
    (busy : ¬∀ select ∈ model.selectsOf id, model.Idle select) (depth : Nat) :
    (setWithin value depth id model).outcome ≠ .ok () := by
  induction depth with
  | zero =>
      intro ended
      cases ended
  | succ depth ih =>
      intro ended
      rw [setWithin_succ, set, Run.andThen_eq_ok_iff] at ended
      obtain ⟨_, through, -⟩ := ended
      refine busy (idle_of_each_force (fun symbol target known => ?_) through)
      rw [alone symbol target known]
      exact ih

/-- Setting the only entry with a symbol succeeds exactly if its selects are idle and it can be
announced. -/
theorem set_eq_ok_iff (alone : ∀ symbol target, model.lookup symbol = some target → target = id)
    (present : id < model.size) :
    (model.set id value).outcome = .ok () ↔
      (∀ select ∈ model.selectsOf id, (model.store id (some value)).Idle select) ∧
        ((model.store id (some value)).announce id).outcome = .ok () := by
  by_cases idle : ∀ select ∈ model.selectsOf id, (model.store id (some value)).Idle select
  · rw [set_of_idle present idle]
    exact (and_iff_right idle).symm
  · have stored : (model.store id (some value)).store id (some value) =
        model.store id (some value) :=
      store_eq_self fun inside => by
        rw [size_store] at inside
        rw [override?_store inside, if_pos rfl]
    have same := selectsOf_of_bare (bare_store model id (some value)) id
    obtain ⟨depth, positive⟩ := exists_selectDepth present
    have endless := @setWithin_ne_ok (model.store id (some value)) id value
      (fun symbol target known => alone symbol target (lookup_store .. ▸ known)) stored
      (by rwa [same]) (depth + 1)
    rw [setWithin_store, ← positive] at endless
    exact iff_of_false endless fun both => idle both.1

end Alone

/-- The error of a negative number that stands bare in a range. -/
def signFailure (n : Int) : Error := .parse (decimal n) (.lexical ⟨.unexpected '-', 0⟩)

theorem bound_of_boundable {model : Model} {quoted : Bool} {n : Int} (fits : InRange n)
    (boundable : Boundable quoted n) (free : model.lookup (decimal n) = none) :
    model.bound (some .int) (Numeral.bound quoted n) = .ok n := by
  have absent : model.scope (decimal n) = none := by rw [scope, scopeOf, free, Option.map_none]
  have counts : numberOf (some .int) (.text (decimal n)) = some n :=
    decimal?_decimal_of_inRange fits
  rw [bound, evaluate, Expression.evaluate_bound boundable absent, Except.ok_bind, counts]

theorem bound_of_not_boundable {model : Model} {quoted : Bool} {n : Int}
    (unreadable : ¬Boundable quoted n) (type : Option OptionType) :
    model.bound type (Numeral.bound quoted n) = .error (signFailure n) := by
  rw [bound, evaluate, Expression.evaluate_bound_of_negative unreadable]
  rfl

/-- Whether an entry cannot be set to a value, for a reason that is told unless the selects of the
entry fail before. -/
structure Refuses (model : Model) (id : EntryId) (value : Value) (cause : Error) : Prop where
  /-- The setting does not succeed. -/
  fails : (model.set id value).outcome ≠ .ok ()
  /-- If the selects force nothing, the setting fails with the reason. -/
  reason : (∀ select ∈ model.selectsOf id, (model.store id (some value)).Idle select) →
    (model.set id value).outcome = .error cause

/-- Whether the only symbol is that of an entry that takes numbers within two bounds. -/
structure Bounded (model : Model) (name : String) (id : EntryId) (low high : String) : Prop where
  /-- The symbol is the one of the entry. -/
  named : model.symbol? id = some name
  /-- No other symbol is declared. -/
  sole : ∀ symbol target, model.lookup symbol = some target → symbol = name ∧ target = id
  /-- The entry takes numbers. -/
  typed : ((model.get? id).bind fun entry => entry.type) = some .int
  /-- The entry has the bounds, under no condition. -/
  ranges : model.stated Declaration.ranges id = [.range low high none]

namespace Bounded

variable {model : Model} {name : String} {id : EntryId}

theorem of_bare {other : Model} {low high : String} (bounded : model.Bounded name id low high)
    (same : model.bare = other.bare) : other.Bounded name id low high where
  named := (symbol?_of_bare same id).symm.trans bounded.named
  sole symbol target known := by
    rw [← lookup_of_bare same] at known
    exact bounded.sole symbol target known
  typed := (type_of_bare same id).symm.trans bounded.typed
  ranges := (list_of_bare same Declaration.ranges id).symm.trans bounded.ranges

theorem present {low high : String} (bounded : model.Bounded name id low high) :
    id < model.size :=
  lt_size_of_symbol? bounded.named

theorem exists_entry {low high : String} (bounded : model.Bounded name id low high) :
    ∃ entry, model.get? id = some entry ∧ entry.symbol = some name ∧ entry.type = some .int ∧
      entry.ranges = [.range low high none] := by
  obtain ⟨entry, found, typed⟩ := Option.bind_eq_some_iff.mp bounded.typed
  have named := bounded.named
  have ranges := bounded.ranges
  rw [symbol?, found, Option.bind_some] at named
  rw [stated, found, Option.map_some, Option.getD_some] at ranges
  exact ⟨entry, found, named, typed, ranges⟩

theorem lookup_decimal {low high : String} (bounded : model.Bounded name id low high) {n : Int}
    (apart : name ≠ decimal n) : model.lookup (decimal n) = none :=
  Option.eq_none_iff_forall_ne_some.mpr fun target known =>
    apart (bounded.sole (decimal n) target known).1.symm

variable {low high : Int} {quotedLow quotedHigh : Bool}
  (bounded : model.Bounded name id (Numeral.bound quotedLow low) (Numeral.bound quotedHigh high))
include bounded

theorem activeRange_eq : model.activeRange id =
    (model.bound (some .int) (Numeral.bound quotedLow low)).bind fun low =>
      (model.bound (some .int) (Numeral.bound quotedHigh high)).map fun high =>
        some (low, high) := by
  obtain ⟨entry, found, -, typed, ranges⟩ := bounded.exists_entry
  have words := Text.words_range none (solid_bound quotedLow low) (solid_bound quotedHigh high)
  rw [activeRange, found]
  simp only [ranges, firstRange, typed, words]
  rfl

theorem activeRange_of_boundable (lowFits : InRange low) (highFits : InRange high)
    (apart : name ≠ decimal low ∧ name ≠ decimal high) (lowRead : Boundable quotedLow low)
    (highRead : Boundable quotedHigh high) : model.activeRange id = .ok (some (low, high)) := by
  rw [bounded.activeRange_eq,
    bound_of_boundable lowFits lowRead (bounded.lookup_decimal apart.1), Except.ok_bind,
    bound_of_boundable highFits highRead (bounded.lookup_decimal apart.2)]
  rfl

theorem activeRange_of_low (lowUnread : ¬Boundable quotedLow low) :
    model.activeRange id = .error (signFailure low) := by
  rw [bounded.activeRange_eq, bound_of_not_boundable lowUnread]
  rfl

theorem activeRange_of_high (lowFits : InRange low) (apart : name ≠ decimal low)
    (lowRead : Boundable quotedLow low) (highUnread : ¬Boundable quotedHigh high) :
    model.activeRange id = .error (signFailure high) := by
  rw [bounded.activeRange_eq, bound_of_boundable lowFits lowRead (bounded.lookup_decimal apart),
    Except.ok_bind, bound_of_not_boundable highUnread]
  rfl

theorem validate_eq {n : Int} (set : model.override? id = some (.number n)) :
    model.validate id = (model.activeRange id).bind fun bounds =>
      match bounds with
      | none => .ok ()
      | some (low, high) =>
        if n < low ∨ high < n then
          .error (.validation name (decimal n) (.outOfRange low high))
        else .ok () := by
  obtain ⟨entry, found, named, typed, -⟩ := bounded.exists_entry
  rw [validate, found]
  simp only [value_of_override set, Except.ok_bind, typed, named]
  rfl

variable {n : Int}

theorem alone (symbol : String) (target : EntryId) (known : model.lookup symbol = some target) :
    target = id :=
  (bounded.sole symbol target known).2

/-- A number that is not valid is refused, for that reason unless the selects fail before. -/
theorem set_of_invalid (strict : model.options.validateTypes = true) {cause : Error}
    (invalid : (model.store id (some (.number n))).validate id = .error cause) :
    model.Refuses id (.number n) cause := by
  have strict : (model.store id (some (.number n))).options.validateTypes = true := strict
  have told : ((model.store id (some (.number n))).announce id).outcome = .error cause := by
    rw [announce, refresh, check, if_pos strict, invalid]
    rfl
  constructor
  · rw [ne_eq, set_eq_ok_iff bounded.alone bounded.present, told]
    rintro ⟨-, accepted⟩
    cases accepted
  · intro idle
    rw [set_of_idle bounded.present idle, told]

/-- A valid number is accepted exactly if the selects are idle and the entries that mention the
symbol can tell whether they are shown. -/
theorem set_of_valid (valid : (model.store id (some (.number n))).validate id = .ok ()) :
    (model.set id (.number n)).outcome = .ok () ↔
      (∀ select ∈ model.selectsOf id, (model.store id (some (.number n))).Idle select) ∧
        ∀ other ∈ model.dependentsOf id,
          ∃ shown, (model.store id (some (.number n))).isVisible other = .ok shown := by
  have same := bare_store model id (some (.number n))
  have after := bounded.of_bare same.symm
  have alone : ∀ imply ∈ (model.store id (some (.number n))).impliesOf id, ∀ target,
      (model.store id (some (.number n))).lookup imply.value = some target → target = id :=
    fun imply _ target known => after.alone imply.value target known
  rw [set_eq_ok_iff bounded.alone bounded.present, announce_eq_ok_iff alone, refresh_eq_ok_iff,
    dependentsOf_of_bare same]
  exact and_congr_right fun _ => and_iff_right fun _ => valid

end Bounded

theorem bounded_of_build {description : Node} {options : Options} {model : Model}
    (built : build description options = .ok model) {name : String}
    (sole : ∀ declaration ∈ Node.documentAll description.entries,
      ∀ symbol ∈ declaration.symbol, symbol = name) {id : EntryId} {entry : Entry}
    (located : model.lookup name = some id) (found : model.get? id = some entry)
    (typed : entry.type = some .int) {low high : String}
    (ranges : entry.ranges = [.range low high none]) : model.Bounded name id low high := by
  have registered := (chronicle_of_build built).registered
  refine ⟨((registered name id).mp located).2, fun symbol target known => ?_, ?_, ?_⟩
  · obtain ⟨below, own⟩ := (registered symbol target).mp known
    obtain ⟨other, present, named⟩ := Option.bind_eq_some_iff.mp own
    obtain ⟨declaration, declares, states⟩ :=
      exists_declaration_of_lookup built present named below
    obtain rfl := sole declaration declares symbol states
    exact ⟨rfl, Option.some.inj (known.symm.trans located)⟩
  · rw [found, Option.bind_some, typed]
  · simpa [stated, found] using ranges

/-- A number in a range of two written numbers is accepted if its effects can be told, and any other
one is refused with both bounds; a bare negative bound lets every setting fail. -/
theorem set_of_range {description : Node} {name : String}
    (sole : ∀ declaration ∈ Node.documentAll description.entries,
      ∀ symbol ∈ declaration.symbol, symbol = name)
    {options : Options} {built : Model} (builds : build description options = .ok built)
    (strict : options.validateTypes = true) (history : List Edit) {model : Model}
    (reached : model = built.after history) {id : EntryId} {entry : Entry}
    (located : built.lookup name = some id) (found : built.get? id = some entry)
    (typed : entry.type = some .int) {low high : Int} (lowFits : InRange low)
    (highFits : InRange high) {quotedLow quotedHigh : Bool}
    (ranges : entry.ranges =
      [.range (Numeral.bound quotedLow low) (Numeral.bound quotedHigh high) none])
    (apart : name ≠ decimal low ∧ name ≠ decimal high) (n : Int) :
    (Boundable quotedLow low → Boundable quotedHigh high →
      model.activeRange id = .ok (some (low, high)) ∧
      (low ≤ n ∧ n ≤ high → ((model.set id (.number n)).outcome = .ok () ↔
        (∀ select ∈ model.selectsOf id, (model.store id (some (.number n))).Idle select) ∧
          ∀ other ∈ model.dependentsOf id, ∃ shown,
            (model.store id (some (.number n))).isVisible other = .ok shown)) ∧
      (¬(low ≤ n ∧ n ≤ high) → model.Refuses id (.number n)
        (.validation name (decimal n) (.outOfRange low high)))) ∧
    (¬Boundable quotedLow low → model.activeRange id = .error (signFailure low) ∧
      model.Refuses id (.number n) (signFailure low)) ∧
    (Boundable quotedLow low → ¬Boundable quotedHigh high →
      model.activeRange id = .error (signFailure high) ∧
      model.Refuses id (.number n) (signFailure high)) := by
  subst reached
  have bounded := (bounded_of_build builds sole located found typed ranges).of_bare
    (bare_after built history).1.symm
  rw [← options_after builds history] at strict
  generalize built.after history = model at bounded strict ⊢
  -- A number is checked when it is stored already, which leaves all declarations alone.
  have after := bounded.of_bare (bare_store model id (some (.number n))).symm
  have stored : (model.store id (some (.number n))).override? id = some (.number n) := by
    rw [override?_store bounded.present, if_pos rfl]
  have valid := after.validate_eq stored
  have refused : ∀ {cause}, (model.store id (some (.number n))).activeRange id = .error cause →
      model.Refuses id (.number n) cause := by
    intro cause unread
    rw [unread] at valid
    exact bounded.set_of_invalid strict valid
  refine ⟨fun lowRead highRead => ?_, fun lowUnread => ?_, fun lowRead highUnread => ?_⟩
  · rw [after.activeRange_of_boundable lowFits highFits apart lowRead highRead,
      Except.ok_bind] at valid
    refine ⟨bounded.activeRange_of_boundable lowFits highFits apart lowRead highRead,
      fun within => bounded.set_of_valid ?_, fun beyond => bounded.set_of_invalid strict ?_⟩
    · exact valid.trans (if_neg (by omega))
    · exact valid.trans (if_pos (by omega))
  · exact ⟨bounded.activeRange_of_low lowUnread, refused (after.activeRange_of_low lowUnread)⟩
  · exact ⟨bounded.activeRange_of_high lowFits apart.1 lowRead highUnread,
      refused (after.activeRange_of_high lowFits apart.1 lowRead highUnread)⟩

/-- A negative bound between quotes and a bare one, with an entry that depends on the symbol. -/
theorem set_of_range_of_quotes :
    let declaration : Declaration :=
      { symbol := some "N", type := some .int, ranges := [.range "\"-5\"" "512" none] }
    let shown : Declaration :=
      { kind := .comment, prompt := some ⟨"N is positive", none⟩, clauses := ["N"] }
    let nodes : List Node := [.mk declaration [], .mk shown []]
    let built : Model := placeAll root (top { kind := .menu } {}) (Outline.ofNodes nodes)
    built.activeRange 1 = .ok (some (-5, 512)) ∧ (built.set 1 (.number (-5))).outcome = .ok () ∧
      (built.set 1 (.number 513)).outcome =
        .error (.validation "N" "513" (.outOfRange (-5) 512)) := by
  intro declaration shown nodes built
  have sole : ∀ other ∈ Node.documentAll nodes, ∀ symbol ∈ other.symbol, symbol = "N" := by
    decide +kernel
  have ranged := fun (n : Int) => @set_of_range (.mk { kind := .menu } nodes) "N" sole {} built
    rfl rfl [] built rfl 1 (.ofDeclaration declaration (some root)) (by decide +kernel)
    (by decide +kernel) rfl (-5) 512 (by decide) (by decide) true false (by decide +kernel)
    (by decide +kernel) n
  obtain ⟨active, within, -⟩ := (ranged (-5)).1 (by decide) (by decide)
  obtain ⟨-, -, beyond⟩ := (ranged 513).1 (by decide) (by decide)
  have free : built.selectsOf 1 = [] := by decide +kernel
  refine ⟨active, (within (by decide)).mpr ⟨by simp [free], ?_⟩,
    (beyond (by decide)).reason (by simp [free])⟩
  have told : ∀ other ∈ built.dependentsOf 1,
      ((built.store 1 (some (.number (-5)))).isVisible other).toOption.isSome := by
    decide +kernel
  intro other member
  obtain ⟨visible, tells⟩ := Option.isSome_iff_exists.mp (told other member)
  exact ⟨visible, Except.toOption_eq_some_iff.mp tells⟩

/-- A bare negative bound lets every setting fail, also of a number that lies between the bounds. -/
theorem set_ne_ok_of_bare_bound :
    let declaration : Declaration :=
      { symbol := some "N", type := some .int
        ranges := [.range (decimal (-5)) (decimal 5) none] }
    let built : Model :=
      placeAll root (top { kind := .menu } {}) (Outline.ofNodes [.mk declaration []])
    build (.mk { kind := .menu } [.mk declaration []]) {} = .ok built ∧
      built.options.validateTypes = true ∧ built.lookup "N" = some 1 ∧
      built.activeRange 1 = .error (.parse "-5" (.lexical ⟨.unexpected '-', 0⟩)) ∧
      (built.set 1 (.number 0)).outcome = .error (.parse "-5" (.lexical ⟨.unexpected '-', 0⟩)) := by
  intro declaration built
  refine ⟨rfl, rfl, ?_, ?_, ?_⟩
  all_goals decide +kernel

end Model
end OptionTree
