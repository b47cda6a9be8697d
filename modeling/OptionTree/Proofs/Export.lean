import OptionTree.Assignments
import OptionTree.Proofs.Outcome

/-!
# What an export writes

An export writes one line for every entry with a symbol and a type that can be read, in the order
of the entries.  An entry of such a type always has a value.
-/

namespace OptionTree

theorem OptionType.write?_isSome (type : OptionType) (value : Value) :
    (type.write? value).isSome = type.zero?.isSome := by
  cases type <;> rfl

namespace Model

/-- What an export writes for an entry, if it writes something. -/
def written? (model : Model) (id : EntryId) : Option (String × String) :=
  (model.get? id).bind fun entry => (model.exportEntry id entry).toOption.join

theorem exportFrom_eq_ok {model : Model} {id : EntryId} {entries : List Entry}
    {lines : List (String × String)} (exported : model.exportFrom id entries = .ok lines)
    (positions : ∀ (index : Nat) (entry : Entry), entries[index]? = some entry →
      model.get? (id + index) = some entry) :
    lines = (List.range' id entries.length).filterMap model.written? ∧
      ∀ (index : Nat) (entry : Entry), entries[index]? = some entry →
        ∃ line, model.exportEntry (id + index) entry = .ok line := by
  induction entries generalizing id lines with
  | nil =>
      rw [exportFrom] at exported
      cases exported
      exact ⟨rfl, fun index entry found => by simp at found⟩
  | cons entry rest ih =>
      rw [exportFrom] at exported
      obtain ⟨line, first, behind⟩ := Except.bind_eq_ok_iff.mp exported
      obtain ⟨others, later, rfl⟩ := Except.map_eq_ok_iff.mp behind
      have here : model.get? id = some entry := positions 0 entry rfl
      obtain ⟨rfl, all⟩ := ih later fun index other found => by
        rw [Nat.add_assoc, Nat.add_comm 1 index]
        exact positions (index + 1) other found
      constructor
      · rw [List.length_cons, List.range'_succ, List.filterMap_cons]
        have own : model.written? id = line := by
          simp [written?, here, first, Except.toOption]
        rw [own]
        cases line <;> rfl
      · intro index other found
        cases index with
        | zero =>
            obtain rfl : entry = other := by simpa using found
            exact ⟨line, first⟩
        | succ index =>
            rw [← Nat.add_assoc, Nat.add_right_comm]
            exact all index other found

/-- What an export writes for all entries, in their order. -/
def written (model : Model) : List (String × String) :=
  (List.range model.size).filterMap model.written?

theorem exists_of_mem_written {model : Model} {line : String × String}
    (member : line ∈ model.written) : ∃ id, model.written? id = some line := by
  obtain ⟨id, -, found⟩ := List.mem_filterMap.mp member
  exact ⟨id, found⟩

theorem exportText_eq_ok {model : Model} {text : String} (exported : model.exportText = .ok text) :
    text = String.join (model.written.map assignmentLine) ∧
      ∀ id entry, model.get? id = some entry → ∃ line, model.exportEntry id entry = .ok line := by
  obtain ⟨lines, found, rfl⟩ := Except.map_eq_ok_iff.mp exported
  obtain ⟨rfl, all⟩ := exportFrom_eq_ok found fun index entry present => by
    rw [Nat.zero_add]
    exact present
  rw [written, List.range_eq_range']
  refine ⟨rfl, fun id entry present => ?_⟩
  rw [← Nat.zero_add id]
  exact all id entry present

theorem exists_exportText {model : Model}
    (each : ∀ id entry, model.get? id = some entry →
      ∃ line, model.exportEntry id entry = .ok line) : ∃ text, model.exportText = .ok text := by
  have some : ∀ (entries : List Entry) (id : EntryId), (∀ (index : Nat) (entry : Entry),
      entries[index]? = some entry → model.get? (id + index) = some entry) →
        ∃ lines, model.exportFrom id entries = .ok lines := by
    intro entries
    induction entries with
    | nil => exact fun _ _ => ⟨[], rfl⟩
    | cons entry rest ih =>
        intro id positions
        obtain ⟨line, own⟩ := each id entry (positions 0 entry rfl)
        obtain ⟨lines, later⟩ := ih (id + 1) fun index other found => by
          rw [Nat.add_assoc, Nat.add_comm 1 index]
          exact positions (index + 1) other found
        exact ⟨line.toList ++ lines, by rw [exportFrom, own, later]; rfl⟩
  obtain ⟨lines, exported⟩ := some model.entries 0 fun index entry present => by
    rw [Nat.zero_add]
    exact present
  exact ⟨_, by rw [exportText, exported]; rfl⟩

/-- The line of an entry comes from its symbol, its type and its value. -/
theorem written?_eq_some_iff {model : Model} {id : EntryId} {symbol text : String} :
    model.written? id = some (symbol, text) ↔
      ∃ entry type value, model.get? id = some entry ∧ entry.symbol = some symbol ∧
        entry.type = some type ∧ model.value id = .ok (some value) ∧
          type.write? value = some text := by
  constructor
  · intro written
    obtain ⟨entry, found, line⟩ := Option.bind_eq_some_iff.mp written
    rw [exportEntry] at line
    split at line
    · rename_i own type named typed
      cases read : model.value id with
      | error cause => simp [read, Except.toOption] at line
      | ok value =>
          cases value with
          | none => simp [read, Except.toOption] at line
          | some value =>
              obtain ⟨shown, rfl⟩ : type.write? value = some text ∧ own = symbol := by
                simpa [read, Except.toOption] using line
              exact ⟨entry, type, value, found, named, typed, rfl, shown⟩
    · cases line
  · rintro ⟨entry, type, value, found, named, typed, read, shown⟩
    simp [written?, found, exportEntry, named, typed, read, shown, Except.toOption]

theorem symbol?_of_written? {model : Model} {id : EntryId} {line : String × String}
    (written : model.written? id = some line) : model.symbol? id = some line.1 := by
  obtain ⟨entry, type, value, found, named, -⟩ := written?_eq_some_iff.mp written
  simp [symbol?, found, named]

theorem lt_size_of_written? {model : Model} {id : EntryId} {line : String × String}
    (written : model.written? id = some line) : id < model.size := by
  obtain ⟨entry, type, value, found, -⟩ := written?_eq_some_iff.mp written
  exact (List.getElem?_eq_some_iff.mp found).1

theorem mem_written {model : Model} {id : EntryId} {line : String × String}
    (written : model.written? id = some line) : line ∈ model.written :=
  List.mem_filterMap.mpr ⟨id, List.mem_range.mpr (lt_size_of_written? written), written⟩

theorem value_eq {model : Model} {id : EntryId} {entry : Entry}
    (found : model.get? id = some entry) :
    ∃ reading, model.value id = model.valueFrom reading entry := by
  have present : id < model.size := (List.getElem?_eq_some_iff.mp found).1
  obtain ⟨depth, positive⟩ := Nat.exists_eq_add_one_of_ne_zero (Nat.ne_zero_of_lt present)
  refine ⟨model.valueWithin depth, ?_⟩
  rw [value, positive, valueWithin_succ, found]

theorem lt_size_of_value {model : Model} {id : EntryId} {value : Value}
    (read : model.value id = .ok (some value)) : id < model.size := by
  cases found : model.get? id with
  | some entry => exact (List.getElem?_eq_some_iff.mp found).1
  | none =>
      rw [Model.value] at read
      cases size : model.size with
      | zero =>
          rw [size] at read
          cases read
      | succ depth =>
          rw [size, valueWithin_succ, found] at read
          cases read

theorem value_of_override {model : Model} {id : EntryId} {value : Value}
    (set : model.override? id = some value) : model.value id = .ok (some value) := by
  obtain ⟨entry, found, own⟩ := Option.bind_eq_some_iff.mp set
  obtain ⟨reading, same⟩ := value_eq found
  rw [same, valueFrom, own]

theorem defaultValue_isSome {scope : Scope} {fallback : Option Value} (some : fallback.isSome)
    {defaults : List Conditional} {value : Option Value}
    (found : defaultValue scope fallback defaults = .ok value) : value.isSome := by
  induction defaults with
  | nil =>
      obtain rfl := Except.ok.inj found
      exact some
  | cons default rest ih =>
      obtain ⟨applies, -, behind⟩ := Except.bind_eq_ok_iff.mp found
      cases applies with
      | true =>
          obtain ⟨result, -, rfl⟩ := Except.map_eq_ok_iff.mp behind
          rfl
      | false => exact ih behind

theorem raised_isSome {computed : Option Value} (some : computed.isSome) (level : Tristate) :
    (raised computed level).isSome := by
  rw [raised]
  split
  · rfl
  · exact some

theorem value_isSome {model : Model} {id : EntryId} {entry : Entry} {type : OptionType}
    (found : model.get? id = some entry) (typed : entry.type = some type)
    (zero : type.zero?.isSome) {value : Option Value} (read : model.value id = .ok value) :
    value.isSome := by
  obtain ⟨reading, same⟩ := value_eq found
  rw [same, valueFrom] at read
  split at read
  · obtain rfl := Except.ok.inj read
    rfl
  · obtain ⟨computed, defaulted, behind⟩ := Except.bind_eq_ok_iff.mp read
    have some : computed.isSome := by
      refine defaultValue_isSome ?_ defaulted
      rw [typed]
      exact zero
    split at behind
    · obtain ⟨level, -, rfl⟩ := Except.map_eq_ok_iff.mp behind
      exact raised_isSome some level
    · obtain rfl := Except.ok.inj behind
      exact some

/-- An export writes a line for every entry with a symbol and a type that can be read. -/
theorem exists_written? {model : Model} {text : String} (exported : model.exportText = .ok text)
    {id : EntryId} {entry : Entry} {type : OptionType} {symbol : String}
    (found : model.get? id = some entry) (named : entry.symbol = some symbol)
    (typed : entry.type = some type) (zero : type.zero?.isSome) :
    ∃ value line, model.value id = .ok (some value) ∧ type.write? value = some line ∧
      model.written? id = some (symbol, line) := by
  obtain ⟨line, reads⟩ := (exportText_eq_ok exported).2 id entry found
  simp only [exportEntry, named, typed] at reads
  obtain ⟨read, same, -⟩ := Except.map_eq_ok_iff.mp reads
  obtain ⟨value, rfl⟩ := Option.isSome_iff_exists.mp (value_isSome found typed zero same)
  rw [← type.write?_isSome value] at zero
  obtain ⟨shown, written⟩ := Option.isSome_iff_exists.mp zero
  refine ⟨value, shown, same, written, ?_⟩
  exact written?_eq_some_iff.mpr ⟨entry, type, value, found, named, typed, same, written⟩

end Model
end OptionTree
