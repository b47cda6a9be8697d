import OptionTree.Numeral

/-!
# Reading written numbers

The digits of a number are read as that number.  What is written in base ten is read as it was; in
base sixteen the word of a number is written, and reading it again fails for words that are too
large.
-/

namespace Nat

theorem exists_of_mem_toDigits {base : Nat} (proper : 1 < base) {n : Nat} {c : Char}
    (member : c ∈ Nat.toDigits base n) : ∃ digit, digit < base ∧ c = digit.digitChar := by
  induction n using Nat.strongRecOn with
  | ind n ih =>
      rcases Nat.lt_or_ge n base with small | large
      · rw [Nat.toDigits_of_lt_base small] at member
        exact ⟨n, small, List.mem_singleton.mp member⟩
      · rw [Nat.toDigits_of_base_le proper large] at member
        rcases List.mem_append.mp member with front | last
        · exact ih (n / base) (Nat.div_lt_self (by omega) proper) front
        · exact ⟨n % base, Nat.mod_lt n (by omega), List.mem_singleton.mp last⟩

theorem forall_mem_toDigits {base : Nat} (proper : 1 < base) (bound : base ≤ 16)
    {property : Char → Bool} (digits : ∀ digit : Fin 16, property digit.val.digitChar = true)
    (n : Nat) : ∀ c ∈ Nat.toDigits base n, property c = true := by
  intro c member
  obtain ⟨digit, small, rfl⟩ := exists_of_mem_toDigits proper member
  exact digits ⟨digit, Nat.lt_of_lt_of_le small bound⟩

end Nat

namespace OptionTree
namespace Numeral

theorem digitValue?_digitChar {digit : Nat} (small : digit < 16) :
    digitValue? digit.digitChar = some digit := by
  have all : ∀ digit : Fin 16, digitValue? digit.val.digitChar = some digit.val := by decide
  exact all ⟨digit, small⟩

theorem digit?_digitChar {base digit : Nat} (small : digit < base) (bound : base ≤ 16) :
    digit? base digit.digitChar = some digit := by
  simp [digit?, digitValue?_digitChar (Nat.lt_of_lt_of_le small bound), small]

/-- The digits of a number are read as the number. -/
theorem extend?_toDigits {base : Nat} (proper : 1 < base) (bound : base ≤ 16) (n : Nat) :
    extend? base 0 (Nat.toDigits base n) = some n := by
  induction n using Nat.strongRecOn with
  | ind n ih =>
      rcases Nat.lt_or_ge n base with small | large
      · rw [Nat.toDigits_of_lt_base small, extend?, digit?_digitChar small bound]
        simp [extend?]
      · rw [Nat.toDigits_of_base_le proper large, extend?_append,
          ih (n / base) (Nat.div_lt_self (by omega) proper), Option.bind_some, extend?,
          digit?_digitChar (Nat.mod_lt n (by omega)) bound]
        simp [extend?, Nat.div_add_mod']

theorem magnitude?_toDigits {base : Nat} (proper : 1 < base) (bound : base ≤ 16) (n : Nat) :
    magnitude? base (Nat.toDigits base n) = some n := by
  obtain ⟨c, rest, shape⟩ := List.exists_cons_of_ne_nil (@Nat.toDigits_ne_nil n base)
  have read := extend?_toDigits proper bound n
  rw [shape] at read ⊢
  exact read

theorem signed?_toDigits {base : Nat} (proper : 1 < base) (bound : base ≤ 16) (n : Nat) :
    signed? base (Nat.toDigits base n) = some (n : Int) := by
  have unsigned : ∀ c ∈ Nat.toDigits base n, (c != '-' && c != '+') = true :=
    Nat.forall_mem_toDigits proper bound (by decide) n
  have read := magnitude?_toDigits proper bound n
  unfold signed?
  split
  · rename_i same
    exact absurd (unsigned '-' (same ▸ List.mem_cons_self)) (by decide)
  · rename_i same
    exact absurd (unsigned '+' (same ▸ List.mem_cons_self)) (by decide)
  · rw [read]
    rfl

theorem signed?_decimalChars (n : Int) : signed? 10 (decimalChars n) = some n := by
  rw [decimalChars]
  split
  · rename_i negative
    simp only [signed?, magnitude?_toDigits (by decide : 1 < 10) (by decide : 10 ≤ 16)]
    simp only [bind, Option.bind_some, pure, Option.map_some, Option.some.injEq]
    omega
  · rw [signed?_toDigits (by decide) (by decide)]
    congr 1
    omega

theorem solid_toDigits {base : Nat} (proper : 1 < base) (bound : base ≤ 16) (n : Nat) :
    ∀ c ∈ Nat.toDigits base n, Text.isBlank c = false := by
  have solid := @Nat.forall_mem_toDigits base proper bound (fun c => !Text.isBlank c) (by decide) n
  simpa using solid

theorem forall_mem_decimalChars {property : Char → Bool} (sign : property '-' = true)
    (digits : ∀ digit : Fin 16, property digit.val.digitChar = true) (n : Int) :
    ∀ c ∈ decimalChars n, property c = true := by
  have unsigned := Nat.forall_mem_toDigits (by decide : 1 < 10) (by decide) digits n.natAbs
  rw [decimalChars]
  split
  · exact List.forall_mem_cons.mpr ⟨sign, unsigned⟩
  · exact unsigned

theorem solid_decimalChars (n : Int) : ∀ c ∈ decimalChars n, Text.isBlank c = false := by
  have solid := @forall_mem_decimalChars (fun c => !Text.isBlank c) (by decide) (by decide) n
  simpa using solid

theorem decimal?_decimal (n : Int) :
    decimal? (decimal n) = (some n).filter fun n => decide (InRange n) := by
  have solid := solid_decimalChars n
  rw [decimal?, toList_decimal, Text.trim_eq_self
    (fun c first => solid c (List.mem_of_mem_head? first))
    fun c last => solid c (List.mem_of_mem_getLast? last), read?, signed?_decimalChars]

theorem eq_of_decimal?_decimal {n m : Int} (read : decimal? (decimal n) = some m) : m = n := by
  rw [decimal?_decimal] at read
  exact (Option.some.inj (Option.filter_eq_some_iff.mp read).1).symm

theorem decimal?_decimal_of_inRange {n : Int} (fits : InRange n) :
    decimal? (decimal n) = some n := by
  rw [decimal?_decimal]
  exact Option.filter_some_pos (decide_eq_true fits)

@[simp]
theorem word_word (n : Int) : word (word n : Nat) = word n := by
  unfold word
  omega

@[simp]
theorem toList_hexadecimal (n : Int) :
    (hexadecimal n).toList = '0' :: 'x' :: Nat.toDigits 16 (word n) := by
  simp [hexadecimal]

theorem solid_hexadecimal (n : Int) : ∀ c ∈ (hexadecimal n).toList, Text.isBlank c = false := by
  rw [toList_hexadecimal]
  refine List.forall_mem_cons.mpr ⟨rfl, List.forall_mem_cons.mpr ⟨rfl, ?_⟩⟩
  exact solid_toDigits (by decide) (by decide) (word n)

theorem hexadecimal?_hexadecimal (n : Int) :
    hexadecimal? (hexadecimal n) = (some (word n : Int)).filter fun n => decide (InRange n) := by
  have solid := solid_hexadecimal n
  rw [hexadecimal?, Text.trim_eq_self (fun c first => solid c (List.mem_of_mem_head? first))
    fun c last => solid c (List.mem_of_mem_getLast? last), toList_hexadecimal, dropHexMark, read?,
    signed?_toDigits (by decide) (by decide)]

theorem eq_of_hexadecimal?_hexadecimal {n m : Int} (read : hexadecimal? (hexadecimal n) = some m) :
    m = word n := by
  rw [hexadecimal?_hexadecimal] at read
  exact (Option.some.inj (Option.filter_eq_some_iff.mp read).1).symm

/-- The word of a number can be read again exactly if the number is not negative. -/
theorem hexadecimal?_hexadecimal_of_inRange {n : Int} (fits : InRange n) :
    hexadecimal? (hexadecimal n) = if 0 ≤ n then some n else none := by
  have bounds := fits
  unfold InRange at bounds
  rw [hexadecimal?_hexadecimal]
  split
  · rename_i positive
    have same : (word n : Int) = n := by
      unfold word
      omega
    rw [same]
    exact Option.filter_some_pos (decide_eq_true fits)
  · rename_i negative
    have large : ¬InRange (word n : Int) := by
      unfold word InRange
      omega
    rw [Option.filter_some_neg (by simpa using large)]

end Numeral
end OptionTree
