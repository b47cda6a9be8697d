import OptionTree.Text.Blank

/-!
# Written numbers

Whole numbers of the signed 64-bit range are read in base ten and base sixteen.  A sign may come
first, and at least one digit must follow; anything else, and any number outside the range, is
refused.  Negative numbers are written in base sixteen as their two's complement on 64 bits.
-/

namespace OptionTree
namespace Numeral

/-- Whether a number fits into a signed 64-bit word. -/
def InRange (n : Int) : Prop := -0x8000000000000000 ≤ n ∧ n < 0x8000000000000000

instance (n : Int) : Decidable (InRange n) := inferInstanceAs (Decidable (_ ∧ _))

/-- What a number lacks to two, in a signed 64-bit word. -/
def complement (n : Int) : Int := (2 - n).bmod 0x10000000000000000

/-- The value of a digit, for digits below ten and for letters above them in either case. -/
def digitValue? (c : Char) : Option Nat :=
  if '0' ≤ c ∧ c ≤ '9' then some (c.toNat - '0'.toNat)
  else if 'a' ≤ c ∧ c ≤ 'z' then some (c.toNat - 'a'.toNat + 10)
  else if 'A' ≤ c ∧ c ≤ 'Z' then some (c.toNat - 'A'.toNat + 10)
  else none

/-- The value of a digit of the given base. -/
def digit? (base : Nat) (c : Char) : Option Nat :=
  (digitValue? c).filter (· < base)

/-- The number that continues `total` by the given digits. -/
def extend? (base : Nat) (total : Nat) : List Char → Option Nat
  | [] => some total
  | c :: rest => (digit? base c).bind fun digit => extend? base (total * base + digit) rest

/-- The number written by one or more digits without a sign. -/
def magnitude? (base : Nat) : List Char → Option Nat
  | [] => none
  | digits => extend? base 0 digits

/-- The number written by an optional sign and one or more digits. -/
def signed? (base : Nat) : List Char → Option Int
  | '-' :: digits => (magnitude? base digits).map fun n => -(n : Int)
  | '+' :: digits => (magnitude? base digits).map fun n => (n : Int)
  | digits => (magnitude? base digits).map fun n => (n : Int)

/-- The number of the signed 64-bit range that a text writes in the given base. -/
def read? (base : Nat) (text : List Char) : Option Int :=
  (signed? base text).filter fun n => decide (InRange n)

/-- A text without the mark that announces base sixteen. -/
def dropHexMark : List Char → List Char
  | '0' :: 'x' :: digits => digits
  | '0' :: 'X' :: digits => digits
  | digits => digits

/-- The number that a text writes in base ten, white space around it aside. -/
def decimal? (text : String) : Option Int := read? 10 (Text.trim text.toList)

/-- The number that a text writes in base sixteen, white space around it aside.  The mark of the
base is optional and stands before the sign. -/
def hexadecimal? (text : String) : Option Int :=
  read? 16 (dropHexMark (Text.trim text.toList))

/-- The characters of a number in base ten. -/
def decimalChars (n : Int) : List Char :=
  if n < 0 then '-' :: Nat.toDigits 10 n.natAbs else Nat.toDigits 10 n.natAbs

/-- A number in base ten. -/
def decimal (n : Int) : String := String.ofList (decimalChars n)

/-- The unsigned 64-bit word with the same bits as a number. -/
def word (n : Int) : Nat := (n % 0x10000000000000000).toNat

/-- The word of a number in base sixteen, behind the mark of the base. -/
def hexadecimal (n : Int) : String := String.ofList ('0' :: 'x' :: Nat.toDigits 16 (word n))

theorem extend?_append (base total : Nat) (first second : List Char) :
    extend? base total (first ++ second) =
      (extend? base total first).bind fun sum => extend? base sum second := by
  induction first generalizing total with
  | nil => rfl
  | cons c rest ih =>
    rw [List.cons_append, extend?, extend?, Option.bind_assoc]
    exact Option.bind_congr fun digit _ => ih _

theorem inRange_of_read? {base : Nat} {text : List Char} {n : Int}
    (read : read? base text = some n) : InRange n := by
  simpa using (Option.filter_eq_some_iff.mp read).2

@[simp]
theorem toList_decimal (n : Int) : (decimal n).toList = decimalChars n := by
  simp [decimal]

end Numeral
end OptionTree
