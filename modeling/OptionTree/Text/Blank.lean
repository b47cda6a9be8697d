/-!
# White space and trimming

White space is the Unicode property `White_Space`.  Texts are read as lists of characters, and
trimming drops the longest blank run at the ends that it is asked to clean.
-/

namespace OptionTree
namespace Text

/-- First and last code point of each run of characters with the property `White_Space`. -/
def blankRuns : List (Nat × Nat) :=
  [(0x09, 0x0d), (0x20, 0x20), (0x85, 0x85), (0xa0, 0xa0), (0x1680, 0x1680), (0x2000, 0x200a),
    (0x2028, 0x2029), (0x202f, 0x202f), (0x205f, 0x205f), (0x3000, 0x3000)]

/-- Whether a character is white space. -/
def isBlank (c : Char) : Bool :=
  blankRuns.any fun run => run.1 ≤ c.toNat && c.toNat ≤ run.2

/-- The text without the white space at its start. -/
def trimStart (text : List Char) : List Char := text.dropWhile isBlank

/-- The text without the white space at its end. -/
def trimEnd (text : List Char) : List Char := (trimStart text.reverse).reverse

/-- The text without the white space at either end. -/
def trim (text : List Char) : List Char := trimEnd (trimStart text)

theorem trimStart_eq_self {text : List Char} (solid : ∀ c ∈ text.head?, isBlank c = false) :
    trimStart text = text := by
  cases text with
  | nil => rfl
  | cons c rest => simp [trimStart, solid c rfl]

theorem trimEnd_eq_self {text : List Char} (solid : ∀ c ∈ text.getLast?, isBlank c = false) :
    trimEnd text = text := by
  rw [trimEnd, trimStart_eq_self, List.reverse_reverse]
  simpa using solid

theorem trim_eq_self {text : List Char} (start : ∀ c ∈ text.head?, isBlank c = false)
    (stop : ∀ c ∈ text.getLast?, isBlank c = false) : trim text = text := by
  rw [trim, trimStart_eq_self start, trimEnd_eq_self stop]

end Text
end OptionTree
