import Versioning.Decimal

/-!
# Identifiers

An identifier is a run of ASCII letters, digits and hyphens. One made of digits
alone is **numeric**: it counts as the number it denotes, whatever zeros it
starts with, and comes below every identifier that is not. The others are
ordered by their text.
-/

namespace Versioning

open Text

/-- ASCII letters, ASCII digits and the hyphen. -/
def isIdentifierChar (c : Char) : Bool := c.isAlphanum || c == '-'

/-- A non-empty text of letters, digits and hyphens. -/
@[ext] structure Identifier extends Run isIdentifierChar
deriving DecidableEq

theorem isIdentifierChar_of_isDigit (c : Char) (h : c.isDigit = true) :
    isIdentifierChar c = true := by
  simp [isIdentifierChar, Char.isAlphanum, h]

namespace Identifier

/-- The identifier that a digit run spells. -/
def ofDigits (r : Run Char.isDigit) : Identifier := ⟨r.widen isIdentifierChar_of_isDigit⟩

@[simp] theorem chars_ofDigits (r : Run Char.isDigit) : (ofDigits r).chars = r.chars := rfl

/-- The numeric identifier that spells a number without leading zeros. -/
def ofNat (n : Nat) : Identifier := ofDigits (Decimal.run n)

/-- An identifier is numeric when it has no character but digits. -/
def isNumeric (i : Identifier) : Bool := i.chars.all Char.isDigit

/-- An identifier as a digit run, if it is numeric. -/
def digits? (i : Identifier) : Option (Run Char.isDigit) :=
  if h : i.isNumeric = true then some ⟨i.chars, i.ne_nil, List.all_eq_true.1 h⟩ else none

/-- The text that stands for all identifiers of the same rank: a numeric one loses its
leading zeros. -/
def key (i : Identifier) : List Char :=
  if i.isNumeric then Decimal.trim i.chars else i.chars

/-- Numeric identifiers are compared as numbers and come first; the others are compared by
the code points of their text. -/
instance : Ord Identifier where
  compare a b :=
    match a.isNumeric, b.isNumeric with
    | true, true => Decimal.compare a.chars b.chars
    | true, false => .lt
    | false, true => .gt
    | false, false => compare a.chars b.chars

end Identifier

end Versioning
