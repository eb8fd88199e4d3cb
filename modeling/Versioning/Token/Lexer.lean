import Versioning.Text.Run
import Versioning.Token.Basic

/-!
# Reading tokens

A text is cut into lexemes with white space between them. A lexeme is a digit
run or one of the fixed spellings, and always the longest that fits: the table
lists a spelling before those it starts with. A character at which neither white
space nor a lexeme starts is illegal, and nothing after it is looked at.

White space is what has the Unicode property `White_Space`. That is more than
`Char.isWhitespace` knows, which are four characters of ASCII.
-/

namespace Versioning

namespace Text

/-- First and last code point of each stretch of white space, in order. -/
def blankRanges : List (Nat × Nat) :=
  [(0x0009, 0x000D), (0x0020, 0x0020), (0x0085, 0x0085), (0x00A0, 0x00A0), (0x1680, 0x1680),
    (0x2000, 0x200A), (0x2028, 0x2029), (0x202F, 0x202F), (0x205F, 0x205F), (0x3000, 0x3000)]

/-- A character is blank when one of the stretches holds it. -/
def isBlank (c : Char) : Bool :=
  blankRanges.any fun (first, last) => first ≤ c.toNat && c.toNat ≤ last

/-- The stretches hold twenty-five characters between them. -/
example : (blankRanges.map fun (first, last) => last + 1 - first).sum = 25 := by
  decide

end Text

open Text

/-- A character at which no token starts. -/
structure IllegalCharacter where
  character : Char
  position : Nat
deriving DecidableEq, Repr

namespace IllegalCharacter

/-- The message of the fault. -/
def message (e : IllegalCharacter) : String :=
  "Illegal character '" ++ String.singleton e.character ++ "' at position " ++ toString e.position

end IllegalCharacter

namespace Token

/-- The lexemes that are spelled out, each after those that start with it. -/
def spellings : List (Kind × List Char) :=
  [(.dot, ['.']), (.hyphen, ['-']), (.notEqual, ['!', '=']), (.equal, ['=']),
    (.greaterEqual, ['>', '=']), (.greater, ['>']), (.lessEqual, ['<', '=']), (.less, ['<']),
    (.tilde, ['~']), (.wildcard, ['*']), (.wildcard, ['x']), (.wildcard, ['X']), (.caret, ['^']),
    (.and, ['&', '&']), (.and, ['&']), (.and, ['A', 'N', 'D']), (.and, ['a', 'n', 'd']),
    (.or, ['|', '|']), (.or, ['|']), (.or, ['O', 'R']), (.or, ['o', 'r']),
    (.not, ['!']), (.leftParen, ['(']), (.rightParen, [')'])]

/-- The lexeme at the front of a text, with its kind. -/
def lexeme? (cs : List Char) : Option (Kind × List Char) :=
  match Run.read? Char.isDigit cs with
  | some (r, _) => some (.numeric, r.chars)
  | none => spellings.find? fun s => s.2.isPrefixOf cs

/-- The tokens of a text that starts at a position. -/
def scan (position : Nat) (cs : List Char) : Except IllegalCharacter (List Token) :=
  match cs with
  | [] => .ok []
  | c :: rest =>
    if isBlank c then scan (position + 1) rest
    else match lexeme? (c :: rest) with
      | none => .error ⟨c, position⟩
      | some (kind, l) =>
        (scan (position + l.length) (rest.drop (l.length - 1))).map fun ts =>
          ⟨kind, some l, position⟩ :: ts
termination_by cs.length

/-- The tokens of a text, without the end of the input. -/
def ofChars (cs : List Char) : Except IllegalCharacter (List Token) := scan 0 cs

/-- The tokens of a text; the last is the end of the input. -/
def tokenize (s : String) : Except IllegalCharacter (List Token) :=
  (ofChars s.toList).map fun ts => ts ++ [endAt s.toList.length]

end Token

end Versioning
