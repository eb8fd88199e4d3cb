import Versioning.Literal.CharClass

/-!
# Faults in version literals

While a literal is read, a fault is known by its cause and by what was left to
read when it came up (`Failure`). Seen from outside it has a position in the
whole text and shows the character found there (`Error`).
-/

namespace Versioning.Literal

/-- Why a text is not the literal it should be. -/
inductive Cause where
  /-- The next character belongs to none of the classes that may follow. -/
  | unexpected (expected : List CharClass)
  /-- An identifier has no character. -/
  | emptyIdentifier
  /-- A number starts with a zero and does not end with it. -/
  | leadingZero
  /-- A component is larger than any component may be. -/
  | tooLarge (digits : List Char)
deriving DecidableEq, Repr

namespace Cause

/-- The classes of which one should have followed. -/
def expected : Cause → List CharClass
  | .unexpected classes => classes
  | .emptyIdentifier => CharClass.ofIdentifier
  | .leadingZero => []
  | .tooLarge _ => []

end Cause

/-- A fault, and what was left to read when it came up. -/
structure Failure where
  cause : Cause
  rest : List Char
deriving DecidableEq, Repr

/-- A fault, its position in the text, counted in characters, and the character found there. -/
structure Error where
  cause : Cause
  position : Nat
  found : Option Char
deriving DecidableEq, Repr

/-- The place of a failure in the text that was read. -/
def Failure.locate (f : Failure) (text : List Char) : Error where
  cause := f.cause
  position := text.length - f.rest.length
  found := f.rest.head?

namespace Error

/-- What was found instead of a character of the expected classes. -/
def describeFound (e : Error) : String :=
  match e.found with
  | some c => "character '" ++ String.singleton c ++ "'"
  | none => "end of input"

/-- The sentence that says what was found where, and what could have stood there. -/
def unexpectedMessage (e : Error) : String :=
  "Unexpected " ++ e.describeFound ++ " at position " ++ toString e.position ++
    ", expecting [" ++ ", ".intercalate (e.cause.expected.map CharClass.name) ++ "]"

/-- The message of a fault. Nothing in it is escaped. -/
def message (e : Error) : String :=
  match e.cause with
  | .unexpected _ => e.unexpectedMessage
  | .emptyIdentifier => "Identifiers MUST NOT be empty: " ++ e.unexpectedMessage
  | .leadingZero =>
    "Numeric identifier MUST NOT contain leading zeroes (at position " ++ toString e.position ++ ")"
  | .tooLarge digits =>
    "Numeric identifier \"" ++ String.ofList digits ++ "\" at position " ++ toString e.position ++
      " is too large"

end Error

end Versioning.Literal
