import Versioning.Range.Basic
import Versioning.Token.Lexer

/-!
# Bands and faults

A text is no range expression because a character starts no token, because a
token does not fit where it stands, or because a number is out of range: its token
spells no component, or a shorthand would have to add one to the largest one.

What a shorthand stands for is in most cases a **band**: from the components
given, padded with zeros, up to but not including the core that comes next at
one of them. A band has no upper end when that component is the largest there
is; the numeral that spells it is then out of range.
-/

namespace Versioning.Range

/-- Why a text is not a range expression. -/
inductive Error where
  | illegal (fault : IllegalCharacter)
  | unexpected (fault : UnexpectedToken)
  | outOfRange (numeral : Token)
deriving DecidableEq, Repr

/-- The message of a fault. Nothing in it is escaped. -/
def Error.message : Error → String
  | .illegal fault => fault.message
  | .unexpected fault => fault.message
  | .outOfRange numeral =>
    "Version component \"" ++ String.ofList numeral.chars ++ "\" at position " ++
      toString numeral.position ++ " is out of range"

/-- A component, with the token it was read from. -/
structure Numeral where
  value : Component
  token : Token
deriving DecidableEq

/-- One or more numerals. -/
structure Numerals where
  first : Numeral
  more : List Numeral
deriving DecidableEq

namespace Numerals

/-- All numerals, in order. -/
def toList (ns : Numerals) : List Numeral := ns.first :: ns.more

/-- The numeral in front of others. -/
def cons (n : Numeral) (ns : Numerals) : Numerals := ⟨n, ns.toList⟩

/-- The core that starts with the numerals. -/
def core (ns : Numerals) : Core := Core.padded (ns.toList.map Numeral.value)

/-- The last numeral. -/
def last (ns : Numerals) : Numeral := ns.more.getLast?.getD ns.first

/-- The first numeral that is not zero, with its index. -/
def firstNonzero? (ns : Numerals) : Option (Numeral × Nat) :=
  ns.toList.zipIdx.find? fun n => n.1.value ≠ 0

end Numerals

/-- From a core up to the one that comes next at an index. If there is none, the component at
the index, which `numeral` spells, is to blame. -/
def band (lower : Core) (index : Nat) (numeral : Token) : Except Error Range :=
  match lower.incrementAt? index with
  | some upper => .ok (.and (.comparison .ge lower) (.comparison .lt upper))
  | none => .error (.outOfRange numeral)

/-- The band that ends where the last of the numerals is increased. -/
def bandAtLast (ns : Numerals) : Except Error Range :=
  band ns.core ns.more.length ns.last.token

/-- The band that ends where the first numeral that is not zero is increased; if all are zero,
nothing but the core itself. -/
def bandAtFirstNonzero (ns : Numerals) : Except Error Range :=
  match ns.firstNonzero? with
  | some (n, index) => band ns.core index n.token
  | none => .ok (.comparison .eq ns.core)

end Versioning.Range
