/-!
# Character classes

The grammar of version literals sees a character only through its class. The
letters and digits are those of ASCII; the end of the text has a class of its
own, and whatever the grammar has no use for is illegal.
-/

namespace Versioning

/-- What the grammar of version literals can tell apart. -/
inductive CharClass where
  | digit
  | letter
  | dot
  | hyphen
  | plus
  | endOfInput
  | illegal
deriving DecidableEq, Repr

namespace CharClass

/-- The class of the next character, if there is one. -/
def of : Option Char → CharClass
  | none => .endOfInput
  | some c =>
    if c.isDigit then .digit
    else if c.isAlpha then .letter
    else if c = '.' then .dot
    else if c = '-' then .hyphen
    else if c = '+' then .plus
    else .illegal

/-- The class of each character of a text, and that of its end. -/
def ofText (s : String) : List CharClass :=
  s.toList.map (fun c => of (some c)) ++ [of none]

/-- The name of a class in messages. -/
def name : CharClass → String
  | .digit => "DIGIT"
  | .letter => "LETTER"
  | .dot => "DOT"
  | .hyphen => "HYPHEN"
  | .plus => "PLUS"
  | .endOfInput => "EOI"
  | .illegal => "ILLEGAL"

/-- The classes of which identifiers are made. -/
def ofIdentifier : List CharClass := [.digit, .letter, .hyphen]

end CharClass

end Versioning
