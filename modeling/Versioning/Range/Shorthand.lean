import Versioning.Token.Basic

/-!
# Shorthands

A shorthand is an atom of a range expression that is not a plain comparison.
Which of them stands at a place, if any, is decided by looking ahead, before
anything is taken. The choice looks past the end of the atom, up to the first
token that is neither a number nor a dot.
-/

namespace Versioning.Range

/-- The forms of a range that are short for a band or for all versions. -/
inductive Shorthand where
  | tilde
  | caret
  | wildcard
  | hyphen
  | partialVersion
deriving DecidableEq, Repr

namespace Shorthand

/-- The name of a shorthand in events. -/
def name : Shorthand → String
  | .tilde => "tilde"
  | .caret => "caret"
  | .wildcard => "wildcard"
  | .hyphen => "hyphen"
  | .partialVersion => "partial version"

/-- How many tokens, the one after it included, a version may take up and still count as
partial. -/
def partialWindow : Nat := 5

/-- Whether the next token is of a kind. -/
def nextIs (kind : Kind) (ts : List Token) : Bool := ts.head?.any fun t => t.kind = kind

/-- The kind of the first token that is neither a number nor a dot. -/
def kindAfterVersion? (ts : List Token) : Option Kind :=
  (ts.find? fun t => !t.kind.inVersion).map Token.kind

/-- The shorthand that starts here, if it is not a comparison that does. -/
def select? (ts : List Token) : Option Shorthand :=
  if nextIs .tilde ts then some .tilde
  else if nextIs .caret ts then some .caret
  else if kindAfterVersion? ts = some .wildcard then some .wildcard
  else if kindAfterVersion? ts = some .hyphen then some .hyphen
  else if nextIs .numeric ts ∧ (ts.takeWhile fun t => t.kind.inVersion).length < partialWindow then
    some .partialVersion
  else none

end Shorthand

end Versioning.Range
