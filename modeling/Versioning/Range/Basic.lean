import Versioning.Range.Operator

/-!
# Ranges

A range is a condition on versions: comparisons with given versions, put
together by `and`, `or` and `not`. It is shown with parentheses around every
connective and every negated range, so that the text shows the shape.
-/

namespace Versioning

/-- A condition on versions. -/
inductive Range where
  | and (left right : Range)
  | or (left right : Range)
  | not (inner : Range)
  | comparison (operator : Operator) (operand : Version)
deriving DecidableEq

namespace Range

/-- Whether a version meets the condition. -/
def admits : Range → Version → Bool
  | .and l r, v => l.admits v && r.admits v
  | .or l r, v => l.admits v || r.admits v
  | .not e, v => !e.admits v
  | .comparison op w, v => op.holds v w

/-- The characters of the text of a range. -/
def chars : Range → List Char
  | .and l r => ['('] ++ l.chars ++ [' ', '&', ' '] ++ r.chars ++ [')']
  | .or l r => ['('] ++ l.chars ++ [' ', '|', ' '] ++ r.chars ++ [')']
  | .not e => ['!', '('] ++ e.chars ++ [')']
  | .comparison op v => op.chars ++ v.chars

/-- The text of a range. -/
def text (r : Range) : String := String.ofList r.chars

instance : ToString Range := ⟨text⟩

/-- Two ranges have the same shape and operators, and operands of equal precedence. -/
def same : Range → Range → Bool
  | .and l r, .and l' r' => l.same l' && r.same r'
  | .or l r, .or l' r' => l.same l' && r.same r'
  | .not e, .not e' => e.same e'
  | .comparison op v, .comparison op' v' => op = op' && v.samePrecedence v'
  | _, _ => false

/-- The versions that occur in a range, from left to right. -/
def operands : Range → List Version
  | .and l r => l.operands ++ r.operands
  | .or l r => l.operands ++ r.operands
  | .not e => e.operands
  | .comparison _ v => [v]

end Range

end Versioning
