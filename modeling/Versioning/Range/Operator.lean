import Versioning.Token.Basic
import Versioning.Version.Order

/-!
# Comparison operators

The six ways in which a range may ask a version to stand to a given one. All of
them go by precedence, so build tags never matter.
-/

namespace Versioning

/-- A comparison of two versions. -/
inductive Operator where
  | eq
  | ne
  | gt
  | ge
  | lt
  | le
deriving DecidableEq, Repr

namespace Operator

/-- All operators, in the order in which they are listed above. -/
def all : List Operator := [.eq, .ne, .gt, .ge, .lt, .le]

/-- The characters that spell an operator. -/
def chars : Operator → List Char
  | .eq => ['=']
  | .ne => ['!', '=']
  | .gt => ['>']
  | .ge => ['>', '=']
  | .lt => ['<']
  | .le => ['<', '=']

/-- The text that spells an operator. -/
def text (op : Operator) : String := String.ofList op.chars

/-- The operator that a kind of token stands for. -/
def ofKind? : Kind → Option Operator
  | .equal => some .eq
  | .notEqual => some .ne
  | .greater => some .gt
  | .greaterEqual => some .ge
  | .less => some .lt
  | .lessEqual => some .le
  | _ => none

/-- Whether a version stands to another as an operator says. -/
def holds : Operator → Version → Version → Bool
  | .eq, a, b => a.samePrecedence b
  | .ne, a, b => !a.samePrecedence b
  | .gt, a, b => b < a
  | .ge, a, b => b ≤ a
  | .lt, a, b => a < b
  | .le, a, b => a ≤ b

end Operator

end Versioning
