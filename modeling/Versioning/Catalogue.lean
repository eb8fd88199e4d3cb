import Versioning.Literal.Parse
import Versioning.Range.Parser

/-!
# Catalogues

Questions about versions that are given as texts. Texts that spell no version
are passed over, and those that are kept are returned as they were given. Order
is by precedence, and texts of equal precedence stay in the order in which they
were listed.
-/

namespace Versioning.Catalogue

/-- Why a question has no answer. -/
inductive QueryError where
  | version (error : Literal.Error)
  | range (error : Range.Error)
deriving DecidableEq, Repr

/-- The message of an error. -/
def QueryError.message : QueryError → String
  | .version error => error.message
  | .range error => error.message

/-- Whether a version satisfies a range. The version is read first. -/
def satisfies (version range : String) : Except QueryError Bool := do
  let v ← (Version.parse version).mapError .version
  let r ← (Range.parse range).mapError .range
  return r.admits v

/-- Whether a text spells a version that a range admits. -/
def admitted (r : Range) (s : String) : Bool := (Version.parse? s).any r.admits

/-- The texts that spell versions in a range, in order. -/
def satisfying (versions : List String) (range : String) : Except QueryError (List String) := do
  let r ← (Range.parse range).mapError .range
  return versions.filter (admitted r)

/-- The texts that spell versions, with the versions that they spell. -/
def entries (versions : List String) : List (Version × String) :=
  versions.filterMap fun s => (Version.parse? s).map fun v => (v, s)

/-- The texts that spell versions, the lowest precedence first. -/
def ascending (versions : List String) : List String :=
  ((entries versions).mergeSort fun a b => (compare a.1 b.1).isLE).map Prod.snd

/-- The texts that spell versions, the highest precedence first. -/
def descending (versions : List String) : List String :=
  ((entries versions).mergeSort fun a b => (compare b.1 a.1).isLE).map Prod.snd

/-- The version to start from: the one discovered, or `0.0.0.0` if there is none. -/
def initial (discovered : Option String) : Except Literal.Error Version :=
  match discovered with
  | some s => Version.parse s
  | none => .ok {}

end Versioning.Catalogue
