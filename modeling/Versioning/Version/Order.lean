import Versioning.Version.Basic

/-!
# The two orders on versions

**Precedence** is the order of releases: the cores decide, then a version with a
pre-release comes before the one without, then the pre-releases decide. It is
the `Ord` instance, and with it come `<`, `≤`, `max` and `min`. The build tag
does not take part; `compareWithBuild` lets it decide between versions of equal
precedence.

Versions of equal precedence need not be the same version. `key` is what they
have in common, and a collection keeps one version for each key. What has the key
of a value that is already there is not added to a collection (`Distinct`), so the
first of each key stays, and values stand in the order in which they came.
-/

namespace Versioning.Distinct

variable {α κ : Type} [DecidableEq κ]

/-- No value of a collection has the key of `a`. -/
def isNew (key : α → κ) (seen : List α) (a : α) : Bool := seen.all fun b => key b ≠ key a

/-- Adds a value, unless one of the same key is there. -/
def insert (key : α → κ) (seen : List α) (a : α) : List α :=
  if isNew key seen a then seen ++ [a] else seen

/-- Adds the values of a list one after the other. -/
def insertAll (key : α → κ) (seen as : List α) : List α := as.foldl (insert key) seen

/-- The first value of each key, in order. -/
def ofList (key : α → κ) (as : List α) : List α := insertAll key [] as

/-- Which values of a list are new when all are added one after the other. -/
def news (key : α → κ) (seen : List α) : List α → List Bool
  | [] => []
  | a :: as => isNew key seen a :: news key (insert key seen a) as

/-- The number of keys. -/
def count (key : α → κ) (as : List α) : Nat := (ofList key as).length

end Versioning.Distinct

namespace Versioning.Version

/-- No pre-release comes after every pre-release. -/
def comparePreRelease : Option Tag → Option Tag → Ordering
  | none, none => .eq
  | some _, none => .lt
  | none, some _ => .gt
  | some a, some b => compare a b

/-- Precedence. -/
instance : Ord Version where
  compare a b := (compare a.core b.core).then (comparePreRelease a.preRelease b.preRelease)

instance : LT Version := ltOfOrd

instance : LE Version := leOfOrd

/-- Of two versions of equal precedence, `max` is the second and `min` the first. -/
instance : Max Version := maxOfLe

instance : Min Version := minOfLe

/-- Neither version precedes the other. -/
def samePrecedence (a b : Version) : Bool := compare a b == .eq

/-- Precedence, then the build tags; no build tag comes before every build tag. -/
def compareWithBuild (a b : Version) : Ordering :=
  (compare a b).then (compare a.build b.build)

/-- What versions of equal precedence have in common. -/
structure Key where
  core : Core
  preRelease : Option (List (List Char))
deriving DecidableEq

/-- The core, and the pre-release with numeric identifiers trimmed. -/
def key (v : Version) : Key := ⟨v.core, v.preRelease.map Tag.key⟩

/-- The first version of each key, in order. -/
def distinct (vs : List Version) : List Version := Distinct.ofList key vs

/-- Versions in the build-aware order; those that are equal in it keep their order. -/
def sortWithBuild (vs : List Version) : List Version :=
  vs.mergeSort fun a b => (compareWithBuild a b).isLE

end Versioning.Version
