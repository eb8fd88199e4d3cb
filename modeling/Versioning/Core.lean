import Versioning.Component

/-!
# The numeric core of a version

A core is four components, `major.minor.build.subBuild`, ordered from the most
significant one on. A `Place` names one of the four. Incrementing a core at a
place adds one there and zeroes everything less significant; `Core.advance?`
goes the other way and names the place at which one core is ahead of another.
-/

namespace Versioning

/-- One of the four places of a core, the most significant first. -/
inductive Place where
  | major
  | minor
  | build
  | subBuild
deriving DecidableEq, Repr

namespace Place

/-- All places, the most significant first. -/
def all : List Place := [.major, .minor, .build, .subBuild]

/-- How many places are more significant. -/
def index : Place → Nat
  | .major => 0
  | .minor => 1
  | .build => 2
  | .subBuild => 3

/-- The place that has a given number of more significant ones. -/
def ofIndex? (i : Nat) : Option Place := all[i]?

/-- What the component at a place is called. -/
def title : Place → String
  | .major => "major version"
  | .minor => "minor version"
  | .build => "build version"
  | .subBuild => "subBuild version"

@[simp] theorem ofIndex?_index (p : Place) : ofIndex? p.index = some p := by
  cases p <;> rfl

end Place

/-- Four components; those not given are zero. -/
@[ext] structure Core where
  major : Component := 0
  minor : Component := 0
  build : Component := 0
  subBuild : Component := 0
deriving DecidableEq

namespace Core

instance : Inhabited Core := ⟨{}⟩

/-- The component at a place. -/
def get (c : Core) : Place → Component
  | .major => c.major
  | .minor => c.minor
  | .build => c.build
  | .subBuild => c.subBuild

/-- The components, the most significant first. -/
def components (c : Core) : List Component := Place.all.map c.get

/-- The core that starts with the given components and goes on with zeros. Only the first
four count. -/
def padded (cs : List Component) : Core :=
  ⟨cs.getD 0 0, cs.getD 1 0, cs.getD 2 0, cs.getD 3 0⟩

/-- The core of four signed words, unless one of them is negative. -/
def ofInt64s? (major minor build subBuild : Int64) : Option Core := do
  return ⟨← Component.ofInt64? major, ← Component.ofInt64? minor, ← Component.ofInt64? build,
    ← Component.ofInt64? subBuild⟩

/-- Replaces the component at a place and zeroes the less significant ones. -/
def startAt (c : Core) (p : Place) (n : Component) : Core :=
  match p with
  | .major => ⟨n, 0, 0, 0⟩
  | .minor => ⟨c.major, n, 0, 0⟩
  | .build => ⟨c.major, c.minor, n, 0⟩
  | .subBuild => ⟨c.major, c.minor, c.build, n⟩

/-- Adds one at a place and zeroes the less significant places. There is no such core when
the component is already the largest. -/
def increment? (c : Core) (p : Place) : Option Core := (c.get p).succ?.map (c.startAt p)

/-- As `increment?`, with the place given by its index; an index past the last has no core. -/
def incrementAt? (c : Core) (i : Nat) : Option Core := (Place.ofIndex? i).bind c.increment?

/-- Cores are compared component by component, the most significant first. -/
instance : Ord Core :=
  ⟨compareLex (compareOn major) <| compareLex (compareOn minor) <|
    compareLex (compareOn build) (compareOn subBuild)⟩

instance : LT Core := ltOfOrd

instance : LE Core := leOfOrd

/-- The most significant place at which `b` differs from `a`, if `b` is ahead of `a`. -/
def advance? (a b : Core) : Option Place :=
  if a < b then Place.all.find? fun p => a.get p != b.get p else none

/-- The text of a core: its components, with dots between them. -/
def chars (c : Core) : List Char := ['.'].intercalate (c.components.map Component.digits)

/-- The text of a core as a string. -/
def text (c : Core) : String := String.ofList c.chars

theorem chars_eq (c : Core) :
    c.chars = c.major.digits ++ '.' :: (c.minor.digits ++ '.' :: (c.build.digits ++
      '.' :: c.subBuild.digits)) := by
  simp [chars, components, Place.all, get, List.intercalate]

@[simp] theorem padded_components (c : Core) : padded c.components = c := rfl

end Core

end Versioning
