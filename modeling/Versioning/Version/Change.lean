import Versioning.Literal.Parse

/-!
# Changing versions

A change makes a new version out of an old one. Incrementing a component starts
a new release, so both tags go, and a pre-release may be given for it;
incrementing or replacing the pre-release drops the build tag; the build tag can
be changed alone.

A change that cannot be made is an error that names what stood in its way.
`Version.run` makes a list of changes and passes over those that fail.
-/

namespace Versioning

/-- Why a version cannot be made or changed. -/
inductive ChangeError where
  /-- A component was given as a negative number. -/
  | negativeComponent
  /-- The component at a place is the largest there is. -/
  | atMaximum (place : Place)
  /-- There is no tag in a slot. -/
  | absent (slot : Slot)
  /-- A text does not spell what it should. -/
  | literal (error : Literal.Error)
deriving DecidableEq, Repr

namespace ChangeError

/-- The message of an error. -/
def message : ChangeError → String
  | .negativeComponent =>
    "Major, minor, build and subBuild versions MUST be non-negative integers"
  | .atMaximum place =>
    "Cannot increment the " ++ place.title ++ ": it is already at its maximum"
  | .absent slot => "Cannot increment the " ++ slot.title ++ ": it is not set"
  | .literal error => error.message

end ChangeError

namespace Core

/-- The core of four signed words. -/
def ofInt64s (major minor build subBuild : Int64) : Except ChangeError Core :=
  match ofInt64s? major minor build subBuild with
  | some c => .ok c
  | none => .error .negativeComponent

/-- Adds one at a place and zeroes the less significant places. -/
def increment (c : Core) (p : Place) : Except ChangeError Core :=
  match c.increment? p with
  | some c => .ok c
  | none => .error (.atMaximum p)

end Core

namespace Tag

/-- The tag that a text spells, as a part of a change. -/
def given (slot : Slot) (s : String) : Except ChangeError Tag :=
  (Tag.parse slot s).mapError .literal

end Tag

namespace Version

/-- The release that comes next at a place. -/
def increment (v : Version) (p : Place) : Except ChangeError Version := do
  let core ← v.core.increment p
  return { core }

/-- A pre-release of the release that comes next at a place. -/
def incrementTo (v : Version) (p : Place) (preRelease : String) :
    Except ChangeError Version := do
  let core ← v.core.increment p
  let tag ← Tag.given .preRelease preRelease
  return { core, preRelease := some tag }

/-- The next pre-release of the same core. -/
def incrementPreRelease (v : Version) : Except ChangeError Version :=
  match v.preRelease with
  | some tag => .ok { core := v.core, preRelease := some tag.increment }
  | none => .error (.absent .preRelease)

/-- The next build of the same version. -/
def incrementBuild (v : Version) : Except ChangeError Version :=
  match v.build with
  | some tag => .ok { v with build := some tag.increment }
  | none => .error (.absent .build)

/-- The given pre-release of the same core. -/
def withPreRelease (v : Version) (s : String) : Except ChangeError Version := do
  let tag ← Tag.given .preRelease s
  return { core := v.core, preRelease := some tag }

/-- The given build of the same version. -/
def withBuild (v : Version) (s : String) : Except ChangeError Version := do
  let tag ← Tag.given .build s
  return { v with build := some tag }

end Version

/-- A change to a version, as data. -/
inductive Change where
  | increment (place : Place)
  | incrementTo (place : Place) (preRelease : String)
  | incrementPreRelease
  | incrementBuild
  | setPreRelease (text : String)
  | setBuild (text : String)
deriving DecidableEq, Repr

namespace Version

/-- Makes one change. -/
def apply (v : Version) : Change → Except ChangeError Version
  | .increment p => v.increment p
  | .incrementTo p s => v.incrementTo p s
  | .incrementPreRelease => v.incrementPreRelease
  | .incrementBuild => v.incrementBuild
  | .setPreRelease s => v.withPreRelease s
  | .setBuild s => v.withBuild s

/-- Makes the changes of a list in order; one that fails leaves the version as it was. -/
def run (v : Version) : List Change → Version
  | [] => v
  | c :: cs =>
    match v.apply c with
    | .ok w => w.run cs
    | .error _ => v.run cs

end Version

end Versioning
