import Versioning.Version.Order

/-!
# Hashing versions

A hasher is fed values one after the other and makes a word of them all. What a
version feeds to it is the core and the keys of its pre-release, behind a mark
that tells whether there is one and a count of the identifiers. The count keeps
apart what would run together: no list of identifiers feeds the beginning of
what another one does.

`Hashed` is a version as an element of a hash set. It is looked up by the hash
and recognised by precedence, so the two have to agree.
-/

namespace Versioning

/-- A value that is fed to a hasher. -/
inductive Fed where
  | component (c : Component)
  | present (isPresent : Bool)
  | count (n : Nat)
  | text (cs : List Char)
deriving DecidableEq

/-- The number of identifiers, and then the key of each. -/
def Tag.fed (t : Tag) : List Fed :=
  .count t.identifiers.length :: t.identifiers.map fun i => .text i.key

namespace Version

/-- The components, and then the pre-release if there is one. The build tag is left out. -/
def fed (v : Version) : List Fed :=
  v.core.components.map .component ++
    v.preRelease.elim [.present false] fun t => .present true :: t.fed

/-- A version in a hash set whose hasher makes words of what it is fed in a given way. -/
structure Hashed (hash : List Fed → UInt64) where
  version : Version

variable {hash : List Fed → UInt64}

instance : BEq (Hashed hash) := ⟨fun a b => a.version.samePrecedence b.version⟩

instance : Hashable (Hashed hash) := ⟨fun a => hash a.version.fed⟩

end Version

end Versioning
