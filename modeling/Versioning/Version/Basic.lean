import Versioning.Core
import Versioning.Tag

/-!
# Versions

A version is a numeric core with an optional pre-release tag and an optional
build tag. Its text is the core, then `-` and the pre-release, then `+` and the
build; an absent tag leaves no mark. Every value of the type has well-formed
components and identifiers, so the text of a version is always a version literal.
-/

namespace Versioning

/-- A numeric core with its two optional tags. The version without any is `0.0.0.0`. -/
@[ext] structure Version where
  core : Core := {}
  preRelease : Option Tag := none
  build : Option Tag := none
deriving DecidableEq

namespace Version

instance : Inhabited Version := ⟨{}⟩

/-- A core counts as the version that carries no tag. -/
instance : Coe Core Version := ⟨fun c => { core := c }⟩

/-- A version comes before the release of its core when it has a pre-release tag. -/
def isPreRelease (v : Version) : Bool := v.preRelease.isSome

/-- The text of an optional tag behind the mark that introduces it. -/
def marked (mark : Char) (tag : Option Tag) : List Char :=
  tag.elim [] fun t => mark :: t.chars

@[simp] theorem marked_none (mark : Char) : marked mark none = [] := rfl

@[simp] theorem marked_some (mark : Char) (t : Tag) : marked mark (some t) = mark :: t.chars := rfl

/-- The characters of the text of a version. -/
def chars (v : Version) : List Char :=
  v.core.chars ++ marked '-' v.preRelease ++ marked '+' v.build

/-- The text of a version. -/
def text (v : Version) : String := String.ofList v.chars

instance : ToString Version := ⟨text⟩

@[simp] theorem toList_text (v : Version) : v.text.toList = v.chars :=
  String.toList_ofList

end Version

end Versioning
