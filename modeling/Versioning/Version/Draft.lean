import Versioning.Literal.Parse

/-!
# Drafts

A draft collects the texts of the parts of a version and reads them all at once,
as the literal that they make up together. The texts are entered one by one, each in
place of what was there for its part. An empty text counts as an absent tag.
-/

namespace Versioning

/-- The texts of a core and of its two tags. -/
structure Draft where
  core : String := ""
  preRelease : Option String := none
  build : Option String := none
deriving DecidableEq, Repr

namespace Draft

/-- The parts of a version for which a text may be given. -/
inductive Part where
  | core
  | tag (slot : Slot)
deriving DecidableEq, Repr

/-- A text for one of the parts. -/
structure Entry where
  part : Part
  text : String
deriving DecidableEq, Repr

/-- The draft with a text in place of what was there for its part. -/
def enter (d : Draft) (e : Entry) : Draft :=
  match e.part with
  | .core => { d with core := e.text }
  | .tag .preRelease => { d with preRelease := some e.text }
  | .tag .build => { d with build := some e.text }

/-- The draft with texts entered one after the other. -/
def enterAll (d : Draft) (es : List Entry) : Draft := es.foldl enter d

/-- A text behind the mark that introduces it; an absent or empty text leaves no mark. -/
def marked (mark : String) : Option String → String
  | none => ""
  | some s => if s = "" then "" else mark ++ s

/-- The literal that the parts make up. -/
def literal (d : Draft) : String := d.core ++ marked "-" d.preRelease ++ marked "+" d.build

/-- The version that the parts make up. -/
def finish (d : Draft) : Except Literal.Error Version := Version.parse d.literal

end Draft

end Versioning
