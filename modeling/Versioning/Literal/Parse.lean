import Versioning.Literal.Reader

/-!
# Parsing version literals

What a text means when all of it must be a version, a core or a tag. Parsing is
strict unless the name says otherwise: only whole versions have a lenient form,
which takes numbers with leading zeros for the numbers they denote.
-/

namespace Versioning

open Literal

namespace Version

/-- The version that a text spells in a mode. -/
def parseIn (mode : Mode) (s : String) : Except Literal.Error Version :=
  whole (version mode) s.toList

/-- The version that a text spells. -/
def parse (s : String) : Except Literal.Error Version := parseIn .strict s

/-- The version that a text spells, with leading zeros allowed. -/
def parseLenient (s : String) : Except Literal.Error Version := parseIn .lenient s

/-- Whether a text spells a version. -/
def isValid (s : String) : Bool := (parse s).isOk

/-- The version that a text spells, if it spells one. -/
def parse? (s : String) : Option Version := (parse s).toOption

end Version

/-- The core that a text spells. -/
def Core.parse (s : String) : Except Literal.Error Core := whole (Literal.core .strict) s.toList

/-- The tag that a text spells, by the rule of a slot. -/
def Tag.parse (slot : Slot) (s : String) : Except Literal.Error Tag :=
  whole (Literal.tag slot .strict) s.toList

end Versioning
