import Versioning.Literal.Parse

/-!
# Versions as data

In serialised data a version is a string, its text. Decoding reads the string
strictly; data of any other shape is refused with a message that says what was
found.
-/

namespace Versioning

/-- A piece of serialised data, as far as decoding a version can tell. -/
inductive Datum where
  | null
  | boolean (value : Bool)
  | integer (value : Int)
  | string (value : String)
  | sequence
  | map
deriving DecidableEq, Repr

namespace Datum

/-- What a piece of data is called in messages. -/
def describe : Datum → String
  | .null => "null"
  | .boolean b => "boolean `" ++ (if b then "true" else "false") ++ "`"
  | .integer n => "integer `" ++ toString n ++ "`"
  | .string s => "string \"" ++ s ++ "\""
  | .sequence => "sequence"
  | .map => "map"

end Datum

/-- Why a piece of data is not a version. -/
inductive DecodeError where
  | wrongType (found : Datum)
  | literal (error : Literal.Error)
deriving DecidableEq, Repr

/-- The message of an error. -/
def DecodeError.message : DecodeError → String
  | .wrongType found =>
    "invalid type: " ++ found.describe ++ ", expected a major.minor.build.subBuild version string"
  | .literal error => error.message

namespace Version

/-- The data of a version: its text. -/
def toDatum (v : Version) : Datum := .string v.text

/-- The version that a piece of data stands for. -/
def ofDatum : Datum → Except DecodeError Version
  | .string s => (parse s).mapError .literal
  | found => .error (.wrongType found)

end Version

end Versioning
