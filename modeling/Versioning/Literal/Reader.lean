import Versioning.Literal.Error
import Versioning.Outcome
import Versioning.Version.Basic

/-!
# Reading version literals

The grammar is

* version: core, then optionally `-` and a tag, then optionally `+` and a tag;
* core: four numbers with dots between them;
* tag: identifiers with dots between them.

Each function reads one phrase at the front of a text and returns its value with
what follows. Nothing is read before the next character is known to fit, so a
failure always leaves the text from the misfit on.

A strict reader also refuses a number that starts with a zero and goes on, in
the core as well as among the numeric identifiers of a pre-release. Identifiers
of a build tag may start with zeros in either mode.
-/

namespace Versioning.Literal

open Outcome Text

/-- Whether numbers with leading zeros are refused. -/
inductive Mode where
  | strict
  | lenient
deriving DecidableEq, Repr

/-- Stops at the text that is left. -/
def fail {α : Type} (cause : Cause) (rest : List Char) : Except Failure α :=
  .error ⟨cause, rest⟩

/-- Reads the longest run of a class of characters, of which there must be one. -/
def run (p : Char → Bool) (expected : List CharClass) (cs : List Char) :
    Except Failure (Run p × List Char) :=
  match Run.read? p cs with
  | some r => .ok r
  | none => fail (.unexpected expected) cs

/-- A number starts with a zero and goes on. -/
def hasLeadingZero : List Char → Bool
  | '0' :: c :: _ => c.isDigit
  | _ => false

/-- Reads the digits of a number. -/
def number (mode : Mode) (cs : List Char) : Except Failure (Run Char.isDigit × List Char) :=
  if mode = .strict ∧ hasLeadingZero cs then fail .leadingZero cs
  else run Char.isDigit [.digit] cs

/-- Reads a number that must be small enough for a component. -/
def component (mode : Mode) (cs : List Char) : Except Failure (Component × List Char) := do
  let (r, rest) ← number mode cs
  match Component.ofDigits? r.chars with
  | some c => return (c, rest)
  | none => fail (.tooLarge r.chars) cs

/-- Reads one dot. -/
def dot : List Char → Except Failure (List Char)
  | '.' :: rest => .ok rest
  | cs => fail (.unexpected [.dot]) cs

/-- Reads four components with dots between them. -/
def core (mode : Mode) (cs : List Char) : Except Failure (Core × List Char) := do
  let (major, cs) ← component mode cs
  let (minor, cs) ← component mode (← dot cs)
  let (build, cs) ← component mode (← dot cs)
  let (subBuild, cs) ← component mode (← dot cs)
  return (⟨major, minor, build, subBuild⟩, cs)

/-- Whether no identifier can start here because the text ends or a mark follows. -/
def endsIdentifier : List Char → Bool
  | [] => true
  | c :: _ => c = '.' || c = '+'

/-- The marks up to which a text is searched for a letter or hyphen. A build tag is the last
phrase of a literal, so a plus does not end its identifiers. -/
def delimits : Slot → Char → Bool
  | .preRelease, c => c = '.' || c = '+'
  | .build, c => c = '.'

/-- The text up to the next mark holds a letter or hyphen. What is illegal in a literal does
not end the search: the reading that follows is the one to refuse it. -/
def looksAlphanumeric (slot : Slot) (cs : List Char) : Bool :=
  (cs.takeWhile fun c => !delimits slot c).any fun c => c.isAlpha || c = '-'

/-- Reads an identifier of a tag. -/
def identifier (slot : Slot) (mode : Mode) (cs : List Char) :
    Except Failure (Identifier × List Char) :=
  if endsIdentifier cs then fail .emptyIdentifier cs
  else if looksAlphanumeric slot cs then
    (run isIdentifierChar CharClass.ofIdentifier cs).map fun (r, rest) => (⟨r⟩, rest)
  else
    (match slot with
      | .preRelease => number mode cs
      | .build => run Char.isDigit [.digit] cs).map fun (r, rest) => (.ofDigits r, rest)

theorem length_lt_of_run {p : Char → Bool} {expected : List CharClass} {cs rest : List Char}
    {r : Run p} (h : run p expected cs = .ok (r, rest)) : rest.length < cs.length := by
  unfold run at h
  split at h
  · rename_i hRead
    cases h
    exact Run.length_lt_of_read? hRead
  · simp [fail] at h

theorem length_lt_of_number {mode : Mode} {cs rest : List Char} {r : Run Char.isDigit}
    (h : number mode cs = .ok (r, rest)) : rest.length < cs.length := by
  unfold number at h
  split at h
  · simp [fail] at h
  · exact length_lt_of_run h

theorem length_lt_of_identifier {slot : Slot} {mode : Mode} {cs rest : List Char}
    {i : Identifier} (h : identifier slot mode cs = .ok (i, rest)) :
    rest.length < cs.length := by
  unfold identifier at h
  split at h
  · simp [fail] at h
  split at h
  · obtain ⟨⟨r, us⟩, hRun, h⟩ := map_eq_ok_iff.1 h
    cases h
    exact length_lt_of_run hRun
  · obtain ⟨⟨r, us⟩, hRun, h⟩ := map_eq_ok_iff.1 h
    cases h
    cases slot with
    | preRelease => exact length_lt_of_number hRun
    | build => exact length_lt_of_run hRun

/-- Reads identifiers with dots between them. -/
def identifiers (slot : Slot) (mode : Mode) (cs : List Char) :
    Except Failure (Tag × List Char) :=
  match h : identifier slot mode cs with
  | .error e => .error e
  | .ok (i, '.' :: rest) =>
    have : rest.length < cs.length := Nat.lt_of_succ_lt (length_lt_of_identifier h)
    (identifiers slot mode rest).map fun (t, rest) => (t.cons i, rest)
  | .ok (i, rest) => .ok (.singleton i, rest)
termination_by cs.length

/-- Reads a tag: its first character must be one of which identifiers are made. -/
def tag (slot : Slot) (mode : Mode) : List Char → Except Failure (Tag × List Char)
  | [] => fail (.unexpected CharClass.ofIdentifier) []
  | c :: cs =>
    if isIdentifierChar c then identifiers slot mode (c :: cs)
    else fail (.unexpected CharClass.ofIdentifier) (c :: cs)

/-- Reads what may follow the core. -/
def tags (mode : Mode) : List Char →
    Except Failure ((Option Tag × Option Tag) × List Char)
  | [] => .ok ((none, none), [])
  | '+' :: cs => (tag .build mode cs).map fun (b, rest) => ((none, some b), rest)
  | '-' :: cs => do
    match ← tag .preRelease mode cs with
    | (p, []) => return ((some p, none), [])
    | (p, '+' :: cs) => (tag .build mode cs).map fun (b, rest) => ((some p, some b), rest)
    | (_, rest) => fail (.unexpected [.plus, .endOfInput]) rest
  | cs => fail (.unexpected [.hyphen, .plus, .endOfInput]) cs

/-- Reads a version. -/
def version (mode : Mode) (cs : List Char) : Except Failure (Version × List Char) := do
  let (core, rest) ← core mode cs
  let ((preRelease, build), rest) ← tags mode rest
  return ({ core, preRelease, build }, rest)

/-- Reads a phrase that must make up the whole text. -/
def whole {α : Type} (phrase : List Char → Except Failure (α × List Char)) (text : List Char) :
    Except Error α :=
  match phrase text with
  | .error f => .error (f.locate text)
  | .ok (a, []) => .ok a
  | .ok (_, c :: rest) => .error (Failure.locate ⟨.unexpected [.endOfInput], c :: rest⟩ text)

end Versioning.Literal
