import Versioning.Range.Parser
import Versioning.Literal.Parse

/-!
# Events

What reading tells of. The recorded forms of the readers give the same outcome
as the plain ones and say besides how they came to it: a step is told of once it
has succeeded, a shorthand once it is selected. What was told before a failure
stays in the record.
-/

namespace Versioning

/-- How much an event matters. -/
inductive Level where
  | trace
  | debug
deriving DecidableEq, Repr

/-- The name of a level in a log. -/
def Level.name : Level → String
  | .trace => "TRACE"
  | .debug => "DEBUG"

/-- A step that has been made. -/
inductive Event where
  /-- A text was cut into tokens; the end of the input counts as one. -/
  | tokenized (input : String) (count : Nat)
  /-- A shorthand was selected. -/
  | selected (selection : Range.Selection)
  /-- A text was read as a range. -/
  | parsedRange (input : String) (range : Range)
  /-- A text was leniently read as a version. -/
  | parsedLiteral (input : String) (version : Version)
deriving DecidableEq

namespace Event

/-- The level of an event. -/
def level : Event → Level
  | .tokenized _ _ => .trace
  | .selected _ => .debug
  | .parsedRange _ _ => .debug
  | .parsedLiteral _ _ => .trace

/-- The message of an event. The input is quoted but not escaped. -/
def message : Event → String
  | .tokenized input count =>
    "Tokenized \"" ++ input ++ "\" into " ++ toString count ++ " tokens"
  | .selected s => "Selected " ++ s.shorthand.name ++ " range at " ++ s.token.text
  | .parsedRange input range => "Parsed range \"" ++ input ++ "\" as " ++ range.text
  | .parsedLiteral input version =>
    "Parsed version literal \"" ++ input ++ "\" as " ++ version.text

end Event

/-- Cuts a text into tokens and tells how many there are. -/
def Token.tokenizeTold (s : String) : Traced Event IllegalCharacter (List Token) where
  events := (tokenize s).toOption.toList.map fun ts => .tokenized s ts.length
  outcome := tokenize s

/-- Reads a text as a range and tells of the tokens, of each shorthand and of the result. -/
def Range.parseTold (s : String) : Traced Event Range.Error Range :=
  match Token.ofChars s.toList with
  | .error e => .silent (.error (.illegal e))
  | .ok ts =>
    let reading := ofTokens (.endAt s.toList.length) ts
    { events := .tokenized s (ts.length + 1) :: reading.events.map Event.selected ++
        reading.outcome.toOption.toList.map (Event.parsedRange s)
      outcome := reading.outcome }

/-- Reads a text leniently as a version and tells of the result. -/
def Version.parseLenientTold (s : String) : Traced Event Literal.Error Version where
  events := (parseLenient s).toOption.toList.map (Event.parsedLiteral s)
  outcome := parseLenient s

/-- Telling does not change the outcome. -/
theorem Range.outcome_parseTold (s : String) : (Range.parseTold s).outcome = Range.parse s := by
  unfold Range.parseTold Range.parse
  cases Token.ofChars s.toList <;> rfl

end Versioning
