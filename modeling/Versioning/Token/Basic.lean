/-!
# Tokens

The words of the range language. A token has a kind, the text it was read from
and the position of that text, counted in characters. The end of the input is a
token too: it has a position but no text.
-/

namespace Versioning

/-- The kinds of token. -/
inductive Kind where
  | numeric
  | dot
  | hyphen
  | equal
  | notEqual
  | greater
  | greaterEqual
  | less
  | lessEqual
  | tilde
  | wildcard
  | caret
  | and
  | or
  | not
  | leftParen
  | rightParen
  | endOfInput
deriving DecidableEq, Repr

namespace Kind

/-- The name of a kind in messages. -/
def name : Kind → String
  | .numeric => "NUMERIC"
  | .dot => "DOT"
  | .hyphen => "HYPHEN"
  | .equal => "EQUAL"
  | .notEqual => "NOT_EQUAL"
  | .greater => "GREATER"
  | .greaterEqual => "GREATER_EQUAL"
  | .less => "LESS"
  | .lessEqual => "LESS_EQUAL"
  | .tilde => "TILDE"
  | .wildcard => "WILDCARD"
  | .caret => "CARET"
  | .and => "AND"
  | .or => "OR"
  | .not => "NOT"
  | .leftParen => "LEFT_PAREN"
  | .rightParen => "RIGHT_PAREN"
  | .endOfInput => "EOI"

/-- All kinds, in the order in which they are listed above. -/
def all : List Kind :=
  [.numeric, .dot, .hyphen, .equal, .notEqual, .greater, .greaterEqual, .less, .lessEqual, .tilde,
    .wildcard, .caret, .and, .or, .not, .leftParen, .rightParen, .endOfInput]

/-- Whether tokens of the kind make up the numbers and dots of a version. -/
def inVersion : Kind → Bool
  | .numeric => true
  | .dot => true
  | _ => false

end Kind

/-- A word of the range language, or the end of the input. -/
@[ext] structure Token where
  kind : Kind
  lexeme : Option (List Char)
  position : Nat
deriving DecidableEq, Repr

namespace Token

/-- The end of an input at a position. -/
def endAt (position : Nat) : Token := ⟨.endOfInput, none, position⟩

/-- The text of a token; the end of the input has none. -/
def chars (t : Token) : List Char := t.lexeme.getD []

/-- The position after the text of a token. -/
def stop (t : Token) : Nat := t.position + t.chars.length

/-- The position after the text of a token, if it is a word of 64 bits. -/
def stop? (t : Token) : Option Nat := if t.stop < UInt64.size then some t.stop else none

/-- How a token is shown: its kind, its text in quotes, and its position. -/
def text (t : Token) : String :=
  let lexeme := t.lexeme.elim "" fun cs => "(\"" ++ String.ofList cs ++ "\")"
  t.kind.name ++ lexeme ++ " at position " ++ toString t.position

end Token

/-- A token that does not fit, and the kinds that would have. -/
structure UnexpectedToken where
  token : Token
  expected : List Kind
deriving DecidableEq, Repr

namespace UnexpectedToken

/-- The message of the fault. -/
def message (e : UnexpectedToken) : String :=
  "Unexpected " ++ e.token.text ++ ", expecting [" ++
    ", ".intercalate (e.expected.map Kind.name) ++ "]"

end UnexpectedToken

end Versioning
