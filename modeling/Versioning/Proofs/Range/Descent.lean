import Versioning.Proofs.Token.Moves
import Versioning.Range.Band
import Versioning.Range.Operator
import Versioning.Range.Shorthand

/-!
# Recursive descent along a stream

The readers of expressions take tokens from the front of a list, and what is left is
shorter by construction. Here they are written once more, as a descent: the steps share
one stream, which moves on when a token is accepted and not at the end, a loop goes round
until its condition fails, and a reader calls itself wherever the grammar has an
expression inside an expression. Nothing in such a reader says that it comes to an end.

So that it is a function all the same, there are limits to the rounds of the loops and to
how deep calls are nested (`Limits`), and a descent that gets to one halts and says so
(`Halt.limit`). Each call is recorded, with the place where the expression starts that it
is made from and the place where the one starts that it is made for (`Call`). The stream and
the record are what they have come to whether a descent ends well or halts.
-/

namespace Versioning.Range.Descent

/-- How many rounds the loops of a wildcard range and of a version may make, and how many
expressions may be read one inside another, the outermost included. -/
structure Limits where
  wildcardRounds : Nat
  versionRounds : Nat
  depth : Nat
deriving DecidableEq, Repr

/-- What holds an expression inside another one. -/
inductive Cause where
  | parenthesis
  | negation
  | connective
deriving DecidableEq, Repr

/-- A call for an expression inside another one: the stream where the outer one starts, and where
the inner one does. -/
structure Call where
  cause : Cause
  caller : TokenStream
  callee : TokenStream
deriving DecidableEq

/-- What the steps of a descent share. -/
structure Walker where
  stream : TokenStream
  calls : List Call
deriving DecidableEq

/-- Why a descent does not go on. -/
inductive Halt where
  | fault (e : Error)
  | limit
deriving DecidableEq

/-- A part of a descent. -/
abbrev Walk := ExceptT Halt (StateM Walker)

/-! ## Steps -/

/-- What can be seen from where the stream is. -/
def peek {α : Type} (look : TokenStream → α) : Walk α := return look (← get).stream

/-- Whether the next token is of a kind. -/
def nextIs (kind : Kind) : Walk Bool := peek fun s => s.next.kind = kind

/-- Comes to an outcome that does not depend on the stream. -/
def settle {α : Type} : Except Error α → Walk α
  | .ok a => pure a
  | .error e => throw (.fault e)

/-- Goes on where a stream has moved to, if it did accept its next token. -/
def moveOn : Except UnexpectedToken (Token × TokenStream) → Walk Token
  | .ok (t, s) => do
    modify fun w => { w with stream := s }
    return t
  | .error f => throw (.fault (.unexpected f))

/-- Accepts the next token if it is of an expected kind, or of any kind if none is given. -/
def accept (expected : List Kind) : Walk Token := do
  moveOn (← peek fun s => s.consume expected)

/-! ## Atoms -/

/-- Takes a number whose text denotes a component. -/
def numeral : Walk Numeral := do
  let t ← accept [.numeric]
  match Component.ofText? t.chars with
  | some c => return ⟨c, t⟩
  | none => throw (.fault (.outOfRange t))

/-- Takes the numerals of a version behind the first `count` of them: as long as there are fewer
than four, a dot is followed by another one. -/
def further (rounds count : Nat) : Walk (List Numeral) := do
  if count < 4 ∧ (← nextIs .dot) then
    match rounds with
    | 0 => throw .limit
    | rounds + 1 =>
      let _ ← accept [.dot]
      let x ← numeral
      return x :: (← further rounds (count + 1))
  else return []

/-- Takes one to four numerals. -/
def numerals (limits : Limits) : Walk Numerals := do
  let x ← numeral
  return ⟨x, ← further limits.versionRounds 1⟩

/-- Takes one to four numerals as a core. -/
def operand (limits : Limits) : Walk Core := return (← numerals limits).core

/-- Takes the numerals of a wildcard range behind the first `count` of them, with a dot after each,
until there are three or a wildcard comes. -/
def dotted (rounds count : Nat) : Walk Numerals := do
  match rounds with
  | 0 => throw .limit
  | rounds + 1 =>
    let x ← numeral
    let _ ← accept [.dot]
    if count + 1 = 3 ∨ (← nextIs .wildcard) then return ⟨x, []⟩
    else return (← dotted rounds (count + 1)).cons x

/-- Takes a tilde range. -/
def tilde (limits : Limits) : Walk Range := do
  let _ ← accept [.tilde]
  settle (bandAtLast (← numerals limits))

/-- Takes a caret range. -/
def caret (limits : Limits) : Walk Range := do
  let _ ← accept [.caret]
  settle (bandAtFirstNonzero (← numerals limits))

/-- Takes a wildcard range. -/
def wildcard (limits : Limits) : Walk Range := do
  if ← nextIs .wildcard then
    let _ ← accept [.wildcard]
    return .comparison .ge {}
  else
    let ns ← dotted limits.wildcardRounds 0
    let _ ← accept [.wildcard]
    settle (bandAtLast ns)

/-- Takes a hyphen range. -/
def hyphen (limits : Limits) : Walk Range := do
  let lower ← operand limits
  let _ ← accept [.hyphen]
  let upper ← operand limits
  return .and (.comparison .ge lower) (.comparison .le upper)

/-- Takes a second numeral if a dot comes next. -/
def second : Walk (List Numeral) := do
  if ← nextIs .dot then
    let _ ← accept [.dot]
    return [← numeral]
  else return []

/-- Takes one or two numerals. -/
def oneOrTwo : Walk Numerals := do
  let x ← numeral
  return ⟨x, ← second⟩

/-- Takes a partial version. -/
def partialVersion : Walk Range := do settle (bandAtLast (← oneOrTwo))

/-- Takes a comparison whose operator, if there is one, is known. It is accepted whatever it is. -/
def comparing (limits : Limits) : Option Operator → Walk Range
  | some op => do
    let _ ← accept []
    return .comparison op (← operand limits)
  | none => return .comparison .eq (← operand limits)

/-- Takes a comparison. -/
def comparison (limits : Limits) : Walk Range := do
  comparing limits (Operator.ofKind? (← peek TokenStream.next).kind)

/-- Whether the numbers and dots from here on end at a token of a kind. -/
def versionEndsAt (kind : Kind) (s : TokenStream) : Bool :=
  (s.rest.find? fun t => !t.kind.inVersion).any fun t => t.kind = kind

/-- The shorthand that starts here, if it is not a comparison that does. -/
def select? (s : TokenStream) : Option Shorthand :=
  if s.next.kind = .tilde then some .tilde
  else if s.next.kind = .caret then some .caret
  else if versionEndsAt .wildcard s then some .wildcard
  else if versionEndsAt .hyphen s then some .hyphen
  else if s.next.kind = .numeric ∧
      s.versionEnds Shorthand.partialWindow [.wildcard, .hyphen] then some .partialVersion
  else none

/-- Takes an atom of the form that was selected. -/
def read (limits : Limits) : Option Shorthand → Walk Range
  | some .tilde => tilde limits
  | some .caret => caret limits
  | some .wildcard => wildcard limits
  | some .hyphen => hyphen limits
  | some .partialVersion => partialVersion
  | none => comparison limits

/-- Takes an atom. -/
def atom (limits : Limits) : Walk Range := do read limits (← peek select?)

/-! ## Expressions -/

/-- Records a call that is made from an expression which starts at `caller`, and makes it. -/
def calling (caller : TokenStream) (cause : Cause) (read : Walk Range) : Walk Range := do
  modify fun w => { w with calls := w.calls ++ [⟨cause, caller, w.stream⟩] }
  read

/-- Takes an expression in parentheses; `inner` reads the expression. -/
def enclosed (inner : Walk Range) : Walk Range := do
  let _ ← accept [.leftParen]
  let r ← inner
  let _ ← accept [.rightParen]
  return r

/-- Takes a unit; `call` reads the expression in parentheses that it may hold. -/
def unit (limits : Limits) (call : Cause → Walk Range) : Walk Range := do
  if ← nextIs .not then
    let _ ← accept [.not]
    return .not (← enclosed (call .negation))
  else if ← nextIs .leftParen then enclosed (call .parenthesis)
  else atom limits

/-- Goes on after a unit: a connective joins it to the expression that follows, which `call`
reads. -/
def connect (call : Cause → Walk Range) (r : Range) : Walk Range := do
  if ← nextIs .and then
    let _ ← accept [.and]
    return .and r (← call .connective)
  else if ← nextIs .or then
    let _ ← accept [.or]
    return .or r (← call .connective)
  else return r

/-- Takes an expression, inside of which there may be others, at most `depth` with itself. -/
def expression (limits : Limits) (depth : Nat) : Walk Range := do
  match depth with
  | 0 => throw .limit
  | depth + 1 =>
    let caller ← peek id
    let call := fun cause => calling caller cause (expression limits depth)
    connect call (← unit limits call)

/-- Takes an expression from a stream. -/
def run (limits : Limits) (s : TokenStream) : Except Halt Range × Walker :=
  expression limits limits.depth ⟨s, []⟩

end Versioning.Range.Descent
