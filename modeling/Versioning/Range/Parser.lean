import Versioning.Range.Atom
import Versioning.Traced

/-!
# Reading range expressions

The grammar is

* expression: unit, then optionally `&` or `|` and an expression;
* unit: `!` and an expression in parentheses, an expression in parentheses, or
  an atom.

Both connectives lean to the right and neither binds more tightly than the
other. An expression is read by recursion on the tokens that are left: a unit
takes at least one token and so does each connective and parenthesis, and
`Parsed` carries the proof, so reading comes to an end on every list of tokens.

Reading tells of each shorthand when it is selected, before it is read.
-/

namespace Versioning.Range

/-- A shorthand, and the token at which it was selected. -/
structure Selection where
  shorthand : Shorthand
  token : Token
deriving DecidableEq, Repr

/-- A range read at the front of some tokens, with what is left of them. -/
structure Parsed (ts : List Token) where
  range : Range
  rest : List Token
  shorter : rest.length < ts.length

/-- What reading a range at the front of some tokens comes to. -/
abbrev Reading (ts : List Token) := Traced Selection Error (Parsed ts)

/-- What was read at the front of fewer tokens was read at the front of them all. -/
def Parsed.widen {us ts : List Token} (h : us.length ≤ ts.length) (f : Range → Range)
    (p : Parsed us) : Parsed ts :=
  ⟨f p.range, p.rest, Nat.lt_of_lt_of_le p.shorter h⟩

namespace Parser

variable (stop : Token)

/-- Reads an atom and tells of it if it is a shorthand. -/
def atom (ts : List Token) : Reading ts where
  events := (Shorthand.select? ts).toList.map fun s => ⟨s, ts.headD stop⟩
  outcome :=
    match h : Atom.read stop (Shorthand.select? ts) ts with
    | .error e => .error e
    | .ok (r, us) => .ok ⟨r, us, Atom.length_lt_of_read h⟩

/-- Reads the parenthesis that closes an expression. -/
def close {ts : List Token} (p : Parsed ts) : Reading ts :=
  .silent <|
    match h : Atom.expect stop .rightParen p.rest with
    | .error e => .error e
    | .ok (_, us) => .ok ⟨p.range, us, by
        have hOne := Atom.length_of_expect h
        have hShorter := p.shorter
        omega⟩

/-- Reads an expression in parentheses; `inner` reads the expression. -/
def enclosed (ts : List Token) (inner : ∀ us : List Token, us.length < ts.length → Reading us) :
    Reading ts :=
  match h : Atom.expect stop .leftParen ts with
  | .error e => .silent (.error e)
  | .ok (_, us) =>
    have hShorter : us.length < ts.length := by
      have hOne := Atom.length_of_expect h
      omega
    ((inner us hShorter).andThen (close stop)).map (.widen (Nat.le_of_lt hShorter) id)

/-- Reads a unit; `inner` reads the expression in parentheses that it may hold. -/
def unit (ts : List Token) (inner : ∀ us : List Token, us.length < ts.length → Reading us) :
    Reading ts :=
  match ts, inner with
  | [], _ => atom stop []
  | t :: us, inner =>
    if t.kind = .not then
      (enclosed stop us fun vs h => inner vs (Nat.lt_succ_of_lt h)).map
        (.widen (Nat.le_succ _) .not)
    else if t.kind = .leftParen then enclosed stop (t :: us) inner
    else atom stop (t :: us)

/-- Goes on after a unit: a connective joins it to the expression that follows, which `inner`
reads. -/
def connect {ts : List Token} (inner : ∀ us : List Token, us.length < ts.length → Reading us)
    (p : Parsed ts) : Reading ts :=
  match h : p.rest with
  | [] => .silent (.ok p)
  | t :: us =>
    have hShorter : us.length < ts.length := by
      have hRest := p.shorter
      rw [h] at hRest
      exact Nat.lt_of_succ_lt hRest
    if t.kind = .and then
      (inner us hShorter).map (.widen (Nat.le_of_lt hShorter) (.and p.range))
    else if t.kind = .or then
      (inner us hShorter).map (.widen (Nat.le_of_lt hShorter) (.or p.range))
    else .silent (.ok p)

/-- Reads an expression. -/
def expression (ts : List Token) : Reading ts :=
  (unit stop ts fun us _ => expression us).andThen (connect fun us _ => expression us)
termination_by ts.length

/-- Nothing may be left after an expression. -/
def finish {ts : List Token} (p : Parsed ts) : Except Error Range :=
  match p.rest with
  | [] => .ok p.range
  | t :: _ => .error (.unexpected ⟨t, [.endOfInput]⟩)

end Parser

/-- Reads an expression that must take all tokens up to the end of the input, `stop`. -/
def ofTokens (stop : Token) (ts : List Token) : Traced Selection Error Range :=
  (Parser.expression stop ts).andThen fun p => .silent (Parser.finish p)

/-- The range that a text spells. -/
def parse (s : String) : Except Error Range := do
  let ts ← (Token.ofChars s.toList).mapError .illegal
  (ofTokens (.endAt s.toList.length) ts).outcome

end Versioning.Range
