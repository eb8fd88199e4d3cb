import Versioning.Token.Basic

/-!
# Token streams

A stream is a list of tokens with a place in it: some are taken, the rest are
still to come. The last token to come is always the end of the input, which can
be looked at and accepted as often as one likes but is never taken.
-/

namespace Versioning

/-- Tokens that have been taken, and tokens that are still to come. -/
@[ext] structure TokenStream where
  taken : List Token
  rest : List Token
  ends : rest.getLast?.map Token.kind = some .endOfInput
deriving DecidableEq

namespace TokenStream

theorem rest_ne_nil (s : TokenStream) : s.rest ≠ [] := by
  intro hNil
  simpa [hNil] using s.ends

/-- A stream of which nothing is taken, with the end of the input at a position behind the
tokens. -/
def endingAt (ts : List Token) (position : Nat) : TokenStream :=
  ⟨[], ts ++ [.endAt position], by simp [Token.endAt]⟩

/-- A stream of which nothing is taken. The end of the input is added after the last token,
unless that is an end already. Positions are added as words of 64 bits: a sum that is too large
for one loses what is above. -/
def ofTokens (ts : List Token) : TokenStream :=
  if h : ts.getLast?.map Token.kind = some .endOfInput then ⟨[], ts, h⟩
  else endingAt ts (ts.getLast?.elim 0 Token.stop % UInt64.size)

/-- The same where additions are checked: if the end that is added has no position among the words
of 64 bits, no stream is made. -/
def ofTokens? (ts : List Token) : Option TokenStream :=
  if h : ts.getLast?.map Token.kind = some .endOfInput then some ⟨[], ts, h⟩
  else (ts.getLast?.elim (some 0) Token.stop?).map (endingAt ts)

/-- All tokens, taken or not. -/
def tokens (s : TokenStream) : List Token := s.taken ++ s.rest

/-- The next token. -/
def next (s : TokenStream) : Token := s.rest.head s.rest_ne_nil

/-- The end of the input. -/
def last (s : TokenStream) : Token := s.rest.getLast s.rest_ne_nil

/-- The tokens before the end of the input that are still to come. -/
def upcoming (s : TokenStream) : List Token := s.rest.dropLast

/-- The `k`-th token to come, counted from one; past the last there is only the end. Counting
from zero counts from one as well. The index of the token is a word of 64 bits: here too a sum that
is too large for one loses what is above. -/
def nth (s : TokenStream) (k : Nat) : Token :=
  s.tokens.getD (min ((s.taken.length + max k 1 - 1) % UInt64.size) (s.tokens.length - 1)) s.last

/-- The first of the next `limit` tokens that is no part of a version exists and is of none of
the excluded kinds. -/
def versionEnds (s : TokenStream) (limit : Nat) (excluded : List Kind) : Bool :=
  ((s.rest.take limit).find? fun t => !t.kind.inVersion).any fun t => t.kind ∉ excluded

theorem ends_of_cons {t : Token} {ts : List Token}
    (hEnds : (t :: ts).getLast?.map Token.kind = some .endOfInput)
    (hKind : t.kind ≠ .endOfInput) : ts.getLast?.map Token.kind = some .endOfInput := by
  cases ts with
  | nil => exact absurd (by simpa using hEnds) hKind
  | cons u us => simpa using hEnds

/-- Accepts the next token if it is of an expected kind, or of any kind if none is given, and
moves on unless it is the end. -/
def consume (s : TokenStream) (expected : List Kind) :
    Except UnexpectedToken (Token × TokenStream) :=
  match h : s.rest with
  | [] => absurd h s.rest_ne_nil
  | t :: ts =>
    if expected ≠ [] ∧ t.kind ∉ expected then .error ⟨t, expected⟩
    else if hKind : t.kind = .endOfInput then .ok (t, s)
    else .ok (t, ⟨s.taken ++ [t], ts, ends_of_cons (h ▸ s.ends) hKind⟩)

end TokenStream

end Versioning
