import Versioning.Outcome
import Versioning.Range.Band
import Versioning.Range.Shorthand

/-!
# Atoms of range expressions

An atom is a range without connectives: a comparison or a shorthand. Every
reader takes tokens from the front of a list and returns what is left; a failure
names the first token that does not fit, and where the list has run out that is
`stop`, the end of the input.

Every atom takes at least one token (`length_lt_of_read`), which is what makes
reading an expression come to an end.
-/

namespace Versioning.Range.Atom

variable (stop : Token)

/-- Takes a token of a kind. -/
def expect (kind : Kind) : List Token → Except Error (Token × List Token)
  | [] => .error (.unexpected ⟨stop, [kind]⟩)
  | t :: ts => if t.kind = kind then .ok (t, ts) else .error (.unexpected ⟨t, [kind]⟩)

/-- Takes a number whose text denotes a component. -/
def numeral (ts : List Token) : Except Error (Numeral × List Token) := do
  let (t, ts) ← expect stop .numeric ts
  match Component.ofText? t.chars with
  | some c => return (⟨c, t⟩, ts)
  | none => .error (.outOfRange t)

/-- Takes numerals with a dot before each, as long as there are dots, but at most `n`. -/
def further : Nat → List Token → Except Error (List Numeral × List Token)
  | 0, ts => .ok ([], ts)
  | n + 1, ts =>
    match ts with
    | [] => .ok ([], [])
    | t :: us =>
      if t.kind = .dot then do
        let (x, us) ← numeral stop us
        let (xs, us) ← further n us
        return (x :: xs, us)
      else .ok ([], t :: us)

/-- Takes a numeral and at most `n` more, with dots between them. -/
def numerals (n : Nat) (ts : List Token) : Except Error (Numerals × List Token) := do
  let (x, ts) ← numeral stop ts
  let (xs, ts) ← further stop n ts
  return (⟨x, xs⟩, ts)

/-- Takes one to four numerals as a core. -/
def operand (ts : List Token) : Except Error (Core × List Token) := do
  let (ns, ts) ← numerals stop 3 ts
  return (ns.core, ts)

/-- Takes numerals with a dot after each, up to a wildcard, but at most `n + 1`. -/
def dotted : Nat → List Token → Except Error (Numerals × List Token)
  | 0, ts => do
    let (x, ts) ← numeral stop ts
    let (_, ts) ← expect stop .dot ts
    return (⟨x, []⟩, ts)
  | n + 1, ts => do
    let (x, ts) ← numeral stop ts
    let (_, ts) ← expect stop .dot ts
    if Shorthand.nextIs .wildcard ts then return (⟨x, []⟩, ts)
    else
      let (xs, ts) ← dotted n ts
      return (xs.cons x, ts)

/-- Takes a tilde range: one to four numerals, of which the last may not change. -/
def tilde (ts : List Token) : Except Error (Range × List Token) := do
  let (_, ts) ← expect stop .tilde ts
  let (ns, ts) ← numerals stop 3 ts
  return (← bandAtLast ns, ts)

/-- Takes a caret range: the first numeral that is not zero may not change. -/
def caret (ts : List Token) : Except Error (Range × List Token) := do
  let (_, ts) ← expect stop .caret ts
  let (ns, ts) ← numerals stop 3 ts
  return (← bandAtFirstNonzero ns, ts)

/-- Takes a wildcard range: all from the zero core on, or up to three numerals that may not
change. -/
def wildcard (ts : List Token) : Except Error (Range × List Token) := do
  if Shorthand.nextIs .wildcard ts then
    let (_, ts) ← expect stop .wildcard ts
    return (.comparison .ge {}, ts)
  else
    let (ns, ts) ← dotted stop 2 ts
    let (_, ts) ← expect stop .wildcard ts
    return (← bandAtLast ns, ts)

/-- Takes a hyphen range: from one core to another, both included. -/
def hyphen (ts : List Token) : Except Error (Range × List Token) := do
  let (lower, ts) ← operand stop ts
  let (_, ts) ← expect stop .hyphen ts
  let (upper, ts) ← operand stop ts
  return (.and (.comparison .ge lower) (.comparison .le upper), ts)

/-- Takes a partial version: one or two numerals, of which the last may not change. -/
def partialVersion (ts : List Token) : Except Error (Range × List Token) := do
  let (ns, ts) ← numerals stop 1 ts
  return (← bandAtLast ns, ts)

/-- Takes a comparison. Without an operator it is one for equality. -/
def comparison (ts : List Token) : Except Error (Range × List Token) := do
  match ts.head?.bind fun t => Operator.ofKind? t.kind with
  | some op =>
    let (c, ts) ← operand stop ts.tail
    return (.comparison op c, ts)
  | none =>
    let (c, ts) ← operand stop ts
    return (.comparison .eq c, ts)

/-- Takes a shorthand of a given form. -/
def shorthand : Shorthand → List Token → Except Error (Range × List Token)
  | .tilde => tilde stop
  | .caret => caret stop
  | .wildcard => wildcard stop
  | .hyphen => hyphen stop
  | .partialVersion => partialVersion stop

/-- Takes an atom of the form that was selected. -/
def read (form : Option Shorthand) (ts : List Token) : Except Error (Range × List Token) :=
  match form with
  | some s => shorthand stop s ts
  | none => comparison stop ts

/-! ## Every atom takes a token -/

section Lengths

open Outcome

variable {stop : Token} {ts us : List Token}

theorem expect_eq_ok_iff {kind : Kind} {t : Token} :
    expect stop kind ts = .ok (t, us) ↔ t.kind = kind ∧ ts = t :: us := by
  cases ts with
  | nil => simp [expect]
  | cons u vs =>
      simp only [expect]
      split
      · rename_i hKind
        constructor
        · rintro ⟨⟩
          exact ⟨hKind, rfl⟩
        · rintro ⟨_, ⟨⟩⟩
          rfl
      · rename_i hKind
        simp only [reduceCtorEq, false_iff]
        rintro ⟨hEq, ⟨⟩⟩
        exact hKind hEq

theorem length_of_expect {kind : Kind} {t : Token} (h : expect stop kind ts = .ok (t, us)) :
    us.length + 1 = ts.length := by
  simp [(expect_eq_ok_iff.1 h).2]

theorem length_of_numeral {x : Numeral} (h : numeral stop ts = .ok (x, us)) :
    us.length + 1 = ts.length := by
  obtain ⟨⟨t, vs⟩, hExpect, hValue⟩ := bind_eq_ok_iff.1 h
  have hLength := length_of_expect hExpect
  dsimp only at hValue
  split at hValue
  · cases hValue
    exact hLength
  · simp at hValue

theorem length_le_of_further {n : Nat} {xs : List Numeral}
    (h : further stop n ts = .ok (xs, us)) : us.length ≤ ts.length := by
  induction n generalizing ts xs with
  | zero =>
      cases h
      exact Nat.le_refl _
  | succ n ih =>
      cases ts with
      | nil =>
          cases h
          exact Nat.le_refl _
      | cons t ts =>
          simp only [further] at h
          split at h
          · obtain ⟨⟨x, vs⟩, hNumeral, h⟩ := bind_eq_ok_iff.1 h
            obtain ⟨⟨ys, ws⟩, hFurther, h⟩ := bind_eq_ok_iff.1 h
            cases h
            have hOne := length_of_numeral hNumeral
            have hRest : ws.length ≤ vs.length := ih hFurther
            simp only [List.length_cons]
            omega
          · cases h
            exact Nat.le_refl _

theorem length_lt_of_numerals {n : Nat} {ns : Numerals}
    (h : numerals stop n ts = .ok (ns, us)) : us.length < ts.length := by
  obtain ⟨⟨x, vs⟩, hNumeral, h⟩ := bind_eq_ok_iff.1 h
  obtain ⟨⟨ys, ws⟩, hFurther, h⟩ := bind_eq_ok_iff.1 h
  cases h
  have hOne := length_of_numeral hNumeral
  have hRest : us.length ≤ vs.length := length_le_of_further hFurther
  omega

theorem length_lt_of_operand {c : Core} (h : operand stop ts = .ok (c, us)) :
    us.length < ts.length := by
  obtain ⟨⟨ns, vs⟩, hNumerals, h⟩ := bind_eq_ok_iff.1 h
  cases h
  exact length_lt_of_numerals hNumerals

theorem length_lt_of_dotted {n : Nat} {ns : Numerals} (h : dotted stop n ts = .ok (ns, us)) :
    us.length < ts.length := by
  induction n generalizing ts ns with
  | zero =>
      obtain ⟨⟨x, vs⟩, hNumeral, h⟩ := bind_eq_ok_iff.1 h
      obtain ⟨⟨t, ws⟩, hDot, h⟩ := bind_eq_ok_iff.1 h
      cases h
      have hOne := length_of_numeral hNumeral
      have hTwo := length_of_expect hDot
      omega
  | succ n ih =>
      obtain ⟨⟨x, vs⟩, hNumeral, h⟩ := bind_eq_ok_iff.1 h
      obtain ⟨⟨t, ws⟩, hDot, h⟩ := bind_eq_ok_iff.1 h
      have hOne := length_of_numeral hNumeral
      have hTwo := length_of_expect hDot
      simp only at h
      split at h
      · cases h
        omega
      · obtain ⟨⟨ys, ws'⟩, hRest, h⟩ := bind_eq_ok_iff.1 h
        cases h
        have hThree := ih hRest
        omega

/-- **Progress**: whatever the form, an atom takes at least one token. -/
theorem length_lt_of_read {form : Option Shorthand} {r : Range}
    (h : read stop form ts = .ok (r, us)) : us.length < ts.length := by
  match form with
  | some .tilde =>
      obtain ⟨⟨t, vs⟩, hMark, h⟩ := bind_eq_ok_iff.1 h
      obtain ⟨⟨ns, ws⟩, hNumerals, h⟩ := bind_eq_ok_iff.1 h
      obtain ⟨_, _, h⟩ := bind_eq_ok_iff.1 h
      cases h
      have hOne := length_of_expect hMark
      have hRest := length_lt_of_numerals hNumerals
      omega
  | some .caret =>
      obtain ⟨⟨t, vs⟩, hMark, h⟩ := bind_eq_ok_iff.1 h
      obtain ⟨⟨ns, ws⟩, hNumerals, h⟩ := bind_eq_ok_iff.1 h
      obtain ⟨_, _, h⟩ := bind_eq_ok_iff.1 h
      cases h
      have hOne := length_of_expect hMark
      have hRest := length_lt_of_numerals hNumerals
      omega
  | some .wildcard =>
      simp only [read, shorthand, wildcard] at h
      split at h
      · obtain ⟨⟨t, vs⟩, hMark, h⟩ := bind_eq_ok_iff.1 h
        cases h
        have hOne := length_of_expect hMark
        dsimp only
        omega
      · obtain ⟨⟨ns, vs⟩, hDotted, h⟩ := bind_eq_ok_iff.1 h
        obtain ⟨⟨t, ws⟩, hMark, h⟩ := bind_eq_ok_iff.1 h
        obtain ⟨_, _, h⟩ := bind_eq_ok_iff.1 h
        cases h
        have hOne : ws.length + 1 = vs.length := length_of_expect hMark
        have hRest := length_lt_of_dotted hDotted
        dsimp only
        omega
  | some .hyphen =>
      obtain ⟨⟨lower, vs⟩, hLower, h⟩ := bind_eq_ok_iff.1 h
      obtain ⟨⟨t, ws⟩, hMark, h⟩ := bind_eq_ok_iff.1 h
      obtain ⟨⟨upper, ws'⟩, hUpper, h⟩ := bind_eq_ok_iff.1 h
      cases h
      have hOne := length_lt_of_operand hLower
      have hTwo := length_of_expect hMark
      have hThree := length_lt_of_operand hUpper
      omega
  | some .partialVersion =>
      obtain ⟨⟨ns, vs⟩, hNumerals, h⟩ := bind_eq_ok_iff.1 h
      obtain ⟨_, _, h⟩ := bind_eq_ok_iff.1 h
      cases h
      exact length_lt_of_numerals hNumerals
  | none =>
      simp only [read, comparison] at h
      split at h
      · obtain ⟨⟨c, vs⟩, hOperand, h⟩ := bind_eq_ok_iff.1 h
        cases h
        have hOne := length_lt_of_operand hOperand
        simp only [List.length_tail] at hOne ⊢
        omega
      · obtain ⟨⟨c, vs⟩, hOperand, h⟩ := bind_eq_ok_iff.1 h
        cases h
        exact length_lt_of_operand hOperand

end Lengths

end Versioning.Range.Atom
