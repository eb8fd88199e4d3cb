import Versioning.Proofs.Range.Expressions

/-!
# Results of reading expressions

`Yields` says when a reading ends well. This module says what it comes to either
way: a range with the tokens behind it, or a fault. As there, the proof that a
token was taken is forgotten (`result`), and each part of the reader gets one
equation between results. Statements about faults are then about plain chains of
steps that may fail, and nothing after this module opens a definition of
`Range.Parser`.

## Main results

* `result_expression`, `result_unit_not`, `result_unit_enclosed`, `result_unit_atom` — the
  reader of expressions as a recursion on results.
* `outcome_ofTokens` — the reader of whole expressions.
-/

namespace Versioning.Range.Parser

open Grammar Outcome

variable {stop : Token} {ts us vs : List Token} {r : Range}

/-- What a reading comes to: a range and the tokens behind it, or a fault. -/
def result (x : Reading ts) : Except Error (Range × List Token) :=
  x.outcome.map fun p => (p.range, p.rest)

theorem result_eq_ok_iff {x : Reading ts} : result x = .ok (r, us) ↔ Yields x r us := by
  unfold result Yields
  rw [map_eq_ok_iff]
  constructor
  · rintro ⟨⟨range, rest, hShorter⟩, hOutcome, h⟩
    cases h
    exact ⟨hShorter, hOutcome⟩
  · rintro ⟨hShorter, hOutcome⟩
    exact ⟨_, hOutcome, rfl⟩

/-! ## The parts of the reader -/

theorem result_andThen {x : Reading ts} {f : Parsed ts → Reading ts}
    {g : Range → List Token → Except Error (Range × List Token)}
    (hNext : ∀ p, result (f p) = g p.range p.rest) :
    result (x.andThen f) = result x >>= fun y => g y.1 y.2 := by
  unfold result
  rw [Traced.outcome_andThen]
  cases x.outcome with
  | error e => rfl
  | ok p => exact hNext p

theorem result_widen {hLe : vs.length ≤ ts.length} {f : Range → Range} {x : Reading vs} :
    result (x.map (.widen hLe f) : Reading ts) = (result x).map fun y => (f y.1, y.2) := by
  unfold result
  rw [Traced.outcome_map, map_map, map_map]
  rfl

theorem result_atom :
    result (atom stop ts) = Atom.read stop (Shorthand.select? ts) ts := by
  unfold result atom
  dsimp only
  split
  · rename_i hRead
    exact hRead.symm
  · rename_i hRead
    exact hRead.symm

theorem result_close {p : Parsed ts} :
    result (close stop p) =
      (Atom.expect stop .rightParen p.rest).map fun x => (p.range, x.2) := by
  have hRight := fun {y} (hExpect : Atom.expect stop .rightParen p.rest = y) =>
    congrArg (Except.map fun x : Token × List Token => (p.range, x.2)) hExpect
  unfold result close
  rw [Traced.outcome_silent]
  split
  · rename_i hExpect
    exact (hRight hExpect).symm
  · rename_i hExpect
    exact (hRight hExpect).symm

/-- What an expression in parentheses comes to. -/
def enclosedResult (stop : Token) (ts : List Token) : Except Error (Range × List Token) := do
  let (_, us) ← Atom.expect stop .leftParen ts
  let (r, vs) ← result (phrase stop .expression us)
  let (_, ws) ← Atom.expect stop .rightParen vs
  return (r, ws)

/-- Behind the opening parenthesis come an expression and the closing one. -/
theorem enclosedResult_of_expect {opening : Token}
    (hExpect : Atom.expect stop .leftParen ts = .ok (opening, us)) :
    enclosedResult stop ts = result (phrase stop .expression us) >>= fun y =>
      (Atom.expect stop .rightParen y.2).map fun x => (y.1, x.2) := by
  unfold enclosedResult
  rw [hExpect]
  dsimp only [bind, Except.bind]
  cases result (phrase stop .expression us) with
  | error e => rfl
  | ok y =>
      dsimp only
      cases Atom.expect stop .rightParen y.2 <;> rfl

theorem result_enclosed :
    result (enclosed stop ts fun us _ => phrase stop .expression us) =
      enclosedResult stop ts := by
  unfold enclosed
  split
  · rename_i hExpect
    exact (congrArg (fun x => x >>= _) hExpect).symm
  · rename_i opening vs hExpect
    have hClose := result_andThen (x := phrase stop .expression vs) (f := close stop)
      (g := fun r ws => (Atom.expect stop .rightParen ws).map fun x => (r, x.2))
      fun p => result_close
    rw [enclosedResult_of_expect hExpect, ← hClose]
    refine result_widen.trans ?_
    cases result (Traced.andThen (phrase stop .expression vs) (close stop)) <;> rfl

/-- What comes of going on after a unit. -/
def joinedResult (stop : Token) (r : Range) : List Token → Except Error (Range × List Token)
  | [] => .ok (r, [])
  | t :: us =>
    if t.kind = .and then
      (result (phrase stop .expression us)).map fun x => (.and r x.1, x.2)
    else if t.kind = .or then
      (result (phrase stop .expression us)).map fun x => (.or r x.1, x.2)
    else .ok (r, t :: us)

theorem result_connect {p : Parsed ts} :
    result (connect (fun us _ => phrase stop .expression us) p) =
      joinedResult stop p.range p.rest := by
  obtain ⟨range, rest, hShorter⟩ := p
  cases rest with
  | nil => rfl
  | cons t us =>
      unfold connect joinedResult
      dsimp only
      by_cases hAnd : t.kind = .and
      · rw [if_pos hAnd, if_pos hAnd, result_widen]
      by_cases hOr : t.kind = .or
      · rw [if_neg hAnd, if_pos hOr, if_neg hAnd, if_pos hOr, result_widen]
      · rw [if_neg hAnd, if_neg hOr, if_neg hAnd, if_neg hOr]
        rfl

/-! ## The reader -/

/-- An expression is a unit and what goes on after it. -/
theorem result_expression :
    result (phrase stop .expression ts) =
      result (phrase stop .unit ts) >>= fun x => joinedResult stop x.1 x.2 := by
  show result (expression stop ts) = _
  rw [expression]
  exact result_andThen fun p => result_connect

theorem result_unit_not {mark : Token} (hMark : mark.kind = .not) :
    result (phrase stop .unit (mark :: ts)) =
      (enclosedResult stop ts).map fun x => (.not x.1, x.2) := by
  show result (unit stop (mark :: ts) fun us _ => phrase stop .expression us) = _
  unfold unit
  dsimp only
  rw [if_pos hMark, result_widen, result_enclosed]

theorem result_unit_enclosed {opening : Token} (hOpening : opening.kind = .leftParen) :
    result (phrase stop .unit (opening :: ts)) = enclosedResult stop (opening :: ts) := by
  show result (unit stop (opening :: ts) fun us _ => phrase stop .expression us) = _
  unfold unit
  dsimp only
  rw [if_neg (by simp [hOpening]), if_pos hOpening, result_enclosed]

theorem result_unit_atom (hAtom : ∀ t ∈ ts.head?, t.kind ≠ .not ∧ t.kind ≠ .leftParen) :
    result (phrase stop .unit ts) = Atom.read stop (Shorthand.select? ts) ts := by
  show result (unit stop ts fun us _ => phrase stop .expression us) = _
  rw [← result_atom]
  cases ts with
  | nil => rfl
  | cons t ts =>
      obtain ⟨hNot, hParen⟩ := hAtom t rfl
      unfold unit
      dsimp only
      rw [if_neg hNot, if_neg hParen]

/-- What comes of asking for the end of the input. -/
def endedResult (r : Range) : List Token → Except Error Range
  | [] => .ok r
  | t :: _ => .error (.unexpected ⟨t, [.endOfInput]⟩)

theorem outcome_ofTokens :
    (ofTokens stop ts).outcome =
      result (phrase stop .expression ts) >>= fun x => endedResult x.1 x.2 := by
  unfold ofTokens
  rw [Traced.outcome_andThen]
  unfold result
  show (expression stop ts).outcome >>= _ = ((expression stop ts).outcome.map _) >>= _
  cases (expression stop ts).outcome with
  | error e => rfl
  | ok p =>
      obtain ⟨range, rest, hShorter⟩ := p
      cases rest <;> rfl

end Versioning.Range.Parser
