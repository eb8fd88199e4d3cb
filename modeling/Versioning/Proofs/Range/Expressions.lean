import Versioning.Proofs.Range.Atoms
import Versioning.Range.Parser

/-!
# Reading expressions

The reader of expressions against `Grammar.Derives`. Both kinds of phrase are
treated alike: `Parser.phrase` is the reader of a kind, and `Phrase.Ends` says
what may be left when it has read all of one.

A reading carries the proof that it has taken a token. `Yields` forgets that
proof, and the lemmas of the first section say of each part of the reader what
it yields, so that nothing after them opens a definition of `Range.Parser`.

## Main results

* `yields_of_derives` — a phrase in front of what may follow it is read as what it spells.
* `derives_of_yields` — what is read in front of what may follow a phrase is a phrase.
* `parse_eq_ok_iff` — a text spells a range exactly when its tokens derive it.
-/

namespace Versioning.Range

open Grammar Outcome

/-- A reading ends well with a range and leaves some tokens. -/
def Yields {ts : List Token} (x : Reading ts) (r : Range) (us : List Token) : Prop :=
  ∃ hShorter, x.outcome = .ok ⟨r, us, hShorter⟩

namespace Parser

variable {stop : Token} {ts us vs : List Token} {r : Range}

/-! ## What the parts of the reader yield -/

theorem yields_andThen_iff {x : Reading ts} {f : Parsed ts → Reading ts} :
    Yields (x.andThen f) r us ↔ ∃ p, x.outcome = .ok p ∧ Yields (f p) r us := by
  unfold Yields
  rw [Traced.outcome_andThen]
  constructor
  · rintro ⟨hShorter, h⟩
    obtain ⟨p, hFirst, hNext⟩ := bind_eq_ok_iff.1 h
    exact ⟨p, hFirst, hShorter, hNext⟩
  · rintro ⟨p, hFirst, hShorter, hNext⟩
    exact ⟨hShorter, bind_eq_ok_iff.2 ⟨p, hFirst, hNext⟩⟩

theorem yields_widen_iff {hLe : vs.length ≤ ts.length} {f : Range → Range} {x : Reading vs} :
    Yields (x.map (.widen hLe f) : Reading ts) r us ↔ ∃ inner, Yields x inner us ∧ r = f inner := by
  unfold Yields
  rw [Traced.outcome_map]
  constructor
  · rintro ⟨hShorter, h⟩
    obtain ⟨⟨inner, rest, hRest⟩, hInner, hWiden⟩ := map_eq_ok_iff.1 h
    cases hWiden
    exact ⟨inner, ⟨hRest, hInner⟩, rfl⟩
  · rintro ⟨inner, ⟨hRest, hInner⟩, rfl⟩
    exact ⟨Nat.lt_of_lt_of_le hRest hLe, map_eq_ok_iff.2 ⟨_, hInner, rfl⟩⟩

theorem yields_atom_iff :
    Yields (atom stop ts) r us ↔ Atom.read stop (Shorthand.select? ts) ts = .ok (r, us) := by
  unfold Yields atom
  dsimp only
  constructor
  · rintro ⟨hShorter, h⟩
    split at h
    · cases h
    · rename_i hRead
      cases h
      exact hRead
  · intro hRead
    refine ⟨Atom.length_lt_of_read hRead, ?_⟩
    split
    · rename_i hError
      rw [hRead] at hError
      cases hError
    · rename_i hOk
      rw [hRead] at hOk
      cases hOk
      rfl

theorem yields_close_iff {p : Parsed ts} :
    Yields (close stop p) r us ↔
      r = p.range ∧ ∃ closing, closing.kind = .rightParen ∧ p.rest = closing :: us := by
  unfold Yields close
  rw [Traced.outcome_silent]
  constructor
  · rintro ⟨hShorter, h⟩
    split at h
    · cases h
    · rename_i closing vs hExpect
      cases h
      exact ⟨rfl, closing, Atom.expect_eq_ok_iff.1 hExpect⟩
  · rintro ⟨rfl, closing, hKind, hRest⟩
    have hShorter := p.shorter
    rw [hRest, List.length_cons] at hShorter
    refine ⟨by omega, ?_⟩
    have hExpect : Atom.expect stop .rightParen p.rest = .ok (closing, us) :=
      Atom.expect_eq_ok_iff.2 ⟨hKind, hRest⟩
    split
    · rename_i hError
      rw [hExpect] at hError
      cases hError
    · rename_i hOk
      rw [hExpect] at hOk
      cases hOk
      rfl

theorem yields_enclosed_iff
    {inner : ∀ vs : List Token, vs.length < ts.length → Reading vs} :
    Yields (enclosed stop ts inner) r us ↔
      ∃ opening closing vs, opening.kind = .leftParen ∧ closing.kind = .rightParen ∧
        ts = opening :: vs ∧ ∃ hShorter, Yields (inner vs hShorter) r (closing :: us) := by
  unfold enclosed
  constructor
  · intro h
    split at h
    · obtain ⟨_, h⟩ := h
      cases h
    · rename_i opening vs hExpect
      obtain ⟨hOpening, hTokens⟩ := Atom.expect_eq_ok_iff.1 hExpect
      obtain ⟨_, hBoth, rfl⟩ := yields_widen_iff.1 h
      obtain ⟨⟨_, rest, hRest⟩, hInner, hClose⟩ := yields_andThen_iff.1 hBoth
      obtain ⟨rfl, closing, hClosing, rfl⟩ := yields_close_iff.1 hClose
      exact ⟨opening, closing, vs, hOpening, hClosing, hTokens, _, hRest, hInner⟩
  · rintro ⟨opening, closing, vs, hOpening, hClosing, rfl, hShorter, hRest, hInner⟩
    have hExpect : Atom.expect stop .leftParen (opening :: vs) = .ok (opening, vs) :=
      Atom.expect_eq_ok_iff.2 ⟨hOpening, rfl⟩
    split
    · rename_i hError
      rw [hExpect] at hError
      cases hError
    · rename_i hOk
      rw [hExpect] at hOk
      cases hOk
      refine yields_widen_iff.2 ⟨r, yields_andThen_iff.2 ⟨_, hInner, ?_⟩, rfl⟩
      exact yields_close_iff.2 ⟨rfl, closing, hClosing, rfl⟩

section Connect

variable {p : Parsed ts} {inner : ∀ vs : List Token, vs.length < ts.length → Reading vs}

theorem yields_connect_and_iff {mark : Token} (hRest : p.rest = mark :: vs)
    (hMark : mark.kind = .and) :
    Yields (connect inner p) r us ↔
      ∃ right, r = .and p.range right ∧ ∃ hShorter, Yields (inner vs hShorter) right us := by
  obtain ⟨left, rest, hParsed⟩ := p
  obtain rfl : rest = mark :: vs := hRest
  unfold connect
  dsimp only
  rw [if_pos hMark, yields_widen_iff]
  constructor
  · rintro ⟨right, hRight, rfl⟩
    exact ⟨right, rfl, _, hRight⟩
  · rintro ⟨right, rfl, _, hRight⟩
    exact ⟨right, hRight, rfl⟩

theorem yields_connect_or_iff {mark : Token} (hRest : p.rest = mark :: vs)
    (hMark : mark.kind = .or) :
    Yields (connect inner p) r us ↔
      ∃ right, r = .or p.range right ∧ ∃ hShorter, Yields (inner vs hShorter) right us := by
  obtain ⟨left, rest, hParsed⟩ := p
  obtain rfl : rest = mark :: vs := hRest
  unfold connect
  dsimp only
  rw [if_neg (by simp [hMark]), if_pos hMark, yields_widen_iff]
  constructor
  · rintro ⟨right, hRight, rfl⟩
    exact ⟨right, rfl, _, hRight⟩
  · rintro ⟨right, rfl, _, hRight⟩
    exact ⟨right, hRight, rfl⟩

/-- Where no connective stands the expression ends with the unit. -/
theorem yields_connect_iff_of_stops
    (hStops : ∀ t ∈ p.rest.head?, t.kind ≠ .and ∧ t.kind ≠ .or) :
    Yields (connect inner p) r us ↔ r = p.range ∧ us = p.rest := by
  have hSame : connect inner p = .silent (.ok p) := by
    obtain ⟨left, rest, hParsed⟩ := p
    cases rest with
    | nil => rfl
    | cons t vs =>
        obtain ⟨hAnd, hOr⟩ := hStops t rfl
        unfold connect
        dsimp only
        rw [if_neg hAnd, if_neg hOr]
  rw [hSame]
  constructor
  · rintro ⟨_, h⟩
    cases h
    exact ⟨rfl, rfl⟩
  · rintro ⟨rfl, rfl⟩
    exact ⟨p.shorter, rfl⟩

end Connect

/-! ## Phrases -/

/-- The reader of a kind of phrase. -/
def phrase (stop : Token) : Phrase → (ts : List Token) → Reading ts
  | .expression, ts => expression stop ts
  | .unit, ts => unit stop ts fun us _ => expression stop us

theorem yields_expression_iff :
    Yields (phrase stop .expression ts) r us ↔
      ∃ p, (phrase stop .unit ts).outcome = .ok p ∧
        Yields (connect (fun vs _ => phrase stop .expression vs) p) r us := by
  show Yields (expression stop ts) r us ↔ _
  rw [expression]
  exact yields_andThen_iff

theorem yields_unit_not_iff {mark : Token} (hMark : mark.kind = .not) :
    Yields (phrase stop .unit (mark :: ts)) r us ↔
      ∃ opening closing vs inner, opening.kind = .leftParen ∧ closing.kind = .rightParen ∧
        ts = opening :: vs ∧ Yields (phrase stop .expression vs) inner (closing :: us) ∧
          r = .not inner := by
  show Yields (unit stop (mark :: ts) fun us _ => expression stop us) r us ↔ _
  unfold unit
  dsimp only
  rw [if_pos hMark, yields_widen_iff]
  constructor
  · rintro ⟨inner, hEnclosed, rfl⟩
    obtain ⟨opening, closing, vs, hOpening, hClosing, hTokens, _, hInner⟩ :=
      yields_enclosed_iff.1 hEnclosed
    exact ⟨opening, closing, vs, inner, hOpening, hClosing, hTokens, hInner, rfl⟩
  · rintro ⟨opening, closing, vs, inner, hOpening, hClosing, rfl, hInner, rfl⟩
    exact ⟨inner, yields_enclosed_iff.2
      ⟨opening, closing, vs, hOpening, hClosing, rfl, by simp, hInner⟩, rfl⟩

theorem yields_unit_enclosed_iff {opening : Token} (hOpening : opening.kind = .leftParen) :
    Yields (phrase stop .unit (opening :: ts)) r us ↔
      ∃ closing, closing.kind = .rightParen ∧
        Yields (phrase stop .expression ts) r (closing :: us) := by
  show Yields (unit stop (opening :: ts) fun us _ => expression stop us) r us ↔ _
  unfold unit
  dsimp only
  rw [if_neg (by simp [hOpening]), if_pos hOpening, yields_enclosed_iff]
  constructor
  · rintro ⟨_, closing, vs, _, hClosing, hTokens, _, hInner⟩
    cases hTokens
    exact ⟨closing, hClosing, hInner⟩
  · rintro ⟨closing, hClosing, hInner⟩
    exact ⟨opening, closing, ts, hOpening, hClosing, rfl, by simp, hInner⟩

theorem yields_unit_atom_iff (hAtom : ∀ t ∈ ts.head?, t.kind ≠ .not ∧ t.kind ≠ .leftParen) :
    Yields (phrase stop .unit ts) r us ↔
      Atom.read stop (Shorthand.select? ts) ts = .ok (r, us) := by
  show Yields (unit stop ts fun us _ => expression stop us) r us ↔ _
  rw [← yields_atom_iff]
  cases ts with
  | nil => exact Iff.rfl
  | cons t ts =>
      obtain ⟨hNot, hParen⟩ := hAtom t rfl
      unfold unit
      dsimp only
      rw [if_neg hNot, if_neg hParen]

end Parser

/-- What may be left when all of a phrase has been read. -/
def Grammar.Phrase.Ends : Phrase → List Token → Prop
  | .expression, ts => ∀ t ∈ ts.head?, t.kind = .rightParen
  | .unit, ts => Follows ts

/-- Whether an atom may start with a token of a kind. -/
def Grammar.startsAtom (kind : Kind) : Bool :=
  (Operator.ofKind? kind).isSome || [.numeric, .tilde, .caret, .wildcard].contains kind

/-- An atom has a token, and the kind of the first one tells that it is an atom. -/
theorem Grammar.Atom.exists_start {ts : List Token} {r : Range} (h : Grammar.Atom ts r) :
    ∃ t us, ts = t :: us ∧ startsAtom t.kind = true := by
  have hNumeric : ∀ {vs : List Token} {cs : List Component} (ws : List Token), Numbers vs cs →
      ∃ t us, vs ++ ws = t :: us ∧ startsAtom t.kind = true := by
    intro vs cs ws hNumbers
    obtain ⟨t, us, rfl, hKind⟩ := hNumbers.exists_cons
    exact ⟨t, us ++ ws, rfl, by rw [hKind]; rfl⟩
  cases h with
  | tilde hMark => exact ⟨_, _, rfl, by rw [hMark]; rfl⟩
  | caret hMark => exact ⟨_, _, rfl, by rw [hMark]; rfl⟩
  | caretZero hMark => exact ⟨_, _, rfl, by rw [hMark]; rfl⟩
  | any hStar => exact ⟨_, _, rfl, by rw [hStar]; rfl⟩
  | wildcard hNumbers => exact hNumeric _ hNumbers
  | hyphen hLower => exact hNumeric _ hLower
  | partialVersion hNumbers => simpa using hNumeric [] hNumbers
  | plain hNumbers => simpa using hNumeric [] hNumbers
  | comparison hMark => exact ⟨_, _, rfl, by rw [startsAtom, hMark]; rfl⟩

/-- An atom starts with a token, and not as the other units do. -/
theorem Grammar.Atom.exists_cons {ts : List Token} {r : Range} (h : Grammar.Atom ts r) :
    ∃ t us, ts = t :: us ∧ t.kind ≠ .not ∧ t.kind ≠ .leftParen := by
  obtain ⟨t, us, rfl, hStart⟩ := h.exists_start
  refine ⟨t, us, rfl, ?_, ?_⟩ <;> intro hKind <;> rw [hKind] at hStart <;> cases hStart

namespace Parser

variable {stop : Token} {ts us vs : List Token} {r : Range}

/-! ## The two directions -/

/-- A phrase in front of what may follow it is read as what it spells. -/
theorem yields_of_derives {kind : Phrase} (h : Derives kind ts r) (hEnds : kind.Ends us) :
    Yields (phrase stop kind (ts ++ us)) r us := by
  induction h generalizing us with
  | @unit ts r _ ih =>
      have hFollows : Follows us := fun t hMem => .inr (.inr (hEnds t hMem))
      have hStops : ∀ t ∈ us.head?, t.kind ≠ .and ∧ t.kind ≠ .or := by
        intro t hMem
        rw [hEnds t hMem]
        decide
      obtain ⟨hShorter, hUnit⟩ := ih hFollows
      exact yields_expression_iff.2 ⟨_, hUnit, (yields_connect_iff_of_stops hStops).2 ⟨rfl, rfl⟩⟩
  | @and mark ts vs left right _ hMark _ ihLeft ihRight =>
      have hFollows : Follows (mark :: (vs ++ us)) := follows_cons.2 (.inl hMark)
      obtain ⟨hShorter, hUnit⟩ := ihLeft hFollows
      rw [List.append_assoc, List.cons_append]
      refine yields_expression_iff.2 ⟨_, hUnit, (yields_connect_and_iff rfl hMark).2 ?_⟩
      exact ⟨right, rfl, Nat.lt_of_succ_lt hShorter, ihRight hEnds⟩
  | @or mark ts vs left right _ hMark _ ihLeft ihRight =>
      have hFollows : Follows (mark :: (vs ++ us)) := follows_cons.2 (.inr (.inl hMark))
      obtain ⟨hShorter, hUnit⟩ := ihLeft hFollows
      rw [List.append_assoc, List.cons_append]
      refine yields_expression_iff.2 ⟨_, hUnit, (yields_connect_or_iff rfl hMark).2 ?_⟩
      exact ⟨right, rfl, Nat.lt_of_succ_lt hShorter, ihRight hEnds⟩
  | @atom ts r hAtom =>
      obtain ⟨t, vs, rfl, hNot, hParen⟩ := hAtom.exists_cons
      refine (yields_unit_atom_iff (by simpa using ⟨hNot, hParen⟩)).2 ?_
      exact Atom.read_append hAtom hEnds
  | @enclosed opening closing ts r hOpening _ hClosing ih =>
      rw [List.cons_append, List.append_assoc, List.singleton_append]
      refine (yields_unit_enclosed_iff hOpening).2 ⟨closing, hClosing, ih ?_⟩
      simpa [Phrase.Ends] using hClosing
  | @not mark opening closing ts r hMark hOpening _ hClosing ih =>
      rw [List.cons_append, List.cons_append, List.append_assoc, List.singleton_append]
      refine (yields_unit_not_iff hMark).2
        ⟨opening, closing, _, r, hOpening, hClosing, rfl, ih ?_, rfl⟩
      simpa [Phrase.Ends] using hClosing

/-- A unit, provided that the expressions in it are what they should be. -/
theorem derives_unit_of_yields
    (hInner : ∀ (vs ws : List Token) (inner : Range), vs.length < ts.length →
      Yields (phrase stop .expression vs) inner ws → Phrase.expression.Ends ws →
      ∃ xs, vs = xs ++ ws ∧ Derives .expression xs inner)
    (h : Yields (phrase stop .unit ts) r us) (hFollows : Follows us) :
    ∃ vs, ts = vs ++ us ∧ Derives .unit vs r := by
  have hClosed : ∀ {closing : Token} {ws : List Token}, closing.kind = .rightParen →
      Phrase.expression.Ends (closing :: ws) := by
    intro closing ws hClosing
    simpa [Phrase.Ends] using hClosing
  cases ts with
  | nil =>
      obtain ⟨vs, hSplit, hAtom⟩ :=
        Atom.atom_of_read ((yields_unit_atom_iff (by simp)).1 h) hFollows
      exact ⟨vs, hSplit, .atom hAtom⟩
  | cons t ts =>
      by_cases hNot : t.kind = .not
      · obtain ⟨opening, closing, vs, inner, hOpening, hClosing, rfl, hRead, rfl⟩ :=
          (yields_unit_not_iff hNot).1 h
        have hFewer : vs.length < (t :: opening :: vs).length :=
          Nat.lt_succ_of_lt (Nat.lt_succ_self _)
        obtain ⟨xs, rfl, hDerives⟩ := hInner vs _ inner hFewer hRead (hClosed hClosing)
        exact ⟨t :: opening :: (xs ++ [closing]), by simp,
          .not hNot hOpening hDerives hClosing⟩
      by_cases hParen : t.kind = .leftParen
      · obtain ⟨closing, hClosing, hRead⟩ := (yields_unit_enclosed_iff hParen).1 h
        obtain ⟨xs, rfl, hDerives⟩ := hInner ts _ r (by simp) hRead (hClosed hClosing)
        exact ⟨t :: (xs ++ [closing]), by simp, .enclosed hParen hDerives hClosing⟩
      · have hRead := (yields_unit_atom_iff (by simpa using ⟨hNot, hParen⟩)).1 h
        obtain ⟨vs, hSplit, hAtom⟩ := Atom.atom_of_read hRead hFollows
        exact ⟨vs, hSplit, .atom hAtom⟩

/-- What is read in front of what may follow an expression is an expression. The recursion is
that of the reader, on the number of tokens. -/
theorem derives_of_yields {ts us : List Token} {r : Range}
    (h : Yields (phrase stop .expression ts) r us) (hEnds : Phrase.expression.Ends us) :
    ∃ vs, ts = vs ++ us ∧ Derives .expression vs r := by
  have hInner : ∀ (vs ws : List Token) (inner : Range), vs.length < ts.length →
      Yields (phrase stop .expression vs) inner ws → Phrase.expression.Ends ws →
      ∃ xs, vs = xs ++ ws ∧ Derives .expression xs inner :=
    fun vs ws inner hShorter hRead hStop => derives_of_yields hRead hStop
  obtain ⟨⟨left, ms, hShorter⟩, hUnit, hConnect⟩ := yields_expression_iff.1 h
  have hLeft := fun hFollows => derives_unit_of_yields hInner ⟨hShorter, hUnit⟩ hFollows
  by_cases hAnd : ∃ mark vs, ms = mark :: vs ∧ mark.kind = .and
  · obtain ⟨mark, vs, rfl, hMark⟩ := hAnd
    obtain ⟨right, rfl, _, hRight⟩ := (yields_connect_and_iff rfl hMark).1 hConnect
    obtain ⟨xs, rfl, hUnitDerives⟩ := hLeft (follows_cons.2 (.inl hMark))
    obtain ⟨ys, rfl, hDerives⟩ := hInner vs us right (Nat.lt_of_succ_lt hShorter) hRight hEnds
    exact ⟨xs ++ mark :: ys, by simp, .and hUnitDerives hMark hDerives⟩
  by_cases hOr : ∃ mark vs, ms = mark :: vs ∧ mark.kind = .or
  · obtain ⟨mark, vs, rfl, hMark⟩ := hOr
    obtain ⟨right, rfl, _, hRight⟩ := (yields_connect_or_iff rfl hMark).1 hConnect
    obtain ⟨xs, rfl, hUnitDerives⟩ := hLeft (follows_cons.2 (.inr (.inl hMark)))
    obtain ⟨ys, rfl, hDerives⟩ := hInner vs us right (Nat.lt_of_succ_lt hShorter) hRight hEnds
    exact ⟨xs ++ mark :: ys, by simp, .or hUnitDerives hMark hDerives⟩
  · have hStops : ∀ t ∈ ms.head?, t.kind ≠ .and ∧ t.kind ≠ .or := by
      intro t hMem
      obtain ⟨vs, rfl⟩ := List.head?_eq_some_iff.1 hMem
      exact ⟨fun hKind => hAnd ⟨t, vs, rfl, hKind⟩, fun hKind => hOr ⟨t, vs, rfl, hKind⟩⟩
    obtain ⟨rfl, rfl⟩ := (yields_connect_iff_of_stops hStops).1 hConnect
    obtain ⟨xs, rfl, hUnitDerives⟩ := hLeft fun t hMem => .inr (.inr (hEnds t hMem))
    exact ⟨xs, rfl, .unit hUnitDerives⟩
termination_by ts.length

end Parser

/-! ## Whole texts -/

/-- Exactly the expressions are read to the end. -/
theorem ofTokens_eq_ok_iff {stop : Token} {ts : List Token} {r : Range} :
    (ofTokens stop ts).outcome = .ok r ↔ Derives .expression ts r := by
  have hEnds : Phrase.expression.Ends [] := by simp [Phrase.Ends]
  unfold ofTokens
  rw [Traced.outcome_andThen, bind_eq_ok_iff]
  constructor
  · rintro ⟨⟨range, rest, hShorter⟩, hRead, hFinish⟩
    cases rest with
    | nil =>
        cases hFinish
        obtain ⟨vs, hSplit, hDerives⟩ := Parser.derives_of_yields ⟨hShorter, hRead⟩ hEnds
        obtain rfl : ts = vs := by simpa using hSplit
        exact hDerives
    | cons t us => cases hFinish
  · intro hDerives
    have hYields : Yields (Parser.phrase stop .expression (ts ++ [])) r [] :=
      Parser.yields_of_derives hDerives hEnds
    rw [List.append_nil] at hYields
    obtain ⟨hShorter, hRead⟩ := hYields
    exact ⟨_, hRead, rfl⟩

/-- A text is parsed to what its tokens derive, the end of the input left aside. -/
theorem parse_eq_ok_iff {s : String} {r : Range} :
    Range.parse s = .ok r ↔ ∃ ts, Token.ofChars s.toList = .ok ts ∧ Derives .expression ts r := by
  unfold Range.parse
  rw [bind_eq_ok_iff]
  apply exists_congr
  intro ts
  rw [mapError_eq_ok_iff, ofTokens_eq_ok_iff]

theorem tokenize_eq_ok_iff {s : String} {ts : List Token} :
    Token.tokenize s = .ok (ts ++ [.endAt s.toList.length]) ↔
      Token.ofChars s.toList = .ok ts := by
  unfold Token.tokenize
  rw [map_eq_ok_iff]
  simp only [List.append_cancel_right_eq, exists_eq_right]

/-- **The grammar of range expressions**: a text spells a range exactly when it is made of
tokens that derive the range. -/
theorem parse_eq_ok_iff_derives (s : String) (r : Range) :
    Range.parse s = .ok r ↔
      ∃ ts, Token.tokenize s = .ok (ts ++ [.endAt s.toList.length]) ∧
        Derives .expression ts r := by
  rw [parse_eq_ok_iff]
  apply exists_congr
  intro ts
  rw [tokenize_eq_ok_iff]

end Versioning.Range
