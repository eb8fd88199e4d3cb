import Mathlib.Data.List.Basic
import Versioning.Event
import Versioning.Proofs.Range.Expressions

/-!
# What reading an expression tells

The reader tells of a shorthand when it selects one, which is when it comes to an atom
and before it reads it. So what it tells does not depend on how the atom goes on, and a
text that is no expression leaves a record of the atoms that were come to all the same.
Where they are is said here by the grammar and not by the reader: behind parentheses
that are open and behind units that are complete, with a connective after each
(`Grammar.Precedes`). Such a place is given by the tokens from there on, so that of two
places the one on the left has more of them.

Of a text that is an expression all atoms are come to. A derivation names them
(`Grammar.DerivesFrom`), and it says of each how it is written (`Grammar.Form`).

## Main results

* `Parser.tells_expression` — the places at which the reader of expressions comes to an atom.
* `Parser.events_of_derivesFrom` — what it tells of a phrase is told by the atoms of the phrase.
* `events_parseTold` — the record of reading a text.
-/

namespace Versioning.Range

open Grammar Outcome

/-- The selection of a form for some tokens, unless it is that of a comparison. -/
def Selection.of? (form : Option Shorthand) (ts : List Token) : Option Selection := do
  return ⟨← form, ← ts.head?⟩

/-- The selection that is made at the front of some tokens. -/
def Selection.at? (ts : List Token) : Option Selection :=
  Selection.of? (Shorthand.select? ts) ts

namespace Grammar

/-! ## Where atoms are come to -/

/-- The tokens of a phrase behind which an atom of it may stand: parentheses that are open, and
complete units with a connective after each. -/
inductive Precedes : Phrase → List Token → Prop where
  | nil : Precedes .unit []
  | enclosed {opening : Token} {before : List Token} (hOpening : opening.kind = .leftParen)
      (hInner : Precedes .expression before) : Precedes .unit (opening :: before)
  | not {mark opening : Token} {before : List Token} (hMark : mark.kind = .not)
      (hOpening : opening.kind = .leftParen) (hInner : Precedes .expression before) :
      Precedes .unit (mark :: opening :: before)
  | unit {before : List Token} (hUnit : Precedes .unit before) : Precedes .expression before
  | behind {mark : Token} {ts before : List Token} {r : Range} (hUnit : Derives .unit ts r)
      (hMark : mark.kind = .and ∨ mark.kind = .or) (hBehind : Precedes .expression before) :
      Precedes .expression (ts ++ mark :: before)

/-- An atom has to start at `us`, the last of some tokens: in front of them is what may be in front
of one, and they start no other unit. -/
def Enters (kind : Phrase) (ts us : List Token) : Prop :=
  (∀ t ∈ us.head?, t.kind ≠ .not ∧ t.kind ≠ .leftParen) ∧
    ∃ before, Precedes kind before ∧ ts = before ++ us

variable {ts us : List Token}

theorem Enters.length_le {kind : Phrase} (h : Enters kind ts us) : us.length ≤ ts.length := by
  obtain ⟨-, before, -, rfl⟩ := h
  rw [List.length_append]
  exact Nat.le_add_left _ _

theorem enters_unit_not_iff {mark : Token} (hMark : mark.kind = .not) :
    Enters .unit (mark :: ts) us ↔
      ∃ opening vs, opening.kind = .leftParen ∧ ts = opening :: vs ∧ Enters .expression vs us := by
  constructor
  · rintro ⟨hStart, before, hBefore, hSplit⟩
    cases hBefore with
    | nil =>
        obtain rfl : mark :: ts = us := hSplit
        exact absurd hMark (hStart mark rfl).1
    | enclosed hOpening _ =>
        obtain ⟨rfl, -⟩ := List.cons.inj hSplit
        rw [hMark] at hOpening
        cases hOpening
    | @not _ opening before _ hOpening hInner =>
        obtain ⟨-, rfl⟩ := List.cons.inj hSplit
        exact ⟨opening, before ++ us, hOpening, rfl, hStart, before, hInner, rfl⟩
  · rintro ⟨opening, vs, hOpening, rfl, hStart, before, hInner, rfl⟩
    exact ⟨hStart, _, .not hMark hOpening hInner, rfl⟩

theorem enters_unit_enclosed_iff {opening : Token} (hOpening : opening.kind = .leftParen) :
    Enters .unit (opening :: ts) us ↔ Enters .expression ts us := by
  constructor
  · rintro ⟨hStart, before, hBefore, hSplit⟩
    cases hBefore with
    | nil =>
        obtain rfl : opening :: ts = us := hSplit
        exact absurd hOpening (hStart opening rfl).2
    | @enclosed _ before _ hInner =>
        obtain ⟨-, rfl⟩ := List.cons.inj hSplit
        exact ⟨hStart, before, hInner, rfl⟩
    | not hMark _ _ =>
        obtain ⟨rfl, -⟩ := List.cons.inj hSplit
        rw [hOpening] at hMark
        cases hMark
  · rintro ⟨hStart, before, hInner, rfl⟩
    exact ⟨hStart, _, .enclosed hOpening hInner, rfl⟩

theorem enters_unit_atom_iff (hAtom : ∀ t ∈ ts.head?, t.kind ≠ .not ∧ t.kind ≠ .leftParen) :
    Enters .unit ts us ↔ us = ts := by
  constructor
  · rintro ⟨-, before, hBefore, rfl⟩
    cases hBefore with
    | nil => rfl
    | enclosed hOpening _ => exact absurd hOpening (hAtom _ rfl).2
    | not hMark _ _ => exact absurd hMark (hAtom _ rfl).1
  · rintro rfl
    exact ⟨hAtom, [], .nil, rfl⟩

theorem enters_expression_iff :
    Enters .expression ts us ↔ Enters .unit ts us ∨
      ∃ vs r mark ws, Derives .unit vs r ∧ (mark.kind = .and ∨ mark.kind = .or) ∧
        ts = vs ++ mark :: ws ∧ Enters .expression ws us := by
  constructor
  · rintro ⟨hStart, before, hBefore, rfl⟩
    cases hBefore with
    | unit hUnit => exact .inl ⟨hStart, before, hUnit, rfl⟩
    | @behind mark vs before r hUnit hMark hBehind =>
        exact .inr ⟨vs, r, mark, before ++ us, hUnit, hMark, List.append_assoc _ _ _, hStart,
          before, hBehind, rfl⟩
  · rintro (⟨hStart, before, hUnit, rfl⟩ |
      ⟨vs, r, mark, _, hUnit, hMark, rfl, hStart, before, hBehind, rfl⟩)
    · exact ⟨hStart, before, .unit hUnit, rfl⟩
    · refine ⟨hStart, vs ++ mark :: before, .behind hUnit hMark hBehind, ?_⟩
      rw [List.append_assoc, List.cons_append]

end Grammar

namespace Parser

variable {stop : Token} {ts us vs : List Token} {r : Range}

/-! ## What the parts of the reader tell -/

theorem events_atom : (atom stop ts).events = (Selection.at? ts).toList := by
  unfold atom Selection.at? Selection.of?
  dsimp only
  cases ts with
  | nil => rfl
  | cons t ts =>
      generalize Shorthand.select? (t :: ts) = form
      cases form <;> rfl

theorem events_enclosed {opening : Token} (hOpening : opening.kind = .leftParen) :
    (enclosed stop (opening :: vs) fun us _ => phrase stop .expression us).events =
      (phrase stop .expression vs).events := by
  have hExpect : Atom.expect stop .leftParen (opening :: vs) = .ok (opening, vs) :=
    Atom.expect_eq_ok_iff.2 ⟨hOpening, rfl⟩
  unfold enclosed
  split
  · rename_i hError
    rw [hExpect] at hError
    cases hError
  · rename_i hOk
    rw [hExpect] at hOk
    cases hOk
    have hClose : ((phrase stop .expression vs).andThen (close stop)).events =
        (phrase stop .expression vs).events := Traced.events_andThen_of_silent fun _ => rfl
    exact hClose

/-- Where no parenthesis opens nothing is told. -/
theorem events_enclosed_of_closed
    (hClosed : ∀ opening vs, ts = opening :: vs → opening.kind ≠ .leftParen) :
    (enclosed stop ts fun us _ => phrase stop .expression us).events = [] := by
  unfold enclosed
  split
  · rfl
  · rename_i opening vs hOk
    obtain ⟨hOpening, hSplit⟩ := Atom.expect_eq_ok_iff.1 hOk
    exact absurd hOpening (hClosed opening vs hSplit)

theorem events_unit_not {mark : Token} (hMark : mark.kind = .not) :
    (phrase stop .unit (mark :: ts)).events =
      (enclosed stop ts fun us _ => phrase stop .expression us).events := by
  show (unit stop (mark :: ts) fun us _ => phrase stop .expression us).events = _
  unfold unit
  dsimp only
  rw [if_pos hMark, Traced.events_map]

theorem events_unit_enclosed {opening : Token} (hOpening : opening.kind = .leftParen) :
    (phrase stop .unit (opening :: ts)).events = (phrase stop .expression ts).events := by
  show (unit stop (opening :: ts) fun us _ => phrase stop .expression us).events = _
  unfold unit
  dsimp only
  rw [if_neg (by simp [hOpening]), if_pos hOpening, events_enclosed hOpening]

theorem events_unit_atom (hAtom : ∀ t ∈ ts.head?, t.kind ≠ .not ∧ t.kind ≠ .leftParen) :
    (phrase stop .unit ts).events = (Selection.at? ts).toList := by
  have hTold : (atom stop ts).events = (Selection.at? ts).toList := events_atom
  show (unit stop ts fun us _ => phrase stop .expression us).events = _
  rw [← hTold]
  cases ts with
  | nil => rfl
  | cons t ts =>
      obtain ⟨hNot, hParen⟩ := hAtom t rfl
      unfold unit
      dsimp only
      rw [if_neg hNot, if_neg hParen]

/-- The tokens that an expression goes on with behind a unit and a connective. -/
def GoesOn (stop : Token) (ts : List Token) (r : Range) (vs : List Token) : Prop :=
  ∃ mark : Token, (mark.kind = .and ∨ mark.kind = .or) ∧
    Yields (phrase stop .unit ts) r (mark :: vs)

theorem events_expression :
    (phrase stop .expression ts).events =
      (phrase stop .unit ts).events ++ (phrase stop .unit ts).outcome.toOption.elim []
        fun p => (connect (fun us _ => phrase stop .expression us) p).events := by
  show (expression stop ts).events = _
  rw [expression, Traced.events_andThen]
  rfl

theorem events_expression_of_goesOn (hGoesOn : GoesOn stop ts r vs) :
    (phrase stop .expression ts).events =
      (phrase stop .unit ts).events ++ (phrase stop .expression vs).events := by
  obtain ⟨mark, hMark, hShorter, hUnit⟩ := hGoesOn
  rw [events_expression, hUnit]
  dsimp only [Except.toOption, Option.elim]
  unfold connect
  dsimp only
  rcases hMark with hAnd | hOr
  · rw [if_pos hAnd, Traced.events_map]
  · rw [if_neg (by simp [hOr]), if_pos hOr, Traced.events_map]

theorem events_expression_of_not_goesOn (hNot : ∀ r vs, ¬ GoesOn stop ts r vs) :
    (phrase stop .expression ts).events = (phrase stop .unit ts).events := by
  rw [events_expression]
  cases hUnit : (phrase stop .unit ts).outcome with
  | error e => exact List.append_nil _
  | ok p =>
      obtain ⟨r, rest, hShorter⟩ := p
      refine (congrArg _ ?_).trans (List.append_nil _)
      cases rest with
      | nil => rfl
      | cons mark vs =>
          have hOther : ¬ (mark.kind = .and ∨ mark.kind = .or) := fun hMark =>
            hNot r vs ⟨mark, hMark, hShorter, hUnit⟩
          obtain ⟨hAnd, hOr⟩ := not_or.1 hOther
          show (connect _ (⟨r, mark :: vs, hShorter⟩ : Parsed ts)).events = []
          unfold connect
          dsimp only
          rw [if_neg hAnd, if_neg hOr]
          rfl

/-! ## The places come to -/

/-- What the reader of a phrase tells is told at the places at which it comes to an atom. These are
where one has to start, from left to right and all in front of what is left. -/
structure Tells (stop : Token) (kind : Phrase) (ts : List Token) (places : List (List Token)) :
    Prop where
  events_eq : (phrase stop kind ts).events = places.filterMap Selection.at?
  mem_iff : ∀ us, us ∈ places ↔ Enters kind ts us
  ordered : places.Pairwise fun us vs => vs.length < us.length
  passed : ∀ r rest, Yields (phrase stop kind ts) r rest → ∀ us ∈ places, rest.length < us.length

theorem tells_atom (hAtom : ∀ t ∈ ts.head?, t.kind ≠ .not ∧ t.kind ≠ .leftParen) :
    Tells stop .unit ts [ts] where
  events_eq := by
    rw [events_unit_atom hAtom, List.filterMap_cons]
    cases Selection.at? ts <;> rfl
  mem_iff us := by rw [enters_unit_atom_iff hAtom, List.mem_singleton]
  ordered := List.pairwise_singleton _ _
  passed r rest hYields us hMem := by
    rw [List.mem_singleton.1 hMem]
    exact Atom.length_lt_of_read ((yields_unit_atom_iff hAtom).1 hYields)

/-- What is told of an expression in parentheses is told of the expression. -/
theorem Tells.enclosed {places : List (List Token)} (hInner : Tells stop .expression vs places)
    (hEvents : (phrase stop .unit ts).events = (phrase stop .expression vs).events)
    (hEnters : ∀ us, Enters .unit ts us ↔ Enters .expression vs us)
    (hClosed : ∀ r rest, Yields (phrase stop .unit ts) r rest → ∃ inner closing,
      Yields (phrase stop .expression vs) inner (closing :: rest)) :
    Tells stop .unit ts places where
  events_eq := hEvents.trans hInner.events_eq
  mem_iff us := (hInner.mem_iff us).trans (hEnters us).symm
  ordered := hInner.ordered
  passed r rest hYields us hMem := by
    obtain ⟨inner, closing, hRead⟩ := hClosed r rest hYields
    exact Nat.lt_of_succ_lt (hInner.passed inner _ hRead us hMem)

/-- A negation without a parenthesis is given up before an atom is come to. -/
theorem tells_not_of_closed {mark : Token} (hMark : mark.kind = .not)
    (hClosed : ∀ opening vs, ts = opening :: vs → opening.kind ≠ .leftParen) :
    Tells stop .unit (mark :: ts) [] where
  events_eq := by rw [events_unit_not hMark, events_enclosed_of_closed hClosed, List.filterMap_nil]
  mem_iff us := by
    refine iff_of_false List.not_mem_nil fun hEnters => ?_
    obtain ⟨opening, vs, hOpening, hSplit, -⟩ := (enters_unit_not_iff hMark).1 hEnters
    exact hClosed opening vs hSplit hOpening
  ordered := .nil
  passed _ _ _ _ hMem := absurd hMem List.not_mem_nil

/-- A unit, provided that the expressions in it are told of. -/
theorem tells_unit (hInner : ∀ vs : List Token, vs.length < ts.length →
      ∃ places, Tells stop .expression vs places) : ∃ places, Tells stop .unit ts places := by
  cases ts with
  | nil => exact ⟨_, tells_atom (by simp)⟩
  | cons t ts =>
      by_cases hNot : t.kind = .not
      · by_cases hOpens : ∃ opening vs, ts = opening :: vs ∧ opening.kind = .leftParen
        · obtain ⟨opening, vs, rfl, hOpening⟩ := hOpens
          obtain ⟨places, hTells⟩ := hInner vs (Nat.lt_succ_of_lt (Nat.lt_succ_self _))
          refine ⟨places, hTells.enclosed ?_ (fun us => ?_) fun r rest hYields => ?_⟩
          · rw [events_unit_not hNot, events_enclosed hOpening]
          · rw [enters_unit_not_iff hNot]
            constructor
            · rintro ⟨_, _, -, ⟨⟩, hEnters⟩
              exact hEnters
            · exact fun hEnters => ⟨opening, vs, hOpening, rfl, hEnters⟩
          · obtain ⟨_, closing, _, inner, -, -, ⟨⟩, hRead, -⟩ :=
              (yields_unit_not_iff hNot).1 hYields
            exact ⟨inner, closing, hRead⟩
        · refine ⟨[], tells_not_of_closed hNot fun opening vs hSplit hOpening => ?_⟩
          exact hOpens ⟨opening, vs, hSplit, hOpening⟩
      by_cases hParen : t.kind = .leftParen
      · obtain ⟨places, hTells⟩ := hInner ts (Nat.lt_succ_self _)
        refine ⟨places, hTells.enclosed (events_unit_enclosed hParen)
          (fun us => enters_unit_enclosed_iff hParen) fun r rest hYields => ?_⟩
        obtain ⟨closing, -, hRead⟩ := (yields_unit_enclosed_iff hParen).1 hYields
        exact ⟨r, closing, hRead⟩
      · exact ⟨_, tells_atom (by simpa using ⟨hNot, hParen⟩)⟩

theorem follows_connective {mark : Token} (hMark : mark.kind = .and ∨ mark.kind = .or) :
    Follows (mark :: vs) :=
  follows_cons.2 (hMark.elim .inl fun hOr => .inr (.inl hOr))

/-- The reader goes on behind a unit exactly if there is one that is complete. -/
theorem goesOn_iff : GoesOn stop ts r vs ↔
    ∃ us mark, Derives .unit us r ∧ (mark.kind = .and ∨ mark.kind = .or) ∧
      ts = us ++ mark :: vs := by
  constructor
  · rintro ⟨mark, hMark, hYields⟩
    obtain ⟨us, hSplit, hUnit⟩ := derives_unit_of_yields
      (fun _ _ _ _ hRead hEnds => derives_of_yields hRead hEnds) hYields (follows_connective hMark)
    exact ⟨us, mark, hUnit, hMark, hSplit⟩
  · rintro ⟨us, mark, hUnit, hMark, rfl⟩
    exact ⟨mark, hMark, yields_of_derives hUnit (follows_connective hMark)⟩

/-- An atom is come to in the unit at the front, or in what the reader goes on with. -/
theorem enters_expression_iff_goesOn (stop : Token) :
    Enters .expression ts us ↔
      Enters .unit ts us ∨ ∃ r vs, GoesOn stop ts r vs ∧ Enters .expression vs us := by
  rw [enters_expression_iff]
  refine or_congr_right ?_
  constructor
  · rintro ⟨ws, r, mark, vs, hUnit, hMark, hSplit, hEnters⟩
    exact ⟨r, vs, goesOn_iff.2 ⟨ws, mark, hUnit, hMark, hSplit⟩, hEnters⟩
  · rintro ⟨r, vs, hGoesOn, hEnters⟩
    obtain ⟨ws, mark, hUnit, hMark, hSplit⟩ := goesOn_iff.1 hGoesOn
    exact ⟨ws, r, mark, vs, hUnit, hMark, hSplit, hEnters⟩

theorem GoesOn.eq {r' : Range} {ws : List Token} (h : GoesOn stop ts r vs)
    (h' : GoesOn stop ts r' ws) : vs = ws := by
  obtain ⟨_, -, _, hUnit⟩ := h
  obtain ⟨_, -, _, hUnit'⟩ := h'
  rw [hUnit] at hUnit'
  cases hUnit'
  rfl

theorem yields_of_goesOn {r' : Range} (hGoesOn : GoesOn stop ts r vs)
    (hYields : Yields (phrase stop .expression ts) r' us) :
    ∃ right, Yields (phrase stop .expression vs) right us := by
  obtain ⟨mark, hMark, hShorter, hUnit⟩ := hGoesOn
  obtain ⟨p, hFirst, hConnect⟩ := yields_expression_iff.1 hYields
  rw [hUnit] at hFirst
  cases hFirst
  rcases hMark with hAnd | hOr
  · obtain ⟨right, -, _, hRight⟩ := (yields_connect_and_iff rfl hAnd).1 hConnect
    exact ⟨right, hRight⟩
  · obtain ⟨right, -, _, hRight⟩ := (yields_connect_or_iff rfl hOr).1 hConnect
    exact ⟨right, hRight⟩

theorem yields_of_not_goesOn (hNot : ∀ r vs, ¬ GoesOn stop ts r vs)
    (hYields : Yields (phrase stop .expression ts) r us) : Yields (phrase stop .unit ts) r us := by
  obtain ⟨⟨left, rest, hShorter⟩, hFirst, hConnect⟩ := yields_expression_iff.1 hYields
  have hStops : ∀ t ∈ rest.head?, t.kind ≠ .and ∧ t.kind ≠ .or := by
    intro t hMem
    obtain ⟨vs, rfl⟩ := List.head?_eq_some_iff.1 hMem
    exact not_or.1 fun hMark => hNot left vs ⟨t, hMark, hShorter, hFirst⟩
  obtain ⟨rfl, rfl⟩ := (yields_connect_iff_of_stops hStops).1 hConnect
  exact ⟨hShorter, hFirst⟩

theorem Tells.goesOn {first second : List (List Token)} (hUnit : Tells stop .unit ts first)
    (hGoesOn : GoesOn stop ts r vs) (hRest : Tells stop .expression vs second) :
    Tells stop .expression ts (first ++ second) where
  events_eq := by
    rw [events_expression_of_goesOn hGoesOn, hUnit.events_eq, hRest.events_eq,
      List.filterMap_append]
  mem_iff us := by
    rw [List.mem_append, hUnit.mem_iff, hRest.mem_iff]
    refine Iff.trans (or_congr_right ?_) (enters_expression_iff_goesOn stop).symm
    constructor
    · exact fun hEnters => ⟨r, vs, hGoesOn, hEnters⟩
    · rintro ⟨_, _, hOther, hEnters⟩
      rwa [hGoesOn.eq hOther]
  ordered := by
    refine List.pairwise_append.2 ⟨hUnit.ordered, hRest.ordered, fun us hFirst ws hSecond => ?_⟩
    -- What the connective leaves is shorter than what the unit leaves.
    obtain ⟨mark, -, hYields⟩ := hGoesOn
    have hBefore := hUnit.passed r _ hYields us hFirst
    have hBehind := ((hRest.mem_iff ws).1 hSecond).length_le
    rw [List.length_cons] at hBefore
    omega
  passed r' rest hYields us hMem := by
    obtain ⟨right, hShorter, hRight⟩ := yields_of_goesOn hGoesOn hYields
    rcases List.mem_append.1 hMem with hFirst | hSecond
    · obtain ⟨mark, -, hUnitYields⟩ := hGoesOn
      have hBefore := hUnit.passed r _ hUnitYields us hFirst
      rw [List.length_cons] at hBefore
      omega
    · exact hRest.passed right rest ⟨hShorter, hRight⟩ us hSecond

theorem Tells.unit {places : List (List Token)} (hUnit : Tells stop .unit ts places)
    (hNot : ∀ r vs, ¬ GoesOn stop ts r vs) : Tells stop .expression ts places where
  events_eq := by rw [events_expression_of_not_goesOn hNot, hUnit.events_eq]
  mem_iff us := by
    refine Iff.trans (hUnit.mem_iff us) (Iff.trans ?_ (enters_expression_iff_goesOn stop).symm)
    refine (or_iff_left ?_).symm
    rintro ⟨r, vs, hGoesOn, -⟩
    exact hNot r vs hGoesOn
  ordered := hUnit.ordered
  passed r rest hYields := hUnit.passed r rest (yields_of_not_goesOn hNot hYields)

/-- **Where the reader comes to atoms**, by recursion on the tokens that are left: inside a
parenthesis and behind a connective there are fewer. -/
theorem tells_expression (stop : Token) (ts : List Token) :
    ∃ places, Tells stop .expression ts places := by
  have hShorter : ∀ vs : List Token, vs.length < ts.length →
      ∃ places, Tells stop .expression vs places := fun vs hLess => tells_expression stop vs
  obtain ⟨first, hUnit⟩ := tells_unit hShorter
  by_cases hGoesOn : ∃ r vs, GoesOn stop ts r vs
  · obtain ⟨r, vs, hGoesOn⟩ := hGoesOn
    have hLess : vs.length < ts.length := by
      obtain ⟨us, mark, -, -, rfl⟩ := goesOn_iff.1 hGoesOn
      rw [List.length_append, List.length_cons]
      omega
    obtain ⟨second, hRest⟩ := hShorter vs hLess
    exact ⟨first ++ second, hUnit.goesOn hGoesOn hRest⟩
  · exact ⟨first, hUnit.unit fun r vs hRead => hGoesOn ⟨r, vs, hRead⟩⟩
termination_by ts.length

end Parser

/-! ## The atoms of a derivation -/

namespace Grammar

/-- How the tokens of an atom are written: as which shorthand, or as a comparison. -/
inductive Form : Option Shorthand → List Token → Prop where
  | tilde {mark : Token} {ts : List Token} (hMark : mark.kind = .tilde) :
      Form (some .tilde) (mark :: ts)
  | caret {mark : Token} {ts : List Token} (hMark : mark.kind = .caret) :
      Form (some .caret) (mark :: ts)
  | any {star : Token} (hStar : star.kind = .wildcard) : Form (some .wildcard) [star]
  | wildcard {dot star : Token} {ts : List Token} {cs : List Component} (hNumbers : Numbers ts cs)
      (hDot : dot.kind = .dot) (hStar : star.kind = .wildcard) :
      Form (some .wildcard) (ts ++ [dot, star])
  | hyphen {mark : Token} {ts us : List Token} {cs : List Component} (hLower : Numbers ts cs)
      (hMark : mark.kind = .hyphen) : Form (some .hyphen) (ts ++ mark :: us)
  | partialVersion {ts : List Token} {cs : List Component} (hNumbers : Numbers ts cs)
      (hFew : cs.length ≤ 2) : Form (some .partialVersion) ts
  | plain {ts : List Token} {cs : List Component} (hNumbers : Numbers ts cs)
      (hMany : 3 ≤ cs.length) : Form none ts
  | comparison {mark : Token} {op : Operator} {ts : List Token}
      (hMark : Operator.ofKind? mark.kind = some op) : Form none (mark :: ts)

/-- A derivation and its atoms from left to right: how each is written, and its tokens. -/
inductive DerivesFrom :
    Phrase → List Token → Range → List (Option Shorthand × List Token) → Prop where
  | unit {ts : List Token} {r : Range} {atoms : List (Option Shorthand × List Token)}
      (hUnit : DerivesFrom .unit ts r atoms) : DerivesFrom .expression ts r atoms
  | and {mark : Token} {ts us : List Token} {left right : Range}
      {first second : List (Option Shorthand × List Token)}
      (hLeft : DerivesFrom .unit ts left first) (hMark : mark.kind = .and)
      (hRight : DerivesFrom .expression us right second) :
      DerivesFrom .expression (ts ++ mark :: us) (.and left right) (first ++ second)
  | or {mark : Token} {ts us : List Token} {left right : Range}
      {first second : List (Option Shorthand × List Token)}
      (hLeft : DerivesFrom .unit ts left first) (hMark : mark.kind = .or)
      (hRight : DerivesFrom .expression us right second) :
      DerivesFrom .expression (ts ++ mark :: us) (.or left right) (first ++ second)
  | atom {form : Option Shorthand} {ts : List Token} {r : Range} (hAtom : Atom ts r)
      (hForm : Form form ts) : DerivesFrom .unit ts r [(form, ts)]
  | enclosed {opening closing : Token} {ts : List Token} {r : Range}
      {atoms : List (Option Shorthand × List Token)} (hOpening : opening.kind = .leftParen)
      (hInner : DerivesFrom .expression ts r atoms) (hClosing : closing.kind = .rightParen) :
      DerivesFrom .unit (opening :: (ts ++ [closing])) r atoms
  | not {mark opening closing : Token} {ts : List Token} {r : Range}
      {atoms : List (Option Shorthand × List Token)} (hMark : mark.kind = .not)
      (hOpening : opening.kind = .leftParen) (hInner : DerivesFrom .expression ts r atoms)
      (hClosing : closing.kind = .rightParen) :
      DerivesFrom .unit (mark :: opening :: (ts ++ [closing])) (.not r) atoms

variable {kind : Phrase} {ts us vs : List Token} {r : Range} {form : Option Shorthand}
  {atoms : List (Option Shorthand × List Token)}

/-- Every atom is written in some way. -/
theorem Atom.exists_form (h : Atom ts r) : ∃ form, Form form ts := by
  cases h with
  | tilde hMark => exact ⟨_, .tilde hMark⟩
  | caret hMark => exact ⟨_, .caret hMark⟩
  | caretZero hMark => exact ⟨_, .caret hMark⟩
  | any hStar => exact ⟨_, .any hStar⟩
  | wildcard hNumbers _ hDot hStar => exact ⟨_, .wildcard hNumbers hDot hStar⟩
  | hyphen hLower _ hMark => exact ⟨_, .hyphen hLower hMark⟩
  | partialVersion hNumbers hFew =>
      exact ⟨_, .partialVersion hNumbers (length_concat_le_iff.2 hFew)⟩
  | plain hNumbers hMany => exact ⟨_, .plain hNumbers hMany⟩
  | comparison hMark => exact ⟨_, .comparison hMark⟩

theorem Derives.exists_atoms (h : Derives kind ts r) : ∃ atoms, DerivesFrom kind ts r atoms := by
  induction h with
  | unit _ ih =>
      obtain ⟨_, hUnit⟩ := ih
      exact ⟨_, .unit hUnit⟩
  | and _ hMark _ ihLeft ihRight =>
      obtain ⟨_, hLeft⟩ := ihLeft
      obtain ⟨_, hRight⟩ := ihRight
      exact ⟨_, .and hLeft hMark hRight⟩
  | or _ hMark _ ihLeft ihRight =>
      obtain ⟨_, hLeft⟩ := ihLeft
      obtain ⟨_, hRight⟩ := ihRight
      exact ⟨_, .or hLeft hMark hRight⟩
  | atom hAtom =>
      obtain ⟨_, hForm⟩ := hAtom.exists_form
      exact ⟨_, .atom hAtom hForm⟩
  | enclosed hOpening _ hClosing ih =>
      obtain ⟨_, hInner⟩ := ih
      exact ⟨_, .enclosed hOpening hInner hClosing⟩
  | not hMark hOpening _ hClosing ih =>
      obtain ⟨_, hInner⟩ := ih
      exact ⟨_, .not hMark hOpening hInner hClosing⟩

theorem DerivesFrom.derives (h : DerivesFrom kind ts r atoms) : Derives kind ts r := by
  induction h with
  | unit _ ih => exact .unit ih
  | and _ hMark _ ihLeft ihRight => exact .and ihLeft hMark ihRight
  | or _ hMark _ ihLeft ihRight => exact .or ihLeft hMark ihRight
  | atom hAtom _ => exact .atom hAtom
  | enclosed hOpening _ hClosing ih => exact .enclosed hOpening ih hClosing
  | not hMark hOpening _ hClosing ih => exact .not hMark hOpening ih hClosing

/-- What is derived has atoms, and what has atoms is derived. -/
theorem derives_iff_exists_atoms : Derives kind ts r ↔ ∃ atoms, DerivesFrom kind ts r atoms :=
  ⟨Derives.exists_atoms, fun ⟨_, hAtoms⟩ => hAtoms.derives⟩

/-- Looking ahead finds out how an atom is written. -/
theorem Form.select?_append (h : Form form vs) (hFollows : Follows us) :
    Shorthand.select? (vs ++ us) = form := by
  cases h with
  | tilde hMark => simp [Shorthand.select?, hMark]
  | caret hMark => simp [Shorthand.select?, hMark]
  | any hStar =>
      simp [Shorthand.select?, Shorthand.kindAfterVersion?, Kind.inVersion, hStar]
  | wildcard hNumbers hDot hStar =>
      rw [List.append_assoc]
      refine (Shorthand.select?_append hNumbers).1 ?_
      simp [Shorthand.kindAfterVersion?, hDot, hStar, Kind.inVersion]
  | hyphen hLower hMark =>
      rw [List.append_assoc]
      refine (Shorthand.select?_append hLower).2 ?_
      simp [Shorthand.kindAfterVersion?, hMark, Kind.inVersion]
  | partialVersion hNumbers hFew =>
      rw [Shorthand.select?_of_numbers hNumbers hFollows, if_pos hFew]
  | plain hNumbers hMany =>
      rw [Shorthand.select?_of_numbers hNumbers hFollows, if_neg (by omega)]
  | comparison hMark => exact Shorthand.select?_of_operator hMark

theorem Form.at?_append (h : Form form vs) (hAtom : Atom vs r) (hFollows : Follows us) :
    Selection.at? (vs ++ us) = Selection.of? form vs := by
  obtain ⟨t, ws, rfl, -⟩ := hAtom.exists_start
  rw [Selection.at?, h.select?_append hFollows]
  rfl

end Grammar

namespace Parser

variable {stop : Token} {kind : Phrase} {ts us : List Token} {r : Range}
  {atoms : List (Option Shorthand × List Token)}

theorem not_goesOn {left : Range} (hUnit : Yields (phrase stop .unit ts) left us)
    (hEnds : Phrase.expression.Ends us) (vs : List Token) : ¬ GoesOn stop ts r vs := by
  rintro ⟨mark, hMark, _, hOther⟩
  obtain ⟨_, hUnit⟩ := hUnit
  rw [hUnit] at hOther
  cases hOther
  have hClosing : mark.kind = .rightParen := hEnds mark rfl
  rw [hClosing] at hMark
  exact hMark.elim nofun nofun

/-- What is told of a phrase in front of what may follow it is told by its atoms. -/
theorem events_of_derivesFrom (h : DerivesFrom kind ts r atoms) (hEnds : kind.Ends us) :
    (phrase stop kind (ts ++ us)).events =
      atoms.filterMap fun atom => Selection.of? atom.1 atom.2 := by
  have hClosed {closing : Token} {ws : List Token} (hClosing : closing.kind = .rightParen) :
      Phrase.expression.Ends (closing :: ws) := by
    simpa [Phrase.Ends] using hClosing
  induction h generalizing us with
  | unit hUnit ih =>
      have hFollows : Follows us := fun t hMem => .inr (.inr (hEnds t hMem))
      rw [events_expression_of_not_goesOn fun r vs =>
        not_goesOn (yields_of_derives hUnit.derives hFollows) hEnds vs]
      exact ih hFollows
  | @and mark ts vs left right first second hLeft hMark hRight ihLeft ihRight =>
      have hGoesOn : GoesOn stop (ts ++ mark :: (vs ++ us)) left (vs ++ us) :=
        goesOn_iff.2 ⟨ts, mark, hLeft.derives, .inl hMark, rfl⟩
      rw [List.append_assoc, List.cons_append, events_expression_of_goesOn hGoesOn,
        ihLeft (follows_connective (.inl hMark)), ihRight hEnds, List.filterMap_append]
  | @or mark ts vs left right first second hLeft hMark hRight ihLeft ihRight =>
      have hGoesOn : GoesOn stop (ts ++ mark :: (vs ++ us)) left (vs ++ us) :=
        goesOn_iff.2 ⟨ts, mark, hLeft.derives, .inr hMark, rfl⟩
      rw [List.append_assoc, List.cons_append, events_expression_of_goesOn hGoesOn,
        ihLeft (follows_connective (.inr hMark)), ihRight hEnds, List.filterMap_append]
  | @atom form ts r hAtom hForm =>
      have hTold := hForm.at?_append hAtom hEnds
      obtain ⟨t, ws, rfl, hNot, hParen⟩ := hAtom.exists_cons
      rw [events_unit_atom (by simpa using ⟨hNot, hParen⟩), hTold, List.filterMap_cons]
      cases Selection.of? form (t :: ws) <;> rfl
  | enclosed hOpening hInner hClosing ih =>
      rw [List.cons_append, List.append_assoc, List.singleton_append,
        events_unit_enclosed hOpening]
      exact ih (hClosed hClosing)
  | not hMark hOpening hInner hClosing ih =>
      rw [List.cons_append, List.cons_append, List.append_assoc, List.singleton_append,
        events_unit_not hMark, events_enclosed hOpening]
      exact ih (hClosed hClosing)

end Parser

/-! ## Whole texts -/

theorem events_ofTokens {stop : Token} {ts : List Token} :
    (ofTokens stop ts).events = (Parser.phrase stop .expression ts).events :=
  Traced.events_andThen_of_silent fun _ => rfl

/-- **The record of reading a text.** If a character starts no token it is empty. Otherwise it
starts with the number of tokens, the end of the input included. Then come the shorthands that are
selected where the reader comes to an atom, from left to right and each with its first token,
whether or not the text is an expression. If it is, they are those of the atoms of its derivation,
and then alone its range comes last. -/
theorem events_parseTold (s : String) :
    (∀ e, Token.tokenize s = .error e → (parseTold s).events = []) ∧
    ∀ ts, Token.tokenize s = .ok ts → ∃ places : List (List Token),
      (∀ us, us ∈ places ↔ Enters .expression ts.dropLast us) ∧
      (places.Pairwise fun us vs => vs.length < us.length) ∧
      (parseTold s).events = .tokenized s ts.length ::
        ((places.filterMap Selection.at?).map .selected ++
          match parse s with
          | .ok r => [.parsedRange s r]
          | .error _ => []) ∧
      ∀ r, (parse s = .ok r ↔ ∃ atoms, DerivesFrom .expression ts.dropLast r atoms) ∧
        ∀ atoms, DerivesFrom .expression ts.dropLast r atoms →
          places.filterMap Selection.at? =
            atoms.filterMap fun atom => Selection.of? atom.1 atom.2 := by
  constructor
  · intro e hIllegal
    have hChars : Token.ofChars s.toList = .error e := map_eq_error_iff.1 hIllegal
    rw [parseTold, hChars]
    rfl
  · intro ts hTokens
    obtain ⟨us, hChars, rfl⟩ := map_eq_ok_iff.1 hTokens
    have hParse : parse s = (ofTokens (.endAt s.toList.length) us).outcome := by
      rw [parse, hChars]
      rfl
    obtain ⟨places, hTells⟩ := Parser.tells_expression (.endAt s.toList.length) us
    rw [List.dropLast_concat]
    refine ⟨places, hTells.mem_iff, hTells.ordered, ?_, fun r => ⟨?_, fun atoms hAtoms => ?_⟩⟩
    · rw [parseTold, hChars, hParse]
      dsimp only
      rw [events_ofTokens, hTells.events_eq, List.length_append]
      cases (ofTokens (.endAt s.toList.length) us).outcome <;> rfl
    · rw [hParse, ofTokens_eq_ok_iff, derives_iff_exists_atoms]
    · have hEnds : Phrase.expression.Ends [] := by simp [Phrase.Ends]
      rw [← hTells.events_eq, ← Parser.events_of_derivesFrom hAtoms hEnds, List.append_nil]

/-- The caret is come to though the parenthesis in front of it is never closed, and no range is
told. In a range a comparison is not told. -/
theorem events_parseTold_unclosed :
    (Token.tokenize "~1 & $" = .error ⟨'$', 5⟩ ∧ (parseTold "~1 & $").events = []) ∧
    (∃ (ts : List Token) (places : List (List Token)), Token.tokenize "~1 & (>2 | ^3." = .ok ts ∧
      (∀ us, us ∈ places ↔ Enters .expression ts.dropLast us) ∧
      (parseTold "~1 & (>2 | ^3.").events =
        .tokenized "~1 & (>2 | ^3." 11 :: (places.filterMap Selection.at?).map .selected ∧
      (parseTold "~1 & (>2 | ^3.").events.map Event.message =
        ["Tokenized \"~1 & (>2 | ^3.\" into 11 tokens",
          "Selected tilde range at TILDE(\"~\") at position 0",
          "Selected caret range at CARET(\"^\") at position 11"]) ∧
    ∃ ts r atoms, Token.tokenize "!(* | 3.4.5)" = .ok ts ∧ parse "!(* | 3.4.5)" = .ok r ∧
      DerivesFrom .expression ts.dropLast r atoms ∧
      (parseTold "!(* | 3.4.5)").events =
        .tokenized "!(* | 3.4.5)" 11 ::
          ((atoms.filterMap fun atom => Selection.of? atom.1 atom.2).map .selected ++
            [.parsedRange "!(* | 3.4.5)" r]) ∧
      (parseTold "!(* | 3.4.5)").events.map Event.message =
        ["Tokenized \"!(* | 3.4.5)\" into 11 tokens",
          "Selected wildcard range at WILDCARD(\"*\") at position 2",
          "Parsed range \"!(* | 3.4.5)\" as !((>=0.0.0.0 | =3.4.5.0))"] := by
  refine ⟨?_, ?_, ?_⟩
  · have hIllegal : Token.tokenize "~1 & $" = .error ⟨'$', 5⟩ := by decide +kernel
    exact ⟨hIllegal, (events_parseTold _).1 _ hIllegal⟩
  · let ts : List Token := [⟨.tilde, some ['~'], 0⟩, ⟨.numeric, some ['1'], 1⟩,
      ⟨.and, some ['&'], 3⟩, ⟨.leftParen, some ['('], 5⟩, ⟨.greater, some ['>'], 6⟩,
      ⟨.numeric, some ['2'], 7⟩, ⟨.or, some ['|'], 9⟩, ⟨.caret, some ['^'], 11⟩,
      ⟨.numeric, some ['3'], 12⟩, ⟨.dot, some ['.'], 13⟩, .endAt 14]
    have hTokens : Token.tokenize "~1 & (>2 | ^3." = .ok ts := by decide +kernel
    have hError : parse "~1 & (>2 | ^3." = .error (.unexpected ⟨.endAt 14, [.numeric]⟩) := by
      decide +kernel
    obtain ⟨places, hPlaces, -, hEvents, -⟩ := (events_parseTold _).2 ts hTokens
    rw [hError] at hEvents
    rw [List.append_nil] at hEvents
    exact ⟨ts, places, hTokens, hPlaces, hEvents, by decide +kernel⟩
  · let ts : List Token := [⟨.not, some ['!'], 0⟩, ⟨.leftParen, some ['('], 1⟩,
      ⟨.wildcard, some ['*'], 2⟩, ⟨.or, some ['|'], 4⟩, ⟨.numeric, some ['3'], 6⟩,
      ⟨.dot, some ['.'], 7⟩, ⟨.numeric, some ['4'], 8⟩, ⟨.dot, some ['.'], 9⟩,
      ⟨.numeric, some ['5'], 10⟩, ⟨.rightParen, some [')'], 11⟩, .endAt 12]
    have hTokens : Token.tokenize "!(* | 3.4.5)" = .ok ts := by decide +kernel
    let c : Core := ⟨⟨3, by decide⟩, ⟨4, by decide⟩, ⟨5, by decide⟩, 0⟩
    let r : Range := .not (.or (.comparison .ge ({} : Core)) (.comparison .eq c))
    have hRange : parse "!(* | 3.4.5)" = .ok r := by decide +kernel
    obtain ⟨places, -, -, hEvents, hAtoms⟩ := (events_parseTold _).2 ts hTokens
    obtain ⟨atoms, hDerives⟩ := (hAtoms r).1.1 hRange
    rw [hRange, (hAtoms r).2 atoms hDerives] at hEvents
    exact ⟨ts, r, atoms, hTokens, hRange, hDerives, hEvents, by decide +kernel⟩

end Versioning.Range
