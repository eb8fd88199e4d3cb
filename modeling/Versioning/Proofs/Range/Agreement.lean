import Mathlib.Data.List.Forall2
import Versioning.Proofs.Range.Results

/-!
# Readers in step

The reader of expressions looks at a token in two ways only: it asks for the kind,
and of a number for the component that its text denotes. So two token lists that go
together in these respects (`Interchangeable`) are read in step: each reader does the same with both, and
where it stops, it stops at tokens that go together (`Agree`).

The relation between tokens is a parameter. Every reader is gone through once for
any relation that keeps kinds and numbers. What else is asked of two tokens, such
as the same place in either list, is left to whoever chooses the relation.

## Main results

* `Atom.agree_read` — atoms are read in step.
* `Parser.agree_expression`, `Parser.agree_ofTokens` — and so are expressions.
-/

namespace Versioning

/-- Tokens of one kind whose texts, if they are numbers, denote one component or none. -/
def Token.Interchangeable (t u : Token) : Prop :=
  t.kind = u.kind ∧
    (t.kind = .numeric → Component.ofText? t.chars = Component.ofText? u.chars)

namespace Range

open Grammar Token Outcome

/-! ## Outcomes in step -/

/-- Two steps that may fail end alike: with values that go together, or with the same kind of
fault at tokens that go together. -/
inductive Agree {α β : Type} (R : Token → Token → Prop) (P : α → β → Prop) :
    Except Error α → Except Error β → Prop where
  | ok {a : α} {b : β} (hValues : P a b) : Agree R P (.ok a) (.ok b)
  | unexpected {t u : Token} {expected : List Kind} (hTokens : R t u) :
      Agree R P (.error (.unexpected ⟨t, expected⟩)) (.error (.unexpected ⟨u, expected⟩))
  | outOfRange {t u : Token} (hTokens : R t u) :
      Agree R P (.error (.outOfRange t)) (.error (.outOfRange u))

/-- Values that go together, with tokens behind them that do as well. -/
def Beside {α β : Type} (P : α → β → Prop) (R : Token → Token → Prop) (x : α × List Token)
    (y : β × List Token) : Prop :=
  P x.1 y.1 ∧ List.Forall₂ R x.2 y.2

namespace Agree

variable {α α' β β' : Type} {R S : Token → Token → Prop} {P : α → β → Prop} {Q : α' → β' → Prop}
  {x : Except Error α} {y : Except Error β}

theorem bind {f : α → Except Error α'} {g : β → Except Error β'} (h : Agree R P x y)
    (hNext : ∀ a b, P a b → Agree R Q (f a) (g b)) : Agree R Q (x >>= f) (y >>= g) := by
  cases h with
  | ok hValues => exact hNext _ _ hValues
  | unexpected hTokens => exact .unexpected hTokens
  | outOfRange hTokens => exact .outOfRange hTokens

theorem map {f : α → α'} {g : β → β'} (h : Agree R P x y) (hNext : ∀ a b, P a b → Q (f a) (g b)) :
    Agree R Q (x.map f) (y.map g) := by
  cases h with
  | ok hValues => exact .ok (hNext _ _ hValues)
  | unexpected hTokens => exact .unexpected hTokens
  | outOfRange hTokens => exact .outOfRange hTokens

theorem weaken (h : Agree R P x y) (hLess : ∀ t u, R t u → S t u) : Agree S P x y := by
  cases h with
  | ok hValues => exact .ok hValues
  | unexpected hTokens => exact .unexpected (hLess _ _ hTokens)
  | outOfRange hTokens => exact .outOfRange (hLess _ _ hTokens)

/-- What holds of the first value whenever there is one may be used along with the relation. -/
theorem and_left {T : α → Prop} (h : Agree R P x y) (hFirst : ∀ a, x = .ok a → T a) :
    Agree R (fun a b => P a b ∧ T a) x y := by
  cases h with
  | ok hValues => exact .ok ⟨hValues, hFirst _ rfl⟩
  | unexpected hTokens => exact .unexpected hTokens
  | outOfRange hTokens => exact .outOfRange hTokens

end Agree

section Readers

variable {R : Token → Token → Prop} {stop stop' : Token} {ts us : List Token}

/-! ## Looking ahead -/

theorem kinds_eq (hAlike : ∀ t u, R t u → t.Interchangeable u) (h : List.Forall₂ R ts us) :
    ts.map Token.kind = us.map Token.kind := by
  induction h with
  | nil => rfl
  | cons hFirst _ ih => rw [List.map_cons, List.map_cons, (hAlike _ _ hFirst).1, ih]

theorem nextIs_congr {kind : Kind} (hKinds : ts.map Token.kind = us.map Token.kind) :
    Shorthand.nextIs kind ts = Shorthand.nextIs kind us := by
  have hHead : ∀ vs : List Token,
      Shorthand.nextIs kind vs = (vs.map Token.kind).head?.any fun k => k = kind := by
    intro vs
    cases vs <;> rfl
  rw [hHead, hHead, hKinds]

/-- Which form an atom has shows in the kinds of the tokens. -/
theorem select?_congr (hKinds : ts.map Token.kind = us.map Token.kind) :
    Shorthand.select? ts = Shorthand.select? us := by
  have hAfter : ∀ vs : List Token,
      Shorthand.kindAfterVersion? vs = (vs.map Token.kind).find? fun k => !k.inVersion := by
    intro vs
    rw [List.find?_map]
    rfl
  have hRun : ∀ vs : List Token, (vs.takeWhile fun t => t.kind.inVersion).length =
      ((vs.map Token.kind).takeWhile Kind.inVersion).length := by
    intro vs
    rw [List.takeWhile_map, List.length_map]
    rfl
  unfold Shorthand.select?
  rw [nextIs_congr hKinds, nextIs_congr hKinds, nextIs_congr hKinds, hAfter, hAfter, hRun, hRun,
    hKinds]

theorem operator_congr (hKinds : ts.map Token.kind = us.map Token.kind) :
    (ts.head?.bind fun t => Operator.ofKind? t.kind) =
      us.head?.bind fun t => Operator.ofKind? t.kind := by
  have hHead : ∀ vs : List Token, (vs.head?.bind fun t => Operator.ofKind? t.kind) =
      (vs.map Token.kind).head?.bind Operator.ofKind? := by
    intro vs
    cases vs <;> rfl
  rw [hHead, hHead, hKinds]

/-! ## Bands -/

/-- Numerals of one value, read from tokens that go together. -/
def NumeralPair (R : Token → Token → Prop) (x y : Numeral) : Prop :=
  x.value = y.value ∧ R x.token y.token

/-- As many numerals on either side, pair by pair. -/
def NumeralsPair (R : Token → Token → Prop) (ns ms : Numerals) : Prop :=
  NumeralPair R ns.first ms.first ∧ List.Forall₂ (NumeralPair R) ns.more ms.more

namespace NumeralsPair

variable {ns ms : Numerals}

theorem toList (h : NumeralsPair R ns ms) :
    List.Forall₂ (NumeralPair R) ns.toList ms.toList :=
  .cons h.1 h.2

theorem core_eq (h : NumeralsPair R ns ms) : ns.core = ms.core := by
  have hValues : ns.toList.map Numeral.value = ms.toList.map Numeral.value := by
    refine List.forall₂_eq_eq_eq ▸ List.forall₂_map_left_iff.2 (List.forall₂_map_right_iff.2 ?_)
    exact h.toList.imp fun _ _ hPair => hPair.1
  rw [Numerals.core, Numerals.core, hValues]

theorem last (h : NumeralsPair R ns ms) : NumeralPair R ns.last ms.last := by
  have hLast : ∀ {xs ys : List Numeral} {x y : Numeral}, List.Forall₂ (NumeralPair R) xs ys →
      NumeralPair R x y → NumeralPair R (xs.getLast?.getD x) (ys.getLast?.getD y) := by
    intro xs ys x y hMore hFirst
    induction hMore generalizing x y with
    | nil => exact hFirst
    | cons hNext _ ih =>
        rw [List.getLast?_cons, List.getLast?_cons]
        exact ih hNext
  exact hLast h.2 h.1

/-- The first numerals that are not zero stand at one place. -/
theorem firstNonzero? (h : NumeralsPair R ns ms) :
    Option.Rel (fun x y => NumeralPair R x.1 y.1 ∧ x.2 = y.2) ns.firstNonzero?
      ms.firstNonzero? := by
  have hFind : ∀ {xs ys : List Numeral} (i : Nat), List.Forall₂ (NumeralPair R) xs ys →
      Option.Rel (fun x y => NumeralPair R x.1 y.1 ∧ x.2 = y.2)
        ((xs.zipIdx i).find? fun n => n.1.value ≠ 0)
        ((ys.zipIdx i).find? fun n => n.1.value ≠ 0) := by
    intro xs ys i hPairs
    induction hPairs generalizing i with
    | nil => exact .none
    | @cons x y xs ys hPair _ ih =>
        rw [List.zipIdx_cons, List.zipIdx_cons, List.find?_cons, List.find?_cons, hPair.1]
        by_cases hZero : y.value = 0
        · simpa [hZero] using ih (i + 1)
        · simp only [ne_eq, hZero, not_false_eq_true, decide_true]
          exact .some ⟨hPair, rfl⟩
  exact hFind 0 h.toList

end NumeralsPair

theorem agree_band {t u : Token} (h : R t u) (lower : Core) (index : Nat) :
    Agree R Eq (band lower index t) (band lower index u) := by
  unfold band
  cases lower.incrementAt? index with
  | none => exact .outOfRange h
  | some upper => exact .ok rfl

theorem agree_bandAtLast {ns ms : Numerals} (h : NumeralsPair R ns ms) :
    Agree R Eq (bandAtLast ns) (bandAtLast ms) := by
  unfold bandAtLast
  rw [h.core_eq, h.2.length_eq]
  exact agree_band h.last.2 ms.core ms.more.length

theorem agree_bandAtFirstNonzero {ns ms : Numerals} (h : NumeralsPair R ns ms) :
    Agree R Eq (bandAtFirstNonzero ns) (bandAtFirstNonzero ms) := by
  have hFirst := h.firstNonzero?
  unfold bandAtFirstNonzero
  rw [h.core_eq]
  generalize ns.firstNonzero? = first at hFirst
  generalize ms.firstNonzero? = first' at hFirst
  cases hFirst with
  | none => exact .ok rfl
  | @some x y hPair =>
      obtain ⟨⟨-, hToken⟩, hIndex⟩ := hPair
      dsimp only
      rw [hIndex]
      exact agree_band hToken ms.core y.2

/-! ## Atoms

From here on the relation is fixed, and the ends of the input go together.
-/

namespace Atom

variable (hAlike : ∀ t u, R t u → t.Interchangeable u) (hStop : R stop stop')

include hAlike hStop

theorem agree_expect (h : List.Forall₂ R ts us) (kind : Kind) :
    Agree R (Beside (fun t u => t.kind = kind ∧ R t u) R) (expect stop kind ts)
      (expect stop' kind us) := by
  cases h with
  | nil => exact .unexpected hStop
  | @cons t u ts us hFirst hRest =>
      have hKind : t.kind = u.kind := (hAlike t u hFirst).1
      by_cases hFits : t.kind = kind
      · rw [expect, expect, if_pos hFits, if_pos (hKind ▸ hFits)]
        exact .ok ⟨⟨hFits, hFirst⟩, hRest⟩
      · rw [expect, expect, if_neg hFits, if_neg (hKind ▸ hFits)]
        exact .unexpected hFirst

theorem agree_numeral (h : List.Forall₂ R ts us) :
    Agree R (Beside (NumeralPair R) R) (numeral stop ts) (numeral stop' us) := by
  refine (agree_expect hAlike hStop h .numeric).bind ?_
  rintro ⟨t, vs⟩ ⟨u, ws⟩ ⟨⟨hNumeric, hToken⟩, hRest⟩
  have hValue : Component.ofText? t.chars = Component.ofText? u.chars :=
    (hAlike t u hToken).2 hNumeric
  dsimp only
  rw [hValue]
  cases Component.ofText? u.chars with
  | none => exact .outOfRange hToken
  | some c => exact .ok ⟨⟨rfl, hToken⟩, hRest⟩

theorem agree_further (h : List.Forall₂ R ts us) (n : Nat) :
    Agree R (Beside (List.Forall₂ (NumeralPair R)) R) (further stop n ts)
      (further stop' n us) := by
  induction n generalizing ts us with
  | zero => exact .ok ⟨.nil, h⟩
  | succ n ih =>
      cases h with
      | nil => exact .ok ⟨.nil, .nil⟩
      | @cons t u ts us hFirst hRest =>
          have hKind : t.kind = u.kind := (hAlike t u hFirst).1
          by_cases hDot : t.kind = .dot
          · rw [further, further, if_pos hDot, if_pos (hKind ▸ hDot)]
            refine (agree_numeral hAlike hStop hRest).bind ?_
            rintro ⟨x, vs⟩ ⟨y, ws⟩ ⟨hPair, hRest⟩
            refine (ih hRest).bind ?_
            rintro ⟨xs, vs⟩ ⟨ys, ws⟩ ⟨hPairs, hRest⟩
            exact .ok ⟨.cons hPair hPairs, hRest⟩
          · rw [further, further, if_neg hDot, if_neg (hKind ▸ hDot)]
            exact .ok ⟨.nil, .cons hFirst hRest⟩

theorem agree_numerals (h : List.Forall₂ R ts us) (n : Nat) :
    Agree R (Beside (NumeralsPair R) R) (numerals stop n ts) (numerals stop' n us) := by
  refine (agree_numeral hAlike hStop h).bind ?_
  rintro ⟨x, vs⟩ ⟨y, ws⟩ ⟨hPair, hRest⟩
  refine (agree_further hAlike hStop hRest n).bind ?_
  rintro ⟨xs, vs⟩ ⟨ys, ws⟩ ⟨hPairs, hRest⟩
  exact .ok ⟨⟨hPair, hPairs⟩, hRest⟩

theorem agree_operand (h : List.Forall₂ R ts us) :
    Agree R (Beside Eq R) (operand stop ts) (operand stop' us) := by
  refine (agree_numerals hAlike hStop h 3).bind ?_
  rintro ⟨ns, vs⟩ ⟨ms, ws⟩ ⟨hPairs, hRest⟩
  exact .ok ⟨hPairs.core_eq, hRest⟩

theorem agree_dotted (h : List.Forall₂ R ts us) (n : Nat) :
    Agree R (Beside (NumeralsPair R) R) (dotted stop n ts) (dotted stop' n us) := by
  induction n generalizing ts us with
  | zero =>
      refine (agree_numeral hAlike hStop h).bind ?_
      rintro ⟨x, vs⟩ ⟨y, ws⟩ ⟨hPair, hRest⟩
      refine (agree_expect hAlike hStop hRest .dot).bind ?_
      rintro ⟨t, vs⟩ ⟨u, ws⟩ ⟨-, hRest⟩
      exact .ok ⟨⟨hPair, .nil⟩, hRest⟩
  | succ n ih =>
      refine (agree_numeral hAlike hStop h).bind ?_
      rintro ⟨x, vs⟩ ⟨y, ws⟩ ⟨hPair, hRest⟩
      refine (agree_expect hAlike hStop hRest .dot).bind ?_
      rintro ⟨t, vs⟩ ⟨u, ws⟩ ⟨-, hRest⟩
      dsimp only
      rw [nextIs_congr (kinds_eq hAlike hRest)]
      split
      · exact .ok ⟨⟨hPair, .nil⟩, hRest⟩
      · refine (ih hRest).bind ?_
        rintro ⟨xs, vs⟩ ⟨ys, ws⟩ ⟨hPairs, hRest⟩
        exact .ok ⟨⟨hPair, .cons hPairs.1 hPairs.2⟩, hRest⟩

theorem agree_tilde (h : List.Forall₂ R ts us) :
    Agree R (Beside Eq R) (tilde stop ts) (tilde stop' us) := by
  refine (agree_expect hAlike hStop h .tilde).bind ?_
  rintro ⟨t, vs⟩ ⟨u, ws⟩ ⟨-, hRest⟩
  refine (agree_numerals hAlike hStop hRest 3).bind ?_
  rintro ⟨ns, vs⟩ ⟨ms, ws⟩ ⟨hPairs, hRest⟩
  exact (agree_bandAtLast hPairs).bind fun _ _ hRanges => .ok ⟨hRanges, hRest⟩

theorem agree_caret (h : List.Forall₂ R ts us) :
    Agree R (Beside Eq R) (caret stop ts) (caret stop' us) := by
  refine (agree_expect hAlike hStop h .caret).bind ?_
  rintro ⟨t, vs⟩ ⟨u, ws⟩ ⟨-, hRest⟩
  refine (agree_numerals hAlike hStop hRest 3).bind ?_
  rintro ⟨ns, vs⟩ ⟨ms, ws⟩ ⟨hPairs, hRest⟩
  exact (agree_bandAtFirstNonzero hPairs).bind fun _ _ hRanges => .ok ⟨hRanges, hRest⟩

theorem agree_wildcard (h : List.Forall₂ R ts us) :
    Agree R (Beside Eq R) (wildcard stop ts) (wildcard stop' us) := by
  unfold wildcard
  rw [nextIs_congr (kinds_eq hAlike h)]
  split
  · refine (agree_expect hAlike hStop h .wildcard).bind ?_
    rintro ⟨t, vs⟩ ⟨u, ws⟩ ⟨-, hRest⟩
    exact .ok ⟨rfl, hRest⟩
  · refine (agree_dotted hAlike hStop h 2).bind ?_
    rintro ⟨ns, vs⟩ ⟨ms, ws⟩ ⟨hPairs, hRest⟩
    refine (agree_expect hAlike hStop hRest .wildcard).bind ?_
    rintro ⟨t, vs⟩ ⟨u, ws⟩ ⟨-, hRest⟩
    exact (agree_bandAtLast hPairs).bind fun _ _ hRanges => .ok ⟨hRanges, hRest⟩

theorem agree_hyphen (h : List.Forall₂ R ts us) :
    Agree R (Beside Eq R) (hyphen stop ts) (hyphen stop' us) := by
  refine (agree_operand hAlike hStop h).bind ?_
  rintro ⟨lower, vs⟩ ⟨_, ws⟩ ⟨rfl, hRest⟩
  refine (agree_expect hAlike hStop hRest .hyphen).bind ?_
  rintro ⟨t, vs⟩ ⟨u, ws⟩ ⟨-, hRest⟩
  refine (agree_operand hAlike hStop hRest).bind ?_
  rintro ⟨upper, vs⟩ ⟨_, ws⟩ ⟨rfl, hRest⟩
  exact .ok ⟨rfl, hRest⟩

theorem agree_partialVersion (h : List.Forall₂ R ts us) :
    Agree R (Beside Eq R) (partialVersion stop ts) (partialVersion stop' us) := by
  refine (agree_numerals hAlike hStop h 1).bind ?_
  rintro ⟨ns, vs⟩ ⟨ms, ws⟩ ⟨hPairs, hRest⟩
  exact (agree_bandAtLast hPairs).bind fun _ _ hRanges => .ok ⟨hRanges, hRest⟩

theorem agree_comparison (h : List.Forall₂ R ts us) :
    Agree R (Beside Eq R) (comparison stop ts) (comparison stop' us) := by
  have hTail : List.Forall₂ R ts.tail us.tail := by
    cases h with
    | nil => exact .nil
    | cons _ hRest => exact hRest
  unfold comparison
  rw [operator_congr (kinds_eq hAlike h)]
  split
  · refine (agree_operand hAlike hStop hTail).bind ?_
    rintro ⟨c, vs⟩ ⟨_, ws⟩ ⟨rfl, hRest⟩
    exact .ok ⟨rfl, hRest⟩
  · refine (agree_operand hAlike hStop h).bind ?_
    rintro ⟨c, vs⟩ ⟨_, ws⟩ ⟨rfl, hRest⟩
    exact .ok ⟨rfl, hRest⟩

/-- Atoms are read in step: the same form is selected, and its reader agrees with itself. -/
theorem agree_read (h : List.Forall₂ R ts us) :
    Agree R (Beside Eq R) (read stop (Shorthand.select? ts) ts)
      (read stop' (Shorthand.select? us) us) := by
  rw [select?_congr (kinds_eq hAlike h)]
  cases Shorthand.select? us with
  | none => exact agree_comparison hAlike hStop h
  | some form =>
      cases form with
      | tilde => exact agree_tilde hAlike hStop h
      | caret => exact agree_caret hAlike hStop h
      | wildcard => exact agree_wildcard hAlike hStop h
      | hyphen => exact agree_hyphen hAlike hStop h
      | partialVersion => exact agree_partialVersion hAlike hStop h

end Atom

/-! ## Expressions -/

namespace Parser

variable (hAlike : ∀ t u, R t u → t.Interchangeable u) (hStop : R stop stop')

include hAlike hStop

/-- Expressions in parentheses, provided that shorter expressions are read in step. -/
theorem agree_enclosedResult (h : List.Forall₂ R ts us)
    (hInner : ∀ vs ws : List Token, vs.length < ts.length → List.Forall₂ R vs ws →
      Agree R (Beside Eq R) (result (phrase stop .expression vs))
        (result (phrase stop' .expression ws))) :
    Agree R (Beside Eq R) (enclosedResult stop ts) (enclosedResult stop' us) := by
  have hOpening := (Atom.agree_expect hAlike hStop h .leftParen).and_left
    (T := fun x => x.2.length < ts.length) fun x hRead => by
      have hOne := Atom.length_of_expect hRead
      omega
  refine hOpening.bind ?_
  rintro ⟨t, vs⟩ ⟨u, ws⟩ ⟨⟨-, hRest⟩, hShorter⟩
  refine (hInner vs ws hShorter hRest).bind ?_
  rintro ⟨r, vs⟩ ⟨_, ws⟩ ⟨rfl, hRest⟩
  refine (Atom.agree_expect hAlike hStop hRest .rightParen).bind ?_
  rintro ⟨t, vs⟩ ⟨u, ws⟩ ⟨-, hRest⟩
  exact .ok ⟨rfl, hRest⟩

/-- Units, provided that shorter expressions are read in step. -/
theorem agree_unit (h : List.Forall₂ R ts us)
    (hInner : ∀ vs ws : List Token, vs.length < ts.length → List.Forall₂ R vs ws →
      Agree R (Beside Eq R) (result (phrase stop .expression vs))
        (result (phrase stop' .expression ws))) :
    Agree R (Beside Eq R) (result (phrase stop .unit ts)) (result (phrase stop' .unit us)) := by
  cases h with
  | nil =>
      rw [result_unit_atom (by simp), result_unit_atom (by simp)]
      exact Atom.agree_read hAlike hStop .nil
  | @cons t u ts us hFirst hRest =>
      have hKind : t.kind = u.kind := (hAlike t u hFirst).1
      by_cases hNot : t.kind = .not
      · rw [result_unit_not hNot, result_unit_not (hKind ▸ hNot)]
        refine (agree_enclosedResult hAlike hStop hRest fun vs ws hShorter => ?_).map ?_
        · exact hInner vs ws (Nat.lt_succ_of_lt hShorter)
        · rintro ⟨r, vs⟩ ⟨_, ws⟩ ⟨rfl, hRest⟩
          exact ⟨rfl, hRest⟩
      by_cases hParen : t.kind = .leftParen
      · rw [result_unit_enclosed hParen, result_unit_enclosed (hKind ▸ hParen)]
        exact agree_enclosedResult hAlike hStop (.cons hFirst hRest) hInner
      · rw [result_unit_atom (by simpa using ⟨hNot, hParen⟩),
          result_unit_atom (by simpa [← hKind] using ⟨hNot, hParen⟩)]
        exact Atom.agree_read hAlike hStop (.cons hFirst hRest)

omit hStop in
/-- What goes on after a unit, provided that shorter expressions are read in step. -/
theorem agree_joinedResult (r : Range) (h : List.Forall₂ R ts us)
    (hInner : ∀ vs ws : List Token, vs.length < ts.length → List.Forall₂ R vs ws →
      Agree R (Beside Eq R) (result (phrase stop .expression vs))
        (result (phrase stop' .expression ws))) :
    Agree R (Beside Eq R) (joinedResult stop r ts) (joinedResult stop' r us) := by
  cases h with
  | nil => exact .ok ⟨rfl, .nil⟩
  | @cons t u ts us hFirst hRest =>
      have hKind : t.kind = u.kind := (hAlike t u hFirst).1
      have hMore := hInner ts us (Nat.lt_succ_self _) hRest
      rw [joinedResult, joinedResult, hKind]
      split
      · refine hMore.map ?_
        rintro ⟨r, vs⟩ ⟨_, ws⟩ ⟨rfl, hRest⟩
        exact ⟨rfl, hRest⟩
      split
      · refine hMore.map ?_
        rintro ⟨r, vs⟩ ⟨_, ws⟩ ⟨rfl, hRest⟩
        exact ⟨rfl, hRest⟩
      · exact .ok ⟨rfl, .cons hFirst hRest⟩

/-- **In step**: expressions are read alike from tokens that go together, by induction on how
many there are. -/
theorem agree_expression (ts us : List Token) (h : List.Forall₂ R ts us) :
    Agree R (Beside Eq R) (result (phrase stop .expression ts))
      (result (phrase stop' .expression us)) := by
  have hInner : ∀ vs ws : List Token, vs.length < ts.length → List.Forall₂ R vs ws →
      Agree R (Beside Eq R) (result (phrase stop .expression vs))
        (result (phrase stop' .expression ws)) :=
    fun vs ws hShorter hRest => agree_expression vs ws hRest
  have hUnit := (agree_unit hAlike hStop h hInner).and_left
    (T := fun x => x.2.length < ts.length) fun x hRead => by
      obtain ⟨hShorter, -⟩ := result_eq_ok_iff.1 hRead
      exact hShorter
  rw [result_expression, result_expression]
  refine hUnit.bind ?_
  rintro ⟨r, vs⟩ ⟨_, ws⟩ ⟨⟨rfl, hRest⟩, hShorter⟩
  exact agree_joinedResult hAlike r hRest fun vs' ws' hLess =>
    hInner vs' ws' (Nat.lt_trans hLess hShorter)
termination_by ts.length

theorem agree_ofTokens (h : List.Forall₂ R ts us) :
    Agree R Eq (ofTokens stop ts).outcome (ofTokens stop' us).outcome := by
  rw [outcome_ofTokens, outcome_ofTokens]
  refine (agree_expression hAlike hStop ts us h).bind ?_
  rintro ⟨r, vs⟩ ⟨_, ws⟩ ⟨rfl, hRest⟩
  cases hRest with
  | nil => exact .ok rfl
  | cons hFirst _ => exact .unexpected hFirst

end Parser

end Readers

end Range

end Versioning
