import Mathlib.Data.List.Basic
import Versioning.Proofs.Range.Bands
import Versioning.Proofs.Range.Results
import Versioning.Proofs.Token.Cutting

/-!
# Faults in range expressions

Whatever is wrong with a text that is no range expression, the fault that is
reported is there. A character that starts no token is reported first, since the
text is cut into tokens before anything is read. A token that does not fit is one
of the tokens, and is of none of the kinds that would have fitted. A number is
reported only if it is too large for a component, or as large as one can be and at
the place where a shorthand has to increase it (`Increased`).

All readers take tokens from the front and fail at what is left, so one statement
fits each of them (`Accounts`): a fault is there in the tokens that were to be read,
and a success leaves an end of them. It is kept by a step after a step, and carried
from the readers of numbers to that of expressions.

## Main results

* `Parser.accounts_expression` — reading an expression accounts for the fault it ends with.
* `parse_fault` — the faults of texts.
-/

namespace Versioning.Range

open Grammar Outcome Token

/-! ## Numbers that are increased -/

/-- Numbers stand in front of other tokens, not more of them than a limit. If there is room for
more of them, they end where no dot follows. -/
def Given (limit : Nat) (numbers rest : List Token) : Prop :=
  ∃ cs, Numbers numbers cs ∧ cs.length ≤ limit ∧
    (cs.length < limit → Shorthand.nextIs .dot rest = false)

/-- A shorthand at the front of some tokens has to increase the number of one of them: the last
that is given, or, behind a caret, the first that is not zero. -/
inductive Increases : Shorthand → List Token → Token → Prop where
  | tilde {mark t : Token} {before rest : List Token} (hMark : mark.kind = .tilde)
      (hGiven : Given 4 (before ++ [t]) rest) : Increases .tilde (mark :: (before ++ [t] ++ rest)) t
  | caret {mark t : Token} {before after rest : List Token} (hMark : mark.kind = .caret)
      (hGiven : Given 4 (before ++ t :: after) rest)
      (hZeros : ∀ u ∈ before, u.kind = .numeric → Decimal.value u.chars = 0)
      (hNonzero : Decimal.value t.chars ≠ 0) :
      Increases .caret (mark :: (before ++ t :: after ++ rest)) t
  | wildcard {dot star t : Token} {before rest : List Token} {cs : List Component}
      (hNumbers : Numbers (before ++ [t]) cs) (hFew : cs.length ≤ 3) (hDot : dot.kind = .dot)
      (hStar : star.kind = .wildcard) :
      Increases .wildcard (before ++ [t] ++ dot :: star :: rest) t
  | partialVersion {t : Token} {before rest : List Token}
      (hGiven : Given 2 (before ++ [t]) rest) : Increases .partialVersion (before ++ [t] ++ rest) t

/-- A reader that has got so far may be at the start of an atom: at the very front, or behind an
opening parenthesis or a connective. -/
def StartsAtom (ts us : List Token) : Prop :=
  ∃ before, ts = before ++ us ∧ ∀ t ∈ before.getLast?, t.kind ∈ [.leftParen, .and, .or]

/-- Somewhere in the tokens there is a shorthand that has to increase the number of one of them. -/
def Increased (ts : List Token) (t : Token) : Prop :=
  ∃ us form, StartsAtom ts us ∧ Shorthand.select? us = some form ∧ Increases form us t

theorem increased_of_increases {ts : List Token} {form : Shorthand} {t : Token}
    (hForm : Shorthand.select? ts = some form) (hIncreases : Increases form ts t) :
    Increased ts t :=
  ⟨ts, form, ⟨[], rfl, fun _ hMem => nomatch hMem⟩, hForm, hIncreases⟩

/-- What is increased behind a parenthesis or a connective is increased in all. -/
theorem Increased.behind (before : List Token) {us : List Token} {mark t : Token}
    (hIncreased : Increased us t) (hMark : mark.kind ∈ [.leftParen, .and, .or]) :
    Increased (before ++ mark :: us) t := by
  obtain ⟨ws, form, ⟨front, rfl, hFront⟩, hForm, hIncreases⟩ := hIncreased
  refine ⟨ws, form, ⟨before ++ mark :: front, by simp, fun u hLast => ?_⟩, hForm, hIncreases⟩
  rw [List.getLast?_append, List.getLast?_cons, Option.some_or, Option.mem_some_iff] at hLast
  cases hEnd : front.getLast? with
  | none =>
      rw [hEnd] at hLast
      exact hLast ▸ hMark
  | some w =>
      rw [hEnd] at hLast
      exact hFront u (hEnd.trans (congrArg some hLast))

/-! ## Faults that are there -/

/-- A fault is there in some tokens, where the numbers of those that satisfy `P` have to be
increased. An illegal character is in no token. -/
def Error.FaithfulTo (ts : List Token) (P : Token → Prop) : Error → Prop
  | .illegal _ => False
  | .unexpected f => f.token ∈ ts ∧ f.expected ≠ [] ∧ f.token.kind ∉ f.expected
  | .outOfRange t => t ∈ ts ∧ t.kind = .numeric ∧
      (Component.maximum < Decimal.value t.chars ∨
        Decimal.value t.chars = Component.maximum ∧ P t)

variable {α β : Type} {stop : Token} {ts us : List Token} {P Q : Token → Prop}

theorem Error.FaithfulTo.mono {e : Error} (hFault : e.FaithfulTo us P)
    (hTokens : ∀ t ∈ us, t ∈ ts) (hIncreased : ∀ t, P t → Q t) : e.FaithfulTo ts Q := by
  cases e with
  | illegal f => exact hFault
  | unexpected f => exact ⟨hTokens _ hFault.1, hFault.2⟩
  | outOfRange t =>
      obtain ⟨hMem, hKind, hValue⟩ := hFault
      exact ⟨hTokens t hMem, hKind, hValue.imp_right fun h => ⟨h.1, hIncreased t h.2⟩⟩

/-- A reader accounts for what it does with tokens: a fault is there in them or at their end, if all
numbers among them are digit runs, and otherwise it leaves an end of them. -/
structure Accounts (stop : Token) (ts : List Token) (P : Token → Prop)
    (x : Except Error (α × List Token)) : Prop where
  fault : Digital ts → ∀ e, x = .error e → e.FaithfulTo (ts ++ [stop]) P
  rest : ∀ a us, x = .ok (a, us) → us <:+ ts

namespace Accounts

theorem pure (a : α) : Accounts stop ts P (.ok (a, ts)) where
  fault _ _ h := nomatch h
  rest _ _ h := by
    cases h
    exact List.suffix_rfl

/-- A reader that accounts for an end of the tokens accounts for them all. -/
theorem widen {x : Except Error (α × List Token)} (h : Accounts stop us P x) (hEnd : us <:+ ts)
    (hIncreased : ∀ t, P t → Q t) : Accounts stop ts Q x where
  fault hDigital e hError := by
    refine (h.fault (hDigital.suffix hEnd) e hError).mono (fun t hMem => ?_) hIncreased
    rcases List.mem_append.1 hMem with hMem | hLast
    · exact List.mem_append_left _ (hEnd.mem hMem)
    · exact List.mem_append_right _ hLast
  rest a ws hOk := (h.rest a ws hOk).trans hEnd

theorem behind {x : Except Error (α × List Token)} (h : Accounts stop us P x) (hEnd : us <:+ ts) :
    Accounts stop ts P x :=
  h.widen hEnd fun _ => id

/-- **One step after another**: if the first accounts for the tokens and the second for what the
first leaves, then both together do. -/
theorem bind {x : Except Error (α × List Token)}
    {f : α × List Token → Except Error (β × List Token)} (hFirst : Accounts stop ts P x)
    (hThen : ∀ a us, x = .ok (a, us) → Accounts stop ts P (f (a, us))) :
    Accounts stop ts P (x >>= f) where
  fault hDigital e hError := by
    rcases bind_eq_error_iff.1 hError with hError | ⟨⟨a, us⟩, hOk, hError⟩
    · exact hFirst.fault hDigital e hError
    · exact (hThen a us hOk).fault hDigital e hError
  rest b ws hOk := by
    obtain ⟨⟨a, us⟩, hOk, hThenOk⟩ := bind_eq_ok_iff.1 hOk
    exact (hThen a us hOk).rest b ws hThenOk

/-- A step that reads on where the first has stopped. -/
theorem bind_rest {x : Except Error (α × List Token)}
    {f : α × List Token → Except Error (β × List Token)} (hFirst : Accounts stop ts P x)
    (hThen : ∀ a us, x = .ok (a, us) → Accounts stop us P (f (a, us))) :
    Accounts stop ts P (x >>= f) :=
  hFirst.bind fun a us hOk => (hThen a us hOk).behind (hFirst.rest a us hOk)

theorem map {x : Except Error (α × List Token)} (h : Accounts stop ts P x) (f : α → β) :
    Accounts stop ts P (x.map fun y => (f y.1, y.2)) where
  fault hDigital e hError := h.fault hDigital e (map_eq_error_iff.1 hError)
  rest b vs hMapped := by
    obtain ⟨⟨a, ws⟩, hOk, hSame⟩ := map_eq_ok_iff.1 hMapped
    cases hSame
    exact h.rest a ws hOk

theorem fail {e : Error} (hFault : Digital ts → e.FaithfulTo (ts ++ [stop]) P) :
    Accounts stop ts P (.error e : Except Error (α × List Token)) where
  fault hDigital _ h := by
    cases h
    exact hFault hDigital
  rest _ _ h := nomatch h

/-- What is made of tokens that have been taken. -/
theorem leaving {x : Except Error α} (hFault : ∀ e, x = .error e → e.FaithfulTo (ts ++ [stop]) P)
    (hEnd : us <:+ ts) : Accounts stop ts P (x >>= fun a => .ok (a, us)) := by
  cases x with
  | error e => exact fail fun _ => hFault e rfl
  | ok a => exact (pure a).behind hEnd

end Accounts

/-! ## The numeral to blame -/

/-- Written numerals are found among the tokens they are written in, with those before and behind
them. -/
theorem Written.split {vs : List Token} {ys zs : List Numeral} {x : Numeral}
    (h : Written vs (ys ++ x :: zs)) :
    ∃ before after, vs = before ++ x.token :: after ∧ x.token.kind = .numeric ∧
      Decimal.value x.token.chars = x.value.value ∧
      (∀ u ∈ before, u.kind = .numeric → ∃ y ∈ ys, Decimal.value u.chars = y.value.value) ∧
      (zs = [] → after = []) := by
  induction ys generalizing vs with
  | nil =>
      cases h with
      | one hKind hValue =>
          exact ⟨[], [], rfl, hKind, hValue.value_eq, fun _ hMem => (nomatch hMem), fun _ => rfl⟩
      | more hKind hValue hDot hRest =>
          refine ⟨[], _, rfl, hKind, hValue.value_eq, fun _ hMem => (nomatch hMem), ?_⟩
          rintro rfl
          cases hRest
  | cons y ys ih =>
      generalize hMore : ys ++ x :: zs = xs at h
      rw [List.cons_append, hMore] at h
      cases h with
      | one => exact absurd hMore (by simp)
      | @more _ dot ws _ hKind hValue hDot hRest =>
          obtain ⟨before, after, rfl, hKind', hValue', hBefore, hAfter⟩ := ih (hMore ▸ hRest)
          refine ⟨y.token :: dot :: before, after, rfl, hKind', hValue', fun u hMem hNumeric => ?_,
            hAfter⟩
          rcases List.mem_cons.1 hMem with rfl | hMem
          · exact ⟨y, by simp, hValue.value_eq⟩
          rcases List.mem_cons.1 hMem with rfl | hMem
          · rw [hDot] at hNumeric
            cases hNumeric
          obtain ⟨z, hZ, hValueZ⟩ := hBefore u hMem hNumeric
          exact ⟨z, by simp [hZ], hValueZ⟩

/-- Written numerals are given. -/
theorem Written.given {limit : Nat} {vs rest : List Token} {xs : List Numeral}
    (h : Written vs xs) (hFew : xs.length ≤ limit)
    (hEnd : xs.length < limit → Shorthand.nextIs .dot rest = false) : Given limit vs rest := by
  refine ⟨_, h.numbers, ?_, ?_⟩
  · rwa [List.length_map]
  · rwa [List.length_map]

theorem Numerals.getLast?_toList (ns : Numerals) : ns.toList.getLast? = some ns.last :=
  List.getLast?_cons

section Blame

variable {ns : Numerals} {vs : List Token} {e : Error} (hWritten : Written vs ns.toList)
  (hFew : ns.toList.length ≤ 4)
include hWritten hFew

/-- The last token of the numbers is to blame if the last of them cannot be increased. -/
theorem fault_of_bandAtLast (hError : bandAtLast ns = .error e) :
    ∃ before t, vs = before ++ [t] ∧ t.kind = .numeric ∧
      Decimal.value t.chars = Component.maximum ∧ e = .outOfRange t := by
  obtain ⟨ys, hList⟩ : ∃ ys, ns.toList = ys ++ [ns.last] :=
    List.getLast?_eq_some_iff.1 ns.getLast?_toList
  rw [hList] at hWritten hFew
  obtain ⟨before, after, rfl, hKind, hValue, -, hAfter⟩ := hWritten.split
  obtain rfl := hAfter rfl
  have hValues : ns.values = ys.map Numeral.value ++ [ns.last.value] := by
    rw [Numerals.values, hList, List.map_append, List.map_singleton]
  have hShort : (ys.map Numeral.value).length ≤ 3 := by
    rw [List.length_append, List.length_singleton] at hFew
    rw [List.length_map]
    omega
  obtain ⟨hMaximum, rfl⟩ := (bandAtLast_eq_error_iff hValues hShort).1 hError
  exact ⟨before, _, rfl, hKind, hValue.trans hMaximum, rfl⟩

/-- The first token that spells another number than zero is to blame if it cannot be increased. -/
theorem fault_of_bandAtFirstNonzero (hError : bandAtFirstNonzero ns = .error e) :
    ∃ before t after, vs = before ++ t :: after ∧ t.kind = .numeric ∧
      Decimal.value t.chars = Component.maximum ∧
      (∀ u ∈ before, u.kind = .numeric → Decimal.value u.chars = 0) ∧ e = .outOfRange t := by
  rcases exists_first_nonzero ns.values with hZeros | ⟨zeros, c, more, hValues, hZeros, hNonzero⟩
  · rw [bandAtFirstNonzero_of_zeros hZeros] at hError
    cases hError
  · obtain ⟨ys, rest, hList, rfl, hRest⟩ := List.map_eq_append_iff.1 hValues
    obtain ⟨x, zs, rfl, rfl, -⟩ := List.map_eq_cons_iff.1 hRest
    have hNone : ∀ y ∈ ys, y.value = 0 := fun y hMem => hZeros _ (List.mem_map_of_mem hMem)
    rw [hList] at hWritten hFew
    obtain ⟨before, after, rfl, hKind, hValue, hBefore, -⟩ := hWritten.split
    have hShort : ys.length ≤ 3 := by
      rw [List.length_append, List.length_cons] at hFew
      omega
    obtain ⟨hMaximum, rfl⟩ := (bandAtFirstNonzero_eq_error_iff hList hNone hNonzero hShort).1 hError
    refine ⟨before, _, after, rfl, hKind, hValue.trans hMaximum, fun u hMem hNumeric => ?_, rfl⟩
    obtain ⟨y, hY, hZero⟩ := hBefore u hMem hNumeric
    rw [hZero, hNone y hY]
    rfl

end Blame

/-! ## The readers of atoms -/

namespace Atom

section Readers

variable (hStop : stop.kind = .endOfInput)
include hStop

theorem accounts_expect {kind : Kind} (hKind : kind ≠ .endOfInput) :
    Accounts stop ts P (expect stop kind ts) := by
  cases ts with
  | nil =>
      refine .fail fun _ => ⟨List.mem_singleton.2 rfl, List.cons_ne_nil _ _, ?_⟩
      rw [List.mem_singleton, hStop]
      exact hKind.symm
  | cons t ts =>
      by_cases hSame : t.kind = kind
      · rw [expect, if_pos hSame]
        exact (Accounts.pure t).behind (List.suffix_cons t ts)
      · rw [expect, if_neg hSame]
        refine .fail fun _ => ⟨List.mem_cons_self, List.cons_ne_nil _ _, ?_⟩
        rwa [List.mem_singleton]

theorem accounts_numeral : Accounts stop ts P (numeral stop ts) := by
  refine (accounts_expect hStop (by decide)).bind fun t us hOk => ?_
  obtain ⟨hKind, rfl⟩ := expect_eq_ok_iff.1 hOk
  dsimp only
  split
  · exact (Accounts.pure _).behind (List.suffix_cons t us)
  · rename_i hNone
    refine .fail fun hDigital => ⟨List.mem_cons_self, hKind, .inl ?_⟩
    rw [ofText?_of_digital hDigital List.mem_cons_self hKind] at hNone
    exact Component.ofNat?_eq_none_iff.1 hNone

theorem accounts_further (n : Nat) : Accounts stop ts P (further stop n ts) := by
  induction n generalizing ts with
  | zero => exact .pure _
  | succ n ih =>
      cases ts with
      | nil => exact .pure _
      | cons t ts =>
          rw [further]
          split
          · refine Accounts.behind ?_ (List.suffix_cons t ts)
            exact (accounts_numeral hStop).bind_rest fun _ _ _ =>
              ih.bind_rest fun _ _ _ => .pure _
          · exact .pure _

theorem accounts_numerals (n : Nat) : Accounts stop ts P (numerals stop n ts) :=
  (accounts_numeral hStop).bind_rest fun _ _ _ =>
    (accounts_further hStop n).bind_rest fun _ _ _ => .pure _

theorem accounts_operand : Accounts stop ts P (operand stop ts) :=
  (accounts_numerals hStop 3).bind_rest fun _ _ _ => .pure _

theorem accounts_dotted (n : Nat) : Accounts stop ts P (dotted stop n ts) := by
  induction n generalizing ts with
  | zero =>
      exact (accounts_numeral hStop).bind_rest fun _ _ _ =>
        (accounts_expect hStop (by decide)).bind_rest fun _ _ _ => .pure _
  | succ n ih =>
      refine (accounts_numeral hStop).bind_rest fun _ _ _ =>
        (accounts_expect hStop (by decide)).bind_rest fun _ us _ => ?_
      dsimp only
      split
      · exact .pure _
      · exact ih.bind_rest fun _ _ _ => .pure _

/-- Numbers are read and a range is made of them, for which one of them may be to blame. -/
theorem accounts_made {n : Nat} {make : Numerals → Except Error Range}
    (hBlame : ∀ ns vs rest e, ts = vs ++ rest → Written vs ns.toList → ns.toList.length ≤ n + 1 →
      Given (n + 1) vs rest → make ns = .error e → e.FaithfulTo (ts ++ [stop]) P) :
    Accounts stop ts P (do
      let (ns, us) ← numerals stop n ts
      return (← make ns, us)) := by
  refine (accounts_numerals hStop n).bind fun ns us hNumerals => ?_
  obtain ⟨hFew, hEnd, vs, hSplit, hWritten⟩ := written_of_numerals hNumerals
  refine .leaving (fun e hError => ?_) ⟨vs, hSplit.symm⟩
  exact hBlame ns vs us e hSplit hWritten hFew (hWritten.given hFew hEnd) hError

/-- What a shorthand reads, its band included: if there is none, a number is to blame that it has to
increase. -/
theorem accounts_shorthand (form : Shorthand) :
    Accounts stop ts (Increases form ts) (shorthand stop form ts) := by
  cases form with
  | tilde =>
      refine (accounts_expect hStop (by decide)).bind fun mark us hMark => ?_
      obtain ⟨hTilde, rfl⟩ := expect_eq_ok_iff.1 hMark
      refine Accounts.behind (accounts_made hStop ?_) (List.suffix_cons mark us)
      rintro ns vs rest e rfl hWritten hFew hGiven hError
      obtain ⟨before, t, rfl, hKind, hMaximum, rfl⟩ := fault_of_bandAtLast hWritten hFew hError
      exact ⟨by simp, hKind, .inr ⟨hMaximum, .tilde hTilde hGiven⟩⟩
  | caret =>
      refine (accounts_expect hStop (by decide)).bind fun mark us hMark => ?_
      obtain ⟨hCaret, rfl⟩ := expect_eq_ok_iff.1 hMark
      refine Accounts.behind (accounts_made hStop ?_) (List.suffix_cons mark us)
      rintro ns vs rest e rfl hWritten hFew hGiven hError
      obtain ⟨before, t, after, rfl, hKind, hMaximum, hZeros, rfl⟩ :=
        fault_of_bandAtFirstNonzero hWritten hFew hError
      have hNonzero : Decimal.value t.chars ≠ 0 := by
        rw [hMaximum]
        decide
      exact ⟨by simp, hKind, .inr ⟨hMaximum, .caret hCaret hGiven hZeros hNonzero⟩⟩
  | wildcard =>
      show Accounts stop ts _ (wildcard stop ts)
      unfold wildcard
      split
      · exact (accounts_expect hStop (by decide)).bind_rest fun _ _ _ => .pure _
      · refine (accounts_dotted hStop 2).bind fun ns us hDotted => ?_
        obtain ⟨hFew, vs, dot, hDot, rfl, hWritten⟩ := written_of_dotted hDotted
        have hSuffix : us <:+ vs ++ dot :: us :=
          (List.suffix_cons dot us).trans (List.suffix_append vs _)
        refine ((accounts_expect hStop (by decide)).behind hSuffix).bind fun star ws hMark => ?_
        obtain ⟨hStar, rfl⟩ := expect_eq_ok_iff.1 hMark
        refine .leaving (fun e hError => ?_) ((List.suffix_cons star ws).trans hSuffix)
        obtain ⟨before, t, rfl, hKind, hMaximum, rfl⟩ :=
          fault_of_bandAtLast hWritten (Nat.le_succ_of_le hFew) hError
        refine ⟨by simp, hKind, .inr ⟨hMaximum, .wildcard hWritten.numbers ?_ hDot hStar⟩⟩
        rwa [List.length_map]
  | hyphen =>
      exact (accounts_operand hStop).bind_rest fun _ _ _ =>
        (accounts_expect hStop (by decide)).bind_rest fun _ _ _ =>
          (accounts_operand hStop).bind_rest fun _ _ _ => .pure _
  | partialVersion =>
      refine accounts_made hStop ?_
      rintro ns vs rest e rfl hWritten hFew hGiven hError
      obtain ⟨before, t, rfl, hKind, hMaximum, rfl⟩ :=
        fault_of_bandAtLast hWritten (Nat.le_trans hFew (by decide)) hError
      exact ⟨by simp, hKind, .inr ⟨hMaximum, .partialVersion hGiven⟩⟩

theorem accounts_comparison : Accounts stop ts P (comparison stop ts) := by
  unfold comparison
  split
  · exact ((accounts_operand hStop).behind (List.tail_suffix ts)).bind_rest fun _ _ _ => .pure _
  · exact (accounts_operand hStop).bind_rest fun _ _ _ => .pure _

theorem accounts_read : Accounts stop ts (Increased ts) (read stop (Shorthand.select? ts) ts) := by
  cases hForm : Shorthand.select? ts with
  | none => exact accounts_comparison hStop
  | some form =>
      exact (accounts_shorthand hStop form).widen List.suffix_rfl fun t =>
        increased_of_increases hForm

end Readers

end Atom

/-! ## The reader of expressions -/

namespace Parser

/-- What follows a connective has fewer tokens. -/
theorem accounts_joined {front : List Token} (r : Range)
    (hInner : ∀ vs : List Token, vs.length < us.length →
      Accounts stop vs (Increased vs) (result (phrase stop .expression vs))) :
    Accounts stop us (Increased (front ++ us)) (joinedResult stop r us) := by
  cases us with
  | nil => exact .pure r
  | cons t vs =>
      have hRest : t.kind ∈ [.leftParen, .and, .or] → Accounts stop (t :: vs)
          (Increased (front ++ t :: vs)) (result (phrase stop .expression vs)) := by
        intro hMark
        exact (hInner vs (Nat.lt_succ_self _)).widen (List.suffix_cons t vs) fun u hIncreased =>
          hIncreased.behind front hMark
      by_cases hAnd : t.kind = .and
      · rw [joinedResult, if_pos hAnd]
        exact (hRest (by simp [hAnd])).map _
      by_cases hOr : t.kind = .or
      · rw [joinedResult, if_neg hAnd, if_pos hOr]
        exact (hRest (by simp [hOr])).map _
      · rw [joinedResult, if_neg hAnd, if_neg hOr]
        exact .pure r

section Readers

variable (hStop : stop.kind = .endOfInput)
include hStop

/-- An expression in parentheses is accounted for if what is behind the opening one is. -/
theorem accounts_enclosed (hInner : ∀ opening us, ts = opening :: us → opening.kind = .leftParen →
      Accounts stop us P (result (phrase stop .expression us))) :
    Accounts stop ts P (enclosedResult stop ts) := by
  refine (Atom.accounts_expect hStop (by decide)).bind_rest fun opening us hOpening => ?_
  obtain ⟨hKind, hSplit⟩ := Atom.expect_eq_ok_iff.1 hOpening
  exact (hInner opening us hSplit hKind).bind_rest fun _ _ _ =>
    (Atom.accounts_expect hStop (by decide)).bind_rest fun _ _ _ => .pure _

/-- What a unit holds in parentheses has fewer tokens. -/
theorem accounts_unit (hInner : ∀ us : List Token, us.length < ts.length →
      Accounts stop us (Increased us) (result (phrase stop .expression us))) :
    Accounts stop ts (Increased ts) (result (phrase stop .unit ts)) := by
  cases ts with
  | nil =>
      rw [result_unit_atom fun t hMem => absurd hMem (by simp)]
      exact Atom.accounts_read hStop
  | cons t us =>
      by_cases hNot : t.kind = .not
      · -- No atom may start behind the mark itself, but one may behind the parenthesis.
        rw [result_unit_not hNot]
        refine ((accounts_enclosed hStop fun opening vs hSplit hOpening => ?_).map _).behind
          (List.suffix_cons t us)
        subst hSplit
        have hShorter : vs.length < (t :: opening :: vs).length :=
          Nat.lt_succ_of_lt (Nat.lt_succ_self _)
        exact (hInner vs hShorter).widen List.suffix_rfl fun u hIncreased =>
          hIncreased.behind [t] (by simp [hOpening])
      by_cases hOpening : t.kind = .leftParen
      · rw [result_unit_enclosed hOpening]
        refine accounts_enclosed hStop fun opening vs hSplit _ => ?_
        cases hSplit
        exact (hInner us (Nat.lt_succ_self _)).widen List.suffix_rfl fun u hIncreased =>
          hIncreased.behind [] (by simp [hOpening])
      · rw [result_unit_atom]
        · exact Atom.accounts_read hStop
        · intro u hMem
          cases hMem
          exact ⟨hNot, hOpening⟩

/-- **Expressions account for their faults**, by recursion on the tokens that are left: inside a
parenthesis and behind a connective there are fewer. -/
theorem accounts_expression (ts : List Token) :
    Accounts stop ts (Increased ts) (result (phrase stop .expression ts)) := by
  have hUnit : Accounts stop ts (Increased ts) (result (phrase stop .unit ts)) :=
    accounts_unit hStop fun us hShorter => accounts_expression us
  rw [result_expression]
  -- What is increased behind a connective is placed by the tokens of the unit before it.
  refine hUnit.bind fun r us hOk => ?_
  obtain ⟨front, rfl⟩ := hUnit.rest r us hOk
  refine (accounts_joined r fun vs hShorter => ?_).behind (List.suffix_append front us)
  have hLess : vs.length < (front ++ us).length := by
    rw [List.length_append]
    omega
  exact accounts_expression vs
termination_by ts.length

end Readers

end Parser

/-- A reader of whole expressions reports faults that are there. -/
theorem ofTokens_fault {e : Error} (hStop : stop.kind = .endOfInput) (hDigital : Digital ts)
    (hKinds : ∀ t ∈ ts, t.kind ≠ .endOfInput) (hError : (ofTokens stop ts).outcome = .error e) :
    e.FaithfulTo (ts ++ [stop]) (Increased ts) := by
  have hAccounts := Parser.accounts_expression hStop ts
  rw [Parser.outcome_ofTokens] at hError
  rcases bind_eq_error_iff.1 hError with hError | ⟨⟨r, us⟩, hOk, hEnded⟩
  · exact hAccounts.fault hDigital e hError
  · cases us with
    | nil => cases hEnded
    | cons t us =>
        cases hEnded
        have hMem : t ∈ ts := (hAccounts.rest r _ hOk).mem List.mem_cons_self
        refine ⟨List.mem_append_left _ hMem, List.cons_ne_nil _ _, ?_⟩
        rw [List.mem_singleton]
        exact hKinds t hMem

/-- **Faults in expressions are there.** If a character starts no token, it is reported, whatever
comes before it. Otherwise a token that is reported as unexpected is one of the tokens and of none of
the kinds that are named, and at least one is; a number that is reported is that of a numeric
token, and too large for a component, or the largest one and to be increased. So no number is
reported if all are smaller than the largest component. -/
theorem parse_fault (s : String) :
    (∀ f, Token.tokenize s = .error f → parse s = .error (.illegal f)) ∧
    ∀ ts, Token.tokenize s = .ok ts →
      (∀ e, parse s = .error e → e.FaithfulTo ts (Increased ts.dropLast)) ∧
      ((∀ t ∈ ts, t.kind = .numeric → Decimal.value t.chars < Component.maximum) →
        ∀ t, parse s ≠ .error (.outOfRange t)) := by
  constructor
  · intro f hIllegal
    have hChars : Token.ofChars s.toList = .error f := map_eq_error_iff.1 hIllegal
    rw [parse, hChars]
    rfl
  · intro ts hTokens
    obtain ⟨us, hChars, rfl⟩ := map_eq_ok_iff.1 hTokens
    have hParse : parse s = (ofTokens (.endAt s.toList.length) us).outcome := by
      rw [parse, hChars]
      rfl
    have hCuts := Token.scan_eq_ok_iff.1 hChars
    have hFaithful : ∀ e, parse s = .error e →
        e.FaithfulTo (us ++ [Token.endAt s.toList.length]) (Increased us) := by
      intro e hError
      rw [hParse] at hError
      exact ofTokens_fault rfl hCuts.digital (fun t hMem => hCuts.kind_ne_endOfInput hMem) hError
    rw [List.dropLast_concat]
    refine ⟨hFaithful, fun hSmall t hError => ?_⟩
    obtain ⟨hMem, hKind, hLarge | ⟨hMaximum, -⟩⟩ := hFaithful _ hError
    · exact Nat.lt_asymm hLarge (hSmall t hMem hKind)
    · exact Nat.ne_of_lt (hSmall t hMem hKind) hMaximum

/-- Behind a caret the first number that is not zero is the largest, and it is reported even though
the parenthesis is never closed. Where a character starts no token, nothing else counts. -/
theorem parse_fault_behind_caret :
    (∃ ts t, Token.tokenize "3 | !(^0.18446744073709551615 &" = .ok ts ∧
      parse "3 | !(^0.18446744073709551615 &" = .error (.outOfRange t) ∧ t.position = 9 ∧
      t ∈ ts ∧ Increased ts.dropLast t) ∧
    (Token.tokenize "1 & & $" = .error ⟨'$', 6⟩ ∧
      parse "1 & & $" = .error (.illegal ⟨'$', 6⟩)) ∧
    ∃ ts f, Token.tokenize "1 & & 2" = .ok ts ∧ parse "1 & & 2" = .error (.unexpected f) ∧
      f.token ∈ ts ∧ f.expected ≠ [] ∧ f.token.kind ∉ f.expected ∧
      ∀ t, parse "1 & & 2" ≠ .error (.outOfRange t) := by
  refine ⟨?_, ?_, ?_⟩
  · let t : Token := ⟨.numeric, some "18446744073709551615".toList, 9⟩
    have hTokens : Token.tokenize "3 | !(^0.18446744073709551615 &" =
        .ok [⟨.numeric, some ['3'], 0⟩, ⟨.or, some ['|'], 2⟩, ⟨.not, some ['!'], 4⟩,
          ⟨.leftParen, some ['('], 5⟩, ⟨.caret, some ['^'], 6⟩, ⟨.numeric, some ['0'], 7⟩,
          ⟨.dot, some ['.'], 8⟩, t, ⟨.and, some ['&'], 30⟩, .endAt 31] := by decide +kernel
    have hError : parse "3 | !(^0.18446744073709551615 &" = .error (.outOfRange t) := by
      decide +kernel
    obtain ⟨hMem, -, hValue⟩ := ((parse_fault _).2 _ hTokens).1 _ hError
    have hNotLarger : ¬ Component.maximum < Decimal.value t.chars := by decide +kernel
    exact ⟨_, t, hTokens, hError, rfl, hMem, (hValue.resolve_left hNotLarger).2⟩
  · have hIllegal : Token.tokenize "1 & & $" = .error ⟨'$', 6⟩ := by decide +kernel
    exact ⟨hIllegal, (parse_fault _).1 _ hIllegal⟩
  · let f : UnexpectedToken := ⟨⟨.and, some ['&'], 4⟩, [.numeric]⟩
    have hTokens : Token.tokenize "1 & & 2" =
        .ok [⟨.numeric, some ['1'], 0⟩, ⟨.and, some ['&'], 2⟩, f.token, ⟨.numeric, some ['2'], 6⟩,
          .endAt 7] := by decide +kernel
    have hError : parse "1 & & 2" = .error (.unexpected f) := by decide +kernel
    obtain ⟨hFaithful, hSmall⟩ := (parse_fault _).2 _ hTokens
    obtain ⟨hMem, hSome, hOther⟩ := hFaithful _ hError
    exact ⟨_, f, hTokens, hError, hMem, hSome, hOther, hSmall (by decide +kernel)⟩

end Versioning.Range
