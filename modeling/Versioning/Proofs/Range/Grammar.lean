import Versioning.Range.Basic

/-!
# The grammar of range expressions

Which sequences of tokens are range expressions, and which range each of them
spells. The relations of this module know nothing of reading: there is no
looking ahead, no order in which alternatives are tried and no rest that is left
over. What a phrase spells is said by the components and the operator alone, and
a component is bounded by its type, so that a number too large for one spells
nothing.

* `Denotes` — a text and the component that it denotes.
* `Numbers` — numbers with dots between them.
* `Band` — the range from given components up to where one of them is increased.
* `Atom` — a comparison or a shorthand.
* `Derives` — atoms put together by connectives, negation and parentheses.
-/

namespace Versioning.Range.Grammar

/-- A text denotes a component: it is a digit run, or one with a plus in front. The numbers into which
a text is cut are digit runs (`Token.Cuts.digital`), but tokens can be made in other ways. -/
inductive Denotes : List Char → Component → Prop where
  | digits {r : Text.Run Char.isDigit} {c : Component} (hValue : Decimal.value r.chars = c.value) :
      Denotes r.chars c
  | plus {r : Text.Run Char.isDigit} {c : Component} (hValue : Decimal.value r.chars = c.value) :
      Denotes ('+' :: r.chars) c

/-- Numeric tokens with dots between them spell components, one each. -/
inductive Numbers : List Token → List Component → Prop where
  | one {t : Token} {c : Component} (hKind : t.kind = .numeric)
      (hValue : Denotes t.chars c) : Numbers [t] [c]
  | more {t dot : Token} {c : Component} {ts : List Token} {cs : List Component}
      (hKind : t.kind = .numeric) (hValue : Denotes t.chars c)
      (hDot : dot.kind = .dot) (hRest : Numbers ts cs) : Numbers (t :: dot :: ts) (c :: cs)

/-- From `before, c, after` on, but below `before, c + 1`, both padded with zeros. There is no
band at the largest component, which has no next one. -/
inductive Band (before : List Component) (c : Component) (after : List Component) :
    Range → Prop where
  | upTo {next : Component} (hNext : next.value = c.value + 1) :
      Band before c after (.and (.comparison .ge (Core.padded (before ++ c :: after)))
        (.comparison .lt (Core.padded (before ++ [next]))))

/-- A comparison or a shorthand. -/
inductive Atom : List Token → Range → Prop where
  /-- `~a.b`: the last of one to four components may not change. -/
  | tilde {mark : Token} {ts : List Token} {before : List Component} {c : Component} {r : Range}
      (hMark : mark.kind = .tilde) (hNumbers : Numbers ts (before ++ [c]))
      (hFew : before.length ≤ 3) (hBand : Band before c [] r) : Atom (mark :: ts) r
  /-- `^a.b`: the first of one to four components that is not zero may not change. -/
  | caret {mark : Token} {ts : List Token} {zeros after : List Component} {c : Component}
      {r : Range} (hMark : mark.kind = .caret) (hNumbers : Numbers ts (zeros ++ c :: after))
      (hFew : (zeros ++ c :: after).length ≤ 4) (hZeros : ∀ z ∈ zeros, z = 0) (hNonzero : c ≠ 0)
      (hBand : Band zeros c after r) : Atom (mark :: ts) r
  /-- `^0.0`: nothing but the zero core. -/
  | caretZero {mark : Token} {ts : List Token} {zeros : List Component}
      (hMark : mark.kind = .caret) (hNumbers : Numbers ts zeros) (hFew : zeros.length ≤ 4)
      (hZeros : ∀ z ∈ zeros, z = 0) : Atom (mark :: ts) (.comparison .eq ({} : Core))
  /-- `*`: all from the zero core on. -/
  | any {star : Token} (hStar : star.kind = .wildcard) :
      Atom [star] (.comparison .ge ({} : Core))
  /-- `a.b.*`: the last of one to three components may not change. -/
  | wildcard {dot star : Token} {ts : List Token} {before : List Component} {c : Component}
      {r : Range} (hNumbers : Numbers ts (before ++ [c])) (hFew : before.length ≤ 2)
      (hDot : dot.kind = .dot) (hStar : star.kind = .wildcard) (hBand : Band before c [] r) :
      Atom (ts ++ [dot, star]) r
  /-- `a.b - c.d`: from one core to another. -/
  | hyphen {mark : Token} {ts us : List Token} {lower upper : List Component}
      (hLower : Numbers ts lower) (hLowerFew : lower.length ≤ 4) (hMark : mark.kind = .hyphen)
      (hUpper : Numbers us upper) (hUpperFew : upper.length ≤ 4) :
      Atom (ts ++ mark :: us) (.and (.comparison .ge (Core.padded lower))
        (.comparison .le (Core.padded upper)))
  /-- `a.b`: the last of one or two components may not change. -/
  | partialVersion {ts : List Token} {before : List Component} {c : Component} {r : Range}
      (hNumbers : Numbers ts (before ++ [c])) (hFew : before.length ≤ 1)
      (hBand : Band before c [] r) : Atom ts r
  /-- `a.b.c`: three or four components alone stand for themselves. -/
  | plain {ts : List Token} {cs : List Component} (hNumbers : Numbers ts cs)
      (hMany : 3 ≤ cs.length) (hFew : cs.length ≤ 4) :
      Atom ts (.comparison .eq (Core.padded cs))
  /-- `>=a.b`: an operator before one to four components. -/
  | comparison {mark : Token} {op : Operator} {ts : List Token} {cs : List Component}
      (hMark : Operator.ofKind? mark.kind = some op) (hNumbers : Numbers ts cs)
      (hFew : cs.length ≤ 4) : Atom (mark :: ts) (.comparison op (Core.padded cs))

/-- The two kinds of phrase of which one may hold the other. -/
inductive Phrase where
  | expression
  | unit
deriving DecidableEq, Repr

/-- A sequence of tokens is a phrase of a kind and spells a range. -/
inductive Derives : Phrase → List Token → Range → Prop where
  | unit {ts : List Token} {r : Range} (hUnit : Derives .unit ts r) : Derives .expression ts r
  | and {mark : Token} {ts us : List Token} {left right : Range} (hLeft : Derives .unit ts left)
      (hMark : mark.kind = .and) (hRight : Derives .expression us right) :
      Derives .expression (ts ++ mark :: us) (.and left right)
  | or {mark : Token} {ts us : List Token} {left right : Range} (hLeft : Derives .unit ts left)
      (hMark : mark.kind = .or) (hRight : Derives .expression us right) :
      Derives .expression (ts ++ mark :: us) (.or left right)
  | atom {ts : List Token} {r : Range} (hAtom : Atom ts r) : Derives .unit ts r
  | enclosed {opening closing : Token} {ts : List Token} {r : Range}
      (hOpening : opening.kind = .leftParen) (hInner : Derives .expression ts r)
      (hClosing : closing.kind = .rightParen) : Derives .unit (opening :: (ts ++ [closing])) r
  | not {mark opening closing : Token} {ts : List Token} {r : Range} (hMark : mark.kind = .not)
      (hOpening : opening.kind = .leftParen) (hInner : Derives .expression ts r)
      (hClosing : closing.kind = .rightParen) :
      Derives .unit (mark :: opening :: (ts ++ [closing])) (.not r)

/-! ## Shape of numbers -/

/-- How many components there may be before the last one. -/
theorem length_concat_le_iff {before : List Component} {c : Component} {n : Nat} :
    (before ++ [c]).length ≤ n + 1 ↔ before.length ≤ n := by
  rw [List.length_append, List.length_singleton]
  omega

theorem Numbers.ne_nil {ts : List Token} {cs : List Component} (h : Numbers ts cs) :
    cs ≠ [] := by
  cases h <;> simp

/-- Numbers spell a last component. -/
theorem Numbers.exists_concat {ts : List Token} {cs : List Component} (h : Numbers ts cs) :
    ∃ before c, cs = before ++ [c] :=
  ⟨_, _, (List.dropLast_concat_getLast h.ne_nil).symm⟩

/-- Between two numbers there is one dot. -/
theorem Numbers.length_eq {ts : List Token} {cs : List Component} (h : Numbers ts cs) :
    ts.length + 1 = 2 * cs.length := by
  induction h with
  | one => rfl
  | more _ _ _ _ ih =>
      simp only [List.length_cons]
      omega

/-- Numbers have no token but numeric ones and dots. -/
theorem Numbers.inVersion {ts : List Token} {cs : List Component} (h : Numbers ts cs) :
    ∀ t ∈ ts, t.kind.inVersion = true := by
  induction h with
  | one hKind => simp [hKind, Kind.inVersion]
  | more hKind _ hDot _ ih =>
      intro u hMem
      rcases List.mem_cons.1 hMem with rfl | hMem
      · simp [hKind, Kind.inVersion]
      rcases List.mem_cons.1 hMem with rfl | hMem
      · simp [hDot, Kind.inVersion]
      exact ih u hMem

/-- Numbers start with a numeric token. -/
theorem Numbers.exists_cons {ts : List Token} {cs : List Component} (h : Numbers ts cs) :
    ∃ t us, ts = t :: us ∧ t.kind = .numeric := by
  cases h with
  | one hKind => exact ⟨_, _, rfl, hKind⟩
  | more hKind => exact ⟨_, _, rfl, hKind⟩

end Versioning.Range.Grammar
