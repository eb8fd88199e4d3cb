import Versioning.Proofs.Range.Grammar
import Versioning.Proofs.Token.Cutting
import Versioning.Range.Atom

/-!
# Reading numbers

What the readers of numbers in `Range.Atom` accept, stated against
`Grammar.Numbers`. A reader is sound without further ado: what it took spells
what it returned. That it takes all of the numbers in front of it needs a
condition on what follows, since a dot after the last of them is read on.
-/

namespace Versioning.Range

open Grammar Outcome Token

/-- The components that numerals stand for. -/
def Numerals.values (ns : Numerals) : List Component := ns.toList.map Numeral.value

@[simp] theorem Numerals.values_mk (x : Numeral) (xs : List Numeral) :
    (Numerals.mk x xs).values = x.value :: xs.map Numeral.value := rfl

@[simp] theorem Numerals.values_cons (x : Numeral) (ns : Numerals) :
    (ns.cons x).values = x.value :: ns.values := rfl

theorem Numerals.core_eq (ns : Numerals) : ns.core = Core.padded ns.values := rfl

@[simp] theorem Shorthand.nextIs_cons {kind : Kind} {t : Token} {ts : List Token} :
    nextIs kind (t :: ts) = decide (t.kind = kind) := rfl

@[simp] theorem Shorthand.nextIs_nil {kind : Kind} : nextIs kind [] = false := rfl

theorem ofText?_eq_some_iff {text : List Char} {c : Component} :
    Component.ofText? text = some c ↔ Denotes text c := by
  constructor
  · intro hText
    obtain ⟨r, hShape, hDigits⟩ := Component.exists_run_of_ofText? hText
    have hValue : Decimal.value r.chars = c.value := (Component.ofNat?_eq_some_iff.1 hDigits).symm
    rcases hShape with rfl | rfl
    · exact .digits hValue
    · exact .plus hValue
  · intro hDenotes
    cases hDenotes with
    | digits hValue =>
        rw [Component.ofText?_chars]
        exact Component.ofNat?_eq_some_iff.2 hValue.symm
    | plus hValue =>
        rw [Component.ofText?_plus]
        exact Component.ofNat?_eq_some_iff.2 hValue.symm

/-- Among tokens whose numbers are digit runs, a number denotes a component if it is small
enough. -/
theorem ofText?_of_digital {t : Token} {ts : List Token} (h : Digital ts) (hMem : t ∈ ts)
    (hKind : t.kind = .numeric) :
    Component.ofText? t.chars = Component.ofNat? (Decimal.value t.chars) := by
  obtain ⟨r, hRun⟩ := h t hMem hKind
  rw [hRun, Component.ofText?_chars]
  rfl

/-- What a text denotes is the value of its digits, since a plus counts for nothing. -/
theorem Grammar.Denotes.value_eq {text : List Char} {c : Component} (h : Denotes text c) :
    Decimal.value text = c.value := by
  cases h with
  | digits hValue => exact hValue
  | plus hValue => exact hValue

/-- Numeric tokens with dots between them, and the numerals that are read from them. -/
inductive Written : List Token → List Numeral → Prop where
  | one {x : Numeral} (hKind : x.token.kind = .numeric)
      (hValue : Denotes x.token.chars x.value) : Written [x.token] [x]
  | more {x : Numeral} {dot : Token} {ts : List Token} {xs : List Numeral}
      (hKind : x.token.kind = .numeric) (hValue : Denotes x.token.chars x.value)
      (hDot : dot.kind = .dot) (hRest : Written ts xs) :
      Written (x.token :: dot :: ts) (x :: xs)

theorem Written.numbers {ts : List Token} {xs : List Numeral} (h : Written ts xs) :
    Numbers ts (xs.map Numeral.value) := by
  induction h with
  | one hKind hValue => exact .one hKind hValue
  | more hKind hValue hDot _ ih => exact .more hKind hValue hDot ih

namespace Atom

variable {stop : Token} {ts us : List Token}

/-- A numeral is one numeric token, and its value is what the text of the token denotes. -/
theorem numeral_eq_ok_iff {x : Numeral} :
    numeral stop ts = .ok (x, us) ↔
      ts = x.token :: us ∧ x.token.kind = .numeric ∧ Denotes x.token.chars x.value := by
  unfold numeral
  rw [bind_eq_ok_iff]
  constructor
  · rintro ⟨⟨t, vs⟩, hExpect, h⟩
    obtain ⟨hKind, rfl⟩ := expect_eq_ok_iff.1 hExpect
    dsimp only at h
    split at h
    · rename_i c hText
      cases h
      exact ⟨rfl, hKind, ofText?_eq_some_iff.1 hText⟩
    · cases h
  · rintro ⟨rfl, hKind, hValue⟩
    refine ⟨(x.token, us), expect_eq_ok_iff.2 ⟨hKind, rfl⟩, ?_⟩
    simp only [ofText?_eq_some_iff.2 hValue]
    rfl

/-- What `further` takes goes on with numbers that a numeric token has started. It stops where no
dot follows, if not at the limit. -/
theorem written_of_further {n : Nat} {xs : List Numeral} {x : Numeral}
    (h : further stop n ts = .ok (xs, us)) (hKind : x.token.kind = .numeric)
    (hValue : Denotes x.token.chars x.value) :
    xs.length ≤ n ∧ (xs.length < n → Shorthand.nextIs .dot us = false) ∧
      ∃ vs, ts = vs ++ us ∧ Written (x.token :: vs) (x :: xs) := by
  induction n generalizing ts xs x with
  | zero =>
      cases h
      exact ⟨Nat.le_refl _, fun hLess => absurd hLess (Nat.lt_irrefl _), [], rfl, .one hKind hValue⟩
  | succ n ih =>
      cases ts with
      | nil =>
          cases h
          exact ⟨Nat.zero_le _, fun _ => rfl, [], rfl, .one hKind hValue⟩
      | cons dot ts =>
          simp only [further] at h
          split at h
          · rename_i hDot
            obtain ⟨⟨y, ws⟩, hNumeral, h⟩ := bind_eq_ok_iff.1 h
            obtain ⟨⟨ys, ws'⟩, hFurther, h⟩ := bind_eq_ok_iff.1 h
            cases h
            obtain ⟨rfl, hNext, hNextValue⟩ := numeral_eq_ok_iff.1 hNumeral
            obtain ⟨hLength, hEnd, vs, hSplit, hWritten⟩ := ih hFurther hNext hNextValue
            refine ⟨Nat.succ_le_succ hLength, fun hLess => hEnd (Nat.lt_of_succ_lt_succ hLess),
              dot :: y.token :: vs, ?_, ?_⟩
            · rw [show ws = vs ++ ws' from hSplit]
              rfl
            · exact .more hKind hValue hDot hWritten
          · rename_i hNoDot
            cases h
            exact ⟨Nat.zero_le _, fun _ => decide_eq_false hNoDot, [], rfl, .one hKind hValue⟩

/-- What `numerals` returns is written in what it takes. -/
theorem written_of_numerals {n : Nat} {ns : Numerals}
    (h : numerals stop n ts = .ok (ns, us)) :
    ns.toList.length ≤ n + 1 ∧
      (ns.toList.length < n + 1 → Shorthand.nextIs .dot us = false) ∧
      ∃ vs, ts = vs ++ us ∧ Written vs ns.toList := by
  obtain ⟨⟨x, ws⟩, hNumeral, h⟩ := bind_eq_ok_iff.1 h
  obtain ⟨⟨xs, ws'⟩, hFurther, h⟩ := bind_eq_ok_iff.1 h
  cases h
  obtain ⟨rfl, hKind, hValue⟩ := numeral_eq_ok_iff.1 hNumeral
  obtain ⟨hLength, hEnd, vs, hSplit, hWritten⟩ := written_of_further hFurther hKind hValue
  refine ⟨Nat.succ_le_succ hLength, fun hLess => hEnd (Nat.lt_of_succ_lt_succ hLess),
    x.token :: vs, ?_, hWritten⟩
  rw [show ws = vs ++ us from hSplit]
  rfl

/-- What `numerals` takes are numbers that spell what it returns. -/
theorem numbers_of_numerals {n : Nat} {ns : Numerals}
    (h : numerals stop n ts = .ok (ns, us)) :
    ns.values.length ≤ n + 1 ∧ ∃ vs, ts = vs ++ us ∧ Numbers vs ns.values := by
  obtain ⟨hLength, -, vs, hSplit, hWritten⟩ := written_of_numerals h
  refine ⟨?_, vs, hSplit, hWritten.numbers⟩
  rw [Numerals.values, List.length_map]
  exact hLength

/-- All of the numbers in front are taken, unless there are too many or a dot goes on after
them. -/
theorem numerals_append (stop : Token) {n : Nat} {vs : List Token} {cs : List Component}
    (h : Numbers vs cs) (hFew : cs.length ≤ n + 1)
    (hEnd : Shorthand.nextIs .dot us = false) :
    ∃ ns, numerals stop n (vs ++ us) = .ok (ns, us) ∧ ns.values = cs := by
  induction h generalizing n with
  | @one t c hKind hValue =>
      have hNumeral : numeral stop ([t] ++ us) = .ok (⟨c, t⟩, us) :=
        numeral_eq_ok_iff.2 ⟨rfl, hKind, hValue⟩
      have hFurther : further stop n us = .ok ([], us) := by
        cases n with
        | zero => rfl
        | succ n =>
            cases us with
            | nil => rfl
            | cons u us => simp_all [further]
      refine ⟨⟨⟨c, t⟩, []⟩, ?_, rfl⟩
      unfold numerals
      rw [hNumeral]
      simp only [bind, Except.bind, hFurther]
      rfl
  | @more t dot c vs cs hKind hValue hDot hRest ih =>
      have hNumeral : numeral stop (t :: dot :: vs ++ us) = .ok (⟨c, t⟩, dot :: vs ++ us) :=
        numeral_eq_ok_iff.2 ⟨rfl, hKind, hValue⟩
      have hPos := List.length_pos_iff.2 hRest.ne_nil
      obtain ⟨m, rfl⟩ : ∃ m, n = m + 1 := ⟨n - 1, by simp only [List.length_cons] at hFew; omega⟩
      obtain ⟨ns, hNumerals, hValues⟩ := ih (Nat.le_of_succ_le_succ hFew)
      obtain ⟨⟨x, ws⟩, hNext, hNumerals⟩ := bind_eq_ok_iff.1 hNumerals
      obtain ⟨⟨xs, ws'⟩, hMore, hNumerals⟩ := bind_eq_ok_iff.1 hNumerals
      cases hNumerals
      have hFurther : further stop (m + 1) (dot :: vs ++ us) = .ok (x :: xs, us) := by
        simp only [List.cons_append, further, hDot, if_true, hNext, bind, Except.bind]
        rw [show further stop m ws = .ok (xs, us) from hMore]
        rfl
      refine ⟨⟨⟨c, t⟩, x :: xs⟩, ?_, ?_⟩
      · unfold numerals
        rw [hNumeral]
        simp only [bind, Except.bind, hFurther]
        rfl
      · simpa using hValues

/-- What `dotted` returns is written in what it takes, up to the dot after the last. -/
theorem written_of_dotted {n : Nat} {ns : Numerals} (h : dotted stop n ts = .ok (ns, us)) :
    ns.toList.length ≤ n + 1 ∧
      ∃ vs dot, dot.kind = .dot ∧ ts = vs ++ dot :: us ∧ Written vs ns.toList := by
  induction n generalizing ts ns with
  | zero =>
      obtain ⟨⟨x, ws⟩, hNumeral, h⟩ := bind_eq_ok_iff.1 h
      obtain ⟨⟨dot, ws'⟩, hExpect, h⟩ := bind_eq_ok_iff.1 h
      cases h
      obtain ⟨rfl, hKind, hValue⟩ := numeral_eq_ok_iff.1 hNumeral
      obtain ⟨hDot, hRest⟩ := expect_eq_ok_iff.1 hExpect
      exact ⟨Nat.le_refl _, [x.token], dot, hDot, congrArg _ hRest, .one hKind hValue⟩
  | succ n ih =>
      obtain ⟨⟨x, ws⟩, hNumeral, hRun⟩ := bind_eq_ok_iff.1 h
      obtain ⟨⟨dot, ws'⟩, hExpect, hRun⟩ := bind_eq_ok_iff.1 hRun
      obtain ⟨rfl, hKind, hValue⟩ := numeral_eq_ok_iff.1 hNumeral
      obtain ⟨hDot, hRest⟩ := expect_eq_ok_iff.1 hExpect
      dsimp only at hRun
      split at hRun
      · cases hRun
        exact ⟨Nat.succ_le_succ (Nat.zero_le _), [x.token], dot, hDot, congrArg _ hRest,
          .one hKind hValue⟩
      · obtain ⟨⟨ms, ws''⟩, hDotted, hRun⟩ := bind_eq_ok_iff.1 hRun
        cases hRun
        obtain ⟨hLength, vs, dot', hDot', hSplit, hWritten⟩ := ih hDotted
        refine ⟨Nat.succ_le_succ hLength, x.token :: dot :: vs, dot', hDot', ?_, ?_⟩
        · rw [hRest, show ws' = vs ++ dot' :: ws'' from hSplit]
          rfl
        · exact .more hKind hValue hDot hWritten

/-- What `dotted` takes are numbers with a dot after the last. -/
theorem numbers_of_dotted {n : Nat} {ns : Numerals} (h : dotted stop n ts = .ok (ns, us)) :
    ns.values.length ≤ n + 1 ∧
      ∃ vs dot, dot.kind = .dot ∧ ts = vs ++ dot :: us ∧ Numbers vs ns.values := by
  obtain ⟨hLength, vs, dot, hDot, hSplit, hWritten⟩ := written_of_dotted h
  refine ⟨?_, vs, dot, hDot, hSplit, hWritten.numbers⟩
  rw [Numerals.values, List.length_map]
  exact hLength

/-- Numbers up to a wildcard are taken, each with the dot after it. -/
theorem dotted_append (stop : Token) {n : Nat} {vs : List Token} {cs : List Component} {dot : Token}
    (h : Numbers vs cs) (hFew : cs.length ≤ n + 1) (hDot : dot.kind = .dot)
    (hEnd : Shorthand.nextIs .wildcard us = true) :
    ∃ ns, dotted stop n (vs ++ dot :: us) = .ok (ns, us) ∧ ns.values = cs := by
  induction h generalizing n with
  | @one t c hKind hValue =>
      have hNumeral : numeral stop ([t] ++ dot :: us) = .ok (⟨c, t⟩, dot :: us) :=
        numeral_eq_ok_iff.2 ⟨rfl, hKind, hValue⟩
      have hExpect : expect stop .dot (dot :: us) = .ok (dot, us) :=
        expect_eq_ok_iff.2 ⟨hDot, rfl⟩
      refine ⟨⟨⟨c, t⟩, []⟩, ?_, rfl⟩
      cases n with
      | zero =>
          simp only [dotted, hNumeral, hExpect, bind, Except.bind]
          rfl
      | succ n =>
          simp only [dotted, hNumeral, hExpect, bind, Except.bind, hEnd, if_true]
          rfl
  | @more t dot' c vs cs hKind hValue hDot' hRest ih =>
      have hNumeral : numeral stop (t :: dot' :: vs ++ dot :: us) =
          .ok (⟨c, t⟩, dot' :: vs ++ dot :: us) :=
        numeral_eq_ok_iff.2 ⟨rfl, hKind, hValue⟩
      have hExpect : expect stop .dot (dot' :: vs ++ dot :: us) =
          .ok (dot', vs ++ dot :: us) :=
        expect_eq_ok_iff.2 ⟨hDot', rfl⟩
      have hPos := List.length_pos_iff.2 hRest.ne_nil
      obtain ⟨m, rfl⟩ : ∃ m, n = m + 1 := ⟨n - 1, by simp only [List.length_cons] at hFew; omega⟩
      obtain ⟨ns, hDotted, hValues⟩ := ih (Nat.le_of_succ_le_succ hFew)
      have hGoesOn : Shorthand.nextIs .wildcard (vs ++ dot :: us) = false := by
        obtain ⟨u, ws, rfl, hNumeric⟩ := hRest.exists_cons
        simp [hNumeric]
      refine ⟨ns.cons ⟨c, t⟩, ?_, by simp [hValues]⟩
      simp only [dotted, hNumeral, hExpect, bind, Except.bind, hGoesOn, hDotted]
      rfl

end Atom

end Versioning.Range
