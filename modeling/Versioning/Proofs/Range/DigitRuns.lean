import Versioning.Proofs.Literal.Modes
import Versioning.Proofs.Range.Agreement
import Versioning.Proofs.Range.Shorthands
import Versioning.Proofs.Token.Cutting

/-!
# Reading digit runs

What the readers of numbers make of digit runs of which it is not known whether
they are small enough for a component. `Atom.numerals` goes on behind each dot,
`Atom.dotted` up to a wildcard, and the two are called with different limits; but
if the runs are few enough for the reader and followed by what ends it, both come
to the same (`Numerals.ofRuns`), and so does whatever is built from them. The first
run that is too large decides, wherever the reader stands.

## Main results

* `numerals_ofRuns`, `dotted_ofRuns` — the two readers on digit runs.
* `exists_first_oversize` — the run on which reading depends.
* `bandOfRuns_outcome` — the band of digit runs, or the run that keeps it from being one.
-/

namespace Versioning.Range

open Grammar Literal Outcome Text

variable {stop t dot : Token} {ts us : List Token} {position n : Nat} {r d : Run Char.isDigit}
  {rs before after : List (Run Char.isDigit)} {cs : List Component}

/-! ## Numerals of digit runs -/

/-- The numeral that a numeric token spells, if its text denotes a component. -/
def Numeral.ofToken (t : Token) : Except Error Numeral :=
  match Component.ofText? t.chars with
  | some c => .ok ⟨c, t⟩
  | none => .error (.outOfRange t)

/-- The numerals that digit runs spell, which stand from a position on with dots between them. -/
def Numerals.ofRuns (position : Nat) (r : Run Char.isDigit) :
    List (Run Char.isDigit) → Except Error Numerals
  | [] => (Numeral.ofToken ⟨.numeric, some r.chars, position⟩).map fun x => ⟨x, []⟩
  | s :: rs => do
    let x ← Numeral.ofToken ⟨.numeric, some r.chars, position⟩
    let ns ← ofRuns (position + r.chars.length + 1) s rs
    return ns.cons x

/-- The token of a digit run that stands behind others, each with a dot after it. -/
def numericAt (position : Nat) (before : List (Run Char.isDigit)) (d : Run Char.isDigit) : Token :=
  ⟨.numeric, some d.chars, position + (withDots (before.map Run.chars)).length⟩

theorem numericAt_cons :
    numericAt position (r :: before) d = numericAt (position + r.chars.length + 1) before d := by
  rw [numericAt, numericAt, List.map_cons, withDots_cons, List.length_append, List.length_cons]
  congr 1
  omega

namespace Atom

theorem numeral_cons (hKind : t.kind = .numeric) :
    numeral stop (t :: us) = (Numeral.ofToken t).map fun x => (x, us) := by
  have hExpect : expect stop .numeric (t :: us) = .ok (t, us) := expect_eq_ok_iff.2 ⟨hKind, rfl⟩
  unfold numeral Numeral.ofToken
  rw [hExpect]
  dsimp only [bind, Except.bind]
  cases Component.ofText? t.chars <;> rfl

/-- The last number is one that no dot follows. -/
theorem numerals_one (hKind : t.kind = .numeric) (hEnd : Shorthand.nextIs .dot us = false) :
    numerals stop n (t :: us) = (Numeral.ofToken t).map fun x => (⟨x, []⟩, us) := by
  have hFurther : further stop n us = .ok ([], us) := by
    cases n with
    | zero => rfl
    | succ n =>
        cases us with
        | nil => rfl
        | cons u us => rw [further, if_neg (by simpa using hEnd)]
  unfold numerals
  rw [numeral_cons hKind]
  cases Numeral.ofToken t with
  | error e => rfl
  | ok x =>
      dsimp only [Except.map, bind, Except.bind]
      rw [hFurther]
      rfl

theorem numerals_cons (hKind : t.kind = .numeric) (hDot : dot.kind = .dot) :
    numerals stop (n + 1) (t :: dot :: us) = Numeral.ofToken t >>= fun x =>
      (numerals stop n us).map fun y => (y.1.cons x, y.2) := by
  unfold numerals
  rw [numeral_cons hKind]
  cases Numeral.ofToken t with
  | error e => rfl
  | ok x =>
      dsimp only [Except.map, bind, Except.bind]
      rw [further, if_pos hDot]
      dsimp only [bind, Except.bind]
      cases numeral stop us with
      | error e => rfl
      | ok y =>
          dsimp only
          cases further stop n y.2 <;> rfl

/-- The last number is one whose dot a wildcard follows. -/
theorem dotted_one (hKind : t.kind = .numeric) (hDot : dot.kind = .dot)
    (hEnd : Shorthand.nextIs .wildcard us = true) :
    dotted stop n (t :: dot :: us) = (Numeral.ofToken t).map fun x => (⟨x, []⟩, us) := by
  have hExpect : expect stop .dot (dot :: us) = .ok (dot, us) := expect_eq_ok_iff.2 ⟨hDot, rfl⟩
  cases n with
  | zero =>
      rw [dotted, numeral_cons hKind]
      cases Numeral.ofToken t with
      | error e => rfl
      | ok x =>
          dsimp only [Except.map, bind, Except.bind]
          rw [hExpect]
          rfl
  | succ n =>
      rw [dotted, numeral_cons hKind]
      cases Numeral.ofToken t with
      | error e => rfl
      | ok x =>
          dsimp only [Except.map, bind, Except.bind]
          rw [hExpect]
          dsimp only
          rw [if_pos hEnd]
          rfl

theorem dotted_cons (hKind : t.kind = .numeric) (hDot : dot.kind = .dot)
    (hMore : Shorthand.nextIs .wildcard us = false) :
    dotted stop (n + 1) (t :: dot :: us) = Numeral.ofToken t >>= fun x =>
      (dotted stop n us).map fun y => (y.1.cons x, y.2) := by
  have hExpect : expect stop .dot (dot :: us) = .ok (dot, us) := expect_eq_ok_iff.2 ⟨hDot, rfl⟩
  rw [dotted, numeral_cons hKind]
  cases Numeral.ofToken t with
  | error e => rfl
  | ok x =>
      dsimp only [Except.map, bind, Except.bind]
      rw [hExpect]
      dsimp only
      rw [if_neg (by simp [hMore])]
      cases dotted stop n us <;> rfl

/-- Digit runs are read as numerals up to where no dot goes on. -/
theorem numerals_ofRuns (hFew : rs.length ≤ n) (hEnd : Shorthand.nextIs .dot us = false) :
    numerals stop n (Token.ofRuns position (r :: rs) ++ us) =
      (Numerals.ofRuns position r rs).map fun ns => (ns, us) := by
  induction rs generalizing position r n with
  | nil =>
      rw [Numerals.ofRuns, map_map]
      exact numerals_one rfl hEnd
  | cons s rs ih =>
      obtain ⟨n, rfl⟩ := Nat.exists_eq_add_of_le' (Nat.le_trans (Nat.succ_pos rs.length) hFew)
      rw [Token.ofRuns, List.cons_append, List.cons_append, numerals_cons rfl rfl,
        ih (Nat.le_of_succ_le_succ hFew), Numerals.ofRuns]
      cases Numeral.ofToken ⟨.numeric, some r.chars, position⟩ with
      | error e => rfl
      | ok x => cases Numerals.ofRuns (position + r.chars.length + 1) s rs <;> rfl

/-- Digit runs with a dot after each are read as numerals up to a wildcard. -/
theorem dotted_ofRuns (hFew : rs.length ≤ n) (hDot : dot.kind = .dot)
    (hEnd : Shorthand.nextIs .wildcard us = true) :
    dotted stop n (Token.ofRuns position (r :: rs) ++ dot :: us) =
      (Numerals.ofRuns position r rs).map fun ns => (ns, us) := by
  induction rs generalizing position r n with
  | nil =>
      rw [Numerals.ofRuns, map_map]
      exact dotted_one rfl hDot hEnd
  | cons s rs ih =>
      obtain ⟨n, rfl⟩ := Nat.exists_eq_add_of_le' (Nat.le_trans (Nat.succ_pos rs.length) hFew)
      have hMore : ∀ p, Shorthand.nextIs .wildcard (Token.ofRuns p (s :: rs) ++ dot :: us) =
          false := by
        intro p
        cases rs <;> rfl
      rw [Token.ofRuns, List.cons_append, List.cons_append, dotted_cons rfl rfl (hMore _),
        ih (Nat.le_of_succ_le_succ hFew), Numerals.ofRuns]
      cases Numeral.ofToken ⟨.numeric, some r.chars, position⟩ with
      | error e => rfl
      | ok x => cases Numerals.ofRuns (position + r.chars.length + 1) s rs <;> rfl

end Atom

/-! ## The run that decides -/

theorem exists_ofDigits? {ds : List Char} (hFit : Decimal.value ds ≤ Component.maximum) :
    ∃ c, Component.ofDigits? ds = some c := by
  refine Option.ne_none_iff_exists'.1 fun hNone => ?_
  exact absurd (Component.ofNat?_eq_none_iff.1 hNone) (Nat.not_lt.2 hFit)

/-- Digit runs that are all small enough denote components. -/
theorem exists_components (hFit : ∀ s ∈ rs, Decimal.value s.chars ≤ Component.maximum) :
    ∃ cs : List Component, rs.map (fun s => Component.ofDigits? s.chars) = cs.map some := by
  induction rs with
  | nil => exact ⟨[], rfl⟩
  | cons s rs ih =>
      obtain ⟨hFirst, hFit⟩ := List.forall_mem_cons.1 hFit
      obtain ⟨cs, hValues⟩ := ih hFit
      obtain ⟨c, hValue⟩ := exists_ofDigits? hFirst
      exact ⟨c :: cs, List.cons_eq_cons.2 ⟨hValue, hValues⟩⟩

theorem map_value_eq (hValues : rs.map (fun s => Component.ofDigits? s.chars) = cs.map some) :
    cs.map Component.value = rs.map fun s => Decimal.value s.chars := by
  induction rs generalizing cs with
  | nil => rw [List.map_eq_nil_iff.1 hValues.symm, List.map_nil, List.map_nil]
  | cons s rs ih =>
      cases cs with
      | nil => cases hValues
      | cons c cs =>
          obtain ⟨hFirst, hRest⟩ := List.cons_eq_cons.1 hValues
          rw [List.map_cons, List.map_cons, ih hRest, Component.ofNat?_eq_some_iff.1 hFirst]

/-- Digit runs are all small enough, or there is a first one that is not. -/
theorem exists_first_oversize (rs : List (Run Char.isDigit)) :
    (∀ s ∈ rs, Decimal.value s.chars ≤ Component.maximum) ∨
      ∃ before d after, rs = before ++ d :: after ∧
        (∀ s ∈ before, Decimal.value s.chars ≤ Component.maximum) ∧
        Component.maximum < Decimal.value d.chars := by
  induction rs with
  | nil => exact .inl fun s hMem => nomatch hMem
  | cons s rs ih =>
      by_cases hLarge : Component.maximum < Decimal.value s.chars
      · exact .inr ⟨[], s, rs, rfl, List.forall_mem_nil _, hLarge⟩
      have hFirst := Nat.le_of_not_lt hLarge
      rcases ih with hFit | ⟨before, d, after, rfl, hBefore, hLarge⟩
      · exact .inl (List.forall_mem_cons.2 ⟨hFirst, hFit⟩)
      · exact .inr ⟨s :: before, d, after, rfl, List.forall_mem_cons.2 ⟨hFirst, hBefore⟩, hLarge⟩

/-- A digit run is too large for a component or denotes one. -/
theorem Numeral.ofToken_run (r : Run Char.isDigit) (position : Nat) :
    Numeral.ofToken ⟨.numeric, some r.chars, position⟩ =
      match Component.ofDigits? r.chars with
      | some c => .ok ⟨c, ⟨.numeric, some r.chars, position⟩⟩
      | none => .error (.outOfRange ⟨.numeric, some r.chars, position⟩) := by
  rw [← Component.ofText?_chars]
  rfl

theorem Numeral.ofToken_of_value {c : Component} (position : Nat)
    (h : Component.ofDigits? r.chars = some c) :
    Numeral.ofToken ⟨.numeric, some r.chars, position⟩ =
      .ok ⟨c, ⟨.numeric, some r.chars, position⟩⟩ := by
  rw [ofToken_run, h]

theorem Numeral.ofToken_of_oversize (position : Nat)
    (h : Component.maximum < Decimal.value r.chars) :
    Numeral.ofToken ⟨.numeric, some r.chars, position⟩ =
      .error (.outOfRange ⟨.numeric, some r.chars, position⟩) := by
  rw [ofToken_run, Component.ofDigits?, Component.ofNat?_eq_none_iff.2 h]

namespace Numerals

theorem last_cons (x : Numeral) (ns : Numerals) : (ns.cons x).last = ns.last := by
  simp [last, cons, toList, List.getLast?_cons]

/-- Runs that denote components are read as numerals of these, the last one from the token of the
last run. -/
theorem ofRuns_of_values (position : Nat)
    (hValues : (r :: rs).map (fun s => Component.ofDigits? s.chars) = cs.map some) :
    ∃ ns, ofRuns position r rs = .ok ns ∧ ns.values = cs ∧
      ∀ before d, r :: rs = before ++ [d] → ns.last.token = numericAt position before d := by
  obtain ⟨c, cs, rfl⟩ : ∃ c cs', cs = c :: cs' := by
    cases cs with
    | nil => cases hValues
    | cons c cs => exact ⟨c, cs, rfl⟩
  obtain ⟨hFirst, hRest⟩ := List.cons_eq_cons.1 hValues
  have hRead := Numeral.ofToken_of_value position hFirst
  induction rs generalizing position r c cs with
  | nil =>
      obtain rfl : cs = [] := List.map_eq_nil_iff.1 hRest.symm
      refine ⟨⟨⟨c, ⟨.numeric, some r.chars, position⟩⟩, []⟩, ?_, rfl, ?_⟩
      · rw [ofRuns, hRead]
        rfl
      · intro before d hSplit
        cases before with
        | nil =>
            cases hSplit
            rfl
        | cons s before => exact absurd (List.cons_eq_cons.1 hSplit).2 (by simp)
  | cons s rs ih =>
      cases cs with
      | nil => cases hRest
      | cons e cs =>
          obtain ⟨hNext, hMore⟩ := List.cons_eq_cons.1 hRest
          obtain ⟨ns, hRuns, hValues, hLast⟩ := ih (position + r.chars.length + 1) e cs hRest hNext
            hMore (Numeral.ofToken_of_value _ hNext)
          refine ⟨ns.cons ⟨c, ⟨.numeric, some r.chars, position⟩⟩, ?_, ?_, ?_⟩
          · rw [ofRuns, hRead, hRuns]
            rfl
          · rw [values_cons, hValues]
          · intro before d hSplit
            cases before with
            | nil => exact absurd (List.cons_eq_cons.1 hSplit).2 (by simp)
            | cons t before =>
                obtain ⟨rfl, hBehind⟩ := List.cons_eq_cons.1 hSplit
                rw [last_cons, hLast before d hBehind, numericAt_cons]

/-- The first run that is too large keeps the runs from being read. -/
theorem ofRuns_of_oversize (hSplit : r :: rs = before ++ d :: after)
    (hBefore : ∀ s ∈ before, Decimal.value s.chars ≤ Component.maximum)
    (hLarge : Component.maximum < Decimal.value d.chars) :
    ofRuns position r rs = .error (.outOfRange (numericAt position before d)) := by
  induction before generalizing position r rs with
  | nil =>
      obtain ⟨rfl, rfl⟩ := List.cons_eq_cons.1 hSplit
      have hRead := Numeral.ofToken_of_oversize position hLarge
      cases rs with
      | nil =>
          rw [ofRuns, hRead]
          rfl
      | cons s rs =>
          rw [ofRuns, hRead]
          rfl
  | cons s before ih =>
      obtain ⟨rfl, hBehind⟩ := List.cons_eq_cons.1 hSplit
      obtain ⟨hFirst, hBefore⟩ := List.forall_mem_cons.1 hBefore
      obtain ⟨c, hValue⟩ := exists_ofDigits? hFirst
      have hRead := Numeral.ofToken_of_value position hValue
      cases rs with
      | nil => exact absurd hBehind (by simp)
      | cons s rs =>
          rw [ofRuns, hRead, numericAt_cons, ← ih hBehind hBefore]
          dsimp only [bind, Except.bind]
          rw [ih hBehind hBefore]

end Numerals

/-! ## Bands of digit runs -/

/-- The band that digit runs spell: the last of them may not change. -/
def bandOfRuns (position : Nat) (r : Run Char.isDigit) (rs : List (Run Char.isDigit)) :
    Except Error Range :=
  Numerals.ofRuns position r rs >>= bandAtLast

/-- The last of the components is that of the last run. -/
theorem exists_last_component
    (hValues : (before ++ [d]).map (fun s => Component.ofDigits? s.chars) = cs.map some) :
    ∃ values c, cs = values ++ [c] ∧ values.length = before.length ∧
      c.value = Decimal.value d.chars := by
  rw [List.map_append] at hValues
  obtain ⟨values, last, rfl, hBefore, hLast⟩ := List.map_eq_append_iff.1 hValues.symm
  obtain ⟨c, rfl, hDigits⟩ := List.map_eq_singleton_iff.1 hLast
  refine ⟨values, c, rfl, ?_, Component.ofNat?_eq_some_iff.1 hDigits.symm⟩
  simpa using congrArg List.length hBefore

/-- **The verdict on digit runs**: they spell a band, or one of them is to blame, which is too
large or has to be increased and cannot be. -/
theorem bandOfRuns_outcome (hFew : rs.length ≤ 3) :
    (∃ q, ∀ position, bandOfRuns position r rs = .ok q) ∨
      ∃ before d after, r :: rs = before ++ d :: after ∧
        Component.maximum ≤ Decimal.value d.chars ∧
        ∀ position, bandOfRuns position r rs = .error (.outOfRange (numericAt position before d)) := by
  rcases exists_first_oversize (r :: rs) with hFit | ⟨before, d, after, hSplit, hBefore, hLarge⟩
  · obtain ⟨cs, hValues⟩ := exists_components hFit
    have hRead := fun position => Numerals.ofRuns_of_values position hValues
    obtain ⟨before, d, hSplit⟩ : ∃ before d, r :: rs = before ++ [d] :=
      ⟨_, _, (List.dropLast_concat_getLast (List.cons_ne_nil r rs)).symm⟩
    rw [hSplit] at hValues
    obtain ⟨values, c, rfl, hLength, hLast⟩ := exists_last_component hValues
    have hShort : values.length ≤ 3 := by
      have hCount := congrArg List.length hSplit
      rw [List.length_cons, List.length_append, List.length_singleton] at hCount
      omega
    rcases Nat.lt_or_eq_of_le c.le_maximum with hLess | hMaximum
    · have hNext : (⟨c.value + 1, hLess⟩ : Component).value = c.value + 1 := rfl
      obtain ⟨q, hBand⟩ : ∃ q, Band values c [] q := ⟨_, .upTo hNext⟩
      refine .inl ⟨q, fun position => ?_⟩
      obtain ⟨ns, hRuns, hNumerals, -⟩ := hRead position
      rw [bandOfRuns, hRuns]
      exact (bandAtLast_eq_ok_iff hNumerals hShort).2 hBand
    · refine .inr ⟨before, d, [], hSplit, Nat.le_of_eq (hMaximum.symm.trans hLast), ?_⟩
      intro position
      obtain ⟨ns, hRuns, hNumerals, hToken⟩ := hRead position
      rw [bandOfRuns, hRuns, ← hToken before d hSplit]
      exact (bandAtLast_eq_error_iff hNumerals hShort).2 ⟨hMaximum, rfl⟩
  · refine .inr ⟨before, d, after, hSplit, Nat.le_of_lt hLarge, fun position => ?_⟩
    rw [bandOfRuns, Numerals.ofRuns_of_oversize hSplit hBefore hLarge]
    rfl

/-! ## The tokens of digit runs -/

theorem ofRuns_starts (position : Nat) (r : Run Char.isDigit) (rs : List (Run Char.isDigit)) :
    ∃ t us, Token.ofRuns position (r :: rs) = t :: us ∧ t.kind = .numeric := by
  cases rs with
  | nil => exact ⟨_, _, rfl, rfl⟩
  | cons s rs => exact ⟨_, _, rfl, rfl⟩

theorem ofRuns_ends (position : Nat) (r : Run Char.isDigit) (rs : List (Run Char.isDigit)) :
    ∃ us t, Token.ofRuns position (r :: rs) = us ++ [t] ∧ t.kind = .numeric := by
  induction rs generalizing position r with
  | nil => exact ⟨[], _, rfl, rfl⟩
  | cons s rs ih =>
      obtain ⟨us, t, hEnd, hKind⟩ := ih (position + r.chars.length + 1) s
      exact ⟨_ :: _ :: us, t, by rw [Token.ofRuns, hEnd]; rfl, hKind⟩

theorem cuts_dotted : Token.Cuts position (Token.dotted (r :: rs))
    (Token.ofRuns position (r :: rs)) :=
  Token.scan_eq_ok_iff.1 (Token.scan_dotted_nil (List.cons_ne_nil r rs))

/-! ## Atoms of digit runs -/

/-- The kinds of the tokens tell how many runs there are. -/
theorem kinds_ofRuns : ∀ {rs ss : List (Run Char.isDigit)} (p q : Nat), rs.length = ss.length →
    (Token.ofRuns p rs).map Token.kind = (Token.ofRuns q ss).map Token.kind
  | [], [], _, _, _ => rfl
  | [_], [_], _, _, _ => rfl
  | _ :: _ :: _, _ :: _ :: _, _, _, hLength => by
      rw [Token.ofRuns, Token.ofRuns]
      simp only [List.map_cons]
      rw [kinds_ofRuns _ _ (Nat.succ.inj hLength)]

/-- Whether the runs are small enough makes no difference to the choice of a form: it is that of
as many zeros. -/
theorem exists_numbers_select? (position : Nat) (r : Run Char.isDigit)
    (rs : List (Run Char.isDigit)) : ∃ vs cs, Numbers vs cs ∧ cs.length = rs.length + 1 ∧
      ∀ us, Shorthand.select? (Token.ofRuns position (r :: rs) ++ us) =
        Shorthand.select? (vs ++ us) := by
  have hNe : List.replicate (rs.length + 1) (0 : Component) ≠ [] := by simp
  have hNumbers : Numbers (Token.ofRuns position _) _ := numbers_dotted hNe
  refine ⟨_, _, hNumbers, List.length_replicate, fun us => select?_congr ?_⟩
  rw [List.map_append, List.map_append, kinds_ofRuns position position]
  simp

theorem select?_ofRuns (hFollows : Follows us) :
    Shorthand.select? (Token.ofRuns position (r :: rs) ++ us) =
      if rs.length ≤ 1 then some .partialVersion else none := by
  obtain ⟨vs, cs, hNumbers, hLength, hSelect⟩ := exists_numbers_select? position r rs
  rw [hSelect, Shorthand.select?_of_numbers hNumbers hFollows, hLength]
  simp only [Nat.succ_le_succ_iff]

namespace Atom

theorem operand_ofRuns (hFew : rs.length ≤ 3) (hEnd : Shorthand.nextIs .dot us = false) :
    operand stop (Token.ofRuns position (r :: rs) ++ us) =
      (Numerals.ofRuns position r rs).map fun ns => (ns.core, us) := by
  unfold operand
  rw [numerals_ofRuns hFew hEnd]
  cases Numerals.ofRuns position r rs <;> rfl

/-- A tilde before digit runs. -/
theorem read_tilde_ofRuns {mark : Token} (hMark : mark.kind = .tilde) (hFew : rs.length ≤ 3)
    (hFollows : Follows us) :
    read stop (Shorthand.select? (mark :: (Token.ofRuns position (r :: rs) ++ us)))
        (mark :: (Token.ofRuns position (r :: rs) ++ us)) =
      (bandOfRuns position r rs).map fun q => (q, us) := by
  have hForm : ∀ vs, Shorthand.select? (mark :: vs) = some .tilde := by
    simp [Shorthand.select?, hMark]
  have hExpect : ∀ vs, expect stop .tilde (mark :: vs) = .ok (mark, vs) := fun vs =>
    expect_eq_ok_iff.2 ⟨hMark, rfl⟩
  rw [hForm]
  show tilde stop _ = _
  unfold tilde bandOfRuns
  rw [hExpect]
  dsimp only [bind, Except.bind]
  rw [numerals_ofRuns hFew hFollows.nextIs_dot]
  cases Numerals.ofRuns position r rs with
  | error e => rfl
  | ok ns =>
      dsimp only [Except.map]
      cases bandAtLast ns <;> rfl

/-- A dot and a star behind digit runs. -/
theorem read_wildcard_ofRuns {star : Token} (hDot : dot.kind = .dot)
    (hStar : star.kind = .wildcard) (hFew : rs.length ≤ 2) :
    read stop (Shorthand.select? (Token.ofRuns position (r :: rs) ++ dot :: star :: us))
        (Token.ofRuns position (r :: rs) ++ dot :: star :: us) =
      (bandOfRuns position r rs).map fun q => (q, us) := by
  have hForm : Shorthand.select? (Token.ofRuns position (r :: rs) ++ dot :: star :: us) =
      some .wildcard := by
    obtain ⟨vs, cs, hNumbers, -, hSelect⟩ := exists_numbers_select? position r rs
    rw [hSelect]
    refine (Shorthand.select?_append hNumbers).1 ?_
    simp [Shorthand.kindAfterVersion?, hDot, hStar, Kind.inVersion]
  have hStart : Shorthand.nextIs .wildcard
      (Token.ofRuns position (r :: rs) ++ dot :: star :: us) = false := by
    cases rs <;> rfl
  have hExpect : expect stop .wildcard (star :: us) = .ok (star, us) :=
    expect_eq_ok_iff.2 ⟨hStar, rfl⟩
  rw [hForm]
  show wildcard stop _ = _
  unfold wildcard bandOfRuns
  rw [if_neg (by simp [hStart]), dotted_ofRuns hFew hDot (by simp [hStar])]
  cases Numerals.ofRuns position r rs with
  | error e => rfl
  | ok ns =>
      dsimp only [Except.map, bind, Except.bind]
      rw [hExpect]
      dsimp only
      cases bandAtLast ns <;> rfl

/-- One or two digit runs alone. -/
theorem read_partial_ofRuns (hFew : rs.length ≤ 1) (hFollows : Follows us) :
    read stop (Shorthand.select? (Token.ofRuns position (r :: rs) ++ us))
        (Token.ofRuns position (r :: rs) ++ us) =
      (bandOfRuns position r rs).map fun q => (q, us) := by
  rw [select?_ofRuns hFollows, if_pos hFew]
  show partialVersion stop _ = _
  unfold partialVersion bandOfRuns
  rw [numerals_ofRuns hFew hFollows.nextIs_dot]
  cases Numerals.ofRuns position r rs with
  | error e => rfl
  | ok ns =>
      dsimp only [Except.map, bind, Except.bind]
      cases bandAtLast ns <;> rfl

/-- Three or four digit runs alone. -/
theorem read_plain_ofRuns (hMany : 2 ≤ rs.length) (hFew : rs.length ≤ 3)
    (hFollows : Follows us) :
    read stop (Shorthand.select? (Token.ofRuns position (r :: rs) ++ us))
        (Token.ofRuns position (r :: rs) ++ us) =
      (Numerals.ofRuns position r rs).map fun ns => (.comparison .eq ns.core, us) := by
  have hHead : ((Token.ofRuns position (r :: rs) ++ us).head?.bind fun t =>
      Operator.ofKind? t.kind) = none := by
    obtain ⟨t, ws, hStart, hKind⟩ := ofRuns_starts position r rs
    simp [hStart, hKind, Operator.ofKind?]
  rw [select?_ofRuns hFollows, if_neg (Nat.not_le.2 hMany)]
  show comparison stop _ = _
  unfold comparison
  rw [hHead, operand_ofRuns hFew hFollows.nextIs_dot]
  cases Numerals.ofRuns position r rs <;> rfl

/-- An operator before digit runs. -/
theorem read_comparison_ofRuns {mark : Token} {op : Operator}
    (hMark : Operator.ofKind? mark.kind = some op) (hFew : rs.length ≤ 3)
    (hFollows : Follows us) :
    read stop (Shorthand.select? (mark :: (Token.ofRuns position (r :: rs) ++ us)))
        (mark :: (Token.ofRuns position (r :: rs) ++ us)) =
      (Numerals.ofRuns position r rs).map fun ns => (.comparison op ns.core, us) := by
  rw [Shorthand.select?_of_operator hMark]
  show comparison stop _ = _
  unfold comparison
  rw [List.head?_cons, Option.bind_some, hMark]
  dsimp only
  rw [List.tail_cons, operand_ofRuns hFew hFollows.nextIs_dot]
  cases Numerals.ofRuns position r rs <;> rfl

end Atom

end Versioning.Range
