import Versioning.Proofs.Range.Bands

/-!
# Reading atoms

The readers of atoms accept what `Grammar.Atom` describes. Which reader is
called is decided by looking ahead, past the end of the atom; that this does no
harm depends on what may stand there. In an expression it is a connective, a
closing parenthesis or the end (`Follows`), and after numbers these leave the
choice to the numbers alone (`select?_of_numbers`).

## Main results

* `read_append` — an atom in front of what may follow one is read as what it spells.
* `atom_of_read` — what is read in front of what may follow an atom is an atom.

Without the condition the second is false: of `1 2 3 4 5` the first number is
read as a comparison, since the scan for the end of a version takes all five for
one that is not partial.
-/

namespace Versioning.Range

open Grammar Outcome

/-- What may stand after an atom of an expression. -/
def Follows (ts : List Token) : Prop :=
  ∀ t ∈ ts.head?, t.kind = .and ∨ t.kind = .or ∨ t.kind = .rightParen

@[simp] theorem follows_cons {t : Token} {ts : List Token} :
    Follows (t :: ts) ↔ t.kind = .and ∨ t.kind = .or ∨ t.kind = .rightParen := by
  simp [Follows]

theorem Follows.nextIs_dot {ts : List Token} (h : Follows ts) :
    Shorthand.nextIs .dot ts = false := by
  cases ts with
  | nil => rfl
  | cons t ts =>
      rcases follows_cons.1 h with hKind | hKind | hKind <;> simp [hKind]

/-- What follows an atom is no part of a version. -/
theorem Follows.takeWhile_inVersion {ts : List Token} (h : Follows ts) :
    (ts.takeWhile fun t => t.kind.inVersion) = [] := by
  cases ts with
  | nil => rfl
  | cons t ts =>
      rcases follows_cons.1 h with hKind | hKind | hKind <;>
        simp [hKind, Kind.inVersion]

/-- Neither a wildcard nor a hyphen follows an atom. -/
theorem Follows.kindAfterVersion?_ne {ts : List Token} (h : Follows ts) :
    Shorthand.kindAfterVersion? ts ≠ some .wildcard ∧
      Shorthand.kindAfterVersion? ts ≠ some .hyphen := by
  cases ts with
  | nil => simp [Shorthand.kindAfterVersion?]
  | cons t ts =>
      rcases follows_cons.1 h with hKind | hKind | hKind <;>
        simp [Shorthand.kindAfterVersion?, hKind, Kind.inVersion]

namespace Shorthand

variable {vs us : List Token} {cs : List Component}

/-- The scan for the end of a version passes over numbers. -/
theorem kindAfterVersion?_append (h : Numbers vs cs) :
    kindAfterVersion? (vs ++ us) = kindAfterVersion? us := by
  have hNone : (vs.find? fun t => !t.kind.inVersion) = none := by
    refine List.find?_eq_none.2 fun t hMem => ?_
    simp [h.inVersion t hMem]
  simp [kindAfterVersion?, List.find?_append, hNone]

/-- What the scan finds after numbers decides between a wildcard range and a hyphen range. -/
theorem select?_append (h : Numbers vs cs) :
    (kindAfterVersion? us = some .wildcard → select? (vs ++ us) = some .wildcard) ∧
      (kindAfterVersion? us = some .hyphen → select? (vs ++ us) = some .hyphen) := by
  rw [← kindAfterVersion?_append h]
  obtain ⟨u, ws, rfl, hKind⟩ := h.exists_cons
  rw [List.cons_append]
  constructor <;> intro hAfter <;> simp [select?, hAfter, hKind]

/-- **Looking ahead is harmless**: where numbers end as an atom may, there is a partial version
if they are one or two, and a comparison otherwise. -/
theorem select?_of_numbers (h : Numbers vs cs) (hFollows : Follows us) :
    select? (vs ++ us) = if cs.length ≤ 2 then some .partialVersion else none := by
  have hAfter := hFollows.kindAfterVersion?_ne
  rw [← kindAfterVersion?_append h] at hAfter
  have hRun : ((vs ++ us).takeWhile fun t => t.kind.inVersion) = vs := by
    rw [List.takeWhile_append_of_pos h.inVersion, hFollows.takeWhile_inVersion, List.append_nil]
  have hWindow : vs.length < partialWindow ↔ cs.length ≤ 2 := by
    have hLength := h.length_eq
    unfold partialWindow
    omega
  obtain ⟨u, ws, rfl, hKind⟩ := h.exists_cons
  rw [List.cons_append] at hAfter hRun ⊢
  rw [List.length_cons] at hWindow
  simp [select?, hKind, hAfter, hRun, hWindow]

/-- An operator is no shorthand. -/
theorem select?_of_operator {t : Token} {op : Operator}
    (h : Operator.ofKind? t.kind = some op) : select? (t :: us) = none := by
  cases hKind : t.kind <;> simp_all [select?, kindAfterVersion?, Kind.inVersion, Operator.ofKind?]

end Shorthand

namespace Atom

variable {stop : Token} {ts us vs : List Token} {r : Range}

theorem operand_append {cs : List Component} (h : Numbers vs cs) (hFew : cs.length ≤ 4)
    (hEnd : Shorthand.nextIs .dot us = false) :
    operand stop (vs ++ us) = .ok (Core.padded cs, us) := by
  obtain ⟨ns, hNumerals, rfl⟩ := numerals_append stop h hFew hEnd
  unfold operand
  rw [hNumerals]
  rfl

theorem numbers_of_operand {c : Core} (h : operand stop ts = .ok (c, us)) :
    ∃ vs cs, ts = vs ++ us ∧ Numbers vs cs ∧ cs.length ≤ 4 ∧ c = Core.padded cs := by
  obtain ⟨⟨ns, ws⟩, hNumerals, h⟩ := bind_eq_ok_iff.1 h
  cases h
  obtain ⟨hLength, vs, hSplit, hNumbers⟩ := numbers_of_numerals hNumerals
  exact ⟨vs, ns.values, hSplit, hNumbers, hLength, rfl⟩

/-! ## Every atom is read

Each reader is called at the mark or the numbers with which its atom starts.
-/

theorem tilde_append {mark : Token} {before : List Component} {c : Component}
    (hMark : mark.kind = .tilde) (hNumbers : Numbers vs (before ++ [c]))
    (hFew : before.length ≤ 3) (hBand : Band before c [] r)
    (hEnd : Shorthand.nextIs .dot us = false) : tilde stop (mark :: (vs ++ us)) = .ok (r, us) := by
  have hExpect : expect stop .tilde (mark :: (vs ++ us)) = .ok (mark, vs ++ us) :=
    expect_eq_ok_iff.2 ⟨hMark, rfl⟩
  obtain ⟨ns, hNumerals, hValues⟩ :=
    numerals_append stop (n := 3) hNumbers (length_concat_le_iff.2 hFew) hEnd
  have hMade := (bandAtLast_eq_ok_iff hValues hFew).2 hBand
  exact bind_eq_ok_iff.2 ⟨_, hExpect, bind_eq_ok_iff.2 ⟨_, hNumerals,
    bind_eq_ok_iff.2 ⟨_, hMade, rfl⟩⟩⟩

/-- A caret range is read as whatever its numerals make. -/
theorem caret_append {mark : Token} {cs : List Component} (hMark : mark.kind = .caret)
    (hNumbers : Numbers vs cs) (hFew : cs.length ≤ 4)
    (hMade : ∀ ns : Numerals, ns.values = cs → bandAtFirstNonzero ns = .ok r)
    (hEnd : Shorthand.nextIs .dot us = false) : caret stop (mark :: (vs ++ us)) = .ok (r, us) := by
  have hExpect : expect stop .caret (mark :: (vs ++ us)) = .ok (mark, vs ++ us) :=
    expect_eq_ok_iff.2 ⟨hMark, rfl⟩
  obtain ⟨ns, hNumerals, hValues⟩ :=
    numerals_append stop (n := 3) hNumbers hFew hEnd
  exact bind_eq_ok_iff.2 ⟨_, hExpect, bind_eq_ok_iff.2 ⟨_, hNumerals,
    bind_eq_ok_iff.2 ⟨_, hMade ns hValues, rfl⟩⟩⟩

theorem wildcard_cons {star : Token} (hStar : star.kind = .wildcard) :
    wildcard stop (star :: us) = .ok (.comparison .ge ({} : Core), us) := by
  have hNext : Shorthand.nextIs .wildcard (star :: us) = true := by simp [hStar]
  have hExpect : expect stop .wildcard (star :: us) = .ok (star, us) :=
    expect_eq_ok_iff.2 ⟨hStar, rfl⟩
  unfold wildcard
  rw [if_pos hNext]
  exact bind_eq_ok_iff.2 ⟨_, hExpect, rfl⟩

theorem wildcard_append {dot star : Token} {before : List Component} {c : Component}
    (hNumbers : Numbers vs (before ++ [c])) (hFew : before.length ≤ 2) (hDot : dot.kind = .dot)
    (hStar : star.kind = .wildcard) (hBand : Band before c [] r) :
    wildcard stop (vs ++ dot :: star :: us) = .ok (r, us) := by
  have hNext : Shorthand.nextIs .wildcard (vs ++ dot :: star :: us) = false := by
    obtain ⟨t, ws, rfl, hKind⟩ := hNumbers.exists_cons
    simp [hKind]
  have hEnd : Shorthand.nextIs .wildcard (star :: us) = true := by simp [hStar]
  obtain ⟨ns, hDotted, hValues⟩ :=
    dotted_append stop (n := 2) hNumbers (length_concat_le_iff.2 hFew) hDot hEnd
  have hExpect : expect stop .wildcard (star :: us) = .ok (star, us) :=
    expect_eq_ok_iff.2 ⟨hStar, rfl⟩
  have hMade := (bandAtLast_eq_ok_iff hValues (by omega)).2 hBand
  unfold wildcard
  rw [if_neg (by simp [hNext])]
  exact bind_eq_ok_iff.2 ⟨_, hDotted, bind_eq_ok_iff.2 ⟨_, hExpect,
    bind_eq_ok_iff.2 ⟨_, hMade, rfl⟩⟩⟩

theorem hyphen_append {mark : Token} {ws : List Token} {lower upper : List Component}
    (hLower : Numbers vs lower) (hLowerFew : lower.length ≤ 4) (hMark : mark.kind = .hyphen)
    (hUpper : Numbers ws upper) (hUpperFew : upper.length ≤ 4)
    (hEnd : Shorthand.nextIs .dot us = false) :
    hyphen stop (vs ++ mark :: (ws ++ us)) =
      .ok (.and (.comparison .ge (Core.padded lower)) (.comparison .le (Core.padded upper)),
        us) := by
  have hFirst : operand stop (vs ++ mark :: (ws ++ us)) =
      .ok (Core.padded lower, mark :: (ws ++ us)) :=
    operand_append hLower hLowerFew (by simp [hMark])
  have hExpect : expect stop .hyphen (mark :: (ws ++ us)) = .ok (mark, ws ++ us) :=
    expect_eq_ok_iff.2 ⟨hMark, rfl⟩
  have hSecond : operand stop (ws ++ us) = .ok (Core.padded upper, us) :=
    operand_append hUpper hUpperFew hEnd
  exact bind_eq_ok_iff.2 ⟨_, hFirst, bind_eq_ok_iff.2 ⟨_, hExpect,
    bind_eq_ok_iff.2 ⟨_, hSecond, rfl⟩⟩⟩

theorem partialVersion_append {before : List Component} {c : Component}
    (hNumbers : Numbers vs (before ++ [c])) (hFew : before.length ≤ 1)
    (hBand : Band before c [] r) (hEnd : Shorthand.nextIs .dot us = false) :
    partialVersion stop (vs ++ us) = .ok (r, us) := by
  obtain ⟨ns, hNumerals, hValues⟩ :=
    numerals_append stop (n := 1) hNumbers (length_concat_le_iff.2 hFew) hEnd
  have hMade := (bandAtLast_eq_ok_iff hValues (by omega)).2 hBand
  exact bind_eq_ok_iff.2 ⟨_, hNumerals, bind_eq_ok_iff.2 ⟨_, hMade, rfl⟩⟩

theorem comparison_cons {mark : Token} {op : Operator} {cs : List Component}
    (hMark : Operator.ofKind? mark.kind = some op) (hNumbers : Numbers vs cs)
    (hFew : cs.length ≤ 4) (hEnd : Shorthand.nextIs .dot us = false) :
    comparison stop (mark :: (vs ++ us)) = .ok (.comparison op (Core.padded cs), us) := by
  have hHead : ((mark :: (vs ++ us)).head?.bind fun t => Operator.ofKind? t.kind) = some op := hMark
  unfold comparison
  rw [hHead]
  exact bind_eq_ok_iff.2 ⟨_, operand_append hNumbers hFew hEnd, rfl⟩

theorem comparison_append {cs : List Component} (hNumbers : Numbers vs cs)
    (hFew : cs.length ≤ 4) (hEnd : Shorthand.nextIs .dot us = false) :
    comparison stop (vs ++ us) = .ok (.comparison .eq (Core.padded cs), us) := by
  have hHead : ((vs ++ us).head?.bind fun t => Operator.ofKind? t.kind) = none := by
    obtain ⟨t, ws, rfl, hKind⟩ := hNumbers.exists_cons
    simp [hKind, Operator.ofKind?]
  unfold comparison
  rw [hHead]
  exact bind_eq_ok_iff.2 ⟨_, operand_append hNumbers hFew hEnd, rfl⟩

/-- An atom in front of what may follow one is read as what it spells. -/
theorem read_append (h : Grammar.Atom vs r) (hFollows : Follows us) :
    read stop (Shorthand.select? (vs ++ us)) (vs ++ us) = .ok (r, us) := by
  have hEnd := hFollows.nextIs_dot
  cases h with
  | @tilde mark ts before c r hMark hNumbers hFew hBand =>
      have hForm : Shorthand.select? (mark :: ts ++ us) = some .tilde := by
        simp [Shorthand.select?, hMark]
      rw [hForm]
      exact tilde_append hMark hNumbers hFew hBand hEnd
  | @caret mark ts zeros after c r hMark hNumbers hFew hZeros hNonzero hBand =>
      have hForm : Shorthand.select? (mark :: ts ++ us) = some .caret := by
        simp [Shorthand.select?, hMark]
      have hIndex : zeros.length ≤ 3 := by
        simp only [List.length_append, List.length_cons] at hFew
        omega
      rw [hForm]
      refine caret_append hMark hNumbers hFew (fun ns hValues => ?_) hEnd
      exact (bandAtFirstNonzero_eq_ok_iff hValues hZeros hNonzero hIndex).2 hBand
  | @caretZero mark ts zeros hMark hNumbers hFew hZeros =>
      have hForm : Shorthand.select? (mark :: ts ++ us) = some .caret := by
        simp [Shorthand.select?, hMark]
      rw [hForm]
      refine caret_append hMark hNumbers hFew (fun ns hValues => ?_) hEnd
      exact bandAtFirstNonzero_of_zeros (hValues ▸ hZeros)
  | @any star hStar =>
      have hForm : Shorthand.select? ([star] ++ us) = some .wildcard := by
        simp [Shorthand.select?, Shorthand.kindAfterVersion?, Kind.inVersion, hStar]
      rw [hForm]
      exact wildcard_cons hStar
  | @wildcard dot star ts before c r hNumbers hFew hDot hStar hBand =>
      have hForm : Shorthand.select? (ts ++ dot :: star :: us) = some .wildcard := by
        refine (Shorthand.select?_append hNumbers).1 ?_
        simp [Shorthand.kindAfterVersion?, hDot, hStar, Kind.inVersion]
      rw [List.append_assoc, List.cons_append, List.singleton_append, hForm]
      exact wildcard_append hNumbers hFew hDot hStar hBand
  | @hyphen mark ts ws lower upper hLower hLowerFew hMark hUpper hUpperFew =>
      have hForm : Shorthand.select? (ts ++ mark :: (ws ++ us)) = some .hyphen := by
        refine (Shorthand.select?_append hLower).2 ?_
        simp [Shorthand.kindAfterVersion?, hMark, Kind.inVersion]
      rw [List.append_assoc, List.cons_append, hForm]
      exact hyphen_append hLower hLowerFew hMark hUpper hUpperFew hEnd
  | partialVersion hNumbers hFew hBand =>
      rw [Shorthand.select?_of_numbers hNumbers hFollows, if_pos (length_concat_le_iff.2 hFew)]
      exact partialVersion_append hNumbers hFew hBand hEnd
  | plain hNumbers hMany hFew =>
      rw [Shorthand.select?_of_numbers hNumbers hFollows, if_neg (by omega)]
      exact comparison_append hNumbers hFew hEnd
  | @comparison mark op ts cs hMark hNumbers hFew =>
      rw [List.cons_append, Shorthand.select?_of_operator hMark]
      exact comparison_cons hMark hNumbers hFew hEnd

/-! ## Every reading is of an atom -/

theorem atom_of_tilde (h : tilde stop ts = .ok (r, us)) :
    ∃ vs, ts = vs ++ us ∧ Grammar.Atom vs r := by
  obtain ⟨⟨mark, ws⟩, hExpect, h⟩ := bind_eq_ok_iff.1 h
  obtain ⟨⟨ns, ws'⟩, hNumerals, h⟩ := bind_eq_ok_iff.1 h
  obtain ⟨r', hMade, h⟩ := bind_eq_ok_iff.1 h
  cases h
  obtain ⟨hMark, rfl⟩ := expect_eq_ok_iff.1 hExpect
  obtain ⟨hLength, vs, hSplit, hNumbers⟩ := numbers_of_numerals hNumerals
  obtain ⟨before, c, hValues⟩ := hNumbers.exists_concat
  rw [hValues] at hLength hNumbers
  have hFew : before.length ≤ 3 := length_concat_le_iff.1 hLength
  refine ⟨mark :: vs, congrArg _ hSplit, .tilde hMark hNumbers hFew ?_⟩
  exact (bandAtLast_eq_ok_iff hValues hFew).1 hMade

theorem atom_of_caret (h : caret stop ts = .ok (r, us)) :
    ∃ vs, ts = vs ++ us ∧ Grammar.Atom vs r := by
  obtain ⟨⟨mark, ws⟩, hExpect, h⟩ := bind_eq_ok_iff.1 h
  obtain ⟨⟨ns, ws'⟩, hNumerals, h⟩ := bind_eq_ok_iff.1 h
  obtain ⟨r', hMade, h⟩ := bind_eq_ok_iff.1 h
  cases h
  obtain ⟨hMark, rfl⟩ := expect_eq_ok_iff.1 hExpect
  obtain ⟨hLength, vs, hSplit, hNumbers⟩ := numbers_of_numerals hNumerals
  refine ⟨mark :: vs, congrArg _ hSplit, ?_⟩
  rcases exists_first_nonzero ns.values with hZeros | ⟨zeros, c, after, hValues, hZeros, hNonzero⟩
  · rw [bandAtFirstNonzero_of_zeros hZeros] at hMade
    cases hMade
    exact .caretZero hMark hNumbers hLength hZeros
  · rw [hValues] at hLength hNumbers
    have hIndex : zeros.length ≤ 3 := by
      simp only [List.length_append, List.length_cons] at hLength
      omega
    refine .caret hMark hNumbers hLength hZeros hNonzero ?_
    exact (bandAtFirstNonzero_eq_ok_iff hValues hZeros hNonzero hIndex).1 hMade

theorem atom_of_wildcard (h : wildcard stop ts = .ok (r, us)) :
    ∃ vs, ts = vs ++ us ∧ Grammar.Atom vs r := by
  unfold wildcard at h
  split at h
  · obtain ⟨⟨star, ws⟩, hExpect, h⟩ := bind_eq_ok_iff.1 h
    cases h
    obtain ⟨hStar, rfl⟩ := expect_eq_ok_iff.1 hExpect
    exact ⟨[star], rfl, .any hStar⟩
  · obtain ⟨⟨ns, ws⟩, hDotted, h⟩ := bind_eq_ok_iff.1 h
    obtain ⟨⟨star, ws'⟩, hExpect, h⟩ := bind_eq_ok_iff.1 h
    obtain ⟨r', hMade, h⟩ := bind_eq_ok_iff.1 h
    cases h
    obtain ⟨hStar, rfl⟩ := expect_eq_ok_iff.1 hExpect
    obtain ⟨hLength, vs, dot, hDot, rfl, hNumbers⟩ := numbers_of_dotted hDotted
    obtain ⟨before, c, hValues⟩ := hNumbers.exists_concat
    rw [hValues] at hLength hNumbers
    have hFew : before.length ≤ 2 := length_concat_le_iff.1 hLength
    have hBand := (bandAtLast_eq_ok_iff hValues (by omega)).1 hMade
    exact ⟨vs ++ [dot, star], by simp, .wildcard hNumbers hFew hDot hStar hBand⟩

theorem atom_of_hyphen (h : hyphen stop ts = .ok (r, us)) :
    ∃ vs, ts = vs ++ us ∧ Grammar.Atom vs r := by
  obtain ⟨⟨lower, ws⟩, hLower, h⟩ := bind_eq_ok_iff.1 h
  obtain ⟨⟨mark, ws'⟩, hExpect, h⟩ := bind_eq_ok_iff.1 h
  obtain ⟨⟨upper, ws''⟩, hUpper, h⟩ := bind_eq_ok_iff.1 h
  cases h
  obtain ⟨hMark, rfl⟩ := expect_eq_ok_iff.1 hExpect
  obtain ⟨vs, cs, rfl, hFirst, hFirstFew, rfl⟩ := numbers_of_operand hLower
  obtain ⟨vs', cs', hSplit, hSecond, hSecondFew, rfl⟩ := numbers_of_operand hUpper
  refine ⟨vs ++ mark :: vs', ?_, .hyphen hFirst hFirstFew hMark hSecond hSecondFew⟩
  rw [List.append_assoc, List.cons_append, ← hSplit]

theorem atom_of_partialVersion (h : partialVersion stop ts = .ok (r, us)) :
    ∃ vs, ts = vs ++ us ∧ Grammar.Atom vs r := by
  obtain ⟨⟨ns, ws⟩, hNumerals, h⟩ := bind_eq_ok_iff.1 h
  obtain ⟨r', hMade, h⟩ := bind_eq_ok_iff.1 h
  cases h
  obtain ⟨hLength, vs, hSplit, hNumbers⟩ := numbers_of_numerals hNumerals
  obtain ⟨before, c, hValues⟩ := hNumbers.exists_concat
  rw [hValues] at hLength hNumbers
  have hFew : before.length ≤ 1 := length_concat_le_iff.1 hLength
  refine ⟨vs, hSplit, .partialVersion hNumbers hFew ?_⟩
  exact (bandAtLast_eq_ok_iff hValues (by omega)).1 hMade

/-- A comparison without an operator is read only where no partial version is, so it has three
components or four. -/
theorem atom_of_comparison (h : comparison stop ts = .ok (r, us))
    (hForm : Shorthand.select? ts = none) (hFollows : Follows us) :
    ∃ vs, ts = vs ++ us ∧ Grammar.Atom vs r := by
  unfold comparison at h
  split at h
  · rename_i op hHead
    obtain ⟨⟨c, ws⟩, hOperand, h⟩ := bind_eq_ok_iff.1 h
    cases h
    obtain ⟨mark, hMem, hMark⟩ := Option.bind_eq_some_iff.1 hHead
    obtain ⟨ws', rfl⟩ := List.head?_eq_some_iff.1 hMem
    obtain ⟨vs, cs, hSplit, hNumbers, hFew, rfl⟩ := numbers_of_operand hOperand
    exact ⟨mark :: vs, congrArg _ hSplit, .comparison hMark hNumbers hFew⟩
  · obtain ⟨⟨c, ws⟩, hOperand, h⟩ := bind_eq_ok_iff.1 h
    cases h
    obtain ⟨vs, cs, rfl, hNumbers, hFew, rfl⟩ := numbers_of_operand hOperand
    have hMany : ¬ cs.length ≤ 2 := by
      intro hPartial
      rw [Shorthand.select?_of_numbers hNumbers hFollows, if_pos hPartial] at hForm
      cases hForm
    exact ⟨vs, rfl, .plain hNumbers (by omega) hFew⟩

/-- What is read in front of what may follow an atom is an atom. -/
theorem atom_of_read (h : read stop (Shorthand.select? ts) ts = .ok (r, us))
    (hFollows : Follows us) : ∃ vs, ts = vs ++ us ∧ Grammar.Atom vs r := by
  cases hForm : Shorthand.select? ts with
  | none =>
      rw [hForm] at h
      exact atom_of_comparison h hForm hFollows
  | some form =>
      rw [hForm] at h
      cases form with
      | tilde => exact atom_of_tilde h
      | caret => exact atom_of_caret h
      | wildcard => exact atom_of_wildcard h
      | hyphen => exact atom_of_hyphen h
      | partialVersion => exact atom_of_partialVersion h

end Atom

end Versioning.Range
