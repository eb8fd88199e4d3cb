import Versioning.Literal.Parse
import Versioning.Proofs.Literal.Grammar

/-!
# Reading accepts the grammar

Each reader is compared with its phrase of the grammar. A reader stops by itself
at the first character that it cannot take, so a statement about it names the
text that is left and says how that text may start: not with a digit behind a
core (`StopsDigits`), and with a plus or nothing behind a tag (`EndsTag`).

The one step that looks ahead is the choice between the two kinds of identifier.
It searches for a letter or hyphen up to the next mark, in the identifier and in
whatever stands behind it (`looksAlphanumeric_append`). At the end of an
identifier the text up to the next mark is that identifier, so the search tells
exactly whether it is numeric; a build tag is searched further, but its
identifiers are read the same either way. Only where an illegal character stands
in the way of the mark does the search see more than the identifier, and then
`ReadsTag` says what is read in place of `SpellsTag`.

## Main results

* `identifiers_append`, `readsTag_of_identifiers` — what is read as a tag in front of any text.
* `tag_eq_ok_iff` — where a tag may end, it is what the grammar spells.
* `parseIn_eq_ok_iff` and its like for cores and tags — a whole text by its grammar.
-/

namespace Versioning.Literal

open Outcome Text

variable {slot : Slot} {mode : Mode} {cs rest : List Char}

/-! ## Numbers -/

/-- A text does not go on with a digit. -/
def StopsDigits (rest : List Char) : Prop := ∀ c ∈ rest.head?, c.isDigit = false

theorem run_eq_ok_iff {p : Char → Bool} {expected : List CharClass} {r : Run p} :
    run p expected cs = .ok (r, rest) ↔
      cs = r.chars ++ rest ∧ ∀ c ∈ rest.head?, p c = false := by
  rw [← Run.read?_eq_some_iff]
  unfold run
  cases Run.read? p cs with
  | none => simp [fail]
  | some x => simp

/-- In front of anything but a digit, a run has a leading zero for the reader just when it has
one. -/
theorem hasLeadingZero_append (r : Run Char.isDigit) (hStop : StopsDigits rest) :
    hasLeadingZero (r.chars ++ rest) = false ↔ Decimal.NoLeadingZero r.chars := by
  have hDigits := r.all_mem
  obtain ⟨d, ds, hChars⟩ := List.exists_cons_of_ne_nil r.ne_nil
  rw [hChars] at hDigits ⊢
  by_cases hZero : d = '0'
  · subst hZero
    cases ds with
    | nil =>
        have hEnd : hasLeadingZero ('0' :: rest) = false := by
          cases rest with
          | nil => rfl
          | cons c rest => exact hStop c rfl
        exact iff_of_true hEnd fun _ => rfl
    | cons e ds =>
        have hNext : hasLeadingZero ('0' :: e :: (ds ++ rest)) = true := hDigits e (by simp)
        apply iff_of_false
        · show ¬ hasLeadingZero ('0' :: e :: (ds ++ rest)) = false
          rw [hNext]
          decide
        · intro hNone
          cases hNone rfl
  · have hOther : hasLeadingZero (d :: (ds ++ rest)) = false := by
      unfold hasLeadingZero
      split
      · rename_i hCons
        exact absurd (List.cons_eq_cons.1 hCons).1 hZero
      · rfl
    refine iff_of_true hOther (Decimal.noLeadingZero_of_head?_ne ?_)
    simpa using hZero

theorem number_eq_ok_iff {r : Run Char.isDigit} :
    number mode cs = .ok (r, rest) ↔
      cs = r.chars ++ rest ∧ StopsDigits rest ∧
        (mode = .strict → Decimal.NoLeadingZero r.chars) := by
  unfold number
  by_cases hRefused : mode = .strict ∧ hasLeadingZero cs = true
  · rw [if_pos hRefused]
    refine iff_of_false (by simp [fail]) ?_
    rintro ⟨rfl, hStop, hPlain⟩
    have hNone := (hasLeadingZero_append r hStop).2 (hPlain hRefused.1)
    rw [hRefused.2] at hNone
    cases hNone
  · rw [if_neg hRefused, run_eq_ok_iff]
    constructor
    · rintro ⟨rfl, hStop⟩
      refine ⟨rfl, hStop, fun hStrict => (hasLeadingZero_append r hStop).1 ?_⟩
      rw [Bool.eq_false_iff]
      exact fun hZero => hRefused ⟨hStrict, hZero⟩
    · exact fun h => ⟨h.1, h.2.1⟩

theorem component_eq_ok_iff {c : Component} :
    component mode cs = .ok (c, rest) ↔
      ∃ ds, SpellsComponent mode ds c ∧ cs = ds ++ rest ∧ StopsDigits rest := by
  constructor
  · intro h
    obtain ⟨⟨r, us⟩, hNumber, hValue⟩ := bind_eq_ok_iff.1 h
    cases hDigits : Component.ofDigits? r.chars with
    | none =>
        simp only [hDigits] at hValue
        cases hValue
    | some d =>
        simp only [hDigits] at hValue
        cases hValue
        obtain ⟨rfl, hStop, hPlain⟩ := number_eq_ok_iff.1 hNumber
        have hSpells : Decimal.value r.chars = c.value :=
          (Component.ofNat?_eq_some_iff.1 hDigits).symm
        exact ⟨r.chars, ⟨r.ne_nil, r.all_mem, hSpells, hPlain⟩, rfl, hStop⟩
  · rintro ⟨ds, hSpells, rfl, hStop⟩
    have hNumber : number mode (ds ++ rest) =
        .ok (⟨ds, hSpells.ne_nil, hSpells.isDigit⟩, rest) :=
      number_eq_ok_iff.2 ⟨rfl, hStop, hSpells.noLeadingZero⟩
    have hDigits : Component.ofDigits? ds = some c :=
      Component.ofNat?_eq_some_iff.2 hSpells.value_eq.symm
    refine bind_eq_ok_iff.2 ⟨_, hNumber, ?_⟩
    simp only [hDigits]
    rfl

theorem dot_eq_ok_iff : dot cs = .ok rest ↔ cs = '.' :: rest := by
  unfold dot
  split
  · simp
  · rename_i hOther
    refine iff_of_false (by simp [fail]) ?_
    exact fun h => hOther rest h

/-- A component is read in front of a dot, where no further digit follows. -/
theorem component_append_dot {ds us : List Char} {c : Component}
    (hSpells : SpellsComponent mode ds c) :
    component mode (ds ++ '.' :: us) = .ok (c, '.' :: us) := by
  refine component_eq_ok_iff.2 ⟨ds, hSpells, rfl, ?_⟩
  intro d hMem
  cases hMem
  rfl

theorem core_eq_ok_iff {c : Core} :
    core mode cs = .ok (c, rest) ↔
      ∃ ds, SpellsCore mode ds c ∧ cs = ds ++ rest ∧ StopsDigits rest := by
  constructor
  · intro hRead
    obtain ⟨⟨major, us⟩, hMajor, hRead⟩ := bind_eq_ok_iff.1 hRead
    obtain ⟨us', hDot, hRead⟩ := bind_eq_ok_iff.1 hRead
    obtain ⟨⟨minor, vs⟩, hMinor, hRead⟩ := bind_eq_ok_iff.1 hRead
    obtain ⟨vs', hDot', hRead⟩ := bind_eq_ok_iff.1 hRead
    obtain ⟨⟨build, ws⟩, hBuild, hRead⟩ := bind_eq_ok_iff.1 hRead
    obtain ⟨ws', hDot'', hRead⟩ := bind_eq_ok_iff.1 hRead
    obtain ⟨⟨subBuild, xs⟩, hSubBuild, hRead⟩ := bind_eq_ok_iff.1 hRead
    cases hRead
    rw [component_eq_ok_iff] at hMajor hMinor hBuild hSubBuild
    rw [dot_eq_ok_iff] at hDot hDot' hDot''
    obtain ⟨as, hMajor, rfl, -⟩ := hMajor
    obtain ⟨bs, hMinor, rfl, -⟩ := hMinor
    obtain ⟨ds, hBuild, rfl, -⟩ := hBuild
    obtain ⟨es, hSubBuild, rfl, hStop⟩ := hSubBuild
    subst hDot hDot' hDot''
    exact ⟨_, .dotted hMajor hMinor hBuild hSubBuild, by simp, hStop⟩
  · rintro ⟨_, ⟨hMajor, hMinor, hBuild, hSubBuild⟩, rfl, hStop⟩
    simp only [List.append_assoc, List.cons_append]
    refine bind_eq_ok_iff.2 ⟨_, component_append_dot hMajor, ?_⟩
    refine bind_eq_ok_iff.2 ⟨_, rfl, bind_eq_ok_iff.2 ⟨_, component_append_dot hMinor, ?_⟩⟩
    refine bind_eq_ok_iff.2 ⟨_, rfl, bind_eq_ok_iff.2 ⟨_, component_append_dot hBuild, ?_⟩⟩
    have hLast := component_eq_ok_iff.2 ⟨_, hSubBuild, rfl, hStop⟩
    exact bind_eq_ok_iff.2 ⟨_, rfl, bind_eq_ok_iff.2 ⟨_, hLast, rfl⟩⟩

/-! ## Identifiers -/

/-- A text does not go on with a character of an identifier. -/
def StopsIdentifier (rest : List Char) : Prop := ∀ c ∈ rest.head?, isIdentifierChar c = false

theorem StopsIdentifier.stopsDigits (hStop : StopsIdentifier rest) : StopsDigits rest := by
  intro c hMem
  have hOther := hStop c hMem
  rw [Bool.eq_false_iff] at hOther ⊢
  exact fun hDigit => hOther (isIdentifierChar_of_isDigit c hDigit)

theorem stopsIdentifier_of_ends (hEnds : endsIdentifier rest = true) : StopsIdentifier rest := by
  intro c hMem
  obtain ⟨us, rfl⟩ := List.head?_eq_some_iff.1 hMem
  rcases (by simpa [endsIdentifier] using hEnds : c = '.' ∨ c = '+') with rfl | rfl
  · rfl
  · rfl

/-- No mark belongs to an identifier. -/
theorem delimits_eq_false {c : Char} (hChar : isIdentifierChar c = true) :
    delimits slot c = false := by
  have hMark : c ≠ '.' ∧ c ≠ '+' := by
    refine ⟨?_, ?_⟩ <;> rintro rfl <;> cases hChar
  cases slot <;> simp [delimits, hMark]

/-- A character of an identifier is a letter or hyphen just when it is not a digit. -/
theorem isAlpha_or_hyphen_eq {c : Char} (hChar : isIdentifierChar c = true) :
    (c.isAlpha || c = '-') = !c.isDigit := by
  by_cases hDigit : c.isDigit = true
  · have hRange := Decimal.toNat_of_isDigit hDigit
    have hLetter : c.isAlpha = false := by
      show (decide ('A'.val ≤ c.val ∧ c.val ≤ 'Z'.val) ||
        decide ('a'.val ≤ c.val) && decide (c.val ≤ 'z'.val)) = false
      simp only [Bool.or_eq_false_iff, Bool.and_eq_false_iff, decide_eq_false_iff_not,
        UInt32.le_iff_toNat_le]
      have hUpper : 'A'.val.toNat = 65 := rfl
      have hLower : 'a'.val.toNat = 97 := rfl
      have hValue : c.val.toNat = c.toNat := rfl
      omega
    have hHyphen : c ≠ '-' := by
      rintro rfl
      cases hDigit
    simp [hDigit, hLetter, hHyphen]
  · rw [Bool.not_eq_true] at hDigit
    simpa [isIdentifierChar, Char.isAlphanum, hDigit] using hChar

/-- An identifier has a letter or hyphen just when it is not numeric. -/
theorem any_eq_not_isNumeric (i : Identifier) :
    (i.chars.any fun c => c.isAlpha || c = '-') = !i.isNumeric := by
  rw [Identifier.isNumeric, List.not_all_eq_any_not, Bool.eq_iff_iff, List.any_eq_true,
    List.any_eq_true]
  apply exists_congr
  intro c
  apply and_congr_right
  intro hMem
  rw [isAlpha_or_hyphen_eq (i.all_mem c hMem)]

/-- The text up to the next mark begins with all of the identifier in front. -/
theorem takeWhile_identifier_append (slot : Slot) (i : Identifier) (rest : List Char) :
    ((i.chars ++ rest).takeWhile fun c => !delimits slot c) =
      i.chars ++ rest.takeWhile fun c => !delimits slot c := by
  apply List.takeWhile_append_of_pos
  intro c hMem
  rw [delimits_eq_false (i.all_mem c hMem)]
  rfl

/-- The search finds a letter or hyphen in the identifier in front or else behind it. -/
theorem looksAlphanumeric_append (i : Identifier) (rest : List Char) :
    looksAlphanumeric slot (i.chars ++ rest) = (!i.isNumeric || looksAlphanumeric slot rest) := by
  unfold looksAlphanumeric
  rw [takeWhile_identifier_append, List.any_append, any_eq_not_isNumeric]

/-- In a pre-release the search stops where an identifier ends. -/
theorem looksAlphanumeric_of_ends (hEnds : endsIdentifier rest = true) :
    looksAlphanumeric .preRelease rest = false := by
  cases rest with
  | nil => rfl
  | cons c rest =>
      have hDelimits : delimits .preRelease c = true := hEnds
      simp [looksAlphanumeric, hDelimits]

/-- Digits after which the search finds nothing are not followed by a letter or hyphen. -/
theorem stopsIdentifier_of_stopsDigits (hStop : StopsDigits rest)
    (hLooks : looksAlphanumeric slot rest = false) : StopsIdentifier rest := by
  intro c hMem
  obtain ⟨us, rfl⟩ := List.head?_eq_some_iff.1 hMem
  rw [Bool.eq_false_iff]
  intro hChar
  have hInside : (!delimits slot c) = true := by
    rw [delimits_eq_false hChar]
    rfl
  have hFound : (c.isAlpha || c = '-') = true := by
    rw [isAlpha_or_hyphen_eq hChar, hStop c hMem]
    rfl
  have hLooks' : looksAlphanumeric slot (c :: us) = true := by
    unfold looksAlphanumeric
    simp only [List.takeWhile_cons, hInside, if_true, List.any_cons, hFound, Bool.true_or]
  rw [hLooks] at hLooks'
  cases hLooks'

/-- An identifier starts with one of its characters. -/
theorem exists_cons_of_identifier (i : Identifier) :
    ∃ c cs, i.chars = c :: cs ∧ isIdentifierChar c = true := by
  obtain ⟨c, cs, hChars⟩ := List.exists_cons_of_ne_nil i.ne_nil
  have hMem : c ∈ i.chars := by
    rw [hChars]
    exact List.mem_cons_self
  exact ⟨c, cs, hChars, i.all_mem c hMem⟩

theorem endsIdentifier_append (i : Identifier) : endsIdentifier (i.chars ++ rest) = false := by
  obtain ⟨c, cs, hChars, hChar⟩ := exists_cons_of_identifier i
  have hMark : delimits .preRelease c = false := delimits_eq_false hChar
  rw [hChars]
  exact hMark

/-- An identifier is read up to the first character that is none of its own. No rule for numbers
is applied to it if the search finds a letter or hyphen behind it. -/
theorem identifier_eq_ok_iff {i : Identifier} :
    identifier slot mode cs = .ok (i, rest) ↔ cs = i.chars ++ rest ∧ StopsIdentifier rest ∧
      (looksAlphanumeric slot rest = true ∨ Admits slot mode i) := by
  unfold identifier
  constructor
  · intro hRead
    by_cases hEmpty : endsIdentifier cs = true
    · rw [if_pos hEmpty] at hRead
      cases hRead
    rw [if_neg hEmpty] at hRead
    by_cases hLooks : looksAlphanumeric slot cs = true
    · rw [if_pos hLooks] at hRead
      obtain ⟨⟨r, us⟩, hRun, h⟩ := map_eq_ok_iff.1 hRead
      cases h
      obtain ⟨rfl, hStop⟩ := run_eq_ok_iff.1 hRun
      refine ⟨rfl, hStop, ?_⟩
      rw [looksAlphanumeric_append ⟨r⟩, Bool.or_eq_true] at hLooks
      rcases hLooks with hOther | hBehind
      · refine .inr fun _ _ hNumeric => ?_
        rw [hNumeric] at hOther
        cases hOther
      · exact .inl hBehind
    · rw [if_neg hLooks] at hRead
      obtain ⟨⟨r, us⟩, hRun, h⟩ := map_eq_ok_iff.1 hRead
      cases h
      have hNumber : cs = r.chars ++ rest ∧ StopsDigits rest ∧
          (slot = .preRelease → mode = .strict → Decimal.NoLeadingZero r.chars) := by
        cases slot with
        | preRelease =>
            obtain ⟨hSplit, hStop, hPlain⟩ := number_eq_ok_iff.1 hRun
            exact ⟨hSplit, hStop, fun _ => hPlain⟩
        | build =>
            obtain ⟨hSplit, hStop⟩ := run_eq_ok_iff.1 hRun
            exact ⟨hSplit, hStop, fun h => nomatch h⟩
      obtain ⟨rfl, hStop, hPlain⟩ := hNumber
      rw [← Identifier.chars_ofDigits, looksAlphanumeric_append, Bool.or_eq_true, not_or,
        Bool.not_eq_true, Bool.not_eq_true] at hLooks
      exact ⟨rfl, stopsIdentifier_of_stopsDigits hStop hLooks.2,
        .inr fun hSlot hStrict _ => hPlain hSlot hStrict⟩
  · rintro ⟨rfl, hStop, hAdmits⟩
    rw [if_neg (by rw [endsIdentifier_append]; decide)]
    by_cases hLooks : looksAlphanumeric slot (i.chars ++ rest) = true
    · rw [if_pos hLooks]
      exact map_eq_ok_iff.2 ⟨_, run_eq_ok_iff.2 ⟨rfl, hStop⟩, rfl⟩
    · rw [if_neg hLooks]
      rw [looksAlphanumeric_append, Bool.or_eq_true, not_or, Bool.not_eq_true',
        Bool.not_eq_false] at hLooks
      obtain ⟨hNumeric, hBehind⟩ := hLooks
      refine map_eq_ok_iff.2 ⟨(⟨i.chars, i.ne_nil, List.all_eq_true.1 hNumeric⟩, rest), ?_, rfl⟩
      cases slot with
      | preRelease =>
          refine number_eq_ok_iff.2 ⟨rfl, hStop.stopsDigits, fun hStrict => ?_⟩
          exact hAdmits.resolve_left hBehind rfl hStrict hNumeric
      | build => exact run_eq_ok_iff.2 ⟨rfl, hStop.stopsDigits⟩

/-- Where an identifier ends, the search excuses no identifier from the rules of its slot. -/
theorem admits_of_looksAlphanumeric {i : Identifier} (hEnds : endsIdentifier rest = true)
    (hLooks : looksAlphanumeric slot rest = true) : Admits slot mode i := by
  rintro rfl
  rw [looksAlphanumeric_of_ends hEnds] at hLooks
  cases hLooks

/-- An identifier that may stand in its slot is read up to its end. -/
theorem identifier_append {i : Identifier} (hEnds : endsIdentifier rest = true)
    (hAdmits : Admits slot mode i) :
    identifier slot mode (i.chars ++ rest) = .ok (i, rest) :=
  identifier_eq_ok_iff.2 ⟨rfl, stopsIdentifier_of_ends hEnds, .inr hAdmits⟩

/-! ## Tags -/

/-- Identifiers with dots between them in front of a text. They are those of a tag, except that
the last one need not be admitted if a letter or hyphen is found ahead. -/
inductive ReadsTag (slot : Slot) (mode : Mode) (rest : List Char) : List Char → Tag → Prop where
  | one {i : Identifier} (hAdmits : looksAlphanumeric slot rest = true ∨ Admits slot mode i) :
      ReadsTag slot mode rest i.chars (.singleton i)
  | more {i : Identifier} {cs : List Char} {t : Tag} (hAdmits : Admits slot mode i)
      (hRest : ReadsTag slot mode rest cs t) :
      ReadsTag slot mode rest (i.chars ++ '.' :: cs) (t.cons i)

/-- A text does not go on with a character of a tag. -/
def StopsTag (rest : List Char) : Prop := StopsIdentifier rest ∧ rest.head? ≠ some '.'

/-- What may follow a tag in a literal: a plus, or nothing. -/
def EndsTag (rest : List Char) : Prop := ∀ c ∈ rest.head?, c = '+'

theorem endsIdentifier_of_endsTag (hEnds : EndsTag rest) : endsIdentifier rest = true := by
  cases rest with
  | nil => rfl
  | cons c rest =>
      obtain rfl := hEnds c rfl
      rfl

theorem stopsTag_of_endsTag (hEnds : EndsTag rest) : StopsTag rest := by
  refine ⟨stopsIdentifier_of_ends (endsIdentifier_of_endsTag hEnds), fun hDot => ?_⟩
  cases hEnds '.' hDot

/-- A tag is read just where one is spelled, unless the search can excuse its last identifier
from the rules of the slot. -/
theorem readsTag_iff_spellsTag {us : List Char} {t : Tag}
    (hSearch : ∀ i, looksAlphanumeric slot rest = true → Admits slot mode i) :
    ReadsTag slot mode rest us t ↔ SpellsTag slot mode us t := by
  constructor
  · intro hReads
    induction hReads with
    | one hAdmits => exact .one (hAdmits.elim (hSearch _) id)
    | more hAdmits _ ih => exact .more hAdmits ih
  · intro hSpells
    induction hSpells with
    | one hAdmits => exact .one (.inr hAdmits)
    | more hAdmits _ ih => exact .more hAdmits ih

/-- One identifier and no dot behind it make a tag. -/
theorem identifiers_of_head?_ne {i : Identifier} (hNoDot : rest.head? ≠ some '.')
    (hRead : identifier slot mode cs = .ok (i, rest)) :
    identifiers slot mode cs = .ok (.singleton i, rest) := by
  rw [identifiers]
  split
  · rename_i hError
    rw [hRead] at hError
    cases hError
  · rename_i hDot
    rw [hRead] at hDot
    cases hDot
    exact absurd rfl hNoDot
  · rename_i hOk
    rw [hRead] at hOk
    cases hOk
    rfl

/-- A dot behind an identifier asks for more. -/
theorem identifiers_of_dot {i : Identifier} {us : List Char}
    (hRead : identifier slot mode cs = .ok (i, '.' :: us)) :
    identifiers slot mode cs =
      (identifiers slot mode us).map fun (t, rest) => (t.cons i, rest) := by
  rw [identifiers]
  split
  · rename_i hError
    rw [hRead] at hError
    cases hError
  · rename_i hDot
    rw [hRead] at hDot
    cases hDot
    rfl
  · rename_i hOther hOk
    rw [hRead] at hOk
    cases hOk
    exact (hOther us rfl).elim

/-- What may be read is read, by induction on the tag. -/
theorem identifiers_append {us : List Char} {t : Tag} (hStop : StopsTag rest)
    (hReads : ReadsTag slot mode rest us t) :
    identifiers slot mode (us ++ rest) = .ok (t, rest) := by
  induction hReads with
  | one hAdmits =>
      apply identifiers_of_head?_ne hStop.2
      exact identifier_eq_ok_iff.2 ⟨rfl, hStop.1, hAdmits⟩
  | more hAdmits _ ih =>
      rw [List.append_assoc, List.cons_append]
      rw [identifiers_of_dot (identifier_append rfl hAdmits), ih]
      rfl

/-- What is read may be read, by induction on the text. -/
theorem readsTag_of_identifiers (cs : List Char) (t : Tag)
    (hRead : identifiers slot mode cs = .ok (t, rest)) :
    ∃ us, cs = us ++ rest ∧ ReadsTag slot mode rest us t ∧ StopsTag rest := by
  rw [identifiers] at hRead
  split at hRead
  · cases hRead
  · rename_i i us hFirst
    obtain ⟨⟨t', vs⟩, hMore, h⟩ := map_eq_ok_iff.1 hRead
    cases h
    have hShorter := length_lt_of_identifier hFirst
    obtain ⟨ws, rfl, hRest, hStop⟩ := readsTag_of_identifiers us t' hMore
    obtain ⟨rfl, -, hAdmits⟩ := identifier_eq_ok_iff.1 hFirst
    exact ⟨_, by simp, .more (hAdmits.elim (admits_of_looksAlphanumeric rfl) id) hRest, hStop⟩
  · rename_i i us hOther hFirst
    cases hRead
    obtain ⟨rfl, hStop, hAdmits⟩ := identifier_eq_ok_iff.1 hFirst
    refine ⟨_, rfl, .one hAdmits, hStop, fun hDot => ?_⟩
    obtain ⟨vs, rfl⟩ := List.head?_eq_some_iff.1 hDot
    exact hOther vs rfl
termination_by cs.length
decreasing_by
  simp only [List.length_cons] at hShorter
  omega

theorem ReadsTag.exists_cons {us : List Char} {t : Tag} (hReads : ReadsTag slot mode rest us t) :
    ∃ c vs, us = c :: vs ∧ isIdentifierChar c = true := by
  cases hReads with
  | one => exact exists_cons_of_identifier _
  | @more i ws _ _ _ =>
      obtain ⟨c, vs, hChars, hChar⟩ := exists_cons_of_identifier i
      exact ⟨c, vs ++ '.' :: ws, by rw [hChars]; rfl, hChar⟩

/-- Where a tag may start, it is its identifiers. -/
theorem tag_cons {c : Char} (hChar : isIdentifierChar c = true) :
    tag slot mode (c :: cs) = identifiers slot mode (c :: cs) :=
  if_pos hChar

/-- A tag is read up to the first character that no tag has. -/
theorem tag_eq_ok_iff_reads {t : Tag} :
    tag slot mode cs = .ok (t, rest) ↔
      ∃ us, cs = us ++ rest ∧ ReadsTag slot mode rest us t ∧ StopsTag rest := by
  constructor
  · intro hRead
    cases cs with
    | nil => cases hRead
    | cons c cs =>
        by_cases hChar : isIdentifierChar c = true
        · rw [tag_cons hChar] at hRead
          exact readsTag_of_identifiers _ t hRead
        · simp only [tag, if_neg hChar] at hRead
          cases hRead
  · rintro ⟨us, rfl, hReads, hStop⟩
    have hRead := identifiers_append hStop hReads
    obtain ⟨c, vs, rfl, hChar⟩ := hReads.exists_cons
    rw [List.cons_append, tag_cons hChar]
    exact hRead

theorem tag_eq_ok_iff {t : Tag} (hEnds : EndsTag rest) :
    tag slot mode cs = .ok (t, rest) ↔ ∃ us, cs = us ++ rest ∧ SpellsTag slot mode us t := by
  have hSearch : ∀ i, looksAlphanumeric slot rest = true → Admits slot mode i :=
    fun _ => admits_of_looksAlphanumeric (endsIdentifier_of_endsTag hEnds)
  simp only [tag_eq_ok_iff_reads, readsTag_iff_spellsTag hSearch, stopsTag_of_endsTag hEnds,
    and_true]

theorem tag_eq_ok_nil_iff {t : Tag} :
    tag slot mode cs = .ok (t, []) ↔ SpellsTag slot mode cs t := by
  have hEnds : EndsTag [] := fun c hMem => nomatch hMem
  rw [tag_eq_ok_iff hEnds]
  simp

/-! ## Versions -/

theorem endsTag_plus (us : List Char) : EndsTag ('+' :: us) := by
  intro c hMem
  cases hMem
  rfl

/-- What is read behind a core up to the end of the text is what may stand there. -/
theorem spellsTags_of_tags {p b : Option Tag} (hRead : tags mode cs = .ok ((p, b), [])) :
    SpellsTags mode cs p b := by
  unfold tags at hRead
  split at hRead
  · cases hRead
    exact .neither
  · obtain ⟨⟨t, us⟩, hBuild, h⟩ := map_eq_ok_iff.1 hRead
    cases h
    exact .build (tag_eq_ok_nil_iff.1 hBuild)
  · obtain ⟨⟨t, us⟩, hPreRelease, h⟩ := bind_eq_ok_iff.1 hRead
    dsimp only at h
    split at h
    · rename_i hRest
      cases hRest
      cases h
      exact .preRelease (tag_eq_ok_nil_iff.1 hPreRelease)
    · rename_i hRest
      cases hRest
      obtain ⟨⟨t', vs⟩, hBuild, h⟩ := map_eq_ok_iff.1 h
      cases h
      obtain ⟨ws, rfl, hSpells⟩ := (tag_eq_ok_iff (endsTag_plus _)).1 hPreRelease
      exact .both hSpells (tag_eq_ok_nil_iff.1 hBuild)
    · cases h
  · cases hRead

theorem tags_eq_ok_iff {p b : Option Tag} :
    tags mode cs = .ok ((p, b), []) ↔ SpellsTags mode cs p b := by
  constructor
  · exact spellsTags_of_tags
  · intro hSpells
    cases hSpells with
    | neither => rfl
    | preRelease hPreRelease =>
        exact bind_eq_ok_iff.2 ⟨_, tag_eq_ok_nil_iff.2 hPreRelease, rfl⟩
    | build hBuild => exact map_eq_ok_iff.2 ⟨_, tag_eq_ok_nil_iff.2 hBuild, rfl⟩
    | @both cs us p b hPreRelease hBuild =>
        have hFirst := (tag_eq_ok_iff (endsTag_plus us)).2 ⟨cs, rfl, hPreRelease⟩
        refine bind_eq_ok_iff.2 ⟨_, hFirst, ?_⟩
        exact map_eq_ok_iff.2 ⟨_, tag_eq_ok_nil_iff.2 hBuild, rfl⟩

/-- No digit starts what stands behind a core. -/
theorem SpellsTags.stopsDigits {p b : Option Tag} (hSpells : SpellsTags mode cs p b) :
    StopsDigits cs := by
  intro c hMem
  cases hSpells with
  | neither => cases hMem
  | preRelease => cases hMem; rfl
  | build => cases hMem; rfl
  | both => cases hMem; rfl

theorem version_eq_ok_iff {v : Version} :
    version mode cs = .ok (v, []) ↔ SpellsVersion mode cs v := by
  constructor
  · intro hRead
    obtain ⟨⟨c, us⟩, hCore, hRead⟩ := bind_eq_ok_iff.1 hRead
    obtain ⟨⟨⟨p, b⟩, vs⟩, hTags, hRead⟩ := bind_eq_ok_iff.1 hRead
    cases hRead
    obtain ⟨ds, hSpells, rfl, -⟩ := core_eq_ok_iff.1 hCore
    exact .core hSpells (tags_eq_ok_iff.1 hTags)
  · rintro ⟨hCore, hTags⟩
    refine bind_eq_ok_iff.2 ⟨_, core_eq_ok_iff.2 ⟨_, hCore, rfl, hTags.stopsDigits⟩, ?_⟩
    exact bind_eq_ok_iff.2 ⟨_, tags_eq_ok_iff.2 hTags, rfl⟩

/-- A phrase is the whole text when it leaves nothing. -/
theorem whole_eq_ok_iff {α : Type} {phrase : List Char → Except Failure (α × List Char)} {a : α} :
    whole phrase cs = .ok a ↔ phrase cs = .ok (a, []) := by
  unfold whole
  split
  · rename_i hRead
    simp [hRead]
  · rename_i hRead
    simp [hRead]
  · rename_i hRead
    simp [hRead]

end Versioning.Literal

namespace Versioning

open Literal

theorem Version.parseIn_eq_ok_iff {mode : Mode} {s : String} {v : Version} :
    Version.parseIn mode s = .ok v ↔ SpellsVersion mode s.toList v := by
  unfold Version.parseIn
  rw [whole_eq_ok_iff, version_eq_ok_iff]

theorem Core.parse_eq_ok_iff {s : String} {c : Core} :
    Core.parse s = .ok c ↔ SpellsCore .strict s.toList c := by
  unfold Core.parse
  rw [whole_eq_ok_iff, core_eq_ok_iff]
  have hStop : StopsDigits [] := fun c hMem => nomatch hMem
  simp [hStop]

theorem Tag.parse_eq_ok_iff {slot : Slot} {s : String} {t : Tag} :
    Tag.parse slot s = .ok t ↔ SpellsTag slot .strict s.toList t := by
  unfold Tag.parse
  rw [whole_eq_ok_iff, tag_eq_ok_nil_iff]

/-- **Literals by their grammar.** Each parser takes exactly the texts of its phrase, and what
it returns is what the text spells. The lenient parser differs from the strict one only in that
it does not ask for numbers without leading zeros. -/
theorem Literal.parse_eq_ok_iff_spells :
    (∀ s v, Version.parse s = .ok v ↔ SpellsVersion .strict s.toList v) ∧
      (∀ s v, Version.parseLenient s = .ok v ↔ SpellsVersion .lenient s.toList v) ∧
      (∀ s c, Core.parse s = .ok c ↔ SpellsCore .strict s.toList c) ∧
      (∀ s p, Tag.parse .preRelease s = .ok p ↔ SpellsTag .preRelease .strict s.toList p) ∧
      (∀ s b, Tag.parse .build s = .ok b ↔ SpellsTag .build .strict s.toList b) := by
  refine ⟨?_, ?_, ?_, ?_, ?_⟩
  · intro s v
    exact Version.parseIn_eq_ok_iff
  · intro s v
    exact Version.parseIn_eq_ok_iff
  · intro s c
    exact Core.parse_eq_ok_iff
  · intro s p
    exact Tag.parse_eq_ok_iff
  · intro s b
    exact Tag.parse_eq_ok_iff

end Versioning
