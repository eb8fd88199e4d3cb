import Versioning.Proofs.Literal.Faults
import Versioning.Proofs.Literal.Rendering

/-!
# The two modes

Strict reading differs from lenient reading in one fault. The relations of the two
modes have the same constructors, and each condition that the strict mode adds to
one of them falls away in the lenient mode, so what is spelled strictly is spelled
leniently, and where strict reading breaks off for another reason than a leading
zero, lenient reading breaks off too.

Of a text that is read leniently, the strict mode asks that no number and no
numeric identifier of the pre-release be padded. Each of these parts stands behind
the parts before it with one mark after each of them, so the place of a part is the
length of what is before it, counting one for each mark.

## Main results

* `parse_eq_parseLenient_or_leadingZero` — the two parsers agree up to one fault, and where it is.
-/

namespace Versioning.Literal

open Text

variable {slot : Slot} {mode : Mode} {cause : Cause} {cs us rest : List Char}

/-! ## What is strict is lenient -/

theorem SpellsComponent.lenient {c : Component} (hSpells : SpellsComponent mode cs c) :
    SpellsComponent .lenient cs c :=
  { hSpells with noLeadingZero := fun hMode => nomatch hMode }

theorem SpellsCore.lenient {c : Core} (hSpells : SpellsCore mode cs c) :
    SpellsCore .lenient cs c := by
  obtain ⟨hMajor, hMinor, hBuild, hSubBuild⟩ := hSpells
  exact .dotted hMajor.lenient hMinor.lenient hBuild.lenient hSubBuild.lenient

theorem admits_lenient (slot : Slot) (i : Identifier) : Admits slot .lenient i :=
  fun _ hMode => nomatch hMode

theorem SpellsTag.lenient {t : Tag} (hSpells : SpellsTag slot mode cs t) :
    SpellsTag slot .lenient cs t :=
  spellsTag_iff.2 ⟨(spellsTag_iff.1 hSpells).1, fits_lenient slot t⟩

theorem ReadsTag.lenient {t : Tag} (hReads : ReadsTag slot mode rest us t) :
    ReadsTag slot .lenient rest us t := by
  induction hReads with
  | one => exact .one (.inr (admits_lenient slot _))
  | more _ _ ih => exact .more (admits_lenient slot _) ih

/-- In the lenient mode there is nothing to excuse, so what is read as a tag is one. -/
theorem ReadsTag.spellsTag_lenient {t : Tag} (hReads : ReadsTag slot mode rest us t) :
    SpellsTag slot .lenient us t :=
  (readsTag_iff_spellsTag fun i _ => admits_lenient slot i).1 hReads.lenient

theorem SpellsTags.lenient {p b : Option Tag} (hSpells : SpellsTags mode cs p b) :
    SpellsTags .lenient cs p b := by
  cases hSpells with
  | neither => exact .neither
  | preRelease hPreRelease => exact .preRelease hPreRelease.lenient
  | build hBuild => exact .build hBuild.lenient
  | both hPreRelease hBuild => exact .both hPreRelease.lenient hBuild.lenient

theorem SpellsVersion.lenient {v : Version} (hSpells : SpellsVersion mode cs v) :
    SpellsVersion .lenient cs v := by
  obtain ⟨hCore, hTags⟩ := hSpells
  exact .core hCore.lenient hTags.lenient

section OtherFaults

variable (hCause : cause ≠ .leadingZero)
include hCause

theorem BreaksComponent.lenient (hBreaks : BreaksComponent mode cause rest) :
    BreaksComponent .lenient cause rest := by
  cases hBreaks with
  | noDigit hStop => exact .noDigit hStop
  | leadingZero => exact absurd rfl hCause
  | tooLarge hStop _ hLarge => exact .tooLarge hStop (fun hMode => nomatch hMode) hLarge

theorem BreaksNumbers.lenient {more : Nat} (hBreaks : BreaksNumbers mode more us cause rest) :
    BreaksNumbers .lenient more us cause rest := by
  induction hBreaks with
  | first hBreaks => exact .first (hBreaks.lenient hCause)
  | noDot hSpells hStop hNoDot => exact .noDot hSpells.lenient hStop hNoDot
  | later hSpells _ ih => exact .later hSpells.lenient (ih hCause)

theorem BreaksIdentifier.lenient (hBreaks : BreaksIdentifier slot mode cause rest) :
    BreaksIdentifier slot .lenient cause rest := by
  cases hBreaks with
  | empty hEnds => exact .empty hEnds
  | illegal hInside hStop => exact .illegal hInside hStop
  | leadingZero => exact absurd rfl hCause

theorem BreaksIdentifiers.lenient (hBreaks : BreaksIdentifiers slot mode us cause rest) :
    BreaksIdentifiers slot .lenient us cause rest := by
  induction hBreaks with
  | first hBreaks => exact .first (hBreaks.lenient hCause)
  | later _ _ ih => exact .later (admits_lenient slot _) (ih hCause)

theorem BreaksTag.lenient (hBreaks : BreaksTag slot mode us cause rest) :
    BreaksTag slot .lenient us cause rest := by
  cases hBreaks with
  | start hStop => exact .start hStop
  | inside hStart hBreaks => exact .inside hStart (hBreaks.lenient hCause)

theorem BreaksBuild.lenient (hBreaks : BreaksBuild mode us cause rest) :
    BreaksBuild .lenient us cause rest := by
  cases hBreaks with
  | inside hBreaks => exact .inside (hBreaks.lenient hCause)
  | behind hSpells hStop hMore => exact .behind hSpells.lenient hStop hMore

theorem BreaksTags.lenient (hBreaks : BreaksTags mode us cause rest) :
    BreaksTags .lenient us cause rest := by
  cases hBreaks with
  | noMark hHyphen hPlus => exact .noMark hHyphen hPlus
  | preRelease hBreaks => exact .preRelease (hBreaks.lenient hCause)
  | noPlus hReads hStop hMore hPlus => exact .noPlus hReads.lenient hStop hMore hPlus
  | build hBefore hBreaks => exact .build hBefore.lenient (hBreaks.lenient hCause)

theorem BreaksVersion.lenient (hBreaks : BreaksVersion mode us cause rest) :
    BreaksVersion .lenient us cause rest := by
  cases hBreaks with
  | core hBreaks => exact .core (hBreaks.lenient hCause)
  | tags hCore hStop hBreaks => exact .tags hCore.lenient hStop (hBreaks.lenient hCause)

end OtherFaults

/-! ## Padded parts -/

/-- A number of more than one digit that starts with a zero. -/
def Padded (ds : List Char) : Prop :=
  (∀ d ∈ ds, d.isDigit = true) ∧ 2 ≤ ds.length ∧ ds.head? = some '0'

instance (ds : List Char) : Decidable (Padded ds) := inferInstanceAs (Decidable (_ ∧ _ ∧ _))

/-- The first padded part of a text stands behind so many characters: those of the parts before
it, and one mark after each of them. -/
def FirstPadded (parts : List (List Char)) (offset : Nat) : Prop :=
  ∃ before x after, parts = before ++ x :: after ∧ (∀ y ∈ before, ¬ Padded y) ∧ Padded x ∧
    offset = before.flatten.length + before.length

theorem not_padded_iff {ds : List Char} (hNe : ds ≠ []) (hDigits : ∀ d ∈ ds, d.isDigit = true) :
    ¬ Padded ds ↔ Decimal.NoLeadingZero ds := by
  obtain ⟨d, es, rfl⟩ := List.exists_cons_of_ne_nil hNe
  cases es with
  | nil => simp [Padded, Decimal.NoLeadingZero]
  | cons e es =>
      have hTwo : 2 ≤ (d :: e :: es).length := by simp
      constructor
      · exact fun hPlain hZero => absurd ⟨hDigits, hTwo, hZero⟩ hPlain
      · intro hPlain hPadded
        cases hPlain hPadded.2.2

theorem Padded.hasLeadingZero {ds : List Char} (hPadded : Padded ds) (rest : List Char) :
    hasLeadingZero (ds ++ rest) = true := by
  obtain ⟨hDigits, hTwo, hZero⟩ := hPadded
  obtain ⟨es, rfl⟩ := List.head?_eq_some_iff.1 hZero
  obtain ⟨e, es, rfl⟩ := List.exists_cons_of_length_pos (Nat.lt_of_succ_lt_succ hTwo)
  exact hDigits e (by simp)

/-- An unpadded number is a strict one. -/
theorem SpellsComponent.strict {c : Component} (hSpells : SpellsComponent mode cs c)
    (hPlain : ¬ Padded cs) : SpellsComponent .strict cs c :=
  { hSpells with
    noLeadingZero := fun _ => (not_padded_iff hSpells.ne_nil hSpells.isDigit).1 hPlain }

/-- In a strict pre-release an identifier may stand if it is not a padded number. -/
theorem admits_of_not_padded {i : Identifier} (hPlain : ¬ Padded i.chars) : Admits slot mode i :=
  fun _ _ hNumeric => (not_padded_iff i.ne_nil (List.all_eq_true.1 hNumeric)).1 hPlain

/-- Some part of a text is the first padded one, unless none is padded. -/
theorem exists_first_padded (parts : List (List Char)) :
    (∀ x ∈ parts, ¬ Padded x) ∨ ∃ before x after, parts = before ++ x :: after ∧
      (∀ y ∈ before, ¬ Padded y) ∧ Padded x := by
  induction parts with
  | nil => exact .inl fun x hMem => nomatch hMem
  | cons x xs ih =>
      by_cases hPadded : Padded x
      · exact .inr ⟨[], x, xs, rfl, List.forall_mem_nil _, hPadded⟩
      rcases ih with hNone | ⟨before, y, after, rfl, hBefore, hFirst⟩
      · exact .inl (List.forall_mem_cons.2 ⟨hPadded, hNone⟩)
      · exact .inr ⟨x :: before, y, after, rfl, List.forall_mem_cons.2 ⟨hPadded, hBefore⟩, hFirst⟩

/-! ## Breaking off at a part -/

/-- Parts with a dot behind each of them. -/
def withDots (parts : List (List Char)) : List Char := parts.flatMap fun x => x ++ ['.']

theorem withDots_cons (x : List Char) (xs : List (List Char)) :
    withDots (x :: xs) = x ++ '.' :: withDots xs := by
  simp [withDots]

theorem length_withDots (parts : List (List Char)) :
    (withDots parts).length = parts.flatten.length + parts.length := by
  induction parts with
  | nil => rfl
  | cons x xs ih =>
      rw [withDots_cons, List.length_append, List.length_cons, ih, List.flatten_cons,
        List.length_append, List.length_cons]
      omega

/-- Behind a part come the others with a dot in front of each of them. -/
theorem intercalate_cons (x : List Char) (after : List (List Char)) :
    ['.'].intercalate (x :: after) = x ++ after.flatMap fun y => '.' :: y := by
  induction after generalizing x with
  | nil => simp [List.intercalate]
  | cons y ys ih =>
      rw [List.intercalate_cons_cons, ih, List.flatMap_cons, List.append_assoc,
        List.singleton_append, List.cons_append]

/-- In front of a part come the others with a dot behind each of them. -/
theorem intercalate_append {parts : List (List Char)} (before : List (List Char))
    (hNe : parts ≠ []) :
    ['.'].intercalate (before ++ parts) = withDots before ++ ['.'].intercalate parts := by
  induction before with
  | nil => rfl
  | cons x xs ih =>
      have hRest : xs ++ parts ≠ [] := List.append_ne_nil_of_right_ne_nil xs hNe
      rw [List.cons_append, List.intercalate_cons_of_ne_nil hRest, ih, withDots_cons,
        List.append_assoc x, List.append_assoc x]
      rfl

theorem intercalate_append_dot {parts : List (List Char)} (hNe : parts ≠ []) :
    ['.'].intercalate parts ++ ['.'] = withDots parts := by
  obtain ⟨before, x, rfl⟩ : ∃ before x, parts = before ++ [x] :=
    ⟨_, _, (List.dropLast_concat_getLast hNe).symm⟩
  simp [intercalate_append, withDots]

/-- Numbers in order do not keep one behind them from breaking off. -/
theorem BreaksComponent.behind {before : List (List Char)} {more : Nat}
    (hBefore : ∀ ds ∈ before, ∃ c, SpellsComponent mode ds c)
    (hBreaks : BreaksComponent mode cause rest) :
    BreaksNumbers mode (before.length + more) (withDots before) cause rest := by
  induction before with
  | nil => exact .first hBreaks
  | cons ds before ih =>
      obtain ⟨⟨c, hSpells⟩, hBefore⟩ := List.forall_mem_cons.1 hBefore
      rw [withDots_cons, List.length_cons, Nat.add_right_comm]
      exact .later hSpells (ih hBefore)

/-- Identifiers in order do not keep one behind them from breaking off. -/
theorem BreaksIdentifier.behind {before : List Identifier}
    (hBefore : ∀ i ∈ before, Admits slot mode i) (hBreaks : BreaksIdentifier slot mode cause rest) :
    BreaksIdentifiers slot mode (withDots (before.map fun i => i.chars)) cause rest := by
  induction before with
  | nil => exact .first hBreaks
  | cons i before ih =>
      obtain ⟨hAdmits, hBefore⟩ := List.forall_mem_cons.1 hBefore
      rw [List.map_cons, withDots_cons]
      exact .later hAdmits (ih hBefore)

theorem FirstPadded.append {parts : List (List Char)} {offset : Nat}
    (hFirst : FirstPadded parts offset) (more : List (List Char)) :
    FirstPadded (parts ++ more) offset := by
  obtain ⟨before, x, after, rfl, hFirst⟩ := hFirst
  exact ⟨before, x, after ++ more, by simp, hFirst⟩

theorem FirstPadded.behind {front parts : List (List Char)} {offset : Nat}
    (hFront : ∀ x ∈ front, ¬ Padded x) (hFirst : FirstPadded parts offset) :
    FirstPadded (front ++ parts) ((withDots front).length + offset) := by
  obtain ⟨before, x, after, rfl, hBefore, hPadded, rfl⟩ := hFirst
  refine ⟨front ++ before, x, after, by simp, ?_, hPadded, ?_⟩
  · exact List.forall_mem_append.2 ⟨hFront, hBefore⟩
  · rw [length_withDots, List.flatten_append, List.length_append, List.length_append]
    omega

theorem FirstPadded.exists_padded {parts : List (List Char)} {offset : Nat}
    (hFirst : FirstPadded parts offset) : ∃ x ∈ parts, Padded x := by
  obtain ⟨before, x, after, rfl, -, hPadded, -⟩ := hFirst
  exact ⟨x, by simp, hPadded⟩

/-- A core that is not strict breaks off at its first padded number. -/
theorem SpellsCore.strict_or_breaks {c : Core} (hSpells : SpellsCore mode cs c) :
    ∃ numbers : List (Run Char.isDigit), numbers.length = 4 ∧
      cs = ['.'].intercalate (numbers.map Run.chars) ∧
      (SpellsCore .strict cs c ∧ (∀ x ∈ numbers.map Run.chars, ¬ Padded x) ∨
        ∃ us tail, cs = us ++ tail ∧ tail.head? = some '0' ∧
          FirstPadded (numbers.map Run.chars) us.length ∧
          ∀ rest, BreaksNumbers .strict 3 us .leadingZero (tail ++ rest)) := by
  obtain ⟨hMajor, hMinor, hBuild, hSubBuild⟩ := hSpells
  rename_i as bs ds es
  have hText : as ++ '.' :: (bs ++ '.' :: (ds ++ '.' :: es)) =
      ['.'].intercalate [as, bs, ds, es] := by
    simp [List.intercalate]
  refine ⟨[hMajor.run, hMinor.run, hBuild.run, hSubBuild.run], rfl, hText, ?_⟩
  show _ ∧ (∀ x ∈ [as, bs, ds, es], _) ∨ ∃ us tail, _ ∧ _ ∧ FirstPadded [as, bs, ds, es] _ ∧ _
  have hEach : ∀ x ∈ [as, bs, ds, es], ∃ c, SpellsComponent mode x c := by
    simp only [List.forall_mem_cons]
    exact ⟨⟨_, hMajor⟩, ⟨_, hMinor⟩, ⟨_, hBuild⟩, ⟨_, hSubBuild⟩, List.forall_mem_nil _⟩
  rcases exists_first_padded [as, bs, ds, es] with
    hNone | ⟨before, x, after, hParts, hBefore, hPadded⟩
  · refine .inl ⟨?_, hNone⟩
    simp only [List.forall_mem_cons] at hNone
    exact .dotted (hMajor.strict hNone.1) (hMinor.strict hNone.2.1) (hBuild.strict hNone.2.2.1)
      (hSubBuild.strict hNone.2.2.2.1)
  · rw [hText, hParts, intercalate_append before (List.cons_ne_nil x after), intercalate_cons]
    refine .inr ⟨_, _, rfl, ?_, ⟨before, x, after, rfl, hBefore, hPadded, length_withDots before⟩,
      fun rest => ?_⟩
    · rw [List.head?_append, hPadded.2.2]
      rfl
    · rw [hParts] at hEach
      have hLength : 3 = before.length + after.length := by
        have hFour := congrArg List.length hParts
        simp only [List.length_cons, List.length_nil, List.length_append] at hFour
        omega
      have hStrict : ∀ y ∈ before, ∃ c, SpellsComponent .strict y c := by
        intro y hMem
        obtain ⟨c, hSpells⟩ := hEach y (List.mem_append_left _ hMem)
        exact ⟨c, hSpells.strict (hBefore y hMem)⟩
      rw [hLength, List.append_assoc]
      exact (BreaksComponent.leadingZero rfl (hPadded.hasLeadingZero _)).behind hStrict

theorem SpellsTag.exists_cons {t : Tag} (hSpells : SpellsTag slot mode cs t) :
    ∃ c us, cs = c :: us ∧ isIdentifierChar c = true := by
  have hSearch : ∀ i, looksAlphanumeric slot [] = true → Admits slot mode i := by
    intro i hLooks
    cases hLooks
  exact ((readsTag_iff_spellsTag hSearch).2 hSpells).exists_cons

/-- A padded identifier breaks off where it starts. -/
theorem Padded.breaksIdentifier {i : Identifier} (hPadded : Padded i.chars)
    (hEnds : endsIdentifier rest = true) :
    BreaksIdentifier .preRelease .strict .leadingZero (i.chars ++ rest) := by
  have hNumeric : i.isNumeric = true := List.all_eq_true.2 hPadded.1
  refine .leadingZero rfl rfl ?_ (hPadded.hasLeadingZero rest)
  rw [looksAlphanumeric_append, hNumeric, looksAlphanumeric_of_ends hEnds]
  rfl

/-- A pre-release that is not strict breaks off at its first padded identifier. -/
theorem SpellsTag.strict_or_breaks {t : Tag} (hSpells : SpellsTag .preRelease mode cs t) :
    SpellsTag .preRelease .strict cs t ∧ (∀ x ∈ t.identifiers.map fun i => i.chars, ¬ Padded x) ∨
      ∃ us tail, cs = us ++ tail ∧ tail.head? = some '0' ∧
        FirstPadded (t.identifiers.map fun i => i.chars) us.length ∧
        ∀ rest, endsIdentifier rest = true →
          BreaksTag .preRelease .strict us .leadingZero (tail ++ rest) := by
  obtain ⟨c, vs, hCons, hChar⟩ := hSpells.exists_cons
  obtain ⟨hText, -⟩ := spellsTag_iff.1 hSpells
  rcases exists_first_padded (t.identifiers.map fun i => i.chars) with
    hNone | ⟨before, x, after, hParts, hBefore, hPadded⟩
  · refine .inl ⟨spellsTag_iff.2 ⟨hText, fun i hMem => ?_⟩, hNone⟩
    exact admits_of_not_padded (hNone _ (List.mem_map_of_mem hMem))
  · have hSplit : cs = withDots before ++ (x ++ after.flatMap fun y => '.' :: y) := by
      rw [hText, Tag.chars, hParts, intercalate_append before (List.cons_ne_nil x after),
        intercalate_cons]
    refine .inr ⟨_, _, hSplit, ?_, ?_, fun rest hEnds => .inside ?_ ?_⟩
    · rw [List.head?_append, hPadded.2.2]
      rfl
    · exact ⟨before, x, after, hParts, hBefore, hPadded, length_withDots before⟩
    · rw [← List.append_assoc, ← hSplit, hCons]
      intro hStop
      have hOther := hStop c rfl
      rw [hChar] at hOther
      cases hOther
    · obtain ⟨is, js, -, rfl, hRest⟩ := List.map_eq_append_iff.1 hParts
      obtain ⟨i, ks, -, rfl, rfl⟩ := List.map_eq_cons_iff.1 hRest
      rw [List.append_assoc]
      refine (hPadded.breaksIdentifier ?_).behind fun j hMem => ?_
      · cases ks with
        | nil => exact hEnds
        | cons => rfl
      · exact admits_of_not_padded (hBefore _ (List.mem_map_of_mem hMem))

/-- The identifiers of an optional tag, as they are written. -/
def identifierTexts (t : Option Tag) : List (List Char) :=
  t.elim [] fun t => t.identifiers.map fun i => i.chars

/-- What stands behind a core and is not strict breaks off at the first padded identifier of the
pre-release. -/
theorem SpellsTags.strict_or_breaks {p b : Option Tag} (hSpells : SpellsTags mode cs p b) :
    SpellsTags .strict cs p b ∧ (∀ x ∈ identifierTexts p, ¬ Padded x) ∨
      ∃ us tail, cs = '-' :: us ++ tail ∧ tail.head? = some '0' ∧
        FirstPadded (identifierTexts p) us.length ∧
        BreaksTags .strict ('-' :: us) .leadingZero tail := by
  have hStrict : ∀ {vs : List Char} {b : Tag}, SpellsTag .build mode vs b →
      SpellsTag .build .strict vs b := by
    intro vs b hBuild
    exact spellsTag_iff.2 ⟨(spellsTag_iff.1 hBuild).1, fits_build .strict b⟩
  cases hSpells with
  | neither => exact .inl ⟨.neither, List.forall_mem_nil _⟩
  | build hBuild => exact .inl ⟨.build (hStrict hBuild), List.forall_mem_nil _⟩
  | preRelease hPreRelease =>
      rcases hPreRelease.strict_or_breaks with
        ⟨hSpells, hNone⟩ | ⟨us, tail, rfl, hZero, hFirst, hBreaks⟩
      · exact .inl ⟨.preRelease hSpells, hNone⟩
      · have hBreaks := hBreaks [] rfl
        rw [List.append_nil] at hBreaks
        exact .inr ⟨us, tail, rfl, hZero, hFirst, .preRelease hBreaks⟩
  | @both _ vs _ _ hPreRelease hBuild =>
      rcases hPreRelease.strict_or_breaks with
        ⟨hSpells, hNone⟩ | ⟨us, tail, rfl, hZero, hFirst, hBreaks⟩
      · exact .inl ⟨.both hSpells (hStrict hBuild), hNone⟩
      · have hText : '-' :: (us ++ tail ++ '+' :: vs) = '-' :: us ++ (tail ++ '+' :: vs) := by simp
        refine .inr ⟨us, _, hText, ?_, hFirst, .preRelease (hBreaks _ rfl)⟩
        rw [List.head?_append, hZero]
        rfl

/-- The parts of a literal in which the strict mode looks for leading zeros: the numbers of its
core, as they are written, and the identifiers of its pre-release. -/
def checkedParts (numbers : List (Run Char.isDigit)) (v : Version) : List (List Char) :=
  numbers.map Run.chars ++ identifierTexts v.preRelease

/-- A version that is not strict breaks off at its first padded part. -/
theorem SpellsVersion.strict_or_breaks {v : Version} (hSpells : SpellsVersion mode cs v) :
    ∃ numbers : List (Run Char.isDigit), numbers.length = 4 ∧
      cs = ['.'].intercalate (numbers.map Run.chars) ++
        (Version.marked '-' v.preRelease ++ Version.marked '+' v.build) ∧
      (SpellsVersion .strict cs v ∧ (∀ x ∈ checkedParts numbers v, ¬ Padded x) ∨
        ∃ us tail, cs = us ++ tail ∧ tail.head? = some '0' ∧
          FirstPadded (checkedParts numbers v) us.length ∧
          BreaksVersion .strict us .leadingZero tail) := by
  obtain ⟨hCore, hTags⟩ := hSpells
  obtain ⟨numbers, hLength, hText, hCore⟩ := hCore.strict_or_breaks
  refine ⟨numbers, hLength, by rw [hText, hTags.eq_marked], ?_⟩
  rcases hCore with ⟨hCore, hNumbers⟩ | ⟨us, tail, rfl, hZero, hFirst, hBreaks⟩
  · rcases hTags.strict_or_breaks with ⟨hTags, hNone⟩ | ⟨us, tail, rfl, hZero, hFirst, hBreaks⟩
    · exact .inl ⟨.core hCore hTags, List.forall_mem_append.2 ⟨hNumbers, hNone⟩⟩
    · refine .inr ⟨_, tail, (List.append_assoc _ _ _).symm, hZero, ?_,
        .tags hCore hTags.stopsDigits hBreaks⟩
      have hNe : numbers.map Run.chars ≠ [] := by
        intro hNil
        rw [List.map_eq_nil_iff.1 hNil] at hLength
        cases hLength
      have hDots := congrArg List.length (intercalate_append_dot hNe)
      rw [← hText, List.length_append, List.length_singleton] at hDots
      have hFirst := hFirst.behind hNumbers
      rw [← hDots, Nat.add_assoc, Nat.add_comm 1] at hFirst
      rw [List.length_append]
      exact hFirst
  · refine .inr ⟨us, _, List.append_assoc _ _ _, ?_, hFirst.append _, .core (hBreaks _)⟩
    rw [List.head?_append, hZero]
    rfl

end Versioning.Literal

namespace Versioning

open Literal Text

/-- A text that is read strictly, or broken off for another reason than a leading zero, is read
leniently with the same result. -/
theorem Version.parse_eq_parseLenient {s : String}
    (hNotZero : ∀ e, Version.parse s = .error e → e.cause ≠ .leadingZero) :
    Version.parse s = Version.parseLenient s := by
  cases hParse : Version.parse s with
  | ok v =>
      exact (parseIn_eq_ok_iff.2 (parseIn_eq_ok_iff.1 hParse).lenient).symm
  | error e =>
      obtain ⟨us, rest, hSplit, hBreaks, hPlace⟩ := parseIn_eq_error_iff.1 hParse
      have hLenient := hBreaks.lenient (hNotZero e hParse)
      exact (parseIn_eq_error_iff.2 ⟨us, rest, hSplit, hLenient, hPlace⟩).symm

/-- **Strict reading is lenient reading plus one check.** The two parsers give the same result on
every text on which the strict one does not find a leading zero. Of a text that is read leniently
the strict parser takes just those without a padded part, and otherwise it finds a leading zero at
the first padded part. The identifiers of the build tag are not among the parts. -/
theorem Version.parse_eq_parseLenient_or_leadingZero :
    (∀ s, Version.parse s = Version.parseLenient s ∨
      ∃ e, Version.parse s = .error e ∧ e.cause = .leadingZero) ∧
    ∀ s v, Version.parseLenient s = .ok v →
      ∃ numbers : List (Run Char.isDigit), numbers.length = 4 ∧
        s.toList = ['.'].intercalate (numbers.map Run.chars) ++
          (Version.marked '-' v.preRelease ++ Version.marked '+' v.build) ∧
        ((∃ e, Version.parse s = .error e) ↔ ∃ x ∈ checkedParts numbers v, Padded x) ∧
        ∀ e, Version.parse s = .error e → ∃ offset,
          FirstPadded (checkedParts numbers v) offset ∧ e = ⟨.leadingZero, offset, some '0'⟩ := by
  constructor
  · intro s
    by_cases hZero : ∃ e, Version.parse s = .error e ∧ e.cause = .leadingZero
    · exact .inr hZero
    · exact .inl (parse_eq_parseLenient fun e hError hCause => hZero ⟨e, hError, hCause⟩)
  · intro s v hParse
    obtain ⟨numbers, hLength, hText, hStrict⟩ := (parseIn_eq_ok_iff.1 hParse).strict_or_breaks
    refine ⟨numbers, hLength, hText, ?_⟩
    rcases hStrict with ⟨hSpells, hNone⟩ | ⟨us, tail, hSplit, hZero, hFirst, hBreaks⟩
    · have hRead : Version.parse s = .ok v := parseIn_eq_ok_iff.2 hSpells
      rw [hRead]
      refine ⟨iff_of_false (fun ⟨e, h⟩ => nomatch h) ?_, fun e h => nomatch h⟩
      exact fun ⟨x, hMem, hPadded⟩ => hNone x hMem hPadded
    · have hRead : Version.parse s = .error ⟨.leadingZero, us.length, some '0'⟩ :=
        parseIn_eq_error_iff.2 ⟨us, tail, hSplit, hBreaks, rfl, hZero.symm⟩
      rw [hRead]
      refine ⟨iff_of_true ⟨_, rfl⟩ hFirst.exists_padded, fun e h => ?_⟩
      cases h
      exact ⟨us.length, hFirst, rfl⟩

/-- The identifiers in front of the padded one and the zeros of the build tag are passed over. -/
theorem Version.parse_padded_identifier :
    ∃ v, Version.parseLenient "1.0.0.10-rc.01.a+007" = .ok v ∧
      Version.parse "1.0.0.10-rc.01.a+007" = .error ⟨.leadingZero, 12, some '0'⟩ ∧
      ∃ numbers : List (Run Char.isDigit), numbers.length = 4 ∧
        FirstPadded (checkedParts numbers v) 12 := by
  have hParsed : ∃ v, Version.parseLenient "1.0.0.10-rc.01.a+007" = .ok v :=
    ⟨⟨⟨⟨1, by decide⟩, 0, 0, ⟨10, by decide⟩⟩,
      some (.cons ⟨['r', 'c'], by decide, List.all_eq_true.1 rfl⟩
        (.cons ⟨['0', '1'], by decide, List.all_eq_true.1 rfl⟩
          (.singleton ⟨['a'], by decide, List.all_eq_true.1 rfl⟩))),
      some (.singleton ⟨['0', '0', '7'], by decide, List.all_eq_true.1 rfl⟩)⟩, by decide +kernel⟩
  obtain ⟨v, hLenient⟩ := hParsed
  have hStrict : Version.parse "1.0.0.10-rc.01.a+007" = .error ⟨.leadingZero, 12, some '0'⟩ := by
    decide +kernel
  obtain ⟨numbers, hLength, -, -, hPlace⟩ := parse_eq_parseLenient_or_leadingZero.2 _ v hLenient
  obtain ⟨offset, hFirst, hError⟩ := hPlace _ hStrict
  cases hError
  exact ⟨v, hLenient, hStrict, numbers, hLength, hFirst⟩

end Versioning
