import Versioning.Proofs.Literal.Lookahead

/-!
# What a diagnostic says

A character fault names a place in the text, the character found there and the
classes of which one should have stood there instead. This module says that the
place is the right one: the text up to it is the beginning of a literal, and with
the character found there it no longer is. For the lenient mode it also says that
no class is named in vain.

Each relation of the grammar of faults is gone through twice. Once for what a fault
says of the text that is left (`Cause.Describes`), which follows from its condition
on that text. And once for how a text could have gone on (`Allows`): there it is
compared with its phrase of the grammar of literals, and every class that is named
starts some text that makes up the phrase behind what was got through. One place is
different. Behind a number with a leading zero that a letter further on excused,
the strict mode names a plus and the end of the text, and has neither, since the
letter must come first; there the text up to the fault is still the beginning of a
literal, of one that goes on with a letter.

That nothing can be made of the character found follows from
`BreaksVersion.replace`: lenient reading breaks off at it whatever comes behind.

## Main results

* `BreaksVersion.describes`, `BreaksVersion.allows` — what a fault says, and what could have been.
* `parseIn_misfit_error` — the place, the character and the classes of a character fault.
-/

namespace Versioning

/-! ## Classes of characters -/

/-- Whether the next character, or the end of the text, is of a class. -/
def CharClass.Covers : CharClass → Option Char → Prop
  | .digit, o => ∃ c ∈ o, c.isDigit = true
  | .letter, o => ∃ c ∈ o, c.isAlpha = true
  | .dot, o => o = some '.'
  | .hyphen, o => o = some '-'
  | .plus, o => o = some '+'
  | .endOfInput, o => o = none
  | .illegal, _ => True

theorem CharClass.covers_of (o : Option Char) : (CharClass.of o).Covers o := by
  cases o with
  | none => rfl
  | some c =>
      dsimp only [CharClass.of]
      split_ifs with hDigit hLetter hDot hHyphen hPlus
      · exact ⟨c, rfl, hDigit⟩
      · exact ⟨c, rfl, hLetter⟩
      · exact congrArg some hDot
      · exact congrArg some hHyphen
      · exact congrArg some hPlus
      · trivial

/-- A character of a class, or the end of the text for the class of that. -/
def CharClass.sample : CharClass → Option Char
  | .digit => some '0'
  | .letter => some 'a'
  | .dot => some '.'
  | .hyphen => some '-'
  | .plus => some '+'
  | .endOfInput => none
  | .illegal => some '$'

theorem CharClass.of_sample (k : CharClass) : CharClass.of k.sample = k := by
  cases k <;> rfl

theorem CharClass.covers_of_eq {o : Option Char} {k : CharClass} (hClass : CharClass.of o = k) :
    k.Covers o := by
  rw [← hClass]
  exact covers_of o

namespace Literal

open Text

variable {slot : Slot} {mode : Mode} {cause : Cause} {us rest : List Char}

theorem StopsDigits.of_ne (hStop : StopsDigits rest) : CharClass.of rest.head? ≠ .digit := by
  intro hClass
  obtain ⟨c, hMem, hDigit⟩ := CharClass.covers_of_eq hClass
  rw [hStop c hMem] at hDigit
  cases hDigit

theorem StopsIdentifier.of_not_mem (hStop : StopsIdentifier rest) :
    CharClass.of rest.head? ∉ CharClass.ofIdentifier := by
  intro hMem
  simp only [CharClass.ofIdentifier, List.mem_cons, List.not_mem_nil, or_false] at hMem
  rcases hMem with hDigit | hLetter | hHyphen
  · exact hStop.stopsDigits.of_ne hDigit
  · obtain ⟨c, hMem, hLetter⟩ := CharClass.covers_of_eq hLetter
    have hOther := hStop c hMem
    simp [isIdentifierChar, Char.isAlphanum, hLetter] at hOther
  · have hOther := hStop '-' (CharClass.covers_of_eq hHyphen)
    cases hOther

theorem awaited_subset (slot : Slot) (rest : List Char) :
    awaited slot rest ⊆ CharClass.ofIdentifier := by
  unfold awaited
  split
  · exact List.Subset.refl _
  · decide

/-! ## What a fault says of the text -/

/-- What a fault says is so of the text that is left. -/
def Cause.Describes : Cause → List Char → Prop
  | .unexpected classes, rest => CharClass.of rest.head? ∉ classes
  | .emptyIdentifier, rest => endsIdentifier rest = true
  | .leadingZero, rest => hasLeadingZero rest = true
  | .tooLarge ds, rest => ds <+: rest ∧ Component.maximum < Decimal.value ds

/-- What is found is of no class that is named. -/
theorem Cause.Describes.of_not_mem (hDescribes : cause.Describes rest) :
    CharClass.of rest.head? ∉ cause.expected := by
  cases cause with
  | unexpected => exact hDescribes
  | emptyIdentifier => exact (stopsIdentifier_of_ends hDescribes).of_not_mem
  | leadingZero => exact List.not_mem_nil
  | tooLarge => exact List.not_mem_nil

theorem BreaksNumbers.describes {more : Nat} (hBreaks : BreaksNumbers mode more us cause rest) :
    cause.Describes rest := by
  induction hBreaks with
  | first hBreaks =>
      cases hBreaks with
      | noDigit hStop => exact fun hMem => hStop.of_ne (List.mem_singleton.1 hMem)
      | leadingZero _ hZero => exact hZero
      | tooLarge _ _ hLarge => exact ⟨List.prefix_append _ _, hLarge⟩
  | noDot _ _ hNoDot =>
      exact fun hMem => hNoDot (CharClass.covers_of_eq (List.mem_singleton.1 hMem))
  | later _ _ ih => exact ih

theorem BreaksIdentifiers.describes (hBreaks : BreaksIdentifiers slot mode us cause rest) :
    cause.Describes rest := by
  induction hBreaks with
  | first hBreaks =>
      cases hBreaks with
      | empty hEnds => exact hEnds
      | illegal _ hStop => exact fun hMem => hStop.of_not_mem (awaited_subset _ _ hMem)
      | leadingZero _ _ _ hZero => exact hZero
  | later _ _ ih => exact ih

theorem BreaksTag.describes (hBreaks : BreaksTag slot mode us cause rest) :
    cause.Describes rest := by
  cases hBreaks with
  | start hStop => exact hStop.of_not_mem
  | inside _ hBreaks => exact hBreaks.describes

theorem BreaksTags.describes (hBreaks : BreaksTags mode us cause rest) : cause.Describes rest := by
  cases hBreaks with
  | @noMark c rest hHyphen hPlus =>
      intro hMem
      simp only [List.mem_cons, List.not_mem_nil, or_false] at hMem
      rcases hMem with hClass | hClass | hClass
      · exact hHyphen (Option.some.inj (CharClass.covers_of_eq hClass))
      · exact hPlus (Option.some.inj (CharClass.covers_of_eq hClass))
      · exact nomatch CharClass.covers_of_eq hClass
  | preRelease hBreaks => exact hBreaks.describes
  | noPlus _ _ hMore hPlus =>
      intro hMem
      simp only [List.mem_cons, List.not_mem_nil, or_false] at hMem
      rcases hMem with hClass | hClass
      · exact hPlus (CharClass.covers_of_eq hClass)
      · exact hMore (List.head?_eq_none_iff.1 (CharClass.covers_of_eq hClass))
  | build _ hBreaks =>
      cases hBreaks with
      | inside hBreaks => exact hBreaks.describes
      | behind _ _ hMore =>
          intro hMem
          have hClass := List.mem_singleton.1 hMem
          exact hMore (List.head?_eq_none_iff.1 (CharClass.covers_of_eq hClass))

/-- No fault says of a text what is not so. -/
theorem BreaksVersion.describes (hBreaks : BreaksVersion mode us cause rest) :
    cause.Describes rest := by
  cases hBreaks with
  | core hBreaks => exact hBreaks.describes
  | tags _ _ hBreaks => exact hBreaks.describes

/-! ## Every class that is named may follow -/

/-- The classes that may follow where a fault is: those it names or, where it is about a number,
that of the digits. -/
def Cause.viable : Cause → List CharClass
  | .unexpected classes => classes
  | .emptyIdentifier => CharClass.ofIdentifier
  | .leadingZero => [.digit]
  | .tooLarge _ => [.digit]

theorem Cause.mem_viable {k : CharClass} (hMem : k ∈ cause.expected) : k ∈ cause.viable := by
  cases cause with
  | unexpected => exact hMem
  | emptyIdentifier => exact hMem
  | leadingZero => exact absurd hMem List.not_mem_nil
  | tooLarge => exact absurd hMem List.not_mem_nil

/-- Each of the classes, of which there is one, starts a text that makes up a phrase behind what
was got through. -/
def Allows (phrase : List Char → Prop) (us : List Char) (classes : List CharClass) : Prop :=
  classes ≠ [] ∧ ∀ k ∈ classes, ∃ rest, rest.head? = k.sample ∧ phrase (us ++ rest)

theorem Allows.map {phrase phrase' : List Char → Prop} {us us' : List Char}
    {classes : List CharClass} (hAllows : Allows phrase us classes)
    (hPhrase : ∀ rest, phrase (us ++ rest) → phrase' (us' ++ rest)) :
    Allows phrase' us' classes := by
  refine ⟨hAllows.1, fun k hMem => ?_⟩
  obtain ⟨rest, hClass, hRest⟩ := hAllows.2 k hMem
  exact ⟨rest, hClass, hPhrase rest hRest⟩

theorem allows_singleton {phrase : List Char → Prop} {k : CharClass}
    (hClass : rest.head? = k.sample) (hPhrase : phrase (us ++ rest)) :
    Allows phrase us [k] :=
  ⟨List.cons_ne_nil _ _, List.forall_mem_singleton.2 ⟨rest, hClass, hPhrase⟩⟩

/-- Numbers with dots between them. After the first of them stand as many as the index says. -/
inductive SpellsNumbers (mode : Mode) : Nat → List Char → Prop where
  | one {ds : List Char} {c : Component} (hSpells : SpellsComponent mode ds c) :
      SpellsNumbers mode 0 ds
  | more {n : Nat} {ds cs : List Char} {c : Component} (hSpells : SpellsComponent mode ds c)
      (hRest : SpellsNumbers mode n cs) : SpellsNumbers mode (n + 1) (ds ++ '.' :: cs)

theorem SpellsNumbers.exists_core {cs : List Char} (hSpells : SpellsNumbers mode 3 cs) :
    ∃ c, SpellsCore mode cs c := by
  obtain - | ⟨hMajor, hSpells⟩ := hSpells
  obtain - | ⟨hMinor, hSpells⟩ := hSpells
  obtain - | ⟨hBuild, hSpells⟩ := hSpells
  obtain hSubBuild | - := hSpells
  exact ⟨⟨_, _, _, _⟩, .dotted hMajor hMinor hBuild hSubBuild⟩

/-- Zeros with dots between them. -/
def zeros : Nat → List Char
  | 0 => ['0']
  | n + 1 => '0' :: '.' :: zeros n

theorem spellsNumbers_zeros (mode : Mode) (n : Nat) : SpellsNumbers mode n (zeros n) := by
  have hZero : SpellsComponent mode ['0'] 0 := spellsComponent_digits mode 0
  induction n with
  | zero => exact .one hZero
  | succ n ih => exact .more hZero ih

theorem head?_zeros (n : Nat) : (zeros n).head? = some '0' := by
  cases n <;> rfl

theorem BreaksNumbers.allows {more : Nat} (hBreaks : BreaksNumbers mode more us cause rest) :
    Allows (SpellsNumbers mode more) us cause.viable := by
  induction hBreaks with
  | @first more _ _ hBreaks =>
      have hDigit : Allows (SpellsNumbers mode more) [] [.digit] :=
        allows_singleton (head?_zeros more) (spellsNumbers_zeros mode more)
      cases hBreaks with
      | noDigit => exact hDigit
      | leadingZero => exact hDigit
      | tooLarge => exact hDigit
  | @noDot more _ _ _ hSpells =>
      have hRest : SpellsNumbers mode (more + 1) (_ ++ '.' :: zeros more) :=
        .more hSpells (spellsNumbers_zeros mode more)
      exact allows_singleton rfl hRest
  | later hSpells _ ih =>
      refine (ih).map fun rest hRest => ?_
      rw [List.append_assoc, List.cons_append]
      exact .more hSpells hRest

/-- A text that may stand in a slot. -/
def IsTag (slot : Slot) (mode : Mode) (cs : List Char) : Prop := ∃ t, SpellsTag slot mode cs t

theorem isTag_zero (slot : Slot) (mode : Mode) : IsTag slot mode ['0'] :=
  ⟨_, .one (i := .ofNat 0) fun _ _ _ => Decimal.noLeadingZero_digits 0⟩

/-- A zero, a letter or a hyphen is a tag by itself. -/
theorem allows_ofIdentifier (slot : Slot) (mode : Mode) :
    Allows (IsTag slot mode) [] CharClass.ofIdentifier := by
  refine ⟨by decide, ?_⟩
  simp only [CharClass.ofIdentifier, List.forall_mem_cons]
  refine ⟨⟨['0'], rfl, ?_⟩, ⟨['a'], rfl, ?_⟩, ⟨['-'], rfl, ?_⟩, List.forall_mem_nil _⟩
  · exact isTag_zero slot mode
  · exact ⟨_, .one (i := ⟨['a'], by decide, List.all_eq_true.1 rfl⟩) fun _ _ h => nomatch h⟩
  · exact ⟨_, .one (i := ⟨['-'], by decide, List.all_eq_true.1 rfl⟩) fun _ _ h => nomatch h⟩

theorem BreaksIdentifiers.allows (hBreaks : BreaksIdentifiers slot mode us cause rest) :
    Allows (IsTag slot mode) us cause.viable := by
  induction hBreaks with
  | first hBreaks =>
      cases hBreaks with
      | empty => exact allows_ofIdentifier slot mode
      | illegal =>
          refine ⟨?_, fun k hMem => ?_⟩
          · show awaited slot _ ≠ []
            unfold awaited
            split <;> decide
          · exact (allows_ofIdentifier slot mode).2 k (awaited_subset slot _ hMem)
      | leadingZero =>
          have hZero : IsTag slot mode ([] ++ ['0']) := isTag_zero slot mode
          exact allows_singleton rfl hZero
  | later hAdmits _ ih =>
      refine (ih).map fun rest hRest => ?_
      obtain ⟨t, hSpells⟩ := hRest
      rw [List.append_assoc, List.cons_append]
      exact ⟨_, .more hAdmits hSpells⟩

theorem BreaksTag.allows (hBreaks : BreaksTag slot mode us cause rest) :
    Allows (IsTag slot mode) us cause.viable := by
  cases hBreaks with
  | start => exact allows_ofIdentifier slot mode
  | inside _ hBreaks => exact hBreaks.allows

theorem BreaksBuild.allows (hBreaks : BreaksBuild mode us cause rest) :
    Allows (IsTag .build mode) us cause.viable := by
  cases hBreaks with
  | inside hBreaks => exact hBreaks.allows
  | behind hSpells =>
      have hEnd : IsTag .build mode (us ++ []) := by
        rw [List.append_nil]
        exact ⟨_, hSpells⟩
      exact allows_singleton rfl hEnd

/-- A text that may stand behind a core. -/
def IsTags (mode : Mode) (cs : List Char) : Prop := ∃ p b, SpellsTags mode cs p b

theorem IsTag.isTags_preRelease {cs : List Char} (hTag : IsTag .preRelease mode cs) :
    IsTags mode ('-' :: cs) := by
  obtain ⟨p, hSpells⟩ := hTag
  exact ⟨some p, none, .preRelease hSpells⟩

theorem IsTag.isTags_build {ps cs : List Char} {p : Option Tag}
    (hBefore : SpellsTags mode ps p none) (hTag : IsTag .build mode cs) :
    IsTags mode (ps ++ '+' :: cs) := by
  obtain ⟨b, hSpells⟩ := hTag
  cases hBefore with
  | neither => exact ⟨none, some b, .build hSpells⟩
  | preRelease hPreRelease => exact ⟨_, some b, .both hPreRelease hSpells⟩

/-- With a letter behind it, what is read as a tag is one, whatever the search found. -/
theorem ReadsTag.isTag_append_letter {t : Tag} (hReads : ReadsTag slot mode rest us t) :
    IsTag slot mode (us ++ ['a']) := by
  induction hReads with
  | @one i =>
      have hChars : ∀ c ∈ i.chars ++ ['a'], isIdentifierChar c = true :=
        List.forall_mem_append.2 ⟨i.all_mem, List.forall_mem_singleton.2 rfl⟩
      refine ⟨_, .one (i := ⟨i.chars ++ ['a'], by simp, hChars⟩) fun _ _ hNumeric => ?_⟩
      have hLetter := List.all_eq_true.1 hNumeric 'a' (by simp)
      cases hLetter
  | more hAdmits _ ih =>
      obtain ⟨t, hSpells⟩ := ih
      rw [List.append_assoc, List.cons_append]
      exact ⟨_, .more hAdmits hSpells⟩

theorem BreaksTags.allows (hBreaks : BreaksTags mode us cause rest) :
    Allows (IsTags mode) us cause.viable ∨
      mode = .strict ∧ cause.IsMisfit ∧ IsTags mode (us ++ ['a']) := by
  cases hBreaks with
  | noMark =>
      refine .inl ⟨by decide, ?_⟩
      simp only [Cause.viable, List.forall_mem_cons]
      refine ⟨⟨['-', '0'], rfl, ?_⟩, ⟨['+', '0'], rfl, ?_⟩, ⟨[], rfl, ?_⟩, List.forall_mem_nil _⟩
      · exact (isTag_zero .preRelease _).isTags_preRelease
      · exact (isTag_zero .build _).isTags_build .neither
      · exact ⟨none, none, .neither⟩
  | preRelease hBreaks => exact .inl ((hBreaks.allows).map fun _ => IsTag.isTags_preRelease)
  | noPlus hReads =>
      cases mode with
      | strict => exact .inr ⟨rfl, trivial, hReads.isTag_append_letter.isTags_preRelease⟩
      | lenient =>
          have hSpells := hReads.spellsTag_lenient
          refine .inl ⟨by decide, ?_⟩
          simp only [Cause.viable, List.forall_mem_cons]
          refine ⟨⟨['+', '0'], rfl, ?_⟩, ⟨[], rfl, ?_⟩, List.forall_mem_nil _⟩
          · exact (isTag_zero .build _).isTags_build (.preRelease hSpells)
          · rw [List.append_nil]
            exact ⟨_, none, .preRelease hSpells⟩
  | build hBefore hBreaks =>
      refine .inl ((hBreaks.allows).map fun rest hRest => ?_)
      rw [List.append_assoc, List.cons_append]
      exact hRest.isTags_build hBefore

/-- A text that is a version literal in a mode. -/
def IsVersion (mode : Mode) (cs : List Char) : Prop := ∃ v, SpellsVersion mode cs v

theorem IsTags.isVersion {ds cs : List Char} {c : Core} (hCore : SpellsCore mode ds c)
    (hTags : IsTags mode cs) : IsVersion mode (ds ++ cs) := by
  obtain ⟨p, b, hSpells⟩ := hTags
  exact ⟨⟨c, p, b⟩, .core hCore hSpells⟩

theorem BreaksVersion.allows (hBreaks : BreaksVersion mode us cause rest) :
    Allows (IsVersion mode) us cause.viable ∨
      mode = .strict ∧ cause.IsMisfit ∧ IsVersion mode (us ++ ['a']) := by
  cases hBreaks with
  | core hBreaks =>
      refine .inl ((hBreaks.allows).map fun rest hRest => ?_)
      obtain ⟨c, hCore⟩ := hRest.exists_core
      have hVersion := IsTags.isVersion hCore ⟨none, none, .neither⟩
      rwa [List.append_nil] at hVersion
  | tags hCore _ hBreaks =>
      rcases hBreaks.allows with hAllows | ⟨hStrict, hMisfit, hTags⟩
      · refine .inl (hAllows.map fun rest hRest => ?_)
        rw [List.append_assoc]
        exact hRest.isVersion hCore
      · rw [List.append_assoc]
        exact .inr ⟨hStrict, hMisfit, hTags.isVersion hCore⟩

/-- What was got through is the beginning of a literal. -/
theorem BreaksVersion.exists_isVersion (hBreaks : BreaksVersion mode us cause rest) :
    ∃ rest', IsVersion mode (us ++ rest') := by
  rcases hBreaks.allows with ⟨hNe, hAllows⟩ | ⟨-, -, hVersion⟩
  · obtain ⟨k, hMem⟩ := List.exists_mem_of_ne_nil _ hNe
    obtain ⟨rest', -, hVersion⟩ := hAllows k hMem
    exact ⟨rest', hVersion⟩
  · exact ⟨['a'], hVersion⟩

/-- What a reader breaks off in is no literal. -/
theorem BreaksVersion.not_isVersion (hBreaks : BreaksVersion mode us cause rest) :
    ¬ IsVersion mode (us ++ rest) := by
  rintro ⟨v, hSpells⟩
  have hText : (String.ofList (us ++ rest)).toList = us ++ rest := String.toList_ofList
  have hRead : Version.parseIn mode (String.ofList (us ++ rest)) = .ok v := by
    rw [Version.parseIn_eq_ok_iff, hText]
    exact hSpells
  have hError : Version.parseIn mode (String.ofList (us ++ rest)) =
      .error ⟨cause, us.length, rest.head?⟩ :=
    Version.parseIn_eq_error_iff.2 ⟨us, rest, hText, hBreaks, rfl, rfl⟩
  rw [hRead] at hError
  cases hError

/-- Nothing that starts with what was got through and the character found there is a literal. -/
theorem BreaksVersion.not_isVersion_append {c : Char} (hMisfit : cause.IsMisfit)
    (hBreaks : BreaksVersion mode us cause (c :: rest)) (rest' : List Char) :
    ¬ IsVersion mode (us ++ c :: rest') := by
  rintro ⟨v, hSpells⟩
  have hCause : cause ≠ .leadingZero := by
    rintro rfl
    exact hMisfit
  have hHead : (c :: rest).head? = (c :: rest').head? := rfl
  obtain ⟨cause', hBreaks', -⟩ := (hBreaks.lenient hCause).replace hHead hMisfit (.inl rfl)
  exact hBreaks'.not_isVersion ⟨v, hSpells.lenient⟩

end Literal

namespace Version

open Literal

/-- Some text that is read in a mode starts so. -/
def Begins (mode : Mode) (us : List Char) : Prop :=
  ∃ rest v, parseIn mode (String.ofList (us ++ rest)) = .ok v

/-- Some text that is read in a mode starts so and goes on with a character, or ends there. -/
def MayFollow (mode : Mode) (us : List Char) : Option Char → Prop
  | some c => Begins mode (us ++ [c])
  | none => ∃ v, parseIn mode (String.ofList us) = .ok v

variable {mode : Mode} {us rest : List Char}

theorem isVersion_iff : IsVersion mode us ↔ ∃ v, parseIn mode (String.ofList us) = .ok v := by
  simp only [parseIn_eq_ok_iff, String.toList_ofList, IsVersion]

theorem begins_iff : Begins mode us ↔ ∃ rest, IsVersion mode (us ++ rest) := by
  simp only [isVersion_iff, Begins]

theorem mayFollow_of_isVersion (hVersion : IsVersion mode (us ++ rest)) :
    MayFollow mode us rest.head? := by
  cases rest with
  | nil =>
      rw [List.append_nil] at hVersion
      exact isVersion_iff.1 hVersion
  | cons c rest =>
      rw [List.append_cons] at hVersion
      exact begins_iff.2 ⟨rest, hVersion⟩

/-- **Character diagnostics.** A character fault is at a place of the text, or at its end, and
shows what stands there, which is of no class that is named. Up to that place the text is the
beginning of some literal of the mode, and together with the character found there it is not. In
the lenient mode a literal may go on from there with a character of each class that is named. -/
theorem parseIn_misfit_error {mode : Mode} {s : String} {e : Literal.Error}
    (hError : parseIn mode s = .error e) (hMisfit : e.cause.IsMisfit) :
    e.position ≤ s.toList.length ∧ e.found = s.toList[e.position]? ∧
      (e.found = none ↔ e.position = s.toList.length) ∧
      CharClass.of e.found ∉ e.cause.expected ∧
      Begins mode (s.toList.take e.position) ∧
      (e.found ≠ none → ¬ Begins mode (s.toList.take (e.position + 1))) ∧
      (mode = .lenient → ∀ k ∈ e.cause.expected, ∃ o, CharClass.of o = k ∧
        MayFollow mode (s.toList.take e.position) o) := by
  obtain ⟨us, rest, hText, hBreaks, hPosition, hFound⟩ := parseIn_eq_error_iff.1 hError
  have hPlace : rest.head? = (us ++ rest)[us.length]? := by
    rw [List.getElem?_append_right (Nat.le_refl _), Nat.sub_self, List.head?_eq_getElem?]
  rw [hFound, hPosition, hText, List.take_left]
  refine ⟨by simp, hPlace, by simp, hBreaks.describes.of_not_mem,
    begins_iff.2 hBreaks.exists_isVersion,
    fun hMore => ?_, fun hLenient k hMem => ?_⟩
  · obtain ⟨c, hHead⟩ := Option.ne_none_iff_exists'.1 hMore
    obtain ⟨vs, rfl⟩ := List.head?_eq_some_iff.1 hHead
    rw [List.take_length_add_append, List.take_succ_cons, List.take_zero, begins_iff]
    rintro ⟨rest', hVersion⟩
    rw [← List.append_cons] at hVersion
    exact hBreaks.not_isVersion_append hMisfit rest' hVersion
  · rcases hBreaks.allows with ⟨-, hAllows⟩ | ⟨rfl, -⟩
    · obtain ⟨rest', hHead, hVersion⟩ := hAllows k (Cause.mem_viable hMem)
      rw [← CharClass.of_sample k, ← hHead]
      exact ⟨rest'.head?, rfl, mayFollow_of_isVersion hVersion⟩
    · cases hLenient

/-- The letter that made an alphanumeric identifier be looked for stands behind the fault. -/
theorem parseIn_error_at_illegal_character :
    Version.parseLenient "1.0.0.0-rc.$1a" =
        .error ⟨.unexpected CharClass.ofIdentifier, 11, some '$'⟩ ∧
      Begins .lenient "1.0.0.0-rc.".toList ∧ ¬ Begins .lenient "1.0.0.0-rc.$".toList := by
  have hError : parseIn .lenient "1.0.0.0-rc.$1a" =
      .error ⟨.unexpected CharClass.ofIdentifier, 11, some '$'⟩ := by
    decide +kernel
  obtain ⟨-, -, -, -, hBegins, hNot, -⟩ := parseIn_misfit_error hError trivial
  exact ⟨hError, hBegins, hNot (by decide)⟩

end Version

end Versioning
