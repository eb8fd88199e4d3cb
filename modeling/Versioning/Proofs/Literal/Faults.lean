import Versioning.Proofs.Literal.Reading

/-!
# The grammar of faults

Where reading a text as a version literal breaks off, and why. As the grammar of
literals does for what is read, the relations of this module say it without
reading: `BreaksVersion mode us cause rest` holds when reading `us ++ rest` gets
through `us` and no further, and `cause` is what it reports of `rest`. A phrase
breaks off in its first part or, behind a first part that is in order, in what
follows, so each relation has the shape of its phrase.

A reader sees little of the text that it does not get to. Of `rest` it sees the
first character, two where a leading zero is looked for, and all digits of a
number that turns out too large. One question reaches further: at the start of an
identifier the text up to the next mark is searched for a letter or hyphen. Its
answer decides which classes an illegal character there is reported to stand in
the way of (`awaited`).

## Main results

* `identifiers_eq_error_iff`, `tag_eq_error_iff`, `core_eq_error_iff` — the readers by their faults.
* `parseIn_eq_error_iff` — every text that is refused, with its fault and the place of it.
-/

namespace Versioning.Literal

open Outcome Text

variable {slot : Slot} {mode : Mode} {cause : Cause} {cs rest : List Char}

/-- A character fault: what stands at a place does not fit there. The other faults are about the
number that starts at their place. -/
def Cause.IsMisfit : Cause → Prop
  | .unexpected _ => True
  | .emptyIdentifier => True
  | .leadingZero => False
  | .tooLarge _ => False

instance (cause : Cause) : Decidable cause.IsMisfit := by
  cases cause <;> unfold Cause.IsMisfit <;> infer_instance

/-! ## Numbers -/

/-- A number that a component could be breaks off before its first digit. -/
inductive BreaksComponent (mode : Mode) : Cause → List Char → Prop where
  | noDigit {rest : List Char} (hStop : StopsDigits rest) :
      BreaksComponent mode (.unexpected [.digit]) rest
  | leadingZero {rest : List Char} (hStrict : mode = .strict) (hZero : hasLeadingZero rest = true) :
      BreaksComponent mode .leadingZero rest
  | tooLarge {r : Run Char.isDigit} {rest : List Char} (hStop : StopsDigits rest)
      (hPlain : mode = .strict → Decimal.NoLeadingZero r.chars)
      (hLarge : Component.maximum < Decimal.value r.chars) :
      BreaksComponent mode (.tooLarge r.chars) (r.chars ++ rest)

/-- Numbers with dots between them break off. After the first of them, as many as the index says
must follow. -/
inductive BreaksNumbers (mode : Mode) : Nat → List Char → Cause → List Char → Prop where
  | first {more : Nat} {cause : Cause} {rest : List Char}
      (hBreaks : BreaksComponent mode cause rest) : BreaksNumbers mode more [] cause rest
  | noDot {more : Nat} {ds rest : List Char} {c : Component} (hSpells : SpellsComponent mode ds c)
      (hStop : StopsDigits rest) (hNoDot : rest.head? ≠ some '.') :
      BreaksNumbers mode (more + 1) ds (.unexpected [.dot]) rest
  | later {more : Nat} {ds us rest : List Char} {c : Component} {cause : Cause}
      (hSpells : SpellsComponent mode ds c) (hBreaks : BreaksNumbers mode more us cause rest) :
      BreaksNumbers mode (more + 1) (ds ++ '.' :: us) cause rest

theorem read?_eq_none_iff {p : Char → Bool} :
    Run.read? p cs = none ↔ ∀ c ∈ cs.head?, p c = false := by
  unfold Run.read?
  cases cs with
  | nil => simp
  | cons c cs =>
      cases hClass : p c <;> simp [hClass]

theorem run_eq_error_iff {p : Char → Bool} {expected : List CharClass} :
    run p expected cs = .error ⟨cause, rest⟩ ↔
      rest = cs ∧ cause = .unexpected expected ∧ ∀ c ∈ cs.head?, p c = false := by
  unfold run
  rw [← read?_eq_none_iff]
  cases Run.read? p cs with
  | none => simp [fail, and_comm, eq_comm]
  | some x => simp

/-- Where no digit is, no zero is in front of one. -/
theorem hasLeadingZero_of_stopsDigits (hStop : StopsDigits cs) : hasLeadingZero cs = false := by
  unfold hasLeadingZero
  split
  · cases hStop '0' rfl
  · rfl

theorem number_eq_error_iff :
    number mode cs = .error ⟨cause, rest⟩ ↔ rest = cs ∧
      (mode = .strict ∧ hasLeadingZero cs = true ∧ cause = .leadingZero ∨
        StopsDigits cs ∧ cause = .unexpected [.digit]) := by
  unfold number
  by_cases hRefused : mode = .strict ∧ hasLeadingZero cs = true
  · rw [if_pos hRefused]
    have hDigit : ¬ StopsDigits cs := by
      intro hStop
      rw [hasLeadingZero_of_stopsDigits hStop] at hRefused
      cases hRefused.2
    simp [fail, hRefused, hDigit, and_comm, eq_comm]
  · rw [if_neg hRefused, run_eq_error_iff]
    have hNotRefused : ¬ (mode = .strict ∧ hasLeadingZero cs = true ∧ cause = .leadingZero) :=
      fun h => hRefused ⟨h.1, h.2.1⟩
    rw [or_iff_right hNotRefused, and_comm (a := StopsDigits cs)]
    rfl

theorem component_eq_error_iff :
    component mode cs = .error ⟨cause, rest⟩ ↔ rest = cs ∧ BreaksComponent mode cause cs := by
  constructor
  · intro hError
    rcases bind_eq_error_iff.1 hError with hNumber | ⟨⟨r, us⟩, hNumber, hValue⟩
    · obtain ⟨rfl, ⟨hStrict, hZero, rfl⟩ | ⟨hStop, rfl⟩⟩ := number_eq_error_iff.1 hNumber
      · exact ⟨rfl, .leadingZero hStrict hZero⟩
      · exact ⟨rfl, .noDigit hStop⟩
    · obtain ⟨rfl, hStop, hPlain⟩ := number_eq_ok_iff.1 hNumber
      cases hDigits : Component.ofDigits? r.chars with
      | none =>
          simp only [hDigits] at hValue
          cases hValue
          exact ⟨rfl, .tooLarge hStop hPlain (Component.ofNat?_eq_none_iff.1 hDigits)⟩
      | some c =>
          simp only [hDigits] at hValue
          cases hValue
  · rintro ⟨rfl, hBreaks⟩
    cases hBreaks with
    | noDigit hStop =>
        exact bind_eq_error_iff.2 (.inl (number_eq_error_iff.2 ⟨rfl, .inr ⟨hStop, rfl⟩⟩))
    | leadingZero hStrict hZero =>
        exact bind_eq_error_iff.2
          (.inl (number_eq_error_iff.2 ⟨rfl, .inl ⟨hStrict, hZero, rfl⟩⟩))
    | @tooLarge r rest hStop hPlain hLarge =>
        have hDigits : Component.ofDigits? r.chars = none := Component.ofNat?_eq_none_iff.2 hLarge
        refine bind_eq_error_iff.2 (.inr ⟨_, number_eq_ok_iff.2 ⟨rfl, hStop, hPlain⟩, ?_⟩)
        simp only [hDigits]
        rfl

theorem dot_eq_error_iff :
    dot cs = .error ⟨cause, rest⟩ ↔
      rest = cs ∧ cause = .unexpected [.dot] ∧ cs.head? ≠ some '.' := by
  unfold dot
  split
  · simp
  · rename_i hOther
    have hNoDot : cs.head? ≠ some '.' := by
      intro hDot
      obtain ⟨us, rfl⟩ := List.head?_eq_some_iff.1 hDot
      exact hOther us rfl
    simp [fail, hNoDot, and_comm, eq_comm]

/-- One number more in front: what follows its dot breaks off, if nothing before does. -/
theorem numbers_eq_error_iff {α : Type} {more : Nat}
    {behind : Component × List Char → Except Failure α}
    {f : Component → List Char → Except Failure α}
    (hDot : ∀ c vs, behind (c, vs) = dot vs >>= f c)
    (hRest : ∀ c vs, f c vs = .error ⟨cause, rest⟩ ↔
      ∃ us, vs = us ++ rest ∧ BreaksNumbers mode more us cause rest) :
    component mode cs >>= behind = .error ⟨cause, rest⟩ ↔
      ∃ us, cs = us ++ rest ∧ BreaksNumbers mode (more + 1) us cause rest := by
  constructor
  · intro hError
    rcases bind_eq_error_iff.1 hError with hFirst | ⟨⟨c, vs⟩, hFirst, hBehind⟩
    · obtain ⟨rfl, hBreaks⟩ := component_eq_error_iff.1 hFirst
      exact ⟨[], rfl, .first hBreaks⟩
    · obtain ⟨ds, hSpells, rfl, hStop⟩ := component_eq_ok_iff.1 hFirst
      rw [hDot] at hBehind
      rcases bind_eq_error_iff.1 hBehind with hMark | ⟨ws, hMark, hMore⟩
      · obtain ⟨rfl, rfl, hNoDot⟩ := dot_eq_error_iff.1 hMark
        exact ⟨ds, rfl, .noDot hSpells hStop hNoDot⟩
      · obtain rfl := dot_eq_ok_iff.1 hMark
        obtain ⟨us, rfl, hBreaks⟩ := (hRest c ws).1 hMore
        exact ⟨_, by simp, .later hSpells hBreaks⟩
  · rintro ⟨us, rfl, hBreaks⟩
    cases hBreaks with
    | first hBreaks =>
        exact bind_eq_error_iff.2 (.inl (component_eq_error_iff.2 ⟨rfl, hBreaks⟩))
    | noDot hSpells hStop hNoDot =>
        refine bind_eq_error_iff.2 (.inr ⟨_, component_eq_ok_iff.2 ⟨us, hSpells, rfl, hStop⟩, ?_⟩)
        rw [hDot]
        exact bind_eq_error_iff.2 (.inl (dot_eq_error_iff.2 ⟨rfl, rfl, hNoDot⟩))
    | later hSpells hBreaks =>
        rw [List.append_assoc, List.cons_append]
        refine bind_eq_error_iff.2 (.inr ⟨_, component_append_dot hSpells, ?_⟩)
        rw [hDot]
        exact bind_eq_error_iff.2 (.inr ⟨_, rfl, (hRest _ _).2 ⟨_, rfl, hBreaks⟩⟩)

/-- A core breaks off where four numbers do. -/
theorem core_eq_error_iff :
    core mode cs = .error ⟨cause, rest⟩ ↔
      ∃ us, cs = us ++ rest ∧ BreaksNumbers mode 3 us cause rest := by
  unfold core
  refine numbers_eq_error_iff (fun _ _ => rfl) fun major cs => ?_
  refine numbers_eq_error_iff (fun _ _ => rfl) fun minor cs => ?_
  refine numbers_eq_error_iff (fun _ _ => rfl) fun build cs => ?_
  constructor
  · intro hError
    rcases bind_eq_error_iff.1 hError with hLast | ⟨x, -, h⟩
    · obtain ⟨rfl, hBreaks⟩ := component_eq_error_iff.1 hLast
      exact ⟨[], rfl, .first hBreaks⟩
    · cases h
  · rintro ⟨us, rfl, ⟨hBreaks⟩⟩
    exact bind_eq_error_iff.2 (.inl (component_eq_error_iff.2 ⟨rfl, hBreaks⟩))

/-! ## Tags -/

/-- The classes that an illegal character is reported to stand in the way of at the start of an
identifier. Letters and hyphens are among them only if one of them is found ahead. -/
def awaited (slot : Slot) (rest : List Char) : List CharClass :=
  if looksAlphanumeric slot rest then CharClass.ofIdentifier else [.digit]

/-- An identifier breaks off before its first character. -/
inductive BreaksIdentifier (slot : Slot) (mode : Mode) : Cause → List Char → Prop where
  | empty {rest : List Char} (hEnds : endsIdentifier rest = true) :
      BreaksIdentifier slot mode .emptyIdentifier rest
  | illegal {rest : List Char} (hInside : endsIdentifier rest = false)
      (hStop : StopsIdentifier rest) :
      BreaksIdentifier slot mode (.unexpected (awaited slot rest)) rest
  | leadingZero {rest : List Char} (hSlot : slot = .preRelease) (hStrict : mode = .strict)
      (hLooks : looksAlphanumeric slot rest = false) (hZero : hasLeadingZero rest = true) :
      BreaksIdentifier slot mode .leadingZero rest

/-- Identifiers with dots between them break off. -/
inductive BreaksIdentifiers (slot : Slot) (mode : Mode) : List Char → Cause → List Char → Prop where
  | first {cause : Cause} {rest : List Char} (hBreaks : BreaksIdentifier slot mode cause rest) :
      BreaksIdentifiers slot mode [] cause rest
  | later {i : Identifier} {us rest : List Char} {cause : Cause} (hAdmits : Admits slot mode i)
      (hBreaks : BreaksIdentifiers slot mode us cause rest) :
      BreaksIdentifiers slot mode (i.chars ++ '.' :: us) cause rest

/-- A tag breaks off before its first character or, if that is one of an identifier, as its
identifiers do. -/
inductive BreaksTag (slot : Slot) (mode : Mode) : List Char → Cause → List Char → Prop where
  | start {rest : List Char} (hStop : StopsIdentifier rest) :
      BreaksTag slot mode [] (.unexpected CharClass.ofIdentifier) rest
  | inside {us rest : List Char} {cause : Cause} (hStart : ¬ StopsIdentifier (us ++ rest))
      (hBreaks : BreaksIdentifiers slot mode us cause rest) : BreaksTag slot mode us cause rest

theorem exists_cons_of_hasLeadingZero (hZero : hasLeadingZero cs = true) :
    ∃ c us, cs = '0' :: c :: us ∧ c.isDigit = true := by
  unfold hasLeadingZero at hZero
  split at hZero
  · exact ⟨_, _, rfl, hZero⟩
  · cases hZero

theorem identifier_eq_error_iff :
    identifier slot mode cs = .error ⟨cause, rest⟩ ↔
      rest = cs ∧ BreaksIdentifier slot mode cause cs := by
  unfold identifier
  constructor
  · intro hError
    by_cases hEnds : endsIdentifier cs = true
    · rw [if_pos hEnds] at hError
      cases hError
      exact ⟨rfl, .empty hEnds⟩
    rw [if_neg hEnds] at hError
    rw [Bool.not_eq_true] at hEnds
    by_cases hLooks : looksAlphanumeric slot cs = true
    · rw [if_pos hLooks, map_eq_error_iff, run_eq_error_iff] at hError
      obtain ⟨rfl, rfl, hStop⟩ := hError
      have hBreaks : BreaksIdentifier slot mode _ rest := .illegal hEnds hStop
      rw [awaited, if_pos hLooks] at hBreaks
      exact ⟨rfl, hBreaks⟩
    · rw [if_neg hLooks, map_eq_error_iff] at hError
      rw [Bool.not_eq_true] at hLooks
      have hNumber : rest = cs ∧ (StopsDigits cs ∧ cause = .unexpected [.digit] ∨
          slot = .preRelease ∧ mode = .strict ∧ hasLeadingZero cs = true ∧
            cause = .leadingZero) := by
        cases slot with
        | preRelease =>
            obtain ⟨hRest, hZero | hStop⟩ := number_eq_error_iff.1 hError
            · exact ⟨hRest, .inr ⟨rfl, hZero⟩⟩
            · exact ⟨hRest, .inl hStop⟩
        | build =>
            obtain ⟨hRest, hCause, hStop⟩ := run_eq_error_iff.1 hError
            exact ⟨hRest, .inl ⟨hStop, hCause⟩⟩
      obtain ⟨rfl, ⟨hStop, rfl⟩ | ⟨hSlot, hStrict, hZero, rfl⟩⟩ := hNumber
      · have hBreaks : BreaksIdentifier slot mode _ rest :=
          .illegal hEnds (stopsIdentifier_of_stopsDigits hStop hLooks)
        rw [awaited, hLooks] at hBreaks
        exact ⟨rfl, hBreaks⟩
      · exact ⟨rfl, .leadingZero hSlot hStrict hLooks hZero⟩
  · rintro ⟨rfl, hBreaks⟩
    cases hBreaks with
    | empty hEnds => rw [if_pos hEnds]; rfl
    | illegal hInside hStop =>
        rw [if_neg (by rw [hInside]; decide)]
        by_cases hLooks : looksAlphanumeric slot rest = true
        · rw [if_pos hLooks, map_eq_error_iff, awaited, if_pos hLooks]
          exact run_eq_error_iff.2 ⟨rfl, rfl, hStop⟩
        · rw [if_neg hLooks, map_eq_error_iff, awaited, if_neg hLooks]
          cases slot with
          | preRelease =>
              exact number_eq_error_iff.2 ⟨rfl, .inr ⟨hStop.stopsDigits, rfl⟩⟩
          | build => exact run_eq_error_iff.2 ⟨rfl, rfl, hStop.stopsDigits⟩
    | leadingZero hSlot hStrict hLooks hZero =>
        have hInside : endsIdentifier rest = false := by
          obtain ⟨c, us, rfl, -⟩ := exists_cons_of_hasLeadingZero hZero
          rfl
        subst hSlot
        rw [if_neg (by rw [hInside]; decide), if_neg (by rw [hLooks]; decide), map_eq_error_iff]
        exact number_eq_error_iff.2 ⟨rfl, .inl ⟨hStrict, hZero, rfl⟩⟩

/-- Identifiers break off where one of them does, by induction on the text in one direction and
on the fault in the other. -/
theorem breaksIdentifiers_of_error (cs : List Char)
    (hError : identifiers slot mode cs = .error ⟨cause, rest⟩) :
    ∃ us, cs = us ++ rest ∧ BreaksIdentifiers slot mode us cause rest := by
  rw [identifiers] at hError
  split at hError
  · rename_i hFirst
    cases hError
    obtain ⟨rfl, hBreaks⟩ := identifier_eq_error_iff.1 hFirst
    exact ⟨[], rfl, .first hBreaks⟩
  · rename_i i us hFirst
    have hShorter := length_lt_of_identifier hFirst
    obtain ⟨ws, rfl, hBreaks⟩ := breaksIdentifiers_of_error us (map_eq_error_iff.1 hError)
    obtain ⟨rfl, -, hAdmits⟩ := identifier_eq_ok_iff.1 hFirst
    exact ⟨_, by simp, .later (hAdmits.elim (admits_of_looksAlphanumeric rfl) id) hBreaks⟩
  · cases hError
termination_by cs.length
decreasing_by
  simp only [List.length_cons] at hShorter
  omega

theorem identifiers_eq_error_iff :
    identifiers slot mode cs = .error ⟨cause, rest⟩ ↔
      ∃ us, cs = us ++ rest ∧ BreaksIdentifiers slot mode us cause rest := by
  refine ⟨breaksIdentifiers_of_error cs, ?_⟩
  rintro ⟨us, rfl, hBreaks⟩
  induction hBreaks with
  | @first cause rest hBreaks =>
      have hFirst := identifier_eq_error_iff.2 ⟨rfl, hBreaks⟩
      rw [List.nil_append, identifiers]
      split
      · rename_i hError
        rw [hFirst] at hError
        cases hError
        rfl
      · rename_i hOk
        rw [hFirst] at hOk
        cases hOk
      · rename_i hOk
        rw [hFirst] at hOk
        cases hOk
  | later hAdmits _ ih =>
      rw [List.append_assoc, List.cons_append, identifiers_of_dot (identifier_append rfl hAdmits),
        map_eq_error_iff]
      exact ih

theorem tag_of_stops (hStop : StopsIdentifier cs) :
    tag slot mode cs = fail (.unexpected CharClass.ofIdentifier) cs := by
  cases cs with
  | nil => rfl
  | cons c cs =>
      have hChar : isIdentifierChar c = false := hStop c rfl
      rw [tag, if_neg (by rw [hChar]; decide)]

theorem tag_of_not_stops (hStart : ¬ StopsIdentifier cs) :
    tag slot mode cs = identifiers slot mode cs := by
  cases cs with
  | nil => exact absurd (fun c hMem => nomatch hMem) hStart
  | cons c cs =>
      apply tag_cons
      rw [← Bool.not_eq_false]
      intro hChar
      refine hStart fun d hMem => ?_
      cases hMem
      exact hChar

theorem tag_eq_error_iff :
    tag slot mode cs = .error ⟨cause, rest⟩ ↔
      ∃ us, cs = us ++ rest ∧ BreaksTag slot mode us cause rest := by
  by_cases hStop : StopsIdentifier cs
  · rw [tag_of_stops hStop]
    constructor
    · intro hError
      cases hError
      exact ⟨[], rfl, .start hStop⟩
    · rintro ⟨us, rfl, hBreaks⟩
      cases hBreaks with
      | start => rfl
      | inside hStart => exact absurd hStop hStart
  · rw [tag_of_not_stops hStop, identifiers_eq_error_iff]
    constructor
    · rintro ⟨us, rfl, hBreaks⟩
      exact ⟨us, rfl, .inside hStop hBreaks⟩
    · rintro ⟨us, rfl, hBreaks⟩
      cases hBreaks with
      | start hStop' => exact absurd hStop' hStop
      | inside _ hBreaks => exact ⟨us, rfl, hBreaks⟩

/-! ## Versions -/

/-- The reading of what should be the rest of the text gets no further than to a certain text:
either it breaks off there, or it ends there and should not. -/
def Stops {α : Type} (x : Except Failure (α × List Char)) (cause : Cause) (rest : List Char) :
    Prop :=
  x = .error ⟨cause, rest⟩ ∨ cause = .unexpected [.endOfInput] ∧ rest ≠ [] ∧ ∃ a, x = .ok (a, rest)

theorem stops_bind_iff {α β : Type} {x : Except Failure β}
    {f : β → Except Failure (α × List Char)} :
    Stops (x >>= f) cause rest ↔
      x = .error ⟨cause, rest⟩ ∨ ∃ b, x = .ok b ∧ Stops (f b) cause rest := by
  cases x with
  | error e =>
      constructor
      · rintro (h | ⟨-, -, a, h⟩)
        · cases h
          exact .inl rfl
        · cases h
      · rintro (h | ⟨b, h, -⟩)
        · cases h
          exact .inl rfl
        · cases h
  | ok b =>
      constructor
      · intro hStops
        exact .inr ⟨b, rfl, hStops⟩
      · rintro (h | ⟨b', h, hStops⟩)
        · cases h
        · cases h
          exact hStops

theorem whole_eq_error_iff {α : Type} {phrase : List Char → Except Failure (α × List Char)}
    {e : Error} : whole phrase cs = .error e ↔
      ∃ cause rest, Stops (phrase cs) cause rest ∧ e = Failure.locate ⟨cause, rest⟩ cs := by
  unfold whole
  cases hRead : phrase cs with
  | error f =>
      constructor
      · intro h
        cases h
        exact ⟨f.cause, f.rest, .inl rfl, rfl⟩
      · rintro ⟨cause, rest, h | ⟨-, -, a, h⟩, rfl⟩
        · cases h
          rfl
        · cases h
  | ok x =>
      obtain ⟨a, rest⟩ := x
      cases rest with
      | nil =>
          refine iff_of_false (fun h => nomatch h) ?_
          rintro ⟨cause, rest, h | ⟨-, hMore, a, h⟩, -⟩
          · cases h
          · cases h
            exact hMore rfl
      | cons c rest =>
          constructor
          · intro h
            cases h
            exact ⟨_, _, .inr ⟨rfl, List.cons_ne_nil c rest, a, rfl⟩, rfl⟩
          · rintro ⟨cause, rest, h | ⟨rfl, -, a, h⟩, rfl⟩
            · cases h
            · cases h
              rfl

/-- A build tag breaks off, or a character follows it that cannot. -/
inductive BreaksBuild (mode : Mode) : List Char → Cause → List Char → Prop where
  | inside {us rest : List Char} {cause : Cause} (hBreaks : BreaksTag .build mode us cause rest) :
      BreaksBuild mode us cause rest
  | behind {us rest : List Char} {b : Tag} (hSpells : SpellsTag .build mode us b)
      (hStop : StopsTag rest) (hMore : rest ≠ []) :
      BreaksBuild mode us (.unexpected [.endOfInput]) rest

/-- What may stand behind a core breaks off: at a character that introduces no tag, in the
pre-release or right behind it, or in the build tag or right behind it. -/
inductive BreaksTags (mode : Mode) : List Char → Cause → List Char → Prop where
  | noMark {c : Char} {rest : List Char} (hHyphen : c ≠ '-') (hPlus : c ≠ '+') :
      BreaksTags mode [] (.unexpected [.hyphen, .plus, .endOfInput]) (c :: rest)
  | preRelease {us rest : List Char} {cause : Cause}
      (hBreaks : BreaksTag .preRelease mode us cause rest) :
      BreaksTags mode ('-' :: us) cause rest
  | noPlus {us rest : List Char} {p : Tag} (hReads : ReadsTag .preRelease mode rest us p)
      (hStop : StopsTag rest) (hMore : rest ≠ []) (hPlus : rest.head? ≠ some '+') :
      BreaksTags mode ('-' :: us) (.unexpected [.plus, .endOfInput]) rest
  | build {ps us rest : List Char} {p : Option Tag} {cause : Cause}
      (hBefore : SpellsTags mode ps p none) (hBreaks : BreaksBuild mode us cause rest) :
      BreaksTags mode (ps ++ '+' :: us) cause rest

/-- A version breaks off in its core or behind it. -/
inductive BreaksVersion (mode : Mode) : List Char → Cause → List Char → Prop where
  | core {us rest : List Char} {cause : Cause} (hBreaks : BreaksNumbers mode 3 us cause rest) :
      BreaksVersion mode us cause rest
  | tags {ds us rest : List Char} {c : Core} {cause : Cause} (hCore : SpellsCore mode ds c)
      (hStop : StopsDigits (us ++ rest)) (hBreaks : BreaksTags mode us cause rest) :
      BreaksVersion mode (ds ++ us) cause rest

/-- Every build tag is admitted, whatever the search finds. -/
theorem readsTag_build_iff {us : List Char} {b : Tag} :
    ReadsTag .build mode rest us b ↔ SpellsTag .build mode us b :=
  readsTag_iff_spellsTag fun _ _ h => nomatch h

theorem stops_build_iff {α : Type} {f : Tag × List Char → α × List Char}
    (hRest : ∀ x, (f x).2 = x.2) :
    Stops ((tag .build mode cs).map f) cause rest ↔
      ∃ us, cs = us ++ rest ∧ BreaksBuild mode us cause rest := by
  constructor
  · rintro (hError | ⟨rfl, hMore, a, hMap⟩)
    · obtain ⟨us, rfl, hBreaks⟩ := tag_eq_error_iff.1 (map_eq_error_iff.1 hError)
      exact ⟨us, rfl, .inside hBreaks⟩
    · obtain ⟨⟨b, vs⟩, hRead, h⟩ := map_eq_ok_iff.1 hMap
      obtain rfl : vs = rest := (hRest (b, vs)).symm.trans (congrArg Prod.snd h)
      obtain ⟨us, rfl, hReads, hStop⟩ := tag_eq_ok_iff_reads.1 hRead
      exact ⟨us, rfl, .behind (readsTag_build_iff.1 hReads) hStop hMore⟩
  · rintro ⟨us, rfl, hBreaks⟩
    cases hBreaks with
    | inside hBreaks => exact .inl (map_eq_error_iff.2 (tag_eq_error_iff.2 ⟨us, rfl, hBreaks⟩))
    | behind hSpells hStop hMore =>
        rename_i b
        have hRead := tag_eq_ok_iff_reads.2 ⟨us, rfl, readsTag_build_iff.2 hSpells, hStop⟩
        have hValue : f (b, rest) = ((f (b, rest)).1, rest) := Prod.ext rfl (hRest _)
        exact .inr ⟨rfl, hMore, _, map_eq_ok_iff.2 ⟨_, hRead, hValue⟩⟩

theorem breaksTags_of_stops (hStops : Stops (tags mode cs) cause rest) :
    ∃ us, cs = us ++ rest ∧ BreaksTags mode us cause rest := by
  unfold tags at hStops
  split at hStops
  · obtain h | ⟨-, hMore, a, h⟩ := hStops
    · cases h
    · cases h
      exact absurd rfl hMore
  · obtain ⟨us, rfl, hBreaks⟩ := (stops_build_iff (by intro x; rfl)).1 hStops
    exact ⟨'+' :: us, rfl, .build .neither hBreaks⟩
  · rcases stops_bind_iff.1 hStops with hError | ⟨⟨p, vs⟩, hRead, hBehind⟩
    · obtain ⟨us, rfl, hBreaks⟩ := tag_eq_error_iff.1 hError
      exact ⟨'-' :: us, rfl, .preRelease hBreaks⟩
    obtain ⟨us, rfl, hReads, hStop⟩ := tag_eq_ok_iff_reads.1 hRead
    dsimp only at hBehind
    split at hBehind
    · obtain h | ⟨-, hMore, a, h⟩ := hBehind
      · cases h
      · cases h
        exact absurd rfl hMore
    · rename_i hPlus
      cases hPlus
      have hSpells := (readsTag_iff_spellsTag fun _ => admits_of_looksAlphanumeric rfl).1 hReads
      obtain ⟨ws, rfl, hBreaks⟩ := (stops_build_iff (by intro x; rfl)).1 hBehind
      exact ⟨_, by simp, .build (.preRelease hSpells) hBreaks⟩
    · rename_i hEnd hPlus hRest
      cases hRest
      obtain h | ⟨-, -, a, h⟩ := hBehind
      · cases h
        refine ⟨'-' :: us, rfl, .noPlus hReads hStop hEnd fun hHead => ?_⟩
        obtain ⟨ws, rfl⟩ := List.head?_eq_some_iff.1 hHead
        exact hPlus ws rfl
      · cases h
  · rename_i hEnd hPlus hHyphen
    obtain h | ⟨-, -, a, h⟩ := hStops
    · cases h
      obtain ⟨c, us, rfl⟩ := List.exists_cons_of_ne_nil hEnd
      refine ⟨[], rfl, .noMark ?_ ?_⟩
      · rintro rfl
        exact hHyphen us rfl
      · rintro rfl
        exact hPlus us rfl
    · cases h

theorem stops_tags_iff :
    Stops (tags mode cs) cause rest ↔ ∃ us, cs = us ++ rest ∧ BreaksTags mode us cause rest := by
  refine ⟨breaksTags_of_stops, ?_⟩
  rintro ⟨us, rfl, hBreaks⟩
  cases hBreaks with
  | noMark hHyphen hPlus =>
      refine .inl ?_
      rw [List.nil_append]
      unfold tags
      split
      · rename_i h
        cases h
      · rename_i h
        exact absurd (List.cons_eq_cons.1 h).1 hPlus
      · rename_i h
        exact absurd (List.cons_eq_cons.1 h).1 hHyphen
      · rfl
  | preRelease hBreaks => exact stops_bind_iff.2 (.inl (tag_eq_error_iff.2 ⟨_, rfl, hBreaks⟩))
  | noPlus hReads hStop hMore hPlus =>
      have hRead := tag_eq_ok_iff_reads.2 ⟨_, rfl, hReads, hStop⟩
      refine stops_bind_iff.2 (.inr ⟨_, hRead, .inl ?_⟩)
      dsimp only
      split
      · rename_i h
        cases h
        exact absurd rfl hMore
      · rename_i h
        cases h
        exact absurd rfl hPlus
      · rename_i h
        cases h
        rfl
  | build hBefore hBreaks =>
      cases hBefore with
      | neither => exact (stops_build_iff (by intro x; rfl)).2 ⟨_, rfl, hBreaks⟩
      | preRelease hPreRelease =>
          rename_i us cs p
          have hRead : tag .preRelease mode (cs ++ '+' :: (us ++ rest)) =
              .ok (p, '+' :: (us ++ rest)) :=
            (tag_eq_ok_iff (endsTag_plus _)).2 ⟨cs, rfl, hPreRelease⟩
          rw [List.append_assoc]
          refine stops_bind_iff.2 (.inr ⟨_, hRead, ?_⟩)
          exact (stops_build_iff (by intro x; rfl)).2 ⟨_, rfl, hBreaks⟩

theorem stops_version_iff :
    Stops (version mode cs) cause rest ↔
      ∃ us, cs = us ++ rest ∧ BreaksVersion mode us cause rest := by
  unfold version
  constructor
  · intro hStops
    rcases stops_bind_iff.1 hStops with hError | ⟨⟨c, vs⟩, hRead, hBehind⟩
    · obtain ⟨us, rfl, hBreaks⟩ := core_eq_error_iff.1 hError
      exact ⟨us, rfl, .core hBreaks⟩
    obtain ⟨ds, hSpells, rfl, hStop⟩ := core_eq_ok_iff.1 hRead
    have hTags : Stops (tags mode vs) cause rest := by
      rcases stops_bind_iff.1 hBehind with hError | ⟨⟨⟨p, b⟩, ws⟩, hRead, h | ⟨rfl, hMore, a, h⟩⟩
      · exact .inl hError
      · cases h
      · cases h
        exact .inr ⟨rfl, hMore, _, hRead⟩
    obtain ⟨us, rfl, hBreaks⟩ := stops_tags_iff.1 hTags
    exact ⟨_, by simp, .tags hSpells hStop hBreaks⟩
  · rintro ⟨us, rfl, hBreaks⟩
    cases hBreaks with
    | core hBreaks => exact stops_bind_iff.2 (.inl (core_eq_error_iff.2 ⟨_, rfl, hBreaks⟩))
    | tags hCore hStop hBreaks =>
        rw [List.append_assoc]
        refine stops_bind_iff.2 (.inr ⟨_, core_eq_ok_iff.2 ⟨_, hCore, rfl, hStop⟩, ?_⟩)
        rcases stops_tags_iff.2 ⟨_, rfl, hBreaks⟩ with hError | ⟨rfl, hMore, ⟨p, b⟩, hRead⟩
        · exact stops_bind_iff.2 (.inl hError)
        · exact stops_bind_iff.2 (.inr ⟨_, hRead, .inr ⟨rfl, hMore, _, rfl⟩⟩)

end Versioning.Literal

namespace Versioning

open Literal

/-- **Refused texts by their faults.** A text is refused with an error just where reading it breaks
off: the position counts what was got through, and the character found is the first of what is
left. -/
theorem Version.parseIn_eq_error_iff {mode : Mode} {s : String} {e : Literal.Error} :
    Version.parseIn mode s = .error e ↔ ∃ us rest, s.toList = us ++ rest ∧
      BreaksVersion mode us e.cause rest ∧ e.position = us.length ∧ e.found = rest.head? := by
  unfold Version.parseIn
  simp only [whole_eq_error_iff, stops_version_iff]
  constructor
  · rintro ⟨cause, rest, ⟨us, hSplit, hBreaks⟩, rfl⟩
    refine ⟨us, rest, hSplit, hBreaks, ?_, rfl⟩
    show s.toList.length - rest.length = us.length
    rw [hSplit, List.length_append, Nat.add_sub_cancel]
  · rintro ⟨us, rest, hSplit, hBreaks, hPosition, hFound⟩
    refine ⟨e.cause, rest, ⟨us, hSplit, hBreaks⟩, ?_⟩
    obtain ⟨cause, position, found⟩ := e
    obtain rfl : position = us.length := hPosition
    obtain rfl : found = rest.head? := hFound
    rw [Failure.locate, hSplit, List.length_append, Nat.add_sub_cancel]

end Versioning
