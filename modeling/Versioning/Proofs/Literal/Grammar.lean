import Versioning.Literal.Reader
import Versioning.Proofs.Decimal

/-!
# The grammar of version literals

Which texts are version literals, and which versions they spell. As in the
grammar of range expressions there is no reading here: a phrase is a whole text,
and its parts are put together with the marks between them.

The two modes differ in one condition only. A strict number has no leading zero
(`Decimal.NoLeadingZero`), and the identifiers of a pre-release that are numeric count as
numbers. Those of a build tag never do.

The grammar is compared with rendering: what a core or a tag is written as is one
of its spellings, and for tags it is the only one. The last section notes that a
plus stands nowhere but in front of a build tag, and no hyphen in a core.
-/

namespace Versioning.Literal

open Text

/-- A digit run that denotes a component. -/
structure SpellsComponent (mode : Mode) (ds : List Char) (c : Component) : Prop where
  ne_nil : ds ≠ []
  isDigit : ∀ d ∈ ds, d.isDigit = true
  value_eq : Decimal.value ds = c.value
  noLeadingZero : mode = .strict → Decimal.NoLeadingZero ds

/-- Four components with dots between them. -/
inductive SpellsCore (mode : Mode) : List Char → Core → Prop where
  | dotted {as bs cs ds : List Char} {core : Core} (hMajor : SpellsComponent mode as core.major)
      (hMinor : SpellsComponent mode bs core.minor)
      (hBuild : SpellsComponent mode cs core.build)
      (hSubBuild : SpellsComponent mode ds core.subBuild) :
      SpellsCore mode (as ++ '.' :: (bs ++ '.' :: (cs ++ '.' :: ds))) core

/-- A strict pre-release takes no numeric identifier with a leading zero; all else may stand
in any tag. -/
def Admits (slot : Slot) (mode : Mode) (i : Identifier) : Prop :=
  slot = .preRelease → mode = .strict → i.isNumeric = true → Decimal.NoLeadingZero i.chars

instance (slot : Slot) (mode : Mode) (i : Identifier) : Decidable (Admits slot mode i) :=
  inferInstanceAs (Decidable (_ → _))

/-- A tag that may stand in a slot. -/
def Fits (slot : Slot) (mode : Mode) (t : Tag) : Prop := ∀ i ∈ t.identifiers, Admits slot mode i

instance (slot : Slot) (mode : Mode) (t : Tag) : Decidable (Fits slot mode t) :=
  inferInstanceAs (Decidable (∀ i ∈ t.identifiers, _))

/-- Identifiers with dots between them. -/
inductive SpellsTag (slot : Slot) (mode : Mode) : List Char → Tag → Prop where
  | one {i : Identifier} (hAdmits : Admits slot mode i) : SpellsTag slot mode i.chars (.singleton i)
  | more {i : Identifier} {cs : List Char} {t : Tag} (hAdmits : Admits slot mode i)
      (hRest : SpellsTag slot mode cs t) : SpellsTag slot mode (i.chars ++ '.' :: cs) (t.cons i)

/-- What may stand behind a core: a pre-release, a build tag, both in this order, or nothing. -/
inductive SpellsTags (mode : Mode) : List Char → Option Tag → Option Tag → Prop where
  | neither : SpellsTags mode [] none none
  | preRelease {cs : List Char} {p : Tag} (hPreRelease : SpellsTag .preRelease mode cs p) :
      SpellsTags mode ('-' :: cs) (some p) none
  | build {cs : List Char} {b : Tag} (hBuild : SpellsTag .build mode cs b) :
      SpellsTags mode ('+' :: cs) none (some b)
  | both {cs us : List Char} {p b : Tag} (hPreRelease : SpellsTag .preRelease mode cs p)
      (hBuild : SpellsTag .build mode us b) :
      SpellsTags mode ('-' :: (cs ++ '+' :: us)) (some p) (some b)

/-- A core and what may stand behind it. -/
inductive SpellsVersion (mode : Mode) : List Char → Version → Prop where
  | core {cs us : List Char} {v : Version} (hCore : SpellsCore mode cs v.core)
      (hTags : SpellsTags mode us v.preRelease v.build) : SpellsVersion mode (cs ++ us) v

/-! ## Renderings are spellings -/

theorem spellsComponent_digits (mode : Mode) (c : Component) : SpellsComponent mode c.digits c where
  ne_nil := Decimal.digits_ne_nil c.value
  isDigit _ hMem := Decimal.isDigit_of_mem_digits hMem
  value_eq := Decimal.value_digits c.value
  noLeadingZero _ := Decimal.noLeadingZero_digits c.value

theorem spellsCore_chars (mode : Mode) (c : Core) : SpellsCore mode c.chars c := by
  rw [Core.chars_eq]
  exact .dotted (spellsComponent_digits mode _) (spellsComponent_digits mode _)
    (spellsComponent_digits mode _) (spellsComponent_digits mode _)

/-- The only text of a tag is its rendering. -/
theorem spellsTag_iff {slot : Slot} {mode : Mode} {cs : List Char} {t : Tag} :
    SpellsTag slot mode cs t ↔ cs = t.chars ∧ Fits slot mode t := by
  constructor
  · intro h
    induction h with
    | one hAdmits =>
        rw [Tag.chars_singleton]
        exact ⟨rfl, by simpa [Fits] using hAdmits⟩
    | more hAdmits _ ih =>
        rw [Tag.chars_cons, ← ih.1]
        exact ⟨rfl, by simpa [Fits] using ⟨hAdmits, ih.2⟩⟩
  · rintro ⟨rfl, hAdmits⟩
    obtain ⟨identifiers, hNe⟩ := t
    induction identifiers with
    | nil => exact absurd rfl hNe
    | cons i rest ih =>
        by_cases hRest : rest = []
        · subst hRest
          show SpellsTag slot mode (Tag.singleton i).chars (.singleton i)
          rw [Tag.chars_singleton]
          exact .one (hAdmits i (by simp))
        · show SpellsTag slot mode (Tag.cons i ⟨rest, hRest⟩).chars (Tag.cons i ⟨rest, hRest⟩)
          rw [Tag.chars_cons]
          refine .more (hAdmits i (by simp)) (ih hRest ?_)
          intro j hMem
          exact hAdmits j (List.mem_cons_of_mem i hMem)

/-- No rule restricts build tags. -/
theorem fits_build (mode : Mode) (t : Tag) : Fits .build mode t :=
  fun _ _ hSlot => nomatch hSlot

/-- No rule restricts the lenient mode. -/
theorem fits_lenient (slot : Slot) (t : Tag) : Fits slot .lenient t :=
  fun _ _ _ hMode => nomatch hMode

/-- A pre-release that is spelled may stand where it does. -/
theorem SpellsVersion.fits {mode : Mode} {cs : List Char} {v : Version}
    (hSpells : SpellsVersion mode cs v) : ∀ t ∈ v.preRelease, Fits .preRelease mode t := by
  obtain ⟨-, hTags⟩ := hSpells
  intro t hMem
  generalize v.preRelease = p at hTags hMem
  generalize v.build = b at hTags
  cases hTags with
  | neither => cases hMem
  | preRelease hPreRelease =>
      cases hMem
      exact (spellsTag_iff.1 hPreRelease).2
  | build => cases hMem
  | both hPreRelease =>
      cases hMem
      exact (spellsTag_iff.1 hPreRelease).2

/-- Tags behind their marks are spelled by their texts if the pre-release may stand where it
does. -/
theorem spellsTags_marked {mode : Mode} {p b : Option Tag}
    (hFits : ∀ t ∈ p, Fits .preRelease mode t) :
    SpellsTags mode (Version.marked '-' p ++ Version.marked '+' b) p b := by
  have hBuild : ∀ b : Tag, SpellsTag .build mode b.chars b :=
    fun b => spellsTag_iff.2 ⟨rfl, fits_build mode b⟩
  cases p with
  | none =>
      cases b with
      | none => exact .neither
      | some b => exact .build (hBuild b)
  | some p =>
      have hPreRelease : SpellsTag .preRelease mode p.chars p :=
        spellsTag_iff.2 ⟨rfl, hFits p rfl⟩
      cases b with
      | none =>
          rw [Version.marked_none, List.append_nil]
          exact .preRelease hPreRelease
      | some b => exact .both hPreRelease (hBuild b)

/-- The text of a version spells it if the pre-release may stand where it does. -/
theorem spellsVersion_chars {mode : Mode} {v : Version}
    (hFits : ∀ p ∈ v.preRelease, Fits .preRelease mode p) : SpellsVersion mode v.chars v := by
  rw [Version.chars, List.append_assoc]
  exact .core (spellsCore_chars mode v.core) (spellsTags_marked hFits)

/-! ## Where no mark is -/

theorem plus_not_mem_identifier (i : Identifier) : '+' ∉ i.chars :=
  fun hMem => absurd (i.all_mem '+' hMem) (by decide)

theorem SpellsCore.isDigit_or_dot {mode : Mode} {cs : List Char} {c : Core}
    (hSpells : SpellsCore mode cs c) : ∀ d ∈ cs, d.isDigit = true ∨ d = '.' := by
  obtain ⟨hMajor, hMinor, hBuild, hSubBuild⟩ := hSpells
  intro d hMem
  simp only [List.mem_append, List.mem_cons] at hMem
  rcases hMem with hMem | rfl | hMem | rfl | hMem | rfl | hMem
  · exact .inl (hMajor.isDigit d hMem)
  · exact .inr rfl
  · exact .inl (hMinor.isDigit d hMem)
  · exact .inr rfl
  · exact .inl (hBuild.isDigit d hMem)
  · exact .inr rfl
  · exact .inl (hSubBuild.isDigit d hMem)

theorem SpellsCore.plus_not_mem {mode : Mode} {cs : List Char} {c : Core}
    (hSpells : SpellsCore mode cs c) : '+' ∉ cs :=
  fun hMem => absurd (hSpells.isDigit_or_dot '+' hMem) (by decide)

theorem SpellsCore.hyphen_not_mem {mode : Mode} {cs : List Char} {c : Core}
    (hSpells : SpellsCore mode cs c) : '-' ∉ cs :=
  fun hMem => absurd (hSpells.isDigit_or_dot '-' hMem) (by decide)

theorem SpellsTag.plus_not_mem {slot : Slot} {mode : Mode} {cs : List Char} {t : Tag}
    (hSpells : SpellsTag slot mode cs t) : '+' ∉ cs := by
  induction hSpells with
  | one _ => exact plus_not_mem_identifier _
  | more _ _ ih => simp [plus_not_mem_identifier, ih]

end Versioning.Literal
