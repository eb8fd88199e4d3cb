import Versioning.Proofs.Literal.Rendering
import Versioning.Version.Draft

/-!
# Putting a version together

A version can be made of the texts of its parts in three ways: by parsing the
literal that the texts make up, by entering them into a draft, and by starting from
the core and setting the tags one after the other. The parts are read alone in the
last way, and in the others they are found in one text by their marks. Nothing is
lost or gained at a seam: whatever a part spells by itself it spells in the
literal, since a core and a tag have one text each, their renderings
(`spellsParts_iff`).

For the same reason a literal can be taken apart in one way only, into the
renderings of the parts of the version that it spells.

## Main results

* `textOf?_enterAll` — what is left of the texts entered for a part is the last one.
* `assembled_from_parts` — the three ways give the same version, and literals come apart uniquely.
-/

namespace Versioning

open Literal

/-- The literal that the texts of parts make up; a tag that is absent leaves no mark. -/
def Version.literalOf (core : String) (preRelease build : Option String) : String :=
  core ++ preRelease.elim "" ("-" ++ ·) ++ build.elim "" ("+" ++ ·)

/-! ## Drafts -/

namespace Draft

/-- The text of a part, if one was given. -/
def textOf? (d : Draft) : Part → Option String
  | .core => some d.core
  | .tag .preRelease => d.preRelease
  | .tag .build => d.build

/-- The last text that is given for a part. -/
def lastText? (es : List Entry) (part : Part) : Option String :=
  (es.filter fun e => e.part = part).getLast?.map Entry.text

/-- The texts that count for a draft with texts entered after one another: the last one for each
part, or else what was there. An empty one stands for no tag. -/
structure LeftWith (d : Draft) (es : List Entry) (core : String)
    (preRelease build : Option String) : Prop where
  core : (lastText? es .core).getD d.core = core
  preRelease : ((lastText? es (.tag .preRelease)).or d.preRelease).filter (· ≠ "") = preRelease
  build : ((lastText? es (.tag .build)).or d.build).filter (· ≠ "") = build

theorem textOf?_enter (d : Draft) (e : Entry) (part : Part) :
    (d.enter e).textOf? part = if e.part = part then some e.text else d.textOf? part := by
  obtain ⟨entered, text⟩ := e
  rcases entered with _ | slot
  · rcases part with _ | slot'
    · rfl
    · cases slot' <;> rfl
  · rcases part with _ | slot'
    · cases slot <;> rfl
    · cases slot <;> cases slot' <;> rfl

/-- **The last text counts**: the order in which texts are entered for different parts makes no
difference, and neither do earlier texts for the same part. -/
theorem textOf?_enterAll (d : Draft) (es : List Entry) (part : Part) :
    (d.enterAll es).textOf? part = (lastText? es part).or (d.textOf? part) := by
  induction es generalizing d with
  | nil => rfl
  | cons e es ih =>
      show ((d.enter e).enterAll es).textOf? part = _
      rw [ih, textOf?_enter, lastText?, lastText?, List.filter_cons]
      by_cases hPart : e.part = part
      · rw [if_pos hPart, if_pos (decide_eq_true hPart), List.getLast?_cons]
        cases (es.filter fun e => e.part = part).getLast? <;> rfl
      · rw [if_neg hPart, if_neg (by simpa using hPart)]

/-- Of an empty text nothing is left, and of any other what would stand behind its mark. -/
theorem marked_eq (mark : String) (text : Option String) :
    marked mark text = (text.filter (· ≠ "")).elim "" (mark ++ ·) := by
  cases text with
  | none => rfl
  | some s =>
      rw [marked, Option.filter_some]
      by_cases hEmpty : s = ""
      · rw [if_pos hEmpty, if_neg (by simpa using hEmpty)]
        rfl
      · rw [if_neg hEmpty, if_pos (by simpa using hEmpty)]
        rfl

/-- A draft is finished like the literal of the texts that it is left with. -/
theorem LeftWith.finish {d : Draft} {es : List Entry} {n : String} {p b : Option String}
    (hLeft : d.LeftWith es n p b) :
    (d.enterAll es).finish = Version.parse (Version.literalOf n p b) := by
  have hTexts := d.textOf?_enterAll es
  have hCore : (d.enterAll es).core = n := by
    have hSome : some (d.enterAll es).core = (lastText? es .core).or (some d.core) := hTexts .core
    rw [← Option.some_inj, hSome, ← hLeft.core]
    cases lastText? es .core <;> rfl
  have hPreRelease : (d.enterAll es).preRelease.filter (· ≠ "") = p := by
    have hTag : (d.enterAll es).preRelease = (lastText? es (.tag .preRelease)).or d.preRelease :=
      hTexts (.tag .preRelease)
    rw [hTag, hLeft.preRelease]
  have hBuild : (d.enterAll es).build.filter (· ≠ "") = b := by
    have hTag : (d.enterAll es).build = (lastText? es (.tag .build)).or d.build :=
      hTexts (.tag .build)
    rw [hTag, hLeft.build]
  rw [Draft.finish, literal, marked_eq, marked_eq, hCore, hPreRelease, hBuild, Version.literalOf]

end Draft

/-! ## The texts of parts -/

theorem Core.parse_eq_ok_iff_text {s : String} {c : Core} : Core.parse s = .ok c ↔ s = c.text := by
  rw [Core.parse_eq_ok_iff, spellsCore_strict_iff, Core.text, ← String.toList_inj,
    String.toList_ofList]

theorem Tag.parse_eq_ok_iff_text {slot : Slot} {s : String} {t : Tag} :
    Tag.parse slot s = .ok t ↔ s = t.text ∧ Fits slot .strict t := by
  rw [Tag.parse_eq_ok_iff, spellsTag_iff, Tag.text, ← String.toList_inj, String.toList_ofList]

/-- Where a tag is optional, so is its text. -/
theorem Tag.map_parse_eq_iff {slot : Slot} {text : Option String} {tag : Option Tag} :
    text.map (Tag.parse slot) = tag.map .ok ↔
      text = tag.map Tag.text ∧ ∀ t ∈ tag, Fits slot .strict t := by
  cases tag with
  | none => simp
  | some t =>
      cases text with
      | none => simp
      | some s => simp [Tag.parse_eq_ok_iff_text]

namespace Version

/-- Each of the texts spells a part of a version by itself, and there is a text for each tag. -/
structure SpellsParts (core : String) (preRelease build : Option String) (v : Version) : Prop where
  core : Core.parse core = .ok v.core
  preRelease : preRelease.map (Tag.parse .preRelease) = v.preRelease.map .ok
  build : build.map (Tag.parse .build) = v.build.map .ok

/-- The changes that set the tags with a text, the pre-release first: to set it drops the build
tag. -/
def tagChanges (preRelease build : Option String) : List Change :=
  (preRelease.map Change.setPreRelease).toList ++ (build.map Change.setBuild).toList

variable {n : String} {p b : Option String} {v : Version}

theorem literalOf_texts :
    literalOf v.core.text (v.preRelease.map Tag.text) (v.build.map Tag.text) = v.text := by
  obtain ⟨core, preRelease, build⟩ := v
  rw [← String.toList_inj, toList_text]
  cases preRelease <;> cases build <;> simp [literalOf, chars, Core.text, Tag.text]

/-- Parts are spelled by their renderings only. -/
theorem spellsParts_iff : SpellsParts n p b v ↔
    (n = v.core.text ∧ p = v.preRelease.map Tag.text ∧ b = v.build.map Tag.text) ∧
      v.PreReleaseFits .strict := by
  constructor
  · rintro ⟨hCore, hPreRelease, hBuild⟩
    obtain ⟨hPreRelease, hFits⟩ := Tag.map_parse_eq_iff.1 hPreRelease
    exact ⟨⟨Core.parse_eq_ok_iff_text.1 hCore, hPreRelease, (Tag.map_parse_eq_iff.1 hBuild).1⟩,
      hFits⟩
  · rintro ⟨⟨hCore, hPreRelease, hBuild⟩, hFits⟩
    exact ⟨Core.parse_eq_ok_iff_text.2 hCore, Tag.map_parse_eq_iff.2 ⟨hPreRelease, hFits⟩,
      Tag.map_parse_eq_iff.2 ⟨hBuild, fun t _ => fits_build .strict t⟩⟩

/-- What the parts spell, the literal that they make up spells. -/
theorem SpellsParts.parse (hSpells : SpellsParts n p b v) :
    Version.parse (literalOf n p b) = .ok v := by
  obtain ⟨⟨rfl, rfl, rfl⟩, hFits⟩ := spellsParts_iff.1 hSpells
  rw [literalOf_texts]
  exact hFits.parseIn_text

/-- A pre-release that is set, or none, is the pre-release of a core that had no tag. -/
theorem foldlM_setPreRelease {core : Core} {tag : Option Tag}
    (hSpells : p.map (Tag.parse .preRelease) = tag.map .ok) :
    (p.map Change.setPreRelease).toList.foldlM Version.apply (core : Version) =
      .ok { core, preRelease := tag } := by
  cases p with
  | none =>
      cases Option.map_eq_none_iff.1 hSpells.symm
      rfl
  | some s =>
      obtain ⟨t, rfl, hParse⟩ := Option.map_eq_some_iff.1 hSpells.symm
      have hGiven : Tag.given .preRelease s = .ok t := Tag.given_eq_ok_iff.2 hParse.symm
      simp [apply, withPreRelease, hGiven]

/-- A build tag that is set, or none, joins a version that had none. -/
theorem foldlM_setBuild {tag : Option Tag} (hNone : v.build = none)
    (hSpells : b.map (Tag.parse .build) = tag.map .ok) :
    (b.map Change.setBuild).toList.foldlM Version.apply v = .ok { v with build := tag } := by
  cases b with
  | none =>
      cases Option.map_eq_none_iff.1 hSpells.symm
      rw [← hNone]
      rfl
  | some s =>
      obtain ⟨t, rfl, hParse⟩ := Option.map_eq_some_iff.1 hSpells.symm
      have hGiven : Tag.given .build s = .ok t := Tag.given_eq_ok_iff.2 hParse.symm
      simp [apply, withBuild, hGiven]

/-- Tags that are set one after the other on a core are the tags of the result. -/
theorem SpellsParts.foldlM_apply (hSpells : SpellsParts n p b v) :
    (tagChanges p b).foldlM Version.apply (v.core : Version) = .ok v := by
  rw [tagChanges, List.foldlM_append, foldlM_setPreRelease hSpells.preRelease]
  exact foldlM_setBuild rfl hSpells.build

/-- **One version from its parts.** Whatever texts spell the parts of a version by themselves, the
literal that they make up spells it, a draft that is left with them is finished as it, whatever was
entered before and in whatever order, and the core becomes it when the tags are set one after the
other. A literal comes apart in one way only into texts that spell parts: into the renderings of the
core and the tags of the version that it spells. -/
theorem assembled_from_parts :
    (∀ (n : String) (p b : Option String) (v : Version), SpellsParts n p b v →
      Version.parse (literalOf n p b) = .ok v ∧
      (∀ (d : Draft) (es : List Draft.Entry), d.LeftWith es n p b →
        (d.enterAll es).finish = .ok v) ∧
      (tagChanges p b).foldlM Version.apply (v.core : Version) = .ok v) ∧
    ∀ (s : String) (v : Version), Version.parse s = .ok v →
      ∀ (n : String) (p b : Option String), (s = literalOf n p b ∧ ∃ w, SpellsParts n p b w) ↔
        n = v.core.text ∧ p = v.preRelease.map Tag.text ∧ b = v.build.map Tag.text := by
  refine ⟨fun n p b v hSpells => ⟨hSpells.parse, fun d es hLeft => ?_, hSpells.foldlM_apply⟩,
    fun s v hParse n p b => ⟨?_, ?_⟩⟩
  · rw [hLeft.finish, hSpells.parse]
  · rintro ⟨rfl, w, hSpells⟩
    -- The parts spell a version too, and it is the one that the literal spells.
    have hSame : w = v := Except.ok.inj (hSpells.parse.symm.trans hParse)
    exact hSame ▸ (spellsParts_iff.1 hSpells).1
  · rintro ⟨rfl, rfl, rfl⟩
    exact ⟨literalOf_texts.trans (text_eq_of_parse hParse) |>.symm, v,
      spellsParts_iff.2 ⟨⟨rfl, rfl, rfl⟩, preReleaseFits_of_parseIn hParse⟩⟩

/-- A hyphen in an identifier and a number with leading zeros behind the plus change nothing, nor
does a text that is entered and replaced. -/
theorem assembled_from_hyphenated_parts :
    ∃ v : Version, SpellsParts "1.0.0.10" (some "rc-1.0") (some "007") v ∧
      Version.parse "1.0.0.10-rc-1.0+007" = .ok v ∧
      (({ core := "9" } : Draft).enterAll [⟨.tag .build, "x"⟩, ⟨.tag .preRelease, ""⟩,
        ⟨.tag .build, "007"⟩, ⟨.core, "1.0.0.10"⟩, ⟨.tag .preRelease, "rc-1.0"⟩]).finish = .ok v ∧
      (tagChanges (some "rc-1.0") (some "007")).foldlM Version.apply (v.core : Version) = .ok v ∧
      ∀ (n : String) (p b : Option String), "1.0.0.10-rc-1.0+007" = literalOf n p b →
        (∃ w, SpellsParts n p b w) → n = "1.0.0.10" ∧ p = some "rc-1.0" ∧ b = some "007" := by
  let v : Version :=
    ⟨⟨⟨1, by decide⟩, 0, 0, ⟨10, by decide⟩⟩,
      some (.cons ⟨['r', 'c', '-', '1'], by decide, List.all_eq_true.1 rfl⟩
        (.singleton ⟨['0'], by decide, List.all_eq_true.1 rfl⟩)),
      some (.singleton ⟨['0', '0', '7'], by decide, List.all_eq_true.1 rfl⟩)⟩
  have hSpells : SpellsParts "1.0.0.10" (some "rc-1.0") (some "007") v :=
    ⟨by decide +kernel, by decide +kernel, by decide +kernel⟩
  have hTexts : v.core.text = "1.0.0.10" ∧ v.preRelease.map Tag.text = some "rc-1.0" ∧
      v.build.map Tag.text = some "007" := by decide
  obtain ⟨hParse, hDraft, hTags⟩ := assembled_from_parts.1 _ _ _ v hSpells
  refine ⟨v, hSpells, hParse, hDraft _ _ ⟨by decide, by decide, by decide⟩, hTags, ?_⟩
  intro n p b hLiteral hParts
  rw [← hTexts.1, ← hTexts.2.1, ← hTexts.2.2]
  exact (assembled_from_parts.2 _ v hParse n p b).1 ⟨hLiteral, hParts⟩

end Version

end Versioning
