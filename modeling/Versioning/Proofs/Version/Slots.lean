import Versioning.Proofs.Version.Assembly

/-!
# Where the texts of a draft end up

A draft is finished as the literal that its texts make up, and the parts of the
version are found again by the marks in that literal. The first hyphen or plus ends
the core, whoever put it there, and the first plus ends the pre-release. So a mark
inside a text moves what is behind it to another part: the pre-release `a+b` is no
text of a pre-release, yet a draft with it is finished with the pre-release `a` and
the build `b`.

Other marks do no harm. A hyphen in a tag, or a plus in the build, is not the first
one, so it moves nothing; the literal is then refused just if one of the texts is.

## Main results

* `Version.literalOf_inj` — texts without marks of their own can be told from their literal.
* `Version.shows_iff_unmarked`, `Version.shows_iff_spellsParts` — when each text is in its part.
* `Draft.finish_shows_iff` — the same for the version that a draft is finished as.
-/

namespace Versioning

open Literal

/-! ## Texts between marks -/

section Marks

variable {isMark : Char → Bool} {as bs us ws : List Char}

/-- What stands in front of the first mark is found by looking for it. -/
theorem Text.takeWhile_append_at_mark (hFree : ∀ c ∈ as, isMark c = false)
    (hMark : ∀ c ∈ us.head?, isMark c = true) : (as ++ us).takeWhile (fun c => !isMark c) = as := by
  rw [List.takeWhile_append_of_pos fun c hMem => by rw [hFree c hMem]; rfl]
  cases us with
  | nil => rw [List.takeWhile_nil, List.append_nil]
  | cons c us => simp [hMark c rfl]

/-- So there is one way only to cut a text at its first mark. -/
theorem Text.append_inj_at_mark (hLeft : ∀ c ∈ as, isMark c = false)
    (hRight : ∀ c ∈ bs, isMark c = false) (hMark : ∀ c ∈ us.head?, isMark c = true)
    (hMark' : ∀ c ∈ ws.head?, isMark c = true) (hSame : as ++ us = bs ++ ws) :
    as = bs ∧ us = ws := by
  have hFirst : as = bs := by
    rw [← takeWhile_append_at_mark hLeft hMark, hSame, takeWhile_append_at_mark hRight hMark']
  subst hFirst
  exact ⟨rfl, List.append_cancel_left hSame⟩

end Marks

namespace Version

variable {n n' : String} {p p' b b' : Option String} {v : Version}

/-- The mark that ends a text in a literal is none of its own characters. A build is ended by
nothing, and a pre-release by a plus. -/
structure Unmarked (core : String) (preRelease : Option String) : Prop where
  hyphen_not_mem_core : '-' ∉ core.toList
  plus_not_mem_core : '+' ∉ core.toList
  plus_not_mem_preRelease : ∀ s ∈ preRelease, '+' ∉ s.toList

/-- The texts of tags behind their marks. -/
def tagTexts (preRelease build : Option String) : List Char :=
  (preRelease.elim [] fun s => '-' :: s.toList) ++ build.elim [] fun s => '+' :: s.toList

theorem toList_literalOf : (literalOf n p b).toList = n.toList ++ tagTexts p b := by
  cases p <;> cases b <;> simp [literalOf, tagTexts]

theorem tagTexts_inj (hLeft : ∀ s ∈ p, '+' ∉ s.toList) (hRight : ∀ s ∈ p', '+' ∉ s.toList)
    (hSame : tagTexts p b = tagTexts p' b') : p = p' ∧ b = b' := by
  have hBuild : ∀ {b b' : Option String}, tagTexts none b = tagTexts none b' → b = b' := by
    intro b b' hSame
    cases b <;> cases b' <;> simp_all [tagTexts, String.toList_inj]
  have hPlus : ∀ (b : Option String), ∀ c ∈ (tagTexts none b).head?, (c == '+') = true := by
    intro b
    cases b <;> simp [tagTexts]
  have hApart : ∀ (s : String) (b b' : Option String), tagTexts (some s) b ≠ tagTexts none b' := by
    intro s b b'
    cases b' <;> simp [tagTexts]
  cases p with
  | none =>
      cases p' with
      | none => exact ⟨rfl, hBuild hSame⟩
      | some s' => exact absurd hSame.symm (hApart s' b' b)
  | some s =>
      cases p' with
      | none => exact absurd hSame (hApart s b b')
      | some s' =>
          -- Both start with a hyphen; the pre-releases end at the first plus behind it.
          have hFree : ∀ {s : String}, '+' ∉ s.toList → ∀ c ∈ s.toList, (c == '+') = false :=
            fun hNot c hMem => beq_false_of_ne (ne_of_mem_of_not_mem hMem hNot)
          obtain ⟨hText, hRest⟩ := Text.append_inj_at_mark (hFree (hLeft s rfl))
            (hFree (hRight s' rfl)) (hPlus b) (hPlus b') (List.cons.inj hSame).2
          exact ⟨congrArg some (String.toList_inj.1 hText), hBuild hRest⟩

/-- **Texts without marks of their own can be told from their literal.** -/
theorem literalOf_inj (hLeft : Unmarked n p) (hRight : Unmarked n' p')
    (hSame : literalOf n p b = literalOf n' p' b') : n = n' ∧ p = p' ∧ b = b' := by
  have hMark : ∀ (p b : Option String), ∀ c ∈ (tagTexts p b).head?,
      (c == '-' || c == '+') = true := by
    intro p b
    cases p <;> cases b <;> simp [tagTexts]
  have hFree : ∀ {n : String} {p : Option String}, Unmarked n p →
      ∀ c ∈ n.toList, (c == '-' || c == '+') = false := by
    intro n p hUnmarked c hMem
    rw [beq_false_of_ne (ne_of_mem_of_not_mem hMem hUnmarked.hyphen_not_mem_core),
      beq_false_of_ne (ne_of_mem_of_not_mem hMem hUnmarked.plus_not_mem_core), Bool.or_false]
  rw [← String.toList_inj, toList_literalOf, toList_literalOf] at hSame
  obtain ⟨hCore, hTags⟩ :=
    Text.append_inj_at_mark (hFree hLeft) (hFree hRight) (hMark p b) (hMark p' b') hSame
  exact ⟨String.toList_inj.1 hCore,
    tagTexts_inj hLeft.plus_not_mem_preRelease hRight.plus_not_mem_preRelease hTags⟩

/-- The parts of a version are written without marks of their own. -/
theorem unmarked_texts (v : Version) : Unmarked v.core.text (v.preRelease.map Tag.text) := by
  have hCore := spellsCore_chars .strict v.core
  refine ⟨?_, ?_, fun s hMem => ?_⟩
  · rw [Core.text, String.toList_ofList]
    exact hCore.hyphen_not_mem
  · rw [Core.text, String.toList_ofList]
    exact hCore.plus_not_mem
  · obtain ⟨t, -, rfl⟩ := Option.map_eq_some_iff.1 hMem
    rw [Tag.text, String.toList_ofList]
    exact (spellsTag_iff.2 ⟨rfl, fits_build .strict t⟩).plus_not_mem

/-- A version shows the texts of a core and of tags in the parts that they are for. -/
structure Shows (v : Version) (core : String) (preRelease build : Option String) : Prop where
  core : v.core.text = core
  preRelease : v.preRelease.map Tag.text = preRelease
  build : v.build.map Tag.text = build

/-- The version of a literal shows the texts that make it up just if no mark is out of place. -/
theorem shows_iff_unmarked (hParse : Version.parse (literalOf n p b) = .ok v) :
    v.Shows n p b ↔ Unmarked n p := by
  constructor
  · rintro ⟨rfl, rfl, -⟩
    exact unmarked_texts v
  · intro hUnmarked
    -- The version is written as one literal of unmarked texts and was read from another.
    have hSame : literalOf v.core.text (v.preRelease.map Tag.text) (v.build.map Tag.text) =
        literalOf n p b := literalOf_texts.trans (text_eq_of_parse hParse)
    obtain ⟨hCore, hPreRelease, hBuild⟩ := literalOf_inj (unmarked_texts v) hUnmarked hSame
    exact ⟨hCore, hPreRelease, hBuild⟩

/-- It does so just if each of the texts spells a part by itself. -/
theorem shows_iff_spellsParts (hParse : Version.parse (literalOf n p b) = .ok v) :
    v.Shows n p b ↔ ∃ w, SpellsParts n p b w := by
  constructor
  · rintro ⟨rfl, rfl, rfl⟩
    exact ⟨v, spellsParts_iff.2 ⟨⟨rfl, rfl, rfl⟩, preReleaseFits_of_parseIn hParse⟩⟩
  · rintro ⟨w, hSpells⟩
    have hSame : w = v := Except.ok.inj (hSpells.parse.symm.trans hParse)
    obtain ⟨⟨hCore, hPreRelease, hBuild⟩, -⟩ := spellsParts_iff.1 (hSame ▸ hSpells)
    exact ⟨hCore.symm, hPreRelease.symm, hBuild.symm⟩

end Version

/-! ## Drafts -/

namespace Draft

/-- A draft that can be finished shows each text that it is left with in its part. -/
def KeepsTexts : Prop :=
  ∀ (d : Draft) (es : List Entry) (n : String) (p b : Option String) (v : Version),
    d.LeftWith es n p b → (d.enterAll es).finish = .ok v → v.Shows n p b

/-- **Texts in their parts.** The version of a finished draft has the texts that it was left with one
after the other, behind their marks. It shows each of them in its part just if there is no hyphen or
plus in the text of the core and no plus in that of the pre-release, and this is so just if each
of them spells a part by itself. -/
theorem finish_shows_iff {d : Draft} {es : List Entry} {n : String} {p b : Option String}
    {v : Version} (hLeft : d.LeftWith es n p b) (hFinish : (d.enterAll es).finish = .ok v) :
    v.text = Version.literalOf n p b ∧ (v.Shows n p b ↔ Version.Unmarked n p) ∧
      (v.Shows n p b ↔ ∃ w, Version.SpellsParts n p b w) := by
  rw [hLeft.finish] at hFinish
  exact ⟨Version.text_eq_of_parse hFinish, Version.shows_iff_unmarked hFinish,
    Version.shows_iff_spellsParts hFinish⟩

/-- A hyphen after the first moves nothing, but a plus in the text of the core does: the build is
read where the core was given. -/
theorem finish_shows_hyphen_and_moves_build :
    ∃ v w : Version,
      (({} : Draft).enterAll [⟨.core, "1.0.0.0"⟩, ⟨.tag .preRelease, "x-1"⟩]).finish = .ok v ∧
      v.Shows "1.0.0.0" (some "x-1") none ∧
      (({} : Draft).enterAll [⟨.core, "1.0.0.0+7"⟩]).finish = .ok w ∧
      w.text = "1.0.0.0+7" ∧ ¬ w.Shows "1.0.0.0+7" none none ∧
      ¬ ∃ u, Version.SpellsParts "1.0.0.0+7" none none u := by
  let v : Version := ⟨⟨⟨1, by decide⟩, 0, 0, 0⟩,
    some (.singleton ⟨['x', '-', '1'], by decide, List.all_eq_true.1 rfl⟩), none⟩
  let w : Version := ⟨⟨⟨1, by decide⟩, 0, 0, 0⟩, none, some (.singleton (.ofNat 7))⟩
  have hHyphen : (({} : Draft).enterAll
      [⟨.core, "1.0.0.0"⟩, ⟨.tag .preRelease, "x-1"⟩]).finish = .ok v := by decide +kernel
  have hPlus : (({} : Draft).enterAll [⟨.core, "1.0.0.0+7"⟩]).finish = .ok w := by decide +kernel
  obtain ⟨-, hShows, -⟩ := finish_shows_iff ⟨rfl, rfl, rfl⟩ hHyphen
  obtain ⟨hText, hMoved, hSpells⟩ := finish_shows_iff ⟨rfl, rfl, rfl⟩ hPlus
  have hNot : ¬ w.Shows "1.0.0.0+7" none none :=
    fun h => absurd (hMoved.1 h).plus_not_mem_core (by decide)
  exact ⟨v, w, hHyphen, hShows.2 ⟨by decide, by decide, by decide⟩, hPlus, hText, hNot,
    fun h => hNot (hSpells.2 h)⟩

/-- A plus in the text of the pre-release ends it: what is behind it becomes the build, which no
text was given for. -/
theorem not_keepsTexts : ¬ KeepsTexts := by
  intro hKeeps
  let v : Version := ⟨⟨⟨1, by decide⟩, 0, 0, 0⟩,
    some (.singleton ⟨['a'], by decide, List.all_eq_true.1 rfl⟩),
    some (.singleton ⟨['b'], by decide, List.all_eq_true.1 rfl⟩)⟩
  have hShows : v.Shows "1.0.0.0" (some "a+b") none :=
    hKeeps {} [⟨.core, "1.0.0.0"⟩, ⟨.tag .preRelease, "a+b"⟩] _ _ _ v ⟨rfl, rfl, rfl⟩
      (by decide +kernel)
  exact absurd hShows.preRelease (by decide)

end Draft

end Versioning
