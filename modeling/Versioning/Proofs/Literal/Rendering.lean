import Mathlib.Data.List.TakeWhile
import Versioning.Proofs.Decimal.Order
import Versioning.Proofs.Version.Runs

/-!
# Rendering what was read

A version keeps the identifiers of its tags as they were written, so a tag is
rendered as the text it was read from (`SpellsTags.eq_marked`). Of the four numbers
of the core it keeps the values alone, and a value is written without leading
zeros (`Decimal.digits_value`). Reading a literal and rendering the version
therefore cuts the leading zeros off the core and does nothing else, and where
there are none to cut off, as in every text that is read strictly, it gives the
text back.
-/

namespace Versioning

open Literal Text

/-! ## Numbers -/

namespace Decimal

variable {ds : List Char}

/-- Trimming takes zeros from the front of a run. -/
theorem exists_zeros_append_trim (hNe : ds ≠ []) : ∃ n, ds = List.replicate n '0' ++ trim ds := by
  have hZeros : ds.takeWhile (· == '0') = List.replicate (ds.takeWhile (· == '0')).length '0' := by
    refine List.eq_replicate_of_mem fun c hMem => ?_
    have hZero := List.mem_takeWhile_imp hMem
    exact beq_iff_eq.1 hZero
  have hSplit : ds.takeWhile (· == '0') ++ ds.dropWhile (· == '0') = ds :=
    List.takeWhile_append_dropWhile
  unfold trim
  cases hDrop : ds.dropWhile (· == '0') with
  | cons d rest =>
      rw [hDrop, hZeros] at hSplit
      exact ⟨_, hSplit.symm⟩
  | nil =>
      -- Nothing but zeros: the last of them stays.
      rw [hDrop, List.append_nil] at hSplit
      rw [hSplit] at hZeros
      obtain ⟨n, hLength⟩ := Nat.exists_eq_add_one.2 (List.length_pos_iff.2 hNe)
      rw [hLength, List.replicate_succ'] at hZeros
      exact ⟨n, hZeros⟩

/-- The digits of the number that a run denotes are the run without its leading zeros. -/
theorem digits_value (hDigits : ∀ c ∈ ds, c.isDigit = true) : digits (value ds) = trim ds := by
  have hWritten : ∀ c ∈ digits (value ds), c.isDigit = true := fun c => isDigit_of_mem_digits
  rw [← trim_of_noLeadingZero (digits_ne_nil _) (noLeadingZero_digits (value ds)),
    trim_eq_trim_iff hWritten hDigits, value_digits]

end Decimal

namespace Literal

variable {mode : Mode} {cs : List Char}

theorem SpellsComponent.digits_eq {c : Component} (hSpells : SpellsComponent mode cs c) :
    c.digits = Decimal.trim cs := by
  rw [Component.digits, ← hSpells.value_eq, Decimal.digits_value hSpells.isDigit]

/-- A spelled component as a digit run. -/
def SpellsComponent.run {c : Component} (hSpells : SpellsComponent mode cs c) :
    Run Char.isDigit :=
  ⟨cs, hSpells.ne_nil, hSpells.isDigit⟩

/-- What a text of four numbers spells is rendered as the same numbers without leading zeros. -/
theorem SpellsCore.exists_numbers {c : Core} (hSpells : SpellsCore mode cs c) :
    ∃ numbers : List (Run Char.isDigit), numbers.length = 4 ∧
      cs = ['.'].intercalate (numbers.map Run.chars) ∧
      c.chars = ['.'].intercalate (numbers.map fun r => Decimal.trim r.chars) ∧
      (mode = .strict → ∀ r ∈ numbers, Decimal.NoLeadingZero r.chars) := by
  obtain ⟨hMajor, hMinor, hBuild, hSubBuild⟩ := hSpells
  refine ⟨[hMajor.run, hMinor.run, hBuild.run, hSubBuild.run], rfl, ?_, ?_, fun hStrict => ?_⟩
  · simp [List.intercalate, SpellsComponent.run]
  · rw [Core.chars_eq, hMajor.digits_eq, hMinor.digits_eq, hBuild.digits_eq, hSubBuild.digits_eq]
    simp [List.intercalate, SpellsComponent.run]
  · simp [SpellsComponent.run, hMajor.noLeadingZero hStrict, hMinor.noLeadingZero hStrict,
      hBuild.noLeadingZero hStrict, hSubBuild.noLeadingZero hStrict]

/-- The only strict text of a core is its rendering. -/
theorem spellsCore_strict_iff {c : Core} : SpellsCore .strict cs c ↔ cs = c.chars := by
  constructor
  · intro hSpells
    obtain ⟨numbers, -, hText, hChars, hPlain⟩ := hSpells.exists_numbers
    have hTrim : (numbers.map fun r => Decimal.trim r.chars) = numbers.map Run.chars :=
      List.map_congr_left fun r hMem => Decimal.trim_of_noLeadingZero r.ne_nil (hPlain rfl r hMem)
    rw [hText, hChars, hTrim]
  · rintro rfl
    exact spellsCore_chars .strict c

/-- Tags are rendered as they are spelled. -/
theorem SpellsTags.eq_marked {p b : Option Tag} (hSpells : SpellsTags mode cs p b) :
    cs = Version.marked '-' p ++ Version.marked '+' b := by
  cases hSpells with
  | neither => rfl
  | preRelease hPreRelease =>
      rw [(spellsTag_iff.1 hPreRelease).1]
      simp
  | build hBuild =>
      rw [(spellsTag_iff.1 hBuild).1]
      rfl
  | both hPreRelease hBuild =>
      rw [(spellsTag_iff.1 hPreRelease).1, (spellsTag_iff.1 hBuild).1]
      rfl

/-- The only strict text of a version is its rendering. -/
theorem SpellsVersion.eq_chars {v : Version} (hSpells : SpellsVersion .strict cs v) :
    cs = v.chars := by
  obtain ⟨hCore, hTags⟩ := hSpells
  rw [Version.chars, List.append_assoc, ← hTags.eq_marked, ← spellsCore_strict_iff.1 hCore]

/-- What a literal spells is rendered as the literal with the numbers of its core trimmed. -/
theorem SpellsVersion.exists_numbers {v : Version} (hSpells : SpellsVersion mode cs v) :
    ∃ (numbers : List (Run Char.isDigit)) (rest : List Char), numbers.length = 4 ∧
      StopsDigits rest ∧ cs = ['.'].intercalate (numbers.map Run.chars) ++ rest ∧
      v.chars = ['.'].intercalate (numbers.map fun r => Decimal.trim r.chars) ++ rest ∧
      (mode = .strict → ∀ r ∈ numbers, Decimal.NoLeadingZero r.chars) := by
  obtain ⟨hCore, hTags⟩ := hSpells
  obtain ⟨numbers, hLength, hText, hChars, hPlain⟩ := hCore.exists_numbers
  refine ⟨numbers, _, hLength, hTags.stopsDigits, by rw [hText], ?_, hPlain⟩
  rw [Version.chars, hChars, List.append_assoc, hTags.eq_marked]

end Literal

namespace Version

variable {s : String} {v : Version}

/-- A text that is read strictly has no zeros to lose. -/
theorem text_eq_of_parse (hParse : Version.parse s = .ok v) : v.text = s := by
  rw [text, ← (parseIn_eq_ok_iff.1 hParse).eq_chars, String.ofList_toList]

/-- **Read and rendered.** A literal that is read strictly is rendered character for character.
One that is read leniently is rendered with the leading zeros of its four numbers cut off, where
nothing but zeros leaves one zero, and with all that follows them as it was; that text is read as
the same version, so it is rendered as itself. -/
theorem text_of_parse :
    (∀ (s : String) (v : Version), Version.parse s = .ok v → v.text = s) ∧
    (∀ (s : String) (v : Version), Version.parseLenient s = .ok v →
      (∃ (numbers : List (Run Char.isDigit)) (rest : List Char), numbers.length = 4 ∧
        StopsDigits rest ∧ s.toList = ['.'].intercalate (numbers.map Run.chars) ++ rest ∧
        v.text.toList = ['.'].intercalate (numbers.map fun r => Decimal.trim r.chars) ++ rest ∧
        ∀ r ∈ numbers, Decimal.NoLeadingZero (Decimal.trim r.chars) ∧
          ∃ n, r.chars = List.replicate n '0' ++ Decimal.trim r.chars) ∧
      Version.parseLenient v.text = .ok v) := by
  refine ⟨fun s v => text_eq_of_parse, fun s v hParse => ⟨?_, ?_⟩⟩
  · obtain ⟨numbers, rest, hLength, hStop, hText, hChars, -⟩ :=
      SpellsVersion.exists_numbers (parseIn_eq_ok_iff.1 hParse)
    refine ⟨numbers, rest, hLength, hStop, hText, (toList_text v).trans hChars, fun r _ => ?_⟩
    exact ⟨Decimal.noLeadingZero_trim r.chars, Decimal.exists_zeros_append_trim r.ne_nil⟩
  · exact (preReleaseFits_of_parseIn hParse).parseIn_text

/-- The zeros in front go, those of the tags stay, and a strict literal keeps its build number. -/
theorem text_of_padded_literal :
    ∃ v w : Version, Version.parseLenient "01.000.2.30-rc.04+b.05" = .ok v ∧
      v.text = "1.0.2.30-rc.04+b.05" ∧ Version.parseLenient "1.0.2.30-rc.04+b.05" = .ok v ∧
      Version.parse "1.0.2.30+05" = .ok w ∧ w.text = "1.0.2.30+05" := by
  have hParsed : ∃ v w : Version, Version.parseLenient "01.000.2.30-rc.04+b.05" = .ok v ∧
      Version.parse "1.0.2.30+05" = .ok w ∧ v.text = "1.0.2.30-rc.04+b.05" :=
    ⟨⟨⟨⟨1, by decide⟩, 0, ⟨2, by decide⟩, ⟨30, by decide⟩⟩,
        some (.cons ⟨['r', 'c'], by decide, List.all_eq_true.1 rfl⟩
          (.singleton ⟨['0', '4'], by decide, List.all_eq_true.1 rfl⟩)),
        some (.cons ⟨['b'], by decide, List.all_eq_true.1 rfl⟩
          (.singleton ⟨['0', '5'], by decide, List.all_eq_true.1 rfl⟩))⟩,
      ⟨⟨⟨1, by decide⟩, 0, ⟨2, by decide⟩, ⟨30, by decide⟩⟩, none,
        some (.singleton ⟨['0', '5'], by decide, List.all_eq_true.1 rfl⟩)⟩,
      by decide +kernel, by decide +kernel, by decide⟩
  obtain ⟨v, w, hLenient, hStrict, hText⟩ := hParsed
  have hAgain := (text_of_parse.2 _ v hLenient).2
  rw [hText] at hAgain
  exact ⟨v, w, hLenient, hText, hAgain, hStrict, text_of_parse.1 _ w hStrict⟩

end Version

end Versioning
