import Versioning.Proofs.Literal.Modes

/-!
# Decoding what was encoded

A version is encoded as its text and decoded strictly. Its core is written without
leading zeros, and no rule restricts a build tag, so all that decoding can
stumble over is a padded identifier of the pre-release, as it was read by the
lenient parser. Such an identifier is written as it was read, and no change but one
that replaces the pre-release, or drops it, removes it.

Where decoding stumbles it does so at the first of these identifiers, and its place is
known: behind the core, the hyphen and the identifiers before it.

## Main results

* `parse_text_or_leadingZero` — the text of a version is refused for one fault, or read back.
* `ofDatum_toDatum_iff` — which versions are decoded from what they are encoded as.
-/

namespace Versioning

open Literal Outcome

namespace Version

/-- Every version that can be made is decoded from what it is encoded as. -/
def DecodesBack : Prop :=
  ∀ (mode : Mode) (v : Version), Reachable mode v → ofDatum v.toDatum = .ok v

/-- **The text of a version** is read back, or refused for the first padded identifier of its
pre-release. -/
theorem parse_text_or_leadingZero (v : Version) :
    ((∀ x ∈ identifierTexts v.preRelease, ¬ Padded x) ∧ parse v.text = .ok v) ∨
      ∃ offset, FirstPadded (identifierTexts v.preRelease) offset ∧
        parse v.text = .error ⟨.leadingZero, v.core.chars.length + 1 + offset, some '0'⟩ := by
  have hCore := spellsCore_chars .strict v.core
  have hTags : SpellsTags .lenient (marked '-' v.preRelease ++ marked '+' v.build) v.preRelease
      v.build := spellsTags_marked fun t _ => fits_lenient .preRelease t
  have hText : v.text.toList =
      v.core.chars ++ (marked '-' v.preRelease ++ marked '+' v.build) := by
    rw [toList_text, chars, List.append_assoc]
  rcases hTags.strict_or_breaks with ⟨hStrict, hNone⟩ | ⟨us, tail, hSplit, hZero, hFirst, hBreaks⟩
  · refine .inl ⟨hNone, parseIn_eq_ok_iff.2 ?_⟩
    rw [hText]
    exact .core hCore hStrict
  · -- The core is in order, so reading gets as far as the tags do.
    have hStop := hTags.stopsDigits
    rw [hSplit] at hStop
    refine .inr ⟨us.length, hFirst, parseIn_eq_error_iff.2
      ⟨v.core.chars ++ '-' :: us, tail, ?_, .tags hCore hStop hBreaks, ?_, hZero.symm⟩⟩
    · rw [hText, hSplit, List.append_assoc]
    · rw [List.length_append, List.length_cons, Nat.add_assoc, Nat.add_comm us.length]

theorem ofDatum_toDatum (v : Version) : ofDatum v.toDatum = (parse v.text).mapError .literal := rfl

/-- **Decoding what was encoded.** A version is decoded from what it is encoded as just if no
identifier of its pre-release is padded. Otherwise decoding reports a leading zero at the first
one that is, and the lenient parser still reads the text back. The versions that do not come from the
lenient parser are all decoded. -/
theorem ofDatum_toDatum_iff :
    (∀ v : Version,
      (ofDatum v.toDatum = .ok v ↔ ∀ x ∈ identifierTexts v.preRelease, ¬ Padded x) ∧
      ((∃ x ∈ identifierTexts v.preRelease, Padded x) →
        ∃ offset, FirstPadded (identifierTexts v.preRelease) offset ∧
          ofDatum v.toDatum =
            .error (.literal ⟨.leadingZero, v.core.chars.length + 1 + offset, some '0'⟩)) ∧
      parseLenient v.text = .ok v) ∧
    ∀ v : Version, Reachable .strict v → ofDatum v.toDatum = .ok v := by
  refine ⟨fun v => ⟨?_, ?_, ?_⟩, fun v hReachable => ?_⟩
  · rcases parse_text_or_leadingZero v with ⟨hNone, hRead⟩ | ⟨offset, hFirst, hRead⟩
    · rw [ofDatum_toDatum, hRead]
      exact iff_of_true rfl hNone
    · obtain ⟨x, hMem, hPadded⟩ := hFirst.exists_padded
      rw [ofDatum_toDatum, hRead]
      exact iff_of_false (fun h => nomatch h) fun hNone => hNone x hMem hPadded
  · rintro ⟨x, hMem, hPadded⟩
    rcases parse_text_or_leadingZero v with ⟨hNone, -⟩ | ⟨offset, hFirst, hRead⟩
    · exact absurd hPadded (hNone x hMem)
    · refine ⟨offset, hFirst, ?_⟩
      rw [ofDatum_toDatum, hRead]
      rfl
  · have hFits : v.PreReleaseFits .lenient := fun t _ => fits_lenient .preRelease t
    exact hFits.parseIn_text
  · rw [ofDatum_toDatum, mapError_eq_ok_iff]
    exact hReachable.preReleaseFits.parseIn_text

/-- Counting the build on keeps the padded identifier, and decoding reports it behind the ten
characters in front of it. The next release has no pre-release and is decoded. -/
theorem ofDatum_after_lenient_parse :
    ∃ u v w : Version, parseLenient "1.0.0.0-a.01+9" = .ok u ∧ u.incrementBuild = .ok v ∧
      v.text = "1.0.0.0-a.01+10" ∧ FirstPadded (identifierTexts v.preRelease) 2 ∧
      ofDatum v.toDatum = .error (.literal ⟨.leadingZero, 10, some '0'⟩) ∧
      parseLenient v.text = .ok v ∧
      u.increment .subBuild = .ok w ∧ Reachable .strict w ∧ ofDatum w.toDatum = .ok w := by
  let padded : Tag := .cons ⟨['a'], by decide, List.all_eq_true.1 rfl⟩
    (.singleton ⟨['0', '1'], by decide, List.all_eq_true.1 rfl⟩)
  let u : Version := ⟨⟨⟨1, by decide⟩, 0, 0, 0⟩, some padded, some (.singleton (.ofNat 9))⟩
  let v : Version := { u with build := some (.singleton (.ofNat 10)) }
  let w : Version := { core := ⟨⟨1, by decide⟩, 0, 0, ⟨1, by decide⟩⟩ }
  have hParse : parseLenient "1.0.0.0-a.01+9" = .ok u := by decide +kernel
  have hRefused : ofDatum v.toDatum = .error (.literal ⟨.leadingZero, 10, some '0'⟩) := by
    decide +kernel
  obtain ⟨-, hPlace, hRead⟩ := ofDatum_toDatum_iff.1 v
  have hPadded : Padded ['0', '1'] := ⟨List.all_eq_true.1 rfl, by decide, rfl⟩
  obtain ⟨offset, hFirst, hError⟩ :=
    hPlace ⟨['0', '1'], List.mem_cons_of_mem _ List.mem_cons_self, hPadded⟩
  have hLength : v.core.chars.length = 7 := by decide
  obtain rfl : offset = 2 := by
    rw [hRefused, hLength] at hError
    have hPosition := congrArg Literal.Error.position
      (DecodeError.literal.inj (Except.error.inj hError))
    exact (Nat.add_left_cancel hPosition).symm
  have hStart : Reachable .strict w := .origin (.core w.core)
  exact ⟨u, v, w, hParse, by decide, by decide, hFirst, hRefused, hRead, by decide, hStart,
    ofDatum_toDatum_iff.2 w hStart⟩

/-- A padded identifier that was read leniently is refused when it is decoded. -/
theorem not_decodesBack : ¬ DecodesBack := by
  intro hDecodes
  let v : Version := ⟨⟨⟨1, by decide⟩, 0, 0, 0⟩,
    some (.singleton ⟨['0', '1'], by decide, List.all_eq_true.1 rfl⟩), none⟩
  have hParse : parseLenient "1.0.0.0-01" = .ok v := by decide +kernel
  have hDecoded : ofDatum v.toDatum = .ok v :=
    hDecodes .lenient v (.origin (.parsedLeniently hParse))
  exact absurd hDecoded (by decide +kernel)

end Version

end Versioning
