import Versioning.Datum
import Versioning.Version.Change
import Versioning.Version.Draft
import Versioning.Proofs.Literal.Reading

/-!
# Runs of changes

The versions that can be made at all: one of a few origins, and from it any
number of changes that succeed. A version is well-formed by its type, and the
only thing left that its text could be refused for is a leading zero in a
numeric identifier of the pre-release. `PreReleaseFits` excludes it. Origins
other than the lenient parser have this property, and every change keeps it,
since a new pre-release is either read strictly or counted on from the old one,
and counting writes numbers without leading zeros.

So the text of a version is read back as that version, however long the run.
-/

namespace Versioning

open Literal Outcome

/-! ## One change -/

theorem Tag.given_eq_ok_iff {slot : Slot} {s : String} {t : Tag} :
    Tag.given slot s = .ok t ↔ Tag.parse slot s = .ok t :=
  mapError_eq_ok_iff

theorem Tag.given_eq_error_iff {slot : Slot} {s : String} {e : ChangeError} :
    Tag.given slot s = .error e ↔ ∃ fault, Tag.parse slot s = .error fault ∧ e = .literal fault :=
  mapError_eq_error_iff

/-- What a change makes of the pre-release: it is dropped, kept, read from a text or counted
on. -/
theorem Version.preRelease_of_apply {v w : Version} {change : Change}
    (hApply : v.apply change = .ok w) :
    w.preRelease = none ∨ w.preRelease = v.preRelease ∨
      (∃ s t, Tag.parse .preRelease s = .ok t ∧ w.preRelease = some t) ∨
      ∃ t, v.preRelease = some t ∧ w.preRelease = some t.increment := by
  cases change with
  | increment p =>
      obtain ⟨c, -, h⟩ := bind_eq_ok_iff.1 hApply
      cases h
      exact .inl rfl
  | incrementTo p s =>
      obtain ⟨c, -, h⟩ := bind_eq_ok_iff.1 hApply
      obtain ⟨t, hGiven, h⟩ := bind_eq_ok_iff.1 h
      cases h
      exact .inr (.inr (.inl ⟨s, t, Tag.given_eq_ok_iff.1 hGiven, rfl⟩))
  | incrementPreRelease =>
      simp only [apply, incrementPreRelease] at hApply
      split at hApply
      · rename_i t hTag
        cases hApply
        exact .inr (.inr (.inr ⟨t, hTag, rfl⟩))
      · cases hApply
  | incrementBuild =>
      simp only [apply, incrementBuild] at hApply
      split at hApply
      · cases hApply
        exact .inr (.inl rfl)
      · cases hApply
  | setPreRelease s =>
      obtain ⟨t, hGiven, h⟩ := bind_eq_ok_iff.1 hApply
      cases h
      exact .inr (.inr (.inl ⟨s, t, Tag.given_eq_ok_iff.1 hGiven, rfl⟩))
  | setBuild s =>
      obtain ⟨t, -, h⟩ := bind_eq_ok_iff.1 hApply
      cases h
      exact .inr (.inl rfl)

/-! ## What the pre-release may be -/

/-- A digit run without leading zeros is admitted everywhere. -/
theorem admits_ofDigits {slot : Slot} {mode : Mode} {r : Text.Run Char.isDigit}
    (hPlain : Decimal.NoLeadingZero r.chars) : Admits slot mode (.ofDigits r) :=
  fun _ _ _ => hPlain

/-- Counting on leaves a tag that may stand where the old one did. -/
theorem Literal.Fits.increment {slot : Slot} {mode : Mode} {t : Tag} (hFits : Fits slot mode t) :
    Fits slot mode t.increment := by
  intro i hMem
  unfold Tag.increment at hMem
  split at hMem
  · rename_i r _
    rcases List.mem_append.1 hMem with hOld | hNew
    · exact hFits i ((List.dropLast_sublist _).mem hOld)
    · rw [List.mem_singleton.1 hNew]
      exact admits_ofDigits (Decimal.noLeadingZero_next r)
  · rcases List.mem_append.1 hMem with hOld | hNew
    · exact hFits i hOld
    · rw [List.mem_singleton.1 hNew]
      exact admits_ofDigits (Decimal.noLeadingZero_digits 1)

/-- A tag that is read strictly may stand anywhere in its slot. -/
theorem fits_of_parse {slot : Slot} {mode : Mode} {s : String} {t : Tag}
    (hParse : Tag.parse slot s = .ok t) : Fits slot mode t := by
  have hStrict := (spellsTag_iff.1 (Tag.parse_eq_ok_iff.1 hParse)).2
  intro i hMem hSlot _
  exact hStrict i hMem hSlot rfl

/-- The pre-release of a version, if it has one, may stand in a literal of a mode. -/
def Version.PreReleaseFits (mode : Mode) (v : Version) : Prop :=
  ∀ t ∈ v.preRelease, Fits .preRelease mode t

instance (mode : Mode) (v : Version) : Decidable (v.PreReleaseFits mode) :=
  inferInstanceAs (Decidable (∀ t ∈ v.preRelease, _))

/-- **One change.** Whatever change succeeds, the new pre-release may stand where the old one
did. -/
theorem Version.PreReleaseFits.apply {mode : Mode} {v w : Version} {change : Change}
    (hFits : v.PreReleaseFits mode) (hApply : v.apply change = .ok w) :
    w.PreReleaseFits mode := by
  intro t hMem
  have hTag : w.preRelease = some t := hMem
  rcases preRelease_of_apply hApply with hNone | hKept | ⟨s, u, hParse, hRead⟩ | ⟨u, hOld, hNext⟩
  · rw [hNone] at hTag
    cases hTag
  · rw [hKept] at hTag
    exact hFits t hTag
  · rw [hRead] at hTag
    cases hTag
    exact fits_of_parse hParse
  · rw [hNext] at hTag
    cases hTag
    exact (hFits u hOld).increment

theorem preReleaseFits_of_parseIn {mode : Mode} {s : String} {v : Version}
    (hParse : Version.parseIn mode s = .ok v) : v.PreReleaseFits mode :=
  (Version.parseIn_eq_ok_iff.1 hParse).fits

/-- A version whose pre-release fits is read back from its text. -/
theorem Version.PreReleaseFits.parseIn_text {mode : Mode} {v : Version}
    (hFits : v.PreReleaseFits mode) : Version.parseIn mode v.text = .ok v := by
  rw [Version.parseIn_eq_ok_iff, Version.toList_text]
  exact spellsVersion_chars hFits

/-! ## Whole runs -/

/-- Where a version may come from. All origins but one are strict. -/
inductive Origin : Mode → Version → Prop where
  | default : Origin .strict {}
  | core (c : Core) : Origin .strict c
  | parsed {s : String} {v : Version} (hParse : Version.parse s = .ok v) : Origin .strict v
  | finished {d : Draft} {v : Version} (hFinish : d.finish = .ok v) : Origin .strict v
  | decoded {x : Datum} {v : Version} (hDecode : Version.ofDatum x = .ok v) : Origin .strict v
  | parsedLeniently {s : String} {v : Version} (hParse : Version.parseLenient s = .ok v) :
      Origin .lenient v

/-- A version that is made from an origin by changes that succeed. -/
inductive Reachable (mode : Mode) : Version → Prop where
  | origin {v : Version} (hOrigin : Origin mode v) : Reachable mode v
  | step {v w : Version} {change : Change} (hBefore : Reachable mode v)
      (hApply : v.apply change = .ok w) : Reachable mode w

theorem Origin.preReleaseFits {mode : Mode} {v : Version} (hOrigin : Origin mode v) :
    v.PreReleaseFits mode := by
  cases hOrigin with
  | default => exact fun t hMem => nomatch hMem
  | core c => exact fun t hMem => nomatch hMem
  | parsed hParse => exact preReleaseFits_of_parseIn hParse
  | finished hFinish => exact preReleaseFits_of_parseIn hFinish
  | @decoded x _ hDecode =>
      cases x with
      | string s => exact preReleaseFits_of_parseIn (mapError_eq_ok_iff.1 hDecode)
      | _ => cases hDecode
  | parsedLeniently hParse => exact preReleaseFits_of_parseIn hParse

/-- The invariant holds after every run, by induction on the run. -/
theorem Reachable.preReleaseFits {mode : Mode} {v : Version} (hReachable : Reachable mode v) :
    v.PreReleaseFits mode := by
  induction hReachable with
  | origin hOrigin => exact hOrigin.preReleaseFits
  | step _ hApply ih => exact ih.apply hApply

/-- Making a list of changes, with those passed over that fail, is such a run. -/
theorem Reachable.run {mode : Mode} {v : Version} (hReachable : Reachable mode v)
    (changes : List Change) : Reachable mode (v.run changes) := by
  induction changes generalizing v with
  | nil => exact hReachable
  | cons change changes ih =>
      unfold Version.run
      cases hApply : v.apply change with
      | ok w => exact ih (.step hReachable hApply)
      | error e => exact ih hReachable

/-- **Round trip.** The text of every version that can be made is parsed to that very version,
with the same components and the same identifiers. If the run did not start from the lenient
parser, the strict one will do. -/
theorem Version.parse_text_of_reachable {mode : Mode} {v : Version}
    (hReachable : Reachable mode v) :
    Version.parseLenient v.text = .ok v ∧ (mode = .strict → Version.parse v.text = .ok v) := by
  have hFits := hReachable.preReleaseFits
  have hLenient : v.PreReleaseFits .lenient := fun t _ => fits_lenient .preRelease t
  refine ⟨hLenient.parseIn_text, ?_⟩
  rintro rfl
  exact hFits.parseIn_text

/-- Counting on from `1.0.0.0-rc.9` leads to a text that is read back, also in a run with a change that
fails. -/
theorem Version.parse_text_after_increment :
    ∃ v w : Version, Version.parse "1.0.0.0-rc.9" = .ok v ∧
      v.apply .incrementBuild = .error (.absent .build) ∧
      v.apply .incrementPreRelease = .ok w ∧
      v.run [.incrementBuild, .incrementPreRelease] = w ∧ w.text = "1.0.0.0-rc.10" ∧
      Version.parse "1.0.0.0-rc.10" = .ok w := by
  have hStart : ∃ v w : Version, v.PreReleaseFits .strict ∧ v.text = "1.0.0.0-rc.9" ∧
      v.apply .incrementBuild = .error (.absent .build) ∧ v.apply .incrementPreRelease = .ok w ∧
      v.run [.incrementBuild, .incrementPreRelease] = w ∧ w.text = "1.0.0.0-rc.10" :=
    ⟨⟨⟨⟨1, by decide⟩, 0, 0, 0⟩,
      some (.cons ⟨['r', 'c'], by decide, List.all_eq_true.1 rfl⟩ (.singleton (.ofNat 9))), none⟩,
      _, by decide, by decide, rfl, rfl, rfl, by decide⟩
  obtain ⟨v, w, hFits, hText, hFails, hApply, hRun, hNext⟩ := hStart
  have hParse := hFits.parseIn_text
  rw [hText] at hParse
  have hReachable : Reachable .strict w := hRun ▸ Reachable.run (.origin (.parsed hParse)) _
  have hBack := (parse_text_of_reachable hReachable).2 rfl
  rw [hNext] at hBack
  exact ⟨v, w, hParse, hFails, hApply, hRun, hNext, hBack⟩

end Versioning
