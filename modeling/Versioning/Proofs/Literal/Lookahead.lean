import Versioning.Proofs.Literal.Modes

/-!
# What stands behind a fault

A text breaks off at a character, and another text is put in place of what is left,
one that starts with the same character. Mostly it breaks off there for the same
reason: the conditions on the text that is left ask for its first character alone.
There are two exceptions, and both come from the search for a letter or hyphen,
which does not end at an illegal character. At the start of an identifier its
answer is reported in the classes that could have followed (`awaited`). Behind a
number with a leading zero it decides whether the strict mode excuses that number
(`ReadsTag`), so the other text may break off before.

## Main results

* `BreaksVersion.replace` — a fault with another text behind its character.
-/

namespace Versioning.Literal

open Text

variable {slot : Slot} {mode : Mode} {cause : Cause} {us rest rest' : List Char}

/-! ## Conditions on the first character -/

section FirstCharacter

variable (hHead : rest.head? = rest'.head?)
include hHead

theorem head?_append_congr (us : List Char) : (us ++ rest).head? = (us ++ rest').head? := by
  rw [List.head?_append, List.head?_append, hHead]

theorem StopsDigits.congr (hStop : StopsDigits rest) : StopsDigits rest' := by
  rwa [StopsDigits, ← hHead]

theorem StopsIdentifier.congr (hStop : StopsIdentifier rest) : StopsIdentifier rest' := by
  rwa [StopsIdentifier, ← hHead]

theorem StopsTag.congr (hStop : StopsTag rest) : StopsTag rest' := by
  refine ⟨hStop.1.congr hHead, ?_⟩
  rw [← hHead]
  exact hStop.2

theorem ne_nil_congr (hMore : rest ≠ []) : rest' ≠ [] := by
  rintro rfl
  exact hMore (List.head?_eq_none_iff.1 hHead)

theorem endsIdentifier_congr : endsIdentifier rest = endsIdentifier rest' := by
  cases rest with
  | nil =>
      cases rest' with
      | nil => rfl
      | cons => cases hHead
  | cons c rest =>
      cases rest' with
      | nil => cases hHead
      | cons d rest' =>
          cases hHead
          rfl

end FirstCharacter

/-! ## Faults with another text behind them -/

/-- The second cause is what becomes of the first if one text is left in place of another: it is
the same, unless it says what could have started an identifier. -/
def Becomes (slot : Slot) (rest rest' : List Char) (cause cause' : Cause) : Prop :=
  cause' = cause ∨
    cause = .unexpected (awaited slot rest) ∧ cause' = .unexpected (awaited slot rest')

section Replacement

variable (hHead : rest.head? = rest'.head?) (hMisfit : cause.IsMisfit)
include hHead hMisfit

theorem BreaksComponent.replace (hBreaks : BreaksComponent mode cause rest) :
    BreaksComponent mode cause rest' := by
  cases hBreaks with
  | noDigit hStop => exact .noDigit (hStop.congr hHead)
  | leadingZero => exact hMisfit.elim
  | tooLarge => exact hMisfit.elim

theorem BreaksNumbers.replace {more : Nat} (hBreaks : BreaksNumbers mode more us cause rest) :
    BreaksNumbers mode more us cause rest' := by
  induction hBreaks with
  | first hBreaks => exact .first (hBreaks.replace hHead hMisfit)
  | noDot hSpells hStop hNoDot =>
      rw [hHead] at hNoDot
      exact .noDot hSpells (hStop.congr hHead) hNoDot
  | later hSpells _ ih => exact .later hSpells (ih hHead hMisfit)

theorem BreaksIdentifier.replace (hBreaks : BreaksIdentifier slot mode cause rest) :
    ∃ cause', BreaksIdentifier slot mode cause' rest' ∧ Becomes slot rest rest' cause cause' := by
  cases hBreaks with
  | empty hEnds =>
      rw [endsIdentifier_congr hHead] at hEnds
      exact ⟨_, .empty hEnds, .inl rfl⟩
  | illegal hInside hStop =>
      rw [endsIdentifier_congr hHead] at hInside
      exact ⟨_, .illegal hInside (hStop.congr hHead), .inr ⟨rfl, rfl⟩⟩
  | leadingZero => exact hMisfit.elim

theorem BreaksIdentifiers.replace (hBreaks : BreaksIdentifiers slot mode us cause rest) :
    ∃ cause', BreaksIdentifiers slot mode us cause' rest' ∧
      Becomes slot rest rest' cause cause' := by
  induction hBreaks with
  | first hBreaks =>
      obtain ⟨cause', hBreaks, hBecomes⟩ := hBreaks.replace hHead hMisfit
      exact ⟨cause', .first hBreaks, hBecomes⟩
  | later hAdmits _ ih =>
      obtain ⟨cause', hBreaks, hBecomes⟩ := ih hHead hMisfit
      exact ⟨cause', .later hAdmits hBreaks, hBecomes⟩

theorem BreaksTag.replace (hBreaks : BreaksTag slot mode us cause rest) :
    ∃ cause', BreaksTag slot mode us cause' rest' ∧ Becomes slot rest rest' cause cause' := by
  cases hBreaks with
  | start hStop => exact ⟨_, .start (hStop.congr hHead), .inl rfl⟩
  | inside hStart hBreaks =>
      obtain ⟨cause', hBreaks, hBecomes⟩ := hBreaks.replace hHead hMisfit
      refine ⟨cause', .inside (fun hStop => hStart ?_) hBreaks, hBecomes⟩
      exact hStop.congr (head?_append_congr hHead.symm us)

theorem BreaksBuild.replace (hBreaks : BreaksBuild mode us cause rest) :
    ∃ cause', BreaksBuild mode us cause' rest' ∧ Becomes .build rest rest' cause cause' := by
  cases hBreaks with
  | inside hBreaks =>
      obtain ⟨cause', hBreaks, hBecomes⟩ := hBreaks.replace hHead hMisfit
      exact ⟨cause', .inside hBreaks, hBecomes⟩
  | behind hSpells hStop hMore =>
      exact ⟨_, .behind hSpells (hStop.congr hHead) (ne_nil_congr hHead hMore), .inl rfl⟩

end Replacement

/-- The last identifier of what is read is still read if the search still excuses it, or if there
is nothing to excuse. -/
theorem ReadsTag.replace {p : Tag}
    (hSearch : mode = .lenient ∨ looksAlphanumeric slot rest = looksAlphanumeric slot rest')
    (hReads : ReadsTag slot mode rest us p) : ReadsTag slot mode rest' us p := by
  induction hReads with
  | one hAdmits =>
      rcases hSearch with rfl | hSame
      · exact .one (.inr (admits_lenient slot _))
      · rw [hSame] at hAdmits
        exact .one hAdmits
  | more hAdmits _ ih => exact .more hAdmits ih

/-- The slot of the tag in which a literal goes on behind a text, if it does so in a tag. -/
def slotBehind (us : List Char) : Slot := if '+' ∈ us then .build else .preRelease

theorem slotBehind_build (us vs : List Char) : slotBehind (us ++ '+' :: vs) = .build :=
  if_pos (by simp)

theorem slotBehind_preRelease {us vs : List Char} (hFront : '+' ∉ us) (hRest : '+' ∉ vs) :
    slotBehind (us ++ '-' :: vs) = .preRelease :=
  if_neg (by simp [hFront, hRest])

theorem ReadsTag.plus_not_mem {p : Tag} (hReads : ReadsTag slot mode rest us p) : '+' ∉ us :=
  hReads.spellsTag_lenient.plus_not_mem

theorem BreaksIdentifiers.plus_not_mem (hBreaks : BreaksIdentifiers slot mode us cause rest) :
    '+' ∉ us := by
  induction hBreaks with
  | first => exact List.not_mem_nil
  | later _ _ ih => simp [plus_not_mem_identifier, ih]

theorem BreaksTag.plus_not_mem (hBreaks : BreaksTag slot mode us cause rest) : '+' ∉ us := by
  cases hBreaks with
  | start => exact List.not_mem_nil
  | inside _ hBreaks => exact hBreaks.plus_not_mem

/-- A version that breaks off at a character does so at that character whatever follows it, if
the search for a letter or hyphen there finds the same or excuses nothing. -/
theorem BreaksVersion.replace (hHead : rest.head? = rest'.head?) (hMisfit : cause.IsMisfit)
    (hSearch : mode = .lenient ∨
      looksAlphanumeric (slotBehind us) rest = looksAlphanumeric (slotBehind us) rest')
    (hBreaks : BreaksVersion mode us cause rest) :
    ∃ cause', BreaksVersion mode us cause' rest' ∧
      Becomes (slotBehind us) rest rest' cause cause' := by
  cases hBreaks with
  | core hBreaks => exact ⟨cause, .core (hBreaks.replace hHead hMisfit), .inl rfl⟩
  | tags hCore hStop hBreaks =>
      have hStop := hStop.congr (head?_append_congr hHead _)
      cases hBreaks with
      | noMark hHyphen hPlus =>
          obtain ⟨vs, rfl⟩ := List.head?_eq_some_iff.1 hHead.symm
          exact ⟨_, .tags hCore hStop (.noMark hHyphen hPlus), .inl rfl⟩
      | preRelease hBreaks =>
          rw [slotBehind_preRelease hCore.plus_not_mem hBreaks.plus_not_mem]
          obtain ⟨cause', hBreaks, hBecomes⟩ := hBreaks.replace hHead hMisfit
          exact ⟨cause', .tags hCore hStop (.preRelease hBreaks), hBecomes⟩
      | noPlus hReads hEnd hMore hPlus =>
          rw [slotBehind_preRelease hCore.plus_not_mem hReads.plus_not_mem] at hSearch
          rw [hHead] at hPlus
          exact ⟨_, .tags hCore hStop (.noPlus (hReads.replace hSearch) (hEnd.congr hHead)
            (ne_nil_congr hHead hMore) hPlus), .inl rfl⟩
      | build hBefore hBreaks =>
          rw [← List.append_assoc, slotBehind_build, List.append_assoc]
          obtain ⟨cause', hBreaks, hBecomes⟩ := hBreaks.replace hHead hMisfit
          exact ⟨cause', .tags hCore hStop (.build hBefore hBreaks), hBecomes⟩

end Versioning.Literal
