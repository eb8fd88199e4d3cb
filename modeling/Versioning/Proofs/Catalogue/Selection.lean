import Versioning.Proofs.Catalogue.Sorting

/-!
# Selecting from catalogues

To select the texts of a catalogue that satisfy a range is to keep those for which
the question about a single text is answered with yes. Both readers of the texts
are the same, but the single question reads the version first, so only there a
faulty version comes before a faulty range.

A selection commutes with sorting. What is left of a sorted list is sorted, and
ties stay in their order (`IsStableSort.filter`), whatever the texts are selected
by.
-/

namespace Versioning.Catalogue

variable {s range : String} {r : Range} {versions : List String}

/-! ## One question for each text -/

theorem satisfying_of_parse (hRange : Range.parse range = .ok r) (versions : List String) :
    satisfying versions range = .ok (versions.filter (admitted r)) := by
  unfold satisfying
  rw [hRange]
  rfl

/-- A range that is none is the answer to every question about a list. -/
theorem satisfying_of_parse_error {e : Range.Error} (hRange : Range.parse range = .error e)
    (versions : List String) : satisfying versions range = .error (.range e) := by
  unfold satisfying
  rw [hRange]
  rfl

/-- A range admits a text just if the single question is answered with yes. -/
theorem satisfies_eq_ok_true_iff (hRange : Range.parse range = .ok r) :
    satisfies s range = .ok true ↔ admitted r s = true := by
  unfold satisfies admitted Version.parse?
  rw [hRange]
  cases Version.parse s with
  | error e => exact iff_of_false (fun h => nomatch h) (fun h => nomatch h)
  | ok v =>
      show Except.ok (r.admits v) = .ok true ↔ r.admits v = true
      rw [Except.ok.injEq]

theorem isValid_of_admitted (hAdmitted : admitted r s = true) : Version.isValid s = true := by
  obtain ⟨v, hParse, -⟩ := (Option.any_eq_true _ _).1 hAdmitted
  rw [isValid_eq_isSome, hParse]
  rfl

/-! ## Selecting and sorting -/

/-- What is left of a stable sort is the stable sort of what is left. -/
theorem filter_of_isStableSort {cmp : String → String → Ordering} [Std.TransCmp cmp]
    {sort : List String → List String}
    (hSort : ∀ versions, IsStableSort cmp (versions.filter Version.isValid) (sort versions))
    (p : String → Bool) (versions : List String) :
    (sort versions).filter p = sort (versions.filter p) := by
  have hLeft := (hSort versions).filter p
  have hRight := hSort (versions.filter p)
  rw [List.filter_comm] at hRight
  exact hLeft.unique hRight

/-- **Selections.** If the range is one, the texts selected are those, in their order and as often,
for which the single question is answered with yes, and so all of them spell versions; to select
from a sorted catalogue is to sort the selection. If the range is none, its fault is the answer
for every list. -/
theorem satisfying_selects :
    (∀ range r, Range.parse range = .ok r → ∀ versions,
      satisfying versions range =
        .ok (versions.filter fun s => decide (satisfies s range = .ok true))) ∧
    (∀ versions range ts, satisfying versions range = .ok ts →
      ∀ s ∈ ts, Version.isValid s = true) ∧
    (∀ versions range,
      satisfying (ascending versions) range = (satisfying versions range).map ascending ∧
      satisfying (descending versions) range = (satisfying versions range).map descending) ∧
    (∀ range e, Range.parse range = .error e → ∀ versions,
      satisfying versions range = .error (.range e)) := by
  refine ⟨fun range r hRange versions => ?_, fun versions range ts hSelect s hMem => ?_,
    fun versions range => ?_, fun range e => satisfying_of_parse_error⟩
  · have hQuestion : (versions.filter fun s => decide (satisfies s range = .ok true)) =
        versions.filter (admitted r) :=
      List.filter_congr fun s _ => by
        rw [Bool.eq_iff_iff, decide_eq_true_iff, satisfies_eq_ok_true_iff hRange]
    rw [satisfying_of_parse hRange, hQuestion]
  · cases hRange : Range.parse range with
    | error e =>
        rw [satisfying_of_parse_error hRange] at hSelect
        contradiction
    | ok r =>
        rw [satisfying_of_parse hRange, Except.ok.injEq] at hSelect
        rw [← hSelect] at hMem
        exact isValid_of_admitted (List.mem_filter.1 hMem).2
  · cases hRange : Range.parse range with
    | error e =>
        simp only [satisfying_of_parse_error hRange]
        exact ⟨rfl, rfl⟩
    | ok r =>
        simp only [satisfying_of_parse hRange, filter_of_isStableSort isStableSort_ascending,
          filter_of_isStableSort isStableSort_descending]
        exact ⟨rfl, rfl⟩

/-- A list with a text that spells no version and with two builds of one version, and a range that
is none. What is selected from the list when it is sorted is in order, with the two builds as they
were listed. -/
theorem satisfying_of_mixed_catalogue :
    (Range.parse "~1" = .ok (.and (.comparison .ge ⟨⟨⟨1, by decide⟩, 0, 0, 0⟩, none, none⟩)
        (.comparison .lt ⟨⟨⟨2, by decide⟩, 0, 0, 0⟩, none, none⟩)) ∧
      satisfying ["1.1.0.0", "oops", "1.0.0.0+b", "1.0.0.0", "3.0.0.0"] "~1" =
        .ok (["1.1.0.0", "oops", "1.0.0.0+b", "1.0.0.0", "3.0.0.0"].filter
          fun s => decide (satisfies s "~1" = .ok true))) ∧
    (satisfying ["1.1.0.0", "oops", "1.0.0.0+b", "1.0.0.0", "3.0.0.0"] "~1" =
        .ok ["1.1.0.0", "1.0.0.0+b", "1.0.0.0"] ∧
      Version.isValid "1.0.0.0+b" = true) ∧
    (satisfying (descending ["1.1.0.0", "oops", "1.0.0.0+b", "1.0.0.0", "3.0.0.0"]) "~1" =
        .ok ["1.1.0.0", "1.0.0.0+b", "1.0.0.0"] ∧
      satisfying (ascending ["1.1.0.0", "oops", "1.0.0.0+b", "1.0.0.0", "3.0.0.0"]) ">1.0" =
        .ok ["1.1.0.0", "3.0.0.0"]) ∧
    Range.parse "~" = .error (.unexpected ⟨⟨.endOfInput, none, 1⟩, [.numeric]⟩) ∧
      satisfying [] "~" = .error (.range (.unexpected ⟨⟨.endOfInput, none, 1⟩, [.numeric]⟩)) := by
  have hBand : Range.parse "~1" =
      .ok (.and (.comparison .ge ⟨⟨⟨1, by decide⟩, 0, 0, 0⟩, none, none⟩)
        (.comparison .lt ⟨⟨⟨2, by decide⟩, 0, 0, 0⟩, none, none⟩)) := by decide +kernel
  have hSelected : satisfying ["1.1.0.0", "oops", "1.0.0.0+b", "1.0.0.0", "3.0.0.0"] "~1" =
      .ok ["1.1.0.0", "1.0.0.0+b", "1.0.0.0"] := by decide +kernel
  have hGreater : satisfying ["1.1.0.0", "oops", "1.0.0.0+b", "1.0.0.0", "3.0.0.0"] ">1.0" =
      .ok ["1.1.0.0", "3.0.0.0"] := by decide +kernel
  have hEnd : Range.parse "~" = .error (.unexpected ⟨⟨.endOfInput, none, 1⟩, [.numeric]⟩) := by
    decide +kernel
  -- Both selections are in order as they stand, so sorting them leaves them what they are.
  have hDescending : descending ["1.1.0.0", "1.0.0.0+b", "1.0.0.0"] =
      ["1.1.0.0", "1.0.0.0+b", "1.0.0.0"] :=
    ((isStableSort_descending _).eq_of_pairwise (by decide +kernel)).trans (by decide +kernel)
  have hAscending : ascending ["1.1.0.0", "3.0.0.0"] = ["1.1.0.0", "3.0.0.0"] :=
    ((isStableSort_ascending _).eq_of_pairwise (by decide +kernel)).trans (by decide +kernel)
  obtain ⟨hAnswers, hValid, hSorted, hFault⟩ := satisfying_selects
  have hDown := (hSorted ["1.1.0.0", "oops", "1.0.0.0+b", "1.0.0.0", "3.0.0.0"] "~1").2
  have hUp := (hSorted ["1.1.0.0", "oops", "1.0.0.0+b", "1.0.0.0", "3.0.0.0"] ">1.0").1
  rw [hSelected] at hDown
  rw [hGreater] at hUp
  exact ⟨⟨hBand, hAnswers _ _ hBand _⟩, ⟨hSelected, hValid _ _ _ hSelected _ (by decide)⟩,
    ⟨hDown.trans (congrArg _ hDescending), hUp.trans (congrArg _ hAscending)⟩, hEnd,
    hFault _ _ hEnd []⟩

end Versioning.Catalogue
