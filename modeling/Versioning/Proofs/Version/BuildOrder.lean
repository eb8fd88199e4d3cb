import Versioning.Proofs.StableSort
import Versioning.Proofs.Version.Classes

/-!
# The build-aware order

The build-aware order is put together from two comparisons, precedence and that of
build tags, and takes the second only where the first leaves a tie. A comparison
put together in this way is as lawful as its parts (`compareLex`), so it can be
sorted by.

Since precedence is the part that counts first, the order refines it: versions
sorted with their builds are sorted by precedence as well. To sort them again by
precedence then changes nothing, as a stable sort moves nothing in a list that
is already in order (`isStableSort_iff_eq`).
-/

namespace Versioning

/-- Optional tags compare as equal just if both are absent or both have one key. -/
theorem Tag.compare_optional_eq_eq_iff {x y : Option Tag} :
    compare x y = .eq ↔ x.map key = y.map key := by
  cases x with
  | none =>
      cases y with
      | none => exact iff_of_true rfl rfl
      | some u =>
          show Ordering.lt = .eq ↔ none = some u.key
          simp
  | some t =>
      cases y with
      | none =>
          show Ordering.gt = .eq ↔ some t.key = none
          simp
      | some u =>
          show compare t u = .eq ↔ some t.key = some u.key
          rw [compare_eq_eq_iff, Option.some_inj]

namespace Version

variable {a b : Version}

instance : Std.TransCmp compareWithBuild :=
  inferInstanceAs (Std.TransCmp (compareLex compare (compareOn build)))

/-- Where precedence decides, builds do not count. -/
theorem compareWithBuild_of_compare_ne (hDiffer : compare a b ≠ .eq) :
    compareWithBuild a b = compare a b := by
  unfold compareWithBuild
  cases hCompare : compare a b with
  | eq => exact absurd hCompare hDiffer
  | lt => rfl
  | gt => rfl

/-- Where precedence leaves a tie, builds decide. -/
theorem compareWithBuild_of_samePrecedence (hSame : a.samePrecedence b = true) :
    compareWithBuild a b = compare a.build b.build := by
  unfold compareWithBuild
  rw [beq_iff_eq.1 hSame]
  rfl

/-- What is in the build-aware order is in the order of precedence. -/
theorem le_of_compareWithBuild (hOrder : (compareWithBuild a b).isLE = true) : a ≤ b := by
  show (compare a b).isLE = true
  rw [compareWithBuild, Ordering.isLE_then_iff_and] at hOrder
  exact hOrder.1

theorem isStableSort_sortWithBuild (vs : List Version) :
    IsStableSort compareWithBuild vs (sortWithBuild vs) :=
  isStableSort_mergeSort vs

theorem pairwise_le_sortWithBuild (vs : List Version) : (sortWithBuild vs).Pairwise (· ≤ ·) :=
  (isStableSort_sortWithBuild vs).pairwise.imp le_of_compareWithBuild

/-- **The build-aware order is total and refines precedence.** The comparison the other way round
has the opposite outcome, and outcomes are transitive. Where precedence tells versions apart it
decides; of versions of one precedence, those and only those are equal whose builds are both
absent or differ in leading zeros of numbers at most, and no build comes before every build. So
versions that are stably sorted with their builds are in the order of precedence, and stably
sorting them once more by precedence changes nothing. -/
theorem compareWithBuild_refines_precedence :
    (∀ a b : Version, compareWithBuild b a = (compareWithBuild a b).swap) ∧
    (∀ (o : Ordering) (a b c : Version), compareWithBuild a b = o → compareWithBuild b c = o →
      compareWithBuild a c = o) ∧
    (∀ a b : Version, compare a b ≠ .eq → compareWithBuild a b = compare a b) ∧
    (∀ a b : Version, a.samePrecedence b = true →
      (compareWithBuild a b = .eq ↔ a.build.map Tag.key = b.build.map Tag.key)) ∧
    (∀ a b : Version, a.samePrecedence b = true → a.build = none → b.build.isSome = true →
      compareWithBuild a b = .lt) ∧
    (∀ vs ws : List Version, IsStableSort compareWithBuild vs ws ↔ ws = sortWithBuild vs) ∧
    (∀ vs : List Version, (sortWithBuild vs).Pairwise (· ≤ ·)) ∧
    (∀ vs ws : List Version, IsStableSort compare (sortWithBuild vs) ws ↔ ws = sortWithBuild vs) := by
  refine ⟨fun a b => Std.OrientedCmp.eq_swap, fun o a b c hFirst hSecond => ?_,
    fun a b => compareWithBuild_of_compare_ne, fun a b hSame => ?_,
    fun a b hSame hAbsent hPresent => ?_, fun vs ws => isStableSort_iff,
    pairwise_le_sortWithBuild, fun vs ws => isStableSort_iff_eq (pairwise_le_sortWithBuild vs)⟩
  · cases o with
    | lt => exact Std.TransCmp.lt_trans hFirst hSecond
    | eq => exact Std.TransCmp.eq_trans hFirst hSecond
    | gt => exact Std.TransCmp.gt_trans hFirst hSecond
  · rw [compareWithBuild_of_samePrecedence hSame, Tag.compare_optional_eq_eq_iff]
  · obtain ⟨t, hBuild⟩ := Option.isSome_iff_exists.1 hPresent
    rw [compareWithBuild_of_samePrecedence hSame, hAbsent, hBuild]
    rfl

/-- Builds that differ in a zero are equal, an absent build comes before them, and a greater
number after. -/
theorem compareWithBuild_of_numbered_builds :
    ∃ a b c d : Version, Version.parse "1.0.0.0-rc.1" = .ok a ∧
      Version.parse "1.0.0.0-rc.1+7" = .ok b ∧ Version.parse "1.0.0.0-rc.1+007" = .ok c ∧
      Version.parse "1.0.0.0" = .ok d ∧ compareWithBuild a b = .lt ∧ compareWithBuild b c = .eq ∧
      compareWithBuild c d = .lt ∧ compareWithBuild a d = .lt := by
  have hParsed : ∃ a b c d : Version, Version.parse "1.0.0.0-rc.1" = .ok a ∧
      Version.parse "1.0.0.0-rc.1+7" = .ok b ∧ Version.parse "1.0.0.0-rc.1+007" = .ok c ∧
      Version.parse "1.0.0.0" = .ok d ∧ a.build = none ∧ b.build.isSome = true ∧
      b.build.map Tag.key = c.build.map Tag.key ∧ compare a b = .eq ∧ compare b c = .eq ∧
      compare c d = .lt ∧ compare a d = .lt := by
    let candidate (build : Option Tag) : Version :=
      ⟨⟨⟨1, by decide⟩, 0, 0, 0⟩,
        some (.cons ⟨['r', 'c'], by decide, List.all_eq_true.1 rfl⟩ (.singleton (.ofNat 1))), build⟩
    exact ⟨candidate none, candidate (some (.singleton (.ofNat 7))),
      candidate (some (.singleton ⟨['0', '0', '7'], by decide, List.all_eq_true.1 rfl⟩)),
      ⟨⟨⟨1, by decide⟩, 0, 0, 0⟩, none, none⟩,
      by decide +kernel, by decide +kernel, by decide +kernel, by decide +kernel, by decide,
      by decide, by decide, by decide, by decide, by decide, by decide⟩
  obtain ⟨a, b, c, d, hAbsent, hSeven, hPadded, hRelease, hNone, hSome, hKeys, hFirst, hSecond,
    hBelow, hLowest⟩ := hParsed
  obtain ⟨-, -, hDiffer, hEqual, hLess, -⟩ := compareWithBuild_refines_precedence
  refine ⟨a, b, c, d, hAbsent, hSeven, hPadded, hRelease, ?_, ?_, ?_, ?_⟩
  · exact hLess a b (beq_iff_eq.2 hFirst) hNone hSome
  · exact (hEqual b c (beq_iff_eq.2 hSecond)).2 hKeys
  · rw [hDiffer c d (by rw [hBelow]; decide), hBelow]
  · rw [hDiffer a d (by rw [hLowest]; decide), hLowest]

end Version

end Versioning
