import Versioning.Version.Order

/-!
# Versions against releases

A core counts as the release that carries no tag. What precedence says of a
version and a release is a matter of two cores and of one question more: whether
the version is a pre-release of that very core (`IsPreReleaseOf`). A pre-release
stands just below its release, so it is above all else that the release is above.

The order on cores is spelled out in the values of the four components, which is
the form in which arithmetic can settle it.
-/

namespace Versioning

namespace Core

theorem compare_eq_then (a b : Core) :
    compare a b = (compare a.major.value b.major.value).then
      ((compare a.minor.value b.minor.value).then
        ((compare a.build.value b.build.value).then
          (compare a.subBuild.value b.subBuild.value))) := rfl

theorem lt_iff {a b : Core} :
    a < b ↔ a.major.value < b.major.value ∨ a.major.value = b.major.value ∧
      (a.minor.value < b.minor.value ∨ a.minor.value = b.minor.value ∧
        (a.build.value < b.build.value ∨ a.build.value = b.build.value ∧
          a.subBuild.value < b.subBuild.value)) := by
  show compare a b = .lt ↔ _
  simp only [compare_eq_then, Ordering.then_eq_lt, Nat.compare_eq_lt, Nat.compare_eq_eq]

theorem eq_iff {a b : Core} :
    a = b ↔ a.major.value = b.major.value ∧ a.minor.value = b.minor.value ∧
      a.build.value = b.build.value ∧ a.subBuild.value = b.subBuild.value := by
  simp only [Core.ext_iff, Component.ext_iff]

theorem compare_eq_eq {a b : Core} : compare a b = .eq ↔ a = b := by
  simp only [compare_eq_then, Ordering.then_eq_eq, Nat.compare_eq_eq, eq_iff]

theorem le_iff_not_lt {a b : Core} : a ≤ b ↔ ¬ b < a := by
  show (compare a b).isLE = true ↔ _
  rw [lt_iff]
  simp only [compare_eq_then, Ordering.isLE_then_iff_or, Nat.compare_eq_lt, Nat.compare_eq_eq,
    Nat.isLE_compare]
  omega

theorem le_iff_lt_or_eq {a b : Core} : a ≤ b ↔ a < b ∨ a = b := by
  rw [le_iff_not_lt, lt_iff, lt_iff, eq_iff]
  omega

theorem le_trans {a b c : Core} (hFirst : a ≤ b) (hSecond : b ≤ c) : a ≤ c := by
  rw [le_iff_not_lt, lt_iff] at hFirst hSecond ⊢
  omega

theorem not_lt_self (a : Core) : ¬ a < a := by
  rw [lt_iff]
  omega

end Core

namespace Version

variable {v : Version} {c : Core}

/-- A version is a pre-release of the release with a given core. -/
def IsPreReleaseOf (v : Version) (c : Core) : Prop := v.core = c ∧ v.isPreRelease = true

instance : Decidable (v.IsPreReleaseOf c) := inferInstanceAs (Decidable (_ ∧ _))

/-- A release precedes or equals all versions from its core on but its own pre-releases. -/
theorem release_le_iff : (c : Version) ≤ v ↔ c ≤ v.core ∧ ¬ v.IsPreReleaseOf c := by
  show ((compare c v.core).then (comparePreRelease none v.preRelease)).isLE = true ↔ _
  rw [Ordering.isLE_then_iff_or, Core.compare_eq_eq, Core.le_iff_lt_or_eq]
  show c < v.core ∨ _ ↔ _
  unfold IsPreReleaseOf isPreRelease
  cases v.preRelease with
  | none => simp [comparePreRelease]
  | some tag =>
      constructor
      · rintro (hLt | ⟨_, hGreater⟩)
        · refine ⟨.inl hLt, ?_⟩
          rintro ⟨rfl, -⟩
          exact Core.not_lt_self _ hLt
        · cases hGreater
      · rintro ⟨hLt | rfl, hNot⟩
        · exact .inl hLt
        · exact absurd ⟨rfl, rfl⟩ hNot

/-- A release is preceded by the versions of lower cores and by its own pre-releases. -/
theorem lt_release_iff : v < (c : Version) ↔ v.core < c ∨ v.IsPreReleaseOf c := by
  show (compare v.core c).then (comparePreRelease v.preRelease none) = .lt ↔ _
  rw [Ordering.then_eq_lt, Core.compare_eq_eq]
  show v.core < c ∨ _ ↔ _
  unfold IsPreReleaseOf isPreRelease
  cases v.preRelease <;> simp [comparePreRelease]

theorem le_release_iff : v ≤ (c : Version) ↔ v.core ≤ c := by
  show ((compare v.core c).then (comparePreRelease v.preRelease none)).isLE = true ↔ _
  rw [Ordering.isLE_then_iff_or, Core.compare_eq_eq, Core.le_iff_lt_or_eq]
  show v.core < c ∨ _ ↔ _
  cases v.preRelease <;> simp [comparePreRelease]

theorem samePrecedence_release_iff :
    v.samePrecedence c = true ↔ v.core = c ∧ v.isPreRelease = false := by
  show ((compare v.core c).then (comparePreRelease v.preRelease none) == .eq) = true ↔ _
  rw [beq_iff_eq, Ordering.then_eq_eq, Core.compare_eq_eq]
  unfold isPreRelease
  cases v.preRelease <;> simp [comparePreRelease]

end Version

end Versioning
