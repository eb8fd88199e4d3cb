import Versioning.Proofs.Version.Advance

/-!
# An advance is the largest increment that fits

`Core.advance?` scans two cores for their first difference and increments
nothing. This module compares it with increments: the place that it finds is the
most significant one at which the first core can be incremented without passing
the second. There is always room at that place (`Core.exists_increment?_le`),
whatever the less significant components are, because an increment zeroes them;
and there is none at a more significant one, where the two cores are still equal
(`Core.lt_of_increment?`).
-/

namespace Versioning

namespace Core

variable {a b c : Core} {p q : Place}

/-- There is room for an increment where a core is ahead: the component there is not the largest
one, as it is smaller than another. -/
theorem exists_increment?_le (hAhead : AheadAt p a b) : ∃ c, a.increment? p = some c ∧ c ≤ b := by
  have hSmaller := hAhead.2
  have hBound := (b.get p).le_maximum
  let next : Component := ⟨(a.get p).value + 1, by omega⟩
  have hSucc : (a.get p).succ? = some next := Component.ofNat?_eq_some_iff.2 rfl
  refine ⟨a.startAt p next, Option.map_eq_some_iff.2 ⟨next, hSucc, rfl⟩, ?_⟩
  rw [aheadAt_iff] at hAhead
  rw [le_iff_not_lt, lt_iff]
  cases p <;> simp only [startAt, get, next, Component.value_zero] at hAhead ⊢ <;> omega

/-- There is no room at a more significant place: an increment there passes the core ahead. -/
theorem lt_of_increment? (hAhead : AheadAt p a b) (hBefore : q.index < p.index)
    (hNext : a.increment? q = some c) : b < c := by
  obtain ⟨hSame, hSmaller⟩ := aheadAt_of_increment? hNext
  refine lt_iff_exists_aheadAt.2 ⟨q, fun r hMore => ?_, ?_⟩
  · rw [← hAhead.1 r (by omega)]
    exact hSame r hMore
  · rw [← hAhead.1 q hBefore]
    exact hSmaller

theorem lt_increment? (hNext : a.increment? p = some c) : a < c :=
  lt_iff_exists_aheadAt.2 ⟨p, aheadAt_of_increment? hNext⟩

/-- The place of an advance is the most significant one at which an increment stays below or
meets the core ahead. -/
theorem advance?_eq_some_iff_increment? :
    a.advance? b = some p ↔ (∃ c, a.increment? p = some c ∧ c ≤ b) ∧
      ∀ q c, a.increment? q = some c → c ≤ b → p.index ≤ q.index := by
  rw [advance?_eq_some_iff]
  constructor
  · intro hAhead
    refine ⟨exists_increment?_le hAhead, fun q c hNext hLe => ?_⟩
    refine Nat.le_of_not_lt fun hBefore => ?_
    exact le_iff_not_lt.1 hLe (lt_of_increment? hAhead hBefore hNext)
  · rintro ⟨⟨c, hNext, hLe⟩, hLeast⟩
    have hLt : a < b := by
      have hPast := lt_increment? hNext
      rw [le_iff_not_lt, lt_iff] at hLe
      rw [lt_iff] at hPast ⊢
      omega
    obtain ⟨r, hAhead⟩ := lt_iff_exists_aheadAt.1 hLt
    obtain ⟨d, hNext', hLe'⟩ := exists_increment?_le hAhead
    have hFirst := hLeast r d hNext' hLe'
    have hLast : r.index ≤ p.index := by
      refine Nat.le_of_not_lt fun hBefore => ?_
      exact le_iff_not_lt.1 hLe (lt_of_increment? hAhead hBefore hNext)
    rw [Place.eq_of_index_eq (Nat.le_antisymm hFirst hLast)]
    exact hAhead

theorem advance?_eq_none_iff_le : a.advance? b = none ↔ b ≤ a := by
  rw [advance?_eq_none_iff, le_iff_not_lt]

end Core

namespace Version

open Outcome

variable {v w : Version} {p : Place}

theorem increment_eq_ok_iff :
    v.increment p = .ok w ↔ ∃ c, v.core.increment? p = some c ∧ w = { core := c } := by
  constructor
  · intro hNext
    obtain ⟨c, hCore, h⟩ := bind_eq_ok_iff.1 hNext
    cases h
    exact ⟨c, Core.increment_eq_ok_iff.1 hCore, rfl⟩
  · rintro ⟨c, hCore, rfl⟩
    exact bind_eq_ok_iff.2 ⟨c, Core.increment_eq_ok_iff.2 hCore, rfl⟩

/-- A version can be incremented at a place without passing the core of another. -/
def HasRoomAt (p : Place) (a b : Version) : Prop := ∃ w, a.increment p = .ok w ∧ w.core ≤ b.core

theorem hasRoomAt_iff {a b : Version} :
    HasRoomAt p a b ↔ ∃ c, a.core.increment? p = some c ∧ c ≤ b.core := by
  constructor
  · rintro ⟨w, hNext, hLe⟩
    obtain ⟨c, hCore, rfl⟩ := increment_eq_ok_iff.1 hNext
    exact ⟨c, hCore, hLe⟩
  · rintro ⟨c, hCore, hLe⟩
    exact ⟨{ core := c }, increment_eq_ok_iff.2 ⟨c, hCore, rfl⟩, hLe⟩

theorem advance?_eq_some_iff_hasRoomAt {a b : Version} :
    a.core.advance? b.core = some p ↔
      HasRoomAt p a b ∧ ∀ q, HasRoomAt q a b → p.index ≤ q.index := by
  rw [Core.advance?_eq_some_iff_increment?, hasRoomAt_iff]
  simp only [hasRoomAt_iff, forall_exists_index, and_imp]

/-- **The advance as an increment**: the place at which one version advances to another is the
most significant one at which the first can be incremented without passing the core of the
second. There is no such place just when the second core does not come after the first. Whatever
tags two versions carry, if the core of one is an increment of the other's, then the place of
the increment is that of the advance, and there is no advance back. -/
theorem advance?_greatest_increment :
    (∀ (a b : Version) (p : Place), a.core.advance? b.core = some p ↔
        HasRoomAt p a b ∧ ∀ q, HasRoomAt q a b → p.index ≤ q.index) ∧
      (∀ a b : Version, (a.core.advance? b.core = none ↔ ∀ p, ¬ HasRoomAt p a b) ∧
        (a.core.advance? b.core = none ↔ b.core ≤ a.core)) ∧
      ∀ (v w : Version) (p : Place), v.increment p = .ok w →
        ∀ v' w' : Version, v'.core = v.core → w'.core = w.core →
          v'.core.advance? w'.core = some p ∧ w'.core.advance? v'.core = none := by
  refine ⟨fun a b p => advance?_eq_some_iff_hasRoomAt, fun a b => ⟨?_, ?_⟩, ?_⟩
  · constructor
    · intro hNone p hRoom
      obtain ⟨c, hNext, hLe⟩ := hasRoomAt_iff.1 hRoom
      have hBehind := Core.le_trans hLe (Core.advance?_eq_none_iff_le.1 hNone)
      exact Core.le_iff_not_lt.1 hBehind (Core.lt_increment? hNext)
    · intro hNoRoom
      rw [Core.advance?_eq_none_iff]
      intro hLt
      obtain ⟨p, hAhead⟩ := Core.lt_iff_exists_aheadAt.1 hLt
      exact hNoRoom p (hasRoomAt_iff.2 (Core.exists_increment?_le hAhead))
  · exact Core.advance?_eq_none_iff_le
  · intro v w p hNext v' w' hFrom hTo
    obtain ⟨c, hCore, rfl⟩ := increment_eq_ok_iff.1 hNext
    rw [hFrom, hTo]
    refine ⟨Core.advance?_of_aheadAt (Core.aheadAt_of_increment? hCore), ?_⟩
    rw [Core.advance?_eq_none_iff_le]
    exact Core.le_iff_lt_or_eq.2 (.inl (Core.lt_increment? hCore))

/-- The sub-build is as large as it can be, yet the next minor release is within reach, and its
pre-releases are as far away as it is. -/
theorem advance?_past_largest_subBuild :
    ∃ v w u : Version, v.text = "1.2.0.18446744073709551615-rc" ∧
      v.increment .subBuild = .error (.atMaximum .subBuild) ∧ v.increment .minor = .ok w ∧
      w.text = "1.3.0.0" ∧ u.text = "1.3.0.0-1+7" ∧
      v.core.advance? u.core = some .minor ∧ u.core.advance? v.core = none := by
  have hVersions : ∃ v w u : Version, v.text = "1.2.0.18446744073709551615-rc" ∧
      v.increment .subBuild = .error (.atMaximum .subBuild) ∧ v.increment .minor = .ok w ∧
      w.text = "1.3.0.0" ∧ u.text = "1.3.0.0-1+7" ∧ u.core = w.core :=
    ⟨⟨⟨⟨1, by decide⟩, ⟨2, by decide⟩, 0, ⟨18446744073709551615, by decide⟩⟩,
        some (.singleton ⟨['r', 'c'], by decide, List.all_eq_true.1 rfl⟩), none⟩,
      ⟨⟨⟨1, by decide⟩, ⟨3, by decide⟩, 0, 0⟩, none, none⟩,
      ⟨⟨⟨1, by decide⟩, ⟨3, by decide⟩, 0, 0⟩, some (.singleton (.ofNat 1)),
        some (.singleton (.ofNat 7))⟩,
      by decide, rfl, rfl, by decide, by decide, rfl⟩
  obtain ⟨v, w, u, hFrom, hLargest, hMinor, hNext, hTo, hCore⟩ := hVersions
  obtain ⟨hThere, hBack⟩ := advance?_greatest_increment.2.2 v w .minor hMinor v u rfl hCore
  exact ⟨v, w, u, hFrom, hLargest, hMinor, hNext, hTo, hThere, hBack⟩

end Version

end Versioning
