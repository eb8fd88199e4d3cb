import Mathlib.Data.List.Lex
import Versioning.Proofs.Version.Effects

/-!
# Incrementing bounds the cores that start alike

`Core.incrementAt?` adds one at an index and zeroes what is behind it. What comes
of it is a bound on beginnings: a core is below the incremented one just if its
components up to the index come no later than those of the core that was
incremented, in lexicographic order.

Both orders are decided at the first place at which two cores differ. For whole
cores that is `Core.lt_iff_exists_aheadAt`; for their beginnings it is the same
statement with a bound on the place (`lead_lt_lead_iff`). Behind the index no core
falls short of the incremented one, since there are zeros there.

## Main results

* `NextAt.lt_iff_lead_le` — the cores below an incremented one.
* `NextAt.le_of_bounds` — no lower core is above all that start alike.
* `incrementAt?_bounds` — when there is an incremented core, and of what it is the least bound.
-/

namespace Versioning

namespace Place

variable {p : Place} {i : Nat}

theorem index_lt (p : Place) : p.index < 4 := by
  cases p <;> decide

theorem ofIndex?_eq_some_iff : ofIndex? i = some p ↔ p.index = i := by
  constructor
  · intro hFound
    match i with
    | 0 | 1 | 2 | 3 =>
        obtain rfl := Option.some.inj hFound
        rfl
    | _ + 4 => cases hFound
  · rintro rfl
    exact ofIndex?_index p

theorem exists_iff {P : Place → Prop} :
    (∃ q, P q) ↔ P .major ∨ P .minor ∨ P .build ∨ P .subBuild := by
  constructor
  · rintro ⟨q, hHolds⟩
    cases q with
    | major => exact .inl hHolds
    | minor => exact .inr (.inl hHolds)
    | build => exact .inr (.inr (.inl hHolds))
    | subBuild => exact .inr (.inr (.inr hHolds))
  · rintro (hHolds | hHolds | hHolds | hHolds) <;> exact ⟨_, hHolds⟩

end Place

/-- The largest component. -/
def Component.largest : Component := ⟨maximum, Nat.le_refl _⟩

namespace Core

variable {u v w : Core} {p q : Place} {i : Nat}

/-! ## Beginnings of cores -/

/-- The values of the components up to an index, the most significant first. -/
def lead (c : Core) (i : Nat) : List Nat := (c.components.take (i + 1)).map Component.value

theorem lead_index (c : Core) (p : Place) :
    c.lead p.index =
      match p with
      | .major => [c.major.value]
      | .minor => [c.major.value, c.minor.value]
      | .build => [c.major.value, c.minor.value, c.build.value]
      | .subBuild => [c.major.value, c.minor.value, c.build.value, c.subBuild.value] := by
  cases p <;> rfl

/-- Beginnings are ordered by the first place at which they differ. -/
theorem lead_lt_lead_iff :
    u.lead p.index < v.lead p.index ↔ ∃ q : Place, q.index ≤ p.index ∧ AheadAt q u v := by
  simp only [Place.exists_iff, aheadAt_iff, lead_index]
  cases p <;>
    simp only [Place.index, List.cons_lt_cons_iff, List.not_lt_nil, and_false, or_false] <;> omega

/-- The core with the largest components behind a place. -/
def fillBehind (c : Core) : Place → Core
  | .major => ⟨c.major, .largest, .largest, .largest⟩
  | .minor => ⟨c.major, c.minor, .largest, .largest⟩
  | .build => ⟨c.major, c.minor, c.build, .largest⟩
  | .subBuild => c

theorem get_fillBehind (c : Core) (p q : Place) :
    (c.fillBehind p).get q = if q.index ≤ p.index then c.get q else .largest := by
  cases p <;> cases q <;> rfl

theorem lead_fillBehind (c : Core) (p : Place) :
    (c.fillBehind p).lead p.index = c.lead p.index := by
  cases p <;> rfl

/-! ## The bound -/

theorem NextAt.aheadAt (hNext : NextAt p v w) : AheadAt p v w := by
  refine ⟨fun q hBefore => (hNext.kept q hBefore).symm, ?_⟩
  rw [hNext.increased]
  exact Nat.lt_succ_self _

/-- A core that is behind the next one is ahead of the core itself at no place up to the one that
is incremented. -/
theorem NextAt.not_aheadAt (hNext : NextAt p v w) (hLt : u < w) (hLe : q.index ≤ p.index) :
    ¬ AheadAt q v u := by
  rintro ⟨hSame, hAhead⟩
  obtain ⟨r, hSame', hBehind⟩ := lt_iff_exists_aheadAt.1 hLt
  rcases Nat.lt_trichotomy r.index q.index with hBefore | hAt | hAfter
  · -- All three cores agree before the first of the two places.
    rw [hNext.kept r (by omega), hSame r hBefore] at hBehind
    exact Nat.lt_irrefl _ hBehind
  · obtain rfl := Place.eq_of_index_eq hAt
    rcases Nat.lt_or_eq_of_le hLe with hLess | hEq
    · rw [hNext.kept r hLess] at hBehind
      omega
    · obtain rfl := Place.eq_of_index_eq hEq
      have hIncreased := hNext.increased
      omega
  · rcases Nat.lt_or_eq_of_le hLe with hLess | hEq
    · have hValue := hSame' q hAfter
      rw [hNext.kept q hLess] at hValue
      rw [hValue] at hAhead
      exact Nat.lt_irrefl _ hAhead
    · obtain rfl := Place.eq_of_index_eq hEq
      rw [hNext.zeroed r hAfter] at hBehind
      exact Nat.not_lt_zero _ hBehind

/-- **Below the next core** are the cores whose beginning comes no later. -/
theorem NextAt.lt_iff_lead_le (hNext : NextAt p v w) :
    u < w ↔ u.lead p.index ≤ v.lead p.index := by
  rw [← not_lt, lead_lt_lead_iff]
  constructor
  · rintro hLt ⟨q, hLe, hAhead⟩
    exact hNext.not_aheadAt hLt hLe hAhead
  · intro hNone
    refine Decidable.byContradiction fun hNot => hNone ?_
    -- From the core itself over the next one on, some place up to this one is ahead.
    rcases le_iff_lt_or_eq.1 (le_iff_not_lt.2 hNot) with hLt | rfl
    · obtain ⟨r, hAhead⟩ := lt_iff_exists_aheadAt.1 hLt
      by_cases hLe : p.index ≤ r.index
      · exact ⟨p, Nat.le_refl _, hNext.aheadAt.trans_left hAhead hLe⟩
      · exact ⟨r, by omega, hNext.aheadAt.trans_right hAhead (by omega)⟩
    · exact ⟨p, Nat.le_refl _, hNext.aheadAt⟩

/-- Of the cores that start alike the one with the largest components behind the place is below a
bound only if the next core is not above that bound. -/
theorem NextAt.le_of_bounds (hNext : NextAt p v w) {b : Core}
    (hBounds : ∀ u : Core, u.lead p.index = v.lead p.index → u < b) : w ≤ b := by
  rw [le_iff_not_lt, hNext.lt_iff_lead_le, ← not_lt, lead_lt_lead_iff]
  intro hNone
  obtain ⟨r, hSame, hAhead⟩ := lt_iff_exists_aheadAt.1 (hBounds _ (v.lead_fillBehind p))
  by_cases hLe : r.index ≤ p.index
  · refine hNone ⟨r, hLe, fun q hBefore => ?_, ?_⟩
    · rw [← hSame q hBefore, get_fillBehind, if_pos (by omega)]
    · rwa [get_fillBehind, if_pos hLe] at hAhead
  · rw [get_fillBehind, if_neg hLe] at hAhead
    exact Nat.not_lt_of_le (b.get r).le_maximum hAhead

/-! ## Incrementing at an index -/

theorem getElem?_components (c : Core) (i : Nat) :
    c.components[i]? = (Place.ofIndex? i).map c.get :=
  List.getElem?_map

theorem incrementAt?_index (c : Core) (p : Place) : c.incrementAt? p.index = c.increment? p := by
  rw [incrementAt?, Place.ofIndex?_index, Option.bind_some]

theorem incrementAt?_eq_some_iff :
    v.incrementAt? i = some w ↔ ∃ p : Place, p.index = i ∧ NextAt p v w := by
  rw [incrementAt?, Option.bind_eq_some_iff]
  simp only [Place.ofIndex?_eq_some_iff, increment?_eq_some_iff]

/-- A core can be incremented at the index of a place whose component is not the largest. -/
theorem exists_incrementAt?_iff :
    (∃ w, v.incrementAt? i = some w) ↔
      i < 4 ∧ ∃ c, v.components[i]? = some c ∧ c.value < Component.maximum := by
  simp only [getElem?_components, Option.map_eq_some_iff, Place.ofIndex?_eq_some_iff]
  constructor
  · rintro ⟨w, hNext⟩
    obtain ⟨p, rfl, hNextAt⟩ := incrementAt?_eq_some_iff.1 hNext
    refine ⟨p.index_lt, v.get p, ⟨p, rfl, rfl⟩, ?_⟩
    have hBound : (w.get p).value ≤ Component.maximum := (w.get p).le_maximum
    rw [hNextAt.increased] at hBound
    exact hBound
  · rintro ⟨-, _, ⟨p, rfl, rfl⟩, hSmall⟩
    rw [← Option.ne_none_iff_exists', incrementAt?_index, Ne, increment?_eq_none_iff]
    exact Nat.ne_of_lt hSmall

/-- **Incrementing at an index** is possible where there is a component and it is not the largest.
The core that it gives comes after the one that was incremented. Below it are just the cores whose
components up to the index come no later than those of the other, in lexicographic order, and no
lower core is above all that share these components. -/
theorem incrementAt?_bounds (v : Core) (i : Nat) :
    ((∃ w, v.incrementAt? i = some w) ↔
      i < 4 ∧ ∃ c, v.components[i]? = some c ∧ c.value < Component.maximum) ∧
    ∀ w : Core, v.incrementAt? i = some w →
      v < w ∧ (∀ u : Core, u < w ↔ u.lead i ≤ v.lead i) ∧
        (∀ u : Core, u.lead i = v.lead i → u < w) ∧
        ∀ b : Core, (∀ u : Core, u.lead i = v.lead i → u < b) → w ≤ b := by
  refine ⟨exists_incrementAt?_iff, fun w hNext => ?_⟩
  obtain ⟨p, rfl, hNextAt⟩ := incrementAt?_eq_some_iff.1 hNext
  have hBelow : ∀ u : Core, u < w ↔ u.lead p.index ≤ v.lead p.index :=
    fun u => hNextAt.lt_iff_lead_le
  refine ⟨hNextAt.lt, hBelow, fun u hSame => ?_, fun b hBounds => hNextAt.le_of_bounds hBounds⟩
  rw [hBelow u, hSame]

/-- The largest sub-build of all that start with `1.2` is below `1.3.0.0`, and `1.3.0.0` itself is
not, though the build number cannot be incremented. -/
theorem incrementAt?_bounds_minor :
    ∃ v w u : Core, v.text = "1.2.18446744073709551615.4" ∧ v.incrementAt? 2 = none ∧
      v.incrementAt? 4 = none ∧ v.incrementAt? 1 = some w ∧ w.text = "1.3.0.0" ∧
      u.text = "1.2.18446744073709551615.18446744073709551615" ∧
      u.lead 1 = [1, 2] ∧ w.lead 1 = [1, 3] ∧ v < w ∧ u < w ∧ ¬ w < w ∧
      ∀ b : Core, (∀ u : Core, u.lead 1 = [1, 2] → u < b) → w ≤ b := by
  let v : Core := ⟨⟨1, by decide⟩, ⟨2, by decide⟩, .largest, ⟨4, by decide⟩⟩
  let w : Core := ⟨⟨1, by decide⟩, ⟨3, by decide⟩, 0, 0⟩
  have hNext : v.incrementAt? 1 = some w := rfl
  obtain ⟨hAfter, hBelow, hShared, hLeast⟩ := (incrementAt?_bounds v 1).2 w hNext
  refine ⟨v, w, v.fillBehind .minor, by decide, rfl, rfl, hNext, by decide, by decide, rfl, rfl,
    hAfter, hShared _ rfl, fun hLt => ?_, hLeast⟩
  exact absurd ((hBelow w).1 hLt) (by decide)

end Core

end Versioning
