import Versioning.Proofs.Range.Shorthands
import Versioning.Proofs.Version.Advance

/-!
# Tilde ranges and advances

Whether a release is close enough to an older version can be asked in two ways:
does it satisfy the tilde range of the first components of the older version, or
at which place does it advance the older one? The two agree. A tilde range holds
the releases that share the components given (`admits_upTo_last_iff`), and from a
core on those are the ones that advance it at a less significant place or not at
all (`Core.agree_iff_advance?`).
-/

namespace Versioning

/-- The places up to a given one are the first of all places. -/
theorem Place.mem_take_all_iff {p q : Place} :
    q ∈ all.take (p.index + 1) ↔ q.index ≤ p.index := by
  cases p <;> cases q <;> decide

namespace Core

variable {a b : Core} {p : Place}

/-- Two cores start with the same components just if they agree on the places of these. -/
theorem take_components_eq_iff :
    a.components.take (p.index + 1) = b.components.take (p.index + 1) ↔
      ∀ q : Place, q.index ≤ p.index → a.get q = b.get q := by
  unfold components
  rw [← List.map_take, ← List.map_take, List.map_inj_left]
  simp only [Place.mem_take_all_iff]

theorem take_components_concat (a : Core) (p : Place) :
    a.components.take (p.index + 1) = a.components.take p.index ++ [a.get p] := by
  cases p <;> rfl

theorem length_take_components (a : Core) (p : Place) :
    (a.components.take p.index).length = p.index := by
  cases p <;> rfl

/-- From a core on, the cores that agree with it up to a place are those that do not advance it
there or at a more significant place. -/
theorem agree_iff_advance? (hLe : a ≤ b) :
    (∀ q : Place, q.index ≤ p.index → a.get q = b.get q) ↔
      a.advance? b = none ∨ ∃ q, a.advance? b = some q ∧ p.index < q.index := by
  rcases le_iff_lt_or_eq.1 hLe with hLt | rfl
  · obtain ⟨q, hAhead⟩ := lt_iff_exists_aheadAt.1 hLt
    rw [advance?_of_aheadAt hAhead]
    constructor
    · intro hAgree
      refine .inr ⟨q, rfl, Nat.lt_of_not_le fun hAt => ?_⟩
      have hMore := hAhead.2
      rw [hAgree q hAt] at hMore
      exact Nat.lt_irrefl _ hMore
    · rintro (hNone | ⟨q', hSame, hLess⟩)
      · cases hNone
      · obtain rfl := Option.some.inj hSame
        exact fun r hBefore => hAhead.1 r (Nat.lt_of_le_of_lt hBefore hLess)
  · exact iff_of_true (fun _ _ => rfl) (.inl (advance?_eq_none_iff.2 (not_lt_self a)))

end Core

namespace Range

open Grammar

/-- **Tilde ranges and advances agree**: from a version on, a release is in the tilde range of
the first components of the version just if it advances the version at none of their places. -/
theorem admits_tilde_iff_advance? (a b : Version) (p : Place)
    (hBelow : (a.core.get p).value < Component.maximum) (hRelease : b.isPreRelease = false)
    (hLe : a.core ≤ b.core) :
    ∃ r, Range.parse ("~" ++ dottedText (a.core.components.take (p.index + 1))) = .ok r ∧
      (r.admits b = true ↔ a.core.advance? b.core = none ∨
        ∃ q, a.core.advance? b.core = some q ∧ p.index < q.index) := by
  have hLength := a.core.length_take_components p
  have hFew : (a.core.components.take p.index).length ≤ 3 := by
    rw [hLength]
    cases p <;> decide
  obtain ⟨next, hNext⟩ : ∃ next : Component, next.value = (a.core.get p).value + 1 :=
    ⟨⟨_, hBelow⟩, rfl⟩
  have hBand : Band (a.core.components.take p.index) (a.core.get p) [] _ := .upTo hNext
  have hNot : ∀ c : Core, ¬ b.IsPreReleaseOf c := by
    rintro c ⟨-, hPre⟩
    rw [hRelease] at hPre
    cases hPre
  rw [Core.take_components_concat]
  refine ⟨_, parse_tilde hFew hBand, ?_⟩
  rw [admits_upTo_last_iff hFew hNext, hLength, ← Core.take_components_concat,
    ← Core.agree_iff_advance? hLe, ← Core.take_components_eq_iff]
  simp only [hNot, not_false_eq_true, and_true, or_false, eq_comm]

/-- After `1.4.2.0`, the release `1.5.0.0` satisfies `~1` but not `~1.4`. -/
theorem admits_next_minor_of_tilde :
    ∃ (a b : Version) (major minor : Range), a.text = "1.4.2.0" ∧ b.text = "1.5.0.0" ∧
      a.core.advance? b.core = some .minor ∧
      Range.parse "~1" = .ok major ∧ major.admits b = true ∧
      Range.parse "~1.4" = .ok minor ∧ minor.admits b = false := by
  obtain ⟨a, b, hText, hText', hRelease, hLe, hAdvance, hBelow, hTilde⟩ :
      ∃ a b : Version, a.text = "1.4.2.0" ∧ b.text = "1.5.0.0" ∧ b.isPreRelease = false ∧
        a.core ≤ b.core ∧ a.core.advance? b.core = some .minor ∧
        (∀ p : Place, (a.core.get p).value < Component.maximum) ∧
        "~" ++ dottedText (a.core.components.take 1) = "~1" ∧
        "~" ++ dottedText (a.core.components.take 2) = "~1.4" :=
    ⟨⟨⟨⟨1, by decide⟩, ⟨4, by decide⟩, ⟨2, by decide⟩, 0⟩, none, none⟩,
      ⟨⟨⟨1, by decide⟩, ⟨5, by decide⟩, 0, 0⟩, none, none⟩, by decide, by decide, by decide,
      by decide, by decide, fun p => by cases p <;> decide, by decide, by decide⟩
  obtain ⟨major, hMajor, hIn⟩ := admits_tilde_iff_advance? a b .major (hBelow _) hRelease hLe
  obtain ⟨minor, hMinor, hOut⟩ := admits_tilde_iff_advance? a b .minor (hBelow _) hRelease hLe
  rw [hAdvance] at hIn hOut
  refine ⟨a, b, major, minor, hText, hText', hAdvance, hTilde.1 ▸ hMajor, hIn.2 ?_,
    hTilde.2 ▸ hMinor, ?_⟩
  · exact .inr ⟨.minor, rfl, by decide⟩
  · refine Bool.eq_false_iff.2 fun hAdmits => ?_
    rcases hOut.1 hAdmits with hNone | ⟨q, hSame, hLess⟩
    · cases hNone
    · cases hSame
      exact absurd hLess (by decide)

end Range

end Versioning
