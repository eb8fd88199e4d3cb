import Versioning.Proofs.Range.Expressions
import Versioning.Proofs.Token.Scanning
import Versioning.Proofs.Version.Order

/-!
# What shorthands mean

A shorthand is parsed to a band, and a band is two comparisons with releases.
This module says in terms of the components of a version what the two amount to.
Between the ends of a band, a core agrees with the components given up to the
one that is increased (`lt_padded_next_iff`); at the ends it is the pre-releases
that matter: those of the lower end are left out, and those of the upper end are
let in, since they precede its release.
-/

namespace Versioning

open Text

/-- The digits of a component as a run. -/
def Component.run (c : Component) : Run Char.isDigit := Decimal.run c.value

namespace Core

/-- Increasing the last component given makes a greater core. -/
theorem padded_lt_padded_next {before after : List Component} {c next : Component}
    (hFew : before.length ≤ 3) (hNext : next.value = c.value + 1) :
    padded (before ++ c :: after) < padded (before ++ [next]) := by
  rw [lt_iff]
  match before, hFew with
  | [], _ | [_], _ | [_, _], _ | [_, _, _], _ =>
      simp only [padded, List.cons_append, List.nil_append, List.getD_cons_zero,
        List.getD_cons_succ, true_and]
      omega

/-- From the lower end of a band on, the cores below the upper end are those that agree with the
components up to the one increased. -/
theorem lt_padded_next_iff {before after : List Component} {c next : Component} {N : Core}
    (hFew : before.length ≤ 3) (hNext : next.value = c.value + 1)
    (hFrom : padded (before ++ c :: after) ≤ N) :
    N < padded (before ++ [next]) ↔ N.components.take (before.length + 1) = before ++ [c] := by
  rw [le_iff_not_lt, lt_iff] at hFrom
  rw [lt_iff]
  match before, hFew with
  | [], _ | [_], _ | [_, _], _ | [_, _, _], _ =>
      simp only [padded, List.cons_append, List.nil_append, List.getD_cons_zero,
        List.getD_cons_succ, List.getD_nil] at hFrom ⊢
      simp only [components, Place.all, List.map_cons, get, List.length_cons, List.length_nil,
        List.take_succ_cons, List.take_zero, List.cons.injEq, Component.ext_iff, and_true,
        Component.value_zero]
      omega

/-- A core that starts with components is not below them. -/
theorem padded_le_of_take {before : List Component} {c : Component} {N : Core}
    (hFew : before.length ≤ 3)
    (hTake : N.components.take (before.length + 1) = before ++ [c]) :
    padded (before ++ [c]) ≤ N := by
  rw [le_iff_not_lt, lt_iff]
  match before, hFew with
  | [], _ | [_], _ | [_, _], _ | [_, _, _], _ =>
      simp only [components, Place.all, List.map_cons, get, List.length_cons, List.length_nil,
        List.take_succ_cons, List.take_zero, List.cons_append, List.nil_append, List.cons.injEq,
        Component.ext_iff] at hTake
      simp only [padded, List.cons_append, List.nil_append, List.getD_cons_zero,
        List.getD_cons_succ, List.getD_nil, Component.value_zero]
      omega

end Core

namespace Range

open Grammar

/-! ## Bands of versions -/

/-- A band holds the versions whose cores are in it, without the pre-releases of its lower end
but with those of its upper end. -/
theorem admits_band_iff {lower upper : Core} (hLt : lower < upper) {v : Version} :
    (and (.comparison .ge lower) (.comparison .lt upper)).admits v = true ↔
      (lower ≤ v.core ∧ v.core < upper ∧ ¬ v.IsPreReleaseOf lower) ∨
        v.IsPreReleaseOf upper := by
  show (decide ((lower : Version) ≤ v) && decide (v < (upper : Version))) = true ↔ _
  rw [Bool.and_eq_true, decide_eq_true_iff, decide_eq_true_iff, Version.release_le_iff,
    Version.lt_release_iff]
  constructor
  · rintro ⟨⟨hFrom, hNot⟩, hBelow | hPre⟩
    · exact .inl ⟨hFrom, hBelow, hNot⟩
    · exact .inr hPre
  · rintro (⟨hFrom, hBelow, hNot⟩ | ⟨rfl, hPre⟩)
    · exact ⟨⟨hFrom, hNot⟩, .inl hBelow⟩
    · refine ⟨⟨Core.le_iff_lt_or_eq.2 (.inl hLt), ?_⟩, .inr ⟨rfl, hPre⟩⟩
      rintro ⟨rfl, -⟩
      exact Core.not_lt_self _ hLt

/-- From given components up to where one of them is increased: the versions that agree with
the components up to that one. -/
theorem admits_upTo_iff {before after : List Component} {c next : Component}
    (hFew : before.length ≤ 3) (hNext : next.value = c.value + 1) {v : Version} :
    (and (.comparison .ge (Core.padded (before ++ c :: after)))
        (.comparison .lt (Core.padded (before ++ [next])))).admits v = true ↔
      (Core.padded (before ++ c :: after) ≤ v.core ∧
        v.core.components.take (before.length + 1) = before ++ [c] ∧
        ¬ v.IsPreReleaseOf (Core.padded (before ++ c :: after))) ∨
      v.IsPreReleaseOf (Core.padded (before ++ [next])) := by
  rw [admits_band_iff (Core.padded_lt_padded_next hFew hNext)]
  by_cases hFrom : Core.padded (before ++ c :: after) ≤ v.core
  · rw [Core.lt_padded_next_iff hFew hNext hFrom]
  · simp only [hFrom, false_and]

/-- If nothing comes after the component increased, agreeing with the components is enough. -/
theorem admits_upTo_last_iff {before : List Component} {c next : Component}
    (hFew : before.length ≤ 3) (hNext : next.value = c.value + 1) {v : Version} :
    (and (.comparison .ge (Core.padded (before ++ [c])))
        (.comparison .lt (Core.padded (before ++ [next])))).admits v = true ↔
      (v.core.components.take (before.length + 1) = before ++ [c] ∧
        ¬ v.IsPreReleaseOf (Core.padded (before ++ [c]))) ∨
      v.IsPreReleaseOf (Core.padded (before ++ [next])) := by
  rw [admits_upTo_iff hFew hNext]
  by_cases hTake : v.core.components.take (before.length + 1) = before ++ [c]
  · have hFrom := Core.padded_le_of_take hFew hTake
    simp only [hFrom, true_and]
  · simp only [hTake, false_and, and_false]

/-- A version between two releases, both included. -/
theorem admits_between_iff {lower upper : Core} {v : Version} :
    (and (.comparison .ge lower) (.comparison .le upper)).admits v = true ↔
      lower ≤ v.core ∧ v.core ≤ upper ∧ ¬ v.IsPreReleaseOf lower := by
  show (decide ((lower : Version) ≤ v) && decide (v ≤ (upper : Version))) = true ↔ _
  rw [Bool.and_eq_true, decide_eq_true_iff, decide_eq_true_iff, Version.release_le_iff,
    Version.le_release_iff, and_assoc, and_comm (a := ¬ v.IsPreReleaseOf lower)]

/-- The zero core is the least, so that a version is below its release only as a pre-release. -/
theorem admits_from_zero_iff {v : Version} :
    (comparison .ge ({} : Core)).admits v = true ↔ ¬ v.IsPreReleaseOf {} := by
  show decide ((({} : Core) : Version) ≤ v) = true ↔ _
  rw [decide_eq_true_iff, Version.release_le_iff]
  have hLeast : ({} : Core) ≤ v.core := by
    rw [Core.le_iff_not_lt, Core.lt_iff]
    simp only [Component.value_zero]
    omega
  exact ⟨fun h => h.2, fun h => ⟨hLeast, h⟩⟩

/-! ## Texts of shorthands -/

/-- The text of components, with dots between them. -/
def dottedText (cs : List Component) : String :=
  String.ofList (Token.dotted (cs.map Component.run))

theorem toList_dottedText (cs : List Component) :
    (dottedText cs).toList = Token.dotted (cs.map Component.run) :=
  String.toList_ofList

/-- The tokens of digit runs are numbers. -/
theorem numbers_ofRuns {rs : List (Run Char.isDigit)} {cs : List Component} {position : Nat}
    (hNe : rs ≠ []) (hValues : rs.map (fun r => Component.ofDigits? r.chars) = cs.map some) :
    Numbers (Token.ofRuns position rs) cs := by
  induction rs generalizing cs position with
  | nil => exact absurd rfl hNe
  | cons r rs ih =>
      cases cs with
      | nil => cases hValues
      | cons c cs =>
          obtain ⟨hFirst, hRest⟩ := List.cons_eq_cons.1 hValues
          have hValue : Denotes r.chars c := .digits (Component.ofNat?_eq_some_iff.1 hFirst).symm
          cases rs with
          | nil =>
              obtain rfl : cs = [] := List.map_eq_nil_iff.1 hRest.symm
              exact .one rfl hValue
          | cons s rs => exact .more rfl hValue rfl (ih (by simp) hRest)

theorem runs_ne_nil {cs : List Component} (hNe : cs ≠ []) : cs.map Component.run ≠ [] := by
  intro hNil
  exact hNe (List.map_eq_nil_iff.1 hNil)

theorem numbers_dotted {cs : List Component} {position : Nat} (hNe : cs ≠ []) :
    Numbers (Token.ofRuns position (cs.map Component.run)) cs := by
  apply numbers_ofRuns (runs_ne_nil hNe)
  rw [List.map_map]
  apply List.map_congr_left
  intro c _
  exact c.ofDigits?_digits

/-- A text is parsed to what the atom of its tokens spells. -/
theorem parse_of_atom {s : String} {text : List Char} {ts : List Token} {r : Range}
    (hTokens : Token.ofChars text = .ok ts) (hAtom : Grammar.Atom ts r)
    (hText : s.toList = text) : Range.parse s = .ok r := by
  rw [← hText] at hTokens
  exact parse_eq_ok_iff.2 ⟨ts, hTokens, .unit (.atom hAtom)⟩

section Texts

variable {before zeros after cs lower upper : List Component} {c : Component} {r : Range}

theorem parse_tilde (hFew : before.length ≤ 3) (hBand : Band before c [] r) :
    Range.parse ("~" ++ dottedText (before ++ [c])) = .ok r := by
  have hNe : before ++ [c] ≠ [] := by simp
  have hTokens := Token.ofChars_cons_dotted (c := '~') (runs_ne_nil hNe) rfl rfl
  refine parse_of_atom hTokens (.tilde rfl (numbers_dotted hNe) hFew hBand) ?_
  rw [String.toList_append, toList_dottedText]
  rfl

theorem parse_caret (hNe : cs ≠ []) (hAtom : ∀ {mark : Token} {ts : List Token},
    mark.kind = .caret → Numbers ts cs → Grammar.Atom (mark :: ts) r) :
    Range.parse ("^" ++ dottedText cs) = .ok r := by
  have hTokens := Token.ofChars_cons_dotted (c := '^') (runs_ne_nil hNe) rfl rfl
  refine parse_of_atom hTokens (hAtom rfl (numbers_dotted hNe)) ?_
  rw [String.toList_append, toList_dottedText]
  rfl

theorem parse_star : Range.parse "*" = .ok (.comparison .ge ({} : Core)) := by
  have hTokens : Token.ofChars ['*'] = .ok [⟨.wildcard, some ['*'], 0⟩] := by
    rw [Token.ofChars, Token.scan_mark rfl rfl, Token.scan]
    rfl
  exact parse_of_atom hTokens (.any rfl) rfl

theorem parse_wildcard (hFew : before.length ≤ 2) (hBand : Band before c [] r) :
    Range.parse (dottedText (before ++ [c]) ++ ".*") = .ok r := by
  have hNe : before ++ [c] ≠ [] := by simp
  have hTokens := Token.ofChars_dotted_star (runs_ne_nil hNe)
  refine parse_of_atom hTokens (.wildcard (numbers_dotted hNe) hFew rfl rfl hBand) ?_
  rw [String.toList_append, toList_dottedText]
  rfl

theorem parse_partialVersion (hFew : before.length ≤ 1) (hBand : Band before c [] r) :
    Range.parse (dottedText (before ++ [c])) = .ok r := by
  have hNe : before ++ [c] ≠ [] := by simp
  have hTokens := Token.ofChars_dotted (runs_ne_nil hNe)
  exact parse_of_atom hTokens (.partialVersion (numbers_dotted hNe) hFew hBand)
    (toList_dottedText _)

theorem parse_hyphen (hLower : lower ≠ []) (hLowerFew : lower.length ≤ 4) (hUpper : upper ≠ [])
    (hUpperFew : upper.length ≤ 4) :
    Range.parse (dottedText lower ++ " - " ++ dottedText upper) =
      .ok (.and (.comparison .ge (Core.padded lower)) (.comparison .le (Core.padded upper))) := by
  have hTokens := Token.ofChars_dotted_hyphen (runs_ne_nil hLower) (runs_ne_nil hUpper)
  refine parse_of_atom hTokens
    (.hyphen (numbers_dotted hLower) hLowerFew rfl (numbers_dotted hUpper) hUpperFew) ?_
  rw [String.toList_append, String.toList_append, toList_dottedText, toList_dottedText,
    List.append_assoc]
  rfl

end Texts

/-- **Shorthands by components.** Each shorthand is parsed, and its range holds the versions
that its components describe. A version of the lower end must not be a pre-release; at the
component increased, only the pre-releases of the next core are let in. -/
theorem admits_shorthand_iff :
    (∀ before c next, before.length ≤ 3 → next.value = c.value + 1 →
      ∃ r, Range.parse ("~" ++ dottedText (before ++ [c])) = .ok r ∧
        (before.length ≤ 2 → Range.parse (dottedText (before ++ [c]) ++ ".*") = .ok r) ∧
        (before.length ≤ 1 → Range.parse (dottedText (before ++ [c])) = .ok r) ∧
        ∀ v : Version, r.admits v = true ↔
          (v.core.components.take (before.length + 1) = before ++ [c] ∧
            ¬ v.IsPreReleaseOf (Core.padded (before ++ [c]))) ∨
          v.IsPreReleaseOf (Core.padded (before ++ [next]))) ∧
    (∀ zeros c after next, (zeros ++ c :: after).length ≤ 4 → (∀ z ∈ zeros, z = 0) → c ≠ 0 →
      next.value = c.value + 1 →
      ∃ r, Range.parse ("^" ++ dottedText (zeros ++ c :: after)) = .ok r ∧
        ∀ v : Version, r.admits v = true ↔
          (Core.padded (zeros ++ c :: after) ≤ v.core ∧
            v.core.components.take (zeros.length + 1) = zeros ++ [c] ∧
            ¬ v.IsPreReleaseOf (Core.padded (zeros ++ c :: after))) ∨
          v.IsPreReleaseOf (Core.padded (zeros ++ [next]))) ∧
    (∀ zeros : List Component, zeros ≠ [] → zeros.length ≤ 4 → (∀ z ∈ zeros, z = 0) →
      ∃ r, Range.parse ("^" ++ dottedText zeros) = .ok r ∧
        ∀ v : Version, r.admits v = true ↔ v.core = {} ∧ v.isPreRelease = false) ∧
    (∃ r, Range.parse "*" = .ok r ∧
      ∀ v : Version, r.admits v = true ↔ ¬ v.IsPreReleaseOf {}) ∧
    (∀ lower upper, lower ≠ [] → lower.length ≤ 4 → upper ≠ [] → upper.length ≤ 4 →
      ∃ r, Range.parse (dottedText lower ++ " - " ++ dottedText upper) = .ok r ∧
        ∀ v : Version, r.admits v = true ↔
          Core.padded lower ≤ v.core ∧ v.core ≤ Core.padded upper ∧
            ¬ v.IsPreReleaseOf (Core.padded lower)) := by
  refine ⟨?_, ?_, ?_, ?_, ?_⟩
  · intro before c next hFew hNext
    have hBand : Band before c [] _ := .upTo hNext
    exact ⟨_, parse_tilde hFew hBand, fun h => parse_wildcard h hBand,
      fun h => parse_partialVersion h hBand, fun v => admits_upTo_last_iff hFew hNext⟩
  · intro zeros c after next hFew hZeros hNonzero hNext
    have hBefore : zeros.length ≤ 3 := by
      simp only [List.length_append, List.length_cons] at hFew
      omega
    refine ⟨_, parse_caret (by simp) ?_, fun v => admits_upTo_iff hBefore hNext⟩
    intro mark ts hMark hNumbers
    exact .caret hMark hNumbers hFew hZeros hNonzero (.upTo hNext)
  · intro zeros hNe hFew hZeros
    refine ⟨.comparison .eq ({} : Core), parse_caret hNe ?_,
      fun v => Version.samePrecedence_release_iff⟩
    intro mark ts hMark hNumbers
    exact .caretZero hMark hNumbers hFew hZeros
  · exact ⟨_, parse_star, fun v => admits_from_zero_iff⟩
  · intro lower upper hLower hLowerFew hUpper hUpperFew
    exact ⟨_, parse_hyphen hLower hLowerFew hUpper hUpperFew, fun v => admits_between_iff⟩

/-- The range `~1.2` lets `1.3.0.0-9` in, but not `1.3.0.0`. -/
theorem admits_next_preRelease_of_tilde :
    ∃ r, Range.parse "~1.2" = .ok r ∧
      r.admits ⟨⟨⟨1, by decide⟩, ⟨3, by decide⟩, 0, 0⟩, some (.singleton (.ofNat 9)), none⟩ = true ∧
      r.admits ⟨⟨⟨1, by decide⟩, ⟨3, by decide⟩, 0, 0⟩, none, none⟩ = false := by
  obtain ⟨r, hParse, -, -, hAdmits⟩ :=
    admits_shorthand_iff.1 [⟨1, by decide⟩] ⟨2, by decide⟩ ⟨3, by decide⟩ (by decide) rfl
  refine ⟨r, hParse, (hAdmits _).2 (by decide), ?_⟩
  rw [Bool.eq_false_iff, Ne, hAdmits]
  decide

end Range

end Versioning
