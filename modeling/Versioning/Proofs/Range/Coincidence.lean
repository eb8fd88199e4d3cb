import Versioning.Proofs.Range.DigitRuns
import Versioning.Proofs.Range.Settings

/-!
# Shorthands that coincide

A band up to the next of the last number can be written in three ways: with a tilde
before the numbers, with a star behind them, or, for one or two numbers, as the
numbers alone. The three are selected by different lookaheads and read by different
loops. They come to the same on every run of digits (`bandOfRuns`), also where the
band does not exist, and so they do wherever they stand as a unit.

## Main results

* `parse_bandForms` — the three forms in every setting.
-/

namespace Versioning.Range

open Grammar Literal Outcome Text Token

variable {position : Nat} {r : Run Char.isDigit} {rs : List (Run Char.isDigit)}

/-- What stands before and after `n` numbers in the shorthands for the band up to the next of the
last one. -/
def bandForms (n : Nat) : List (String × String) :=
  [("~", ""), ("", ".*")] ++ if n ≤ 2 then [("", "")] else []

/-! ## The forms -/

theorem readsText_tilde (hFew : rs.length ≤ 3) :
    ReadsText .unit ('~' :: dotted (r :: rs)) fun position => bandOfRuns (position + 1) r rs := by
  refine .of_atom fun position => ?_
  obtain ⟨us, t, hEnd, hKind⟩ := ofRuns_ends (position + 1) r rs
  have hTilde : ∀ rest, Leads .tilde ['~'] ('~' :: rest) := fun _ => lexeme?_eq_some_iff.1 rfl
  refine ⟨_, .mark cuts_dotted (hTilde _), ⟨_, _, rfl, rfl⟩, ?_, fun stop us hFollows => ?_⟩
  · exact ⟨_ :: us, t, by rw [hEnd]; rfl, by rw [hKind]; rfl⟩
  · exact Atom.read_tilde_ofRuns rfl hFew hFollows

theorem readsText_wildcard (hFew : rs.length ≤ 2) :
    ReadsText .unit (dotted (r :: rs) ++ ['.', '*']) fun position => bandOfRuns position r rs := by
  refine .of_atom fun position => ?_
  obtain ⟨t, us, hStart, hKind⟩ := ofRuns_starts position r rs
  have hDot : ∀ rest, Leads .dot ['.'] ('.' :: rest) := fun _ => lexeme?_eq_some_iff.1 rfl
  have hStar : ∀ rest, Leads .wildcard ['*'] ('*' :: rest) := fun _ => lexeme?_eq_some_iff.1 rfl
  have hBehind : Cuts (position + (dotted (r :: rs)).length) ['.', '*'] _ :=
    .mark (.mark .nil (hStar _)) (hDot _)
  refine ⟨_, cuts_dotted.append (by simp [continues]) hBehind, ?_, ?_, fun stop us hFollows => ?_⟩
  · exact ⟨t, us ++ _, by rw [hStart]; rfl, by rw [hKind]; rfl⟩
  · exact ⟨_ ++ [_], _, by rw [List.append_assoc]; rfl, rfl⟩
  · rw [List.append_assoc]
    exact Atom.read_wildcard_ofRuns rfl rfl hFew

theorem readsText_partial (hFew : rs.length ≤ 1) :
    ReadsText .unit (dotted (r :: rs)) fun position => bandOfRuns position r rs := by
  refine .of_atom fun position => ?_
  obtain ⟨t, us, hStart, hKind⟩ := ofRuns_starts position r rs
  obtain ⟨vs, u, hEnd, hLast⟩ := ofRuns_ends position r rs
  refine ⟨_, cuts_dotted, ?_, ?_, fun stop us hFollows => ?_⟩
  · exact ⟨t, us, hStart, by rw [hKind]; rfl⟩
  · exact ⟨vs, u, hEnd, by rw [hLast]; rfl⟩
  · exact Atom.read_partial_ofRuns hFew hFollows

/-- Each form is read as the band of its numbers. -/
theorem readsText_bandForm {form : String × String} (hForm : form ∈ bandForms (r :: rs).length)
    (hFew : rs.length ≤ 2) :
    ReadsText .unit (form.1.toList ++ dotted (r :: rs) ++ form.2.toList) fun position =>
      bandOfRuns (position + form.1.toList.length) r rs := by
  rw [bandForms, List.length_cons] at hForm
  rcases List.mem_append.1 hForm with hAlways | hPartial
  · rcases List.mem_pair.1 hAlways with rfl | rfl
    · exact (readsText_tilde (Nat.le_succ_of_le hFew)).congr (by simp) fun _ => rfl
    · exact (readsText_wildcard hFew).congr (by simp) fun _ => rfl
  · split at hPartial
    · rename_i hShort
      obtain rfl := List.mem_singleton.1 hPartial
      exact (readsText_partial (Nat.le_of_succ_le_succ hShort)).congr (by simp) fun _ => rfl
    · cases hPartial

/-- **One band, three forms**: in every setting the forms spell the same range, or each of them
fails at the same run of digits, which is out of range. -/
theorem parse_bandForms (before after : String) (r : Run Char.isDigit)
    (rs : List (Run Char.isDigit)) (hSetting : Setting .expression before after)
    (hFew : rs.length ≤ 2) :
    (∃ q, ∀ form ∈ bandForms (r :: rs).length,
      Range.parse (before ++ (form.1 ++ String.ofList (dotted (r :: rs)) ++ form.2) ++ after) =
        .ok q) ∨
    ∃ ds d es, r :: rs = ds ++ d :: es ∧ Component.maximum ≤ Decimal.value d.chars ∧
      ∀ form ∈ bandForms (r :: rs).length,
        Range.parse (before ++ (form.1 ++ String.ofList (dotted (r :: rs)) ++ form.2) ++ after) =
          .error (.outOfRange
            (numericAt (before.toList.length + form.1.toList.length) ds d)) := by
  obtain ⟨f, hRead⟩ := hSetting.exists_readsText
  have hParse : ∀ form ∈ bandForms (r :: rs).length,
      Range.parse (before ++ (form.1 ++ String.ofList (dotted (r :: rs)) ++ form.2) ++ after) =
        (bandOfRuns (before.toList.length + form.1.toList.length) r rs).map f := by
    intro form hForm
    have hUnit := readsText_bandForm hForm hFew
    have hWhole : ReadsText .expression
        (before ++ (form.1 ++ String.ofList (dotted (r :: rs)) ++ form.2) ++ after).toList _ :=
      (hRead _ _ hUnit).congr (by simp) fun _ => rfl
    rw [hWhole.parse, Nat.zero_add]
  rcases bandOfRuns_outcome (r := r) (Nat.le_succ_of_le hFew) with
    ⟨q, hBand⟩ | ⟨ds, d, es, hSplit, hLarge, hBand⟩
  · refine .inl ⟨f q, fun form hForm => ?_⟩
    rw [hParse form hForm, hBand]
    rfl
  · refine .inr ⟨ds, d, es, hSplit, hLarge, fun form hForm => ?_⟩
    rw [hParse form hForm, hBand]
    rfl

/-- The three forms of `1.02` in parentheses and behind `3|`, and those of a version whose second
number is the largest there is, which is to blame in each. -/
theorem parse_bandForms_in_parentheses :
    (∃ (a b c d : Core) (q : Range), a.text = "3.0.0.0" ∧ b.text = "4.0.0.0" ∧
      c.text = "1.2.0.0" ∧ d.text = "1.3.0.0" ∧
      q = .or (.and (.comparison .ge a) (.comparison .lt b))
        (.and (.comparison .ge c) (.comparison .lt d)) ∧
      Range.parse "3|(~1.02)" = .ok q ∧ Range.parse "3|(1.02.*)" = .ok q ∧
      Range.parse "3|(1.02)" = .ok q) ∧
    ∃ lexeme : List Char, String.ofList lexeme = "18446744073709551615" ∧
      Range.parse "3|(~1.18446744073709551615)" =
        .error (.outOfRange ⟨.numeric, some lexeme, 6⟩) ∧
      Range.parse "3|(1.18446744073709551615.*)" =
        .error (.outOfRange ⟨.numeric, some lexeme, 5⟩) ∧
      Range.parse "3|(1.18446744073709551615)" =
        .error (.outOfRange ⟨.numeric, some lexeme, 5⟩) := by
  have hNext : (⟨4, by decide⟩ : Component).value = (⟨3, by decide⟩ : Component).value + 1 := rfl
  have hThree : Range.parse (dottedText ([] ++ [⟨3, by decide⟩])) = .ok _ :=
    parse_partialVersion (Nat.zero_le 1) (.upTo hNext)
  have hMark : "|".toList ∈ Kind.or.words := by decide
  have hSetting : Setting .expression "3|(" ")" :=
    .rightOf hThree (.inr rfl) hMark (.expression (.enclosed (.expression .alone)))
  let one : Run Char.isDigit := ⟨['1'], nofun, List.all_eq_true.1 rfl⟩
  constructor
  · have hTree : ∃ (a b c d : Core) (q : Range), a.text = "3.0.0.0" ∧ b.text = "4.0.0.0" ∧
        c.text = "1.2.0.0" ∧ d.text = "1.3.0.0" ∧
        q = .or (.and (.comparison .ge a) (.comparison .lt b))
          (.and (.comparison .ge c) (.comparison .lt d)) ∧ Range.parse "3|(~1.02)" = .ok q :=
      ⟨⟨⟨3, by decide⟩, 0, 0, 0⟩, ⟨⟨4, by decide⟩, 0, 0, 0⟩,
        ⟨⟨1, by decide⟩, ⟨2, by decide⟩, 0, 0⟩, ⟨⟨1, by decide⟩, ⟨3, by decide⟩, 0, 0⟩, _,
        by decide, by decide, by decide, by decide, rfl, by decide +kernel⟩
    obtain ⟨a, b, c, d, q, hA, hB, hC, hD, hShape, hTilde⟩ := hTree
    have hForms := parse_bandForms "3|(" ")" one [⟨['0', '2'], nofun, List.all_eq_true.1 rfl⟩]
      hSetting (by decide)
    rcases hForms with ⟨q', hForms⟩ | ⟨ds, d', es, -, -, hForms⟩
    · obtain rfl : q' = q := Except.ok.inj ((hForms ("~", "") (by decide)).symm.trans hTilde)
      exact ⟨a, b, c, d, q', hA, hB, hC, hD, hShape, hTilde, hForms ("", ".*") (by decide),
        hForms ("", "") (by decide)⟩
    · cases (hForms ("~", "") (by decide)).symm.trans hTilde
  · let largest : Run Char.isDigit :=
      ⟨"18446744073709551615".toList, by decide, List.all_eq_true.1 rfl⟩
    have hForms := parse_bandForms "3|(" ")" one [largest] hSetting (by decide)
    have hTilde : Range.parse "3|(~1.18446744073709551615)" =
        .error (.outOfRange ⟨.numeric, some largest.chars, 6⟩) := by decide +kernel
    rcases hForms with ⟨q, hForms⟩ | ⟨ds, d, es, hSplit, hLarge, hForms⟩
    · cases (hForms ("~", "") (by decide)).symm.trans hTilde
    · -- The first number is too small to be to blame.
      obtain ⟨rfl, rfl⟩ : ds = [one] ∧ d = largest := by
        rcases ds with - | ⟨s, - | ⟨s', ds⟩⟩
        · cases hSplit
          exact absurd hLarge (by decide)
        · cases hSplit
          exact ⟨rfl, rfl⟩
        · exact absurd (congrArg List.length hSplit) (by simp)
      exact ⟨largest.chars, by decide, hTilde, hForms ("", ".*") (by decide),
        hForms ("", "") (by decide)⟩

end Versioning.Range
