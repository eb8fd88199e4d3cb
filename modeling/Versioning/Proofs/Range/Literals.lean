import Versioning.Proofs.Range.DigitRuns
import Versioning.Proofs.Range.Settings

/-!
# Version literals as ranges

Four numbers with dots between them are a version literal and, alone or behind an
equals sign, a comparison with that version. The two are read by readers that have
nothing in common: one goes through the characters, the other through tokens, and
each converts its digit runs itself. They agree on runs of any length. Leading
zeros count for neither, so the range reader agrees with the lenient mode, and where
a run is too large both name the first such run and its place.

## Main results

* `parse_four_numbers` — the two readers on four digit runs.
-/

namespace Versioning.Range

open Grammar Literal Outcome Text Token

variable {position : Nat} {r d : Run Char.isDigit} {rs before after : List (Run Char.isDigit)}
  {cs : List Component}

/-! ## As literals -/

theorem spellsComponent_run {c : Component} (hValue : Component.ofDigits? r.chars = some c) :
    SpellsComponent .lenient r.chars c where
  ne_nil := r.ne_nil
  isDigit := r.all_mem
  value_eq := (Component.ofNat?_eq_some_iff.1 hValue).symm
  noLeadingZero hMode := nomatch hMode

/-- Four runs that denote components spell the core of these. -/
theorem parseLenient_of_values (hFour : rs.length = 4)
    (hValues : rs.map (fun s => Component.ofDigits? s.chars) = cs.map some) :
    Version.parseLenient (String.ofList (dotted rs)) = .ok (Core.padded cs) ∧
      (Core.padded cs).components = cs := by
  have hLength : cs.length = 4 := by simpa [hFour] using (congrArg List.length hValues).symm
  match rs, cs, hFour, hLength with
  | [major, minor, build, subBuild], [c₁, c₂, c₃, c₄], _, _ =>
      simp only [List.map_cons, List.cons.injEq] at hValues
      obtain ⟨hMajor, hMinor, hBuild, hSubBuild, -⟩ := hValues
      have hCore : SpellsCore .lenient _ (Core.padded [c₁, c₂, c₃, c₄]) :=
        .dotted (spellsComponent_run hMajor) (spellsComponent_run hMinor)
          (spellsComponent_run hBuild) (spellsComponent_run hSubBuild)
      refine ⟨Version.parseIn_eq_ok_iff.2 ?_, rfl⟩
      have hWhole : SpellsVersion .lenient _ (Core.padded [c₁, c₂, c₃, c₄]) := .core hCore .neither
      rw [String.toList_ofList, dotted_cons_cons, dotted_cons_cons, dotted_cons_cons,
        dotted_singleton]
      rwa [List.append_nil] at hWhole

/-- The first of four runs that is too large is where lenient reading breaks off. -/
theorem parseLenient_of_oversize (hFour : (before ++ d :: after).length = 4)
    (hBefore : ∀ s ∈ before, Decimal.value s.chars ≤ Component.maximum)
    (hLarge : Component.maximum < Decimal.value d.chars) :
    Version.parseLenient (String.ofList (dotted (before ++ d :: after))) =
      .error ⟨.tooLarge d.chars, (withDots (before.map Run.chars)).length, d.chars.head?⟩ := by
  have hText : dotted (before ++ d :: after) = withDots (before.map Run.chars) ++
      (d.chars ++ (after.map Run.chars).flatMap fun y => '.' :: y) := by
    rw [dotted, List.map_append, List.map_cons, intercalate_append _ (List.cons_ne_nil _ _),
      intercalate_cons]
  have hStop : StopsDigits ((after.map Run.chars).flatMap fun y => '.' :: y) := by
    cases after with
    | nil => simp [StopsDigits]
    | cons s after =>
        intro c hMem
        cases hMem
        rfl
  have hSpelled : ∀ ds ∈ before.map Run.chars, ∃ c, SpellsComponent .lenient ds c := by
    intro ds hMem
    obtain ⟨s, hBehind, rfl⟩ := List.mem_map.1 hMem
    obtain ⟨c, hValue⟩ := exists_ofDigits? (hBefore s hBehind)
    exact ⟨c, spellsComponent_run hValue⟩
  have hCount : 3 = (before.map Run.chars).length + after.length := by
    rw [List.length_append, List.length_cons] at hFour
    rw [List.length_map]
    omega
  have hRun : BreaksComponent .lenient (.tooLarge d.chars) _ :=
    .tooLarge hStop (by simp) hLarge
  have hBreaks : BreaksNumbers .lenient 3 _ _ _ := hCount ▸ hRun.behind hSpelled
  refine Version.parseIn_eq_error_iff.2 ⟨_, _, ?_, .core hBreaks, rfl, ?_⟩
  · rw [String.toList_ofList, hText]
  · obtain ⟨c, cs, hChars⟩ := List.exists_cons_of_ne_nil d.ne_nil
    rw [hChars]
    rfl

/-! ## As comparisons -/

/-- The comparison for equality that digit runs spell. -/
def equalityOfRuns (position : Nat) (r : Run Char.isDigit) (rs : List (Run Char.isDigit)) :
    Except Error Range :=
  (Numerals.ofRuns position r rs).map fun ns => .comparison .eq ns.core

theorem equalityOfRuns_of_values
    (hValues : (r :: rs).map (fun s => Component.ofDigits? s.chars) = cs.map some) :
    equalityOfRuns position r rs = .ok (.comparison .eq (Core.padded cs)) := by
  obtain ⟨ns, hRuns, hNumerals, -⟩ := Numerals.ofRuns_of_values position hValues
  rw [equalityOfRuns, hRuns, ← hNumerals]
  rfl

theorem equalityOfRuns_of_oversize (hSplit : r :: rs = before ++ d :: after)
    (hBefore : ∀ s ∈ before, Decimal.value s.chars ≤ Component.maximum)
    (hLarge : Component.maximum < Decimal.value d.chars) :
    equalityOfRuns position r rs = .error (.outOfRange (numericAt position before d)) := by
  rw [equalityOfRuns, Numerals.ofRuns_of_oversize hSplit hBefore hLarge]
  rfl

theorem readsText_plain (hMany : 2 ≤ rs.length) (hFew : rs.length ≤ 3) :
    ReadsText .unit (dotted (r :: rs)) fun position => equalityOfRuns position r rs := by
  refine .of_atom fun position => ?_
  obtain ⟨t, us, hStart, hKind⟩ := ofRuns_starts position r rs
  obtain ⟨vs, u, hEnd, hLast⟩ := ofRuns_ends position r rs
  refine ⟨_, cuts_dotted, ?_, ?_, fun stop us hFollows => ?_⟩
  · exact ⟨t, us, hStart, by rw [hKind]; rfl⟩
  · exact ⟨vs, u, hEnd, by rw [hLast]; rfl⟩
  · rw [Atom.read_plain_ofRuns hMany hFew hFollows, equalityOfRuns, map_map]

theorem readsText_equal (hFew : rs.length ≤ 3) :
    ReadsText .unit ('=' :: dotted (r :: rs)) fun position =>
      equalityOfRuns (position + 1) r rs := by
  refine .of_atom fun position => ?_
  obtain ⟨us, t, hEnd, hKind⟩ := ofRuns_ends (position + 1) r rs
  have hEqual : ∀ rest, Leads .equal ['='] ('=' :: rest) := fun _ => lexeme?_eq_some_iff.1 rfl
  refine ⟨_, .mark cuts_dotted (hEqual _), ⟨_, _, rfl, rfl⟩, ?_, fun stop us hFollows => ?_⟩
  · exact ⟨_ :: us, t, by rw [hEnd]; rfl, by rw [hKind]; rfl⟩
  · rw [List.cons_append, Atom.read_comparison_ofRuns rfl hFew hFollows, equalityOfRuns, map_map]

theorem parse_dotted (hMany : 2 ≤ rs.length) (hFew : rs.length ≤ 3) :
    Range.parse (String.ofList (dotted (r :: rs))) = equalityOfRuns 0 r rs :=
  ((readsText_plain hMany hFew).expression.congr String.toList_ofList fun _ => rfl).parse

theorem parse_equal_dotted (hFew : rs.length ≤ 3) :
    Range.parse ("=" ++ String.ofList (dotted (r :: rs))) = equalityOfRuns 1 r rs :=
  ((readsText_equal hFew).expression.congr (by simp) fun _ => rfl).parse

/-- **Two readers of four numbers**: `s` is `d.d.d.d` for digit runs of any length. It is read
leniently as a version just where it is parsed to the comparison with that version, with or without
an equals sign in front. It is if every run is small enough for a component, and otherwise all
three fail at the first run that is not. -/
theorem parse_four_numbers (rs : List (Run Char.isDigit)) (hFour : rs.length = 4) :
    let s := String.ofList (dotted rs)
    (∀ v : Version, Range.parse s = .ok (.comparison .eq v) ↔ Version.parseLenient s = .ok v) ∧
    (∀ v : Version, Range.parse ("=" ++ s) = .ok (.comparison .eq v) ↔
      Version.parseLenient s = .ok v) ∧
    ((∃ c : Core, Version.parseLenient s = .ok c ∧
        c.components.map Component.value = rs.map fun d => Decimal.value d.chars) ∨
      ∃ before d after position, rs = before ++ d :: after ∧
        (∀ x ∈ before, Decimal.value x.chars ≤ Component.maximum) ∧
        Component.maximum < Decimal.value d.chars ∧
        position = (withDots (before.map Run.chars)).length ∧
        Version.parseLenient s = .error ⟨.tooLarge d.chars, position, d.chars.head?⟩ ∧
        Range.parse s = .error (.outOfRange ⟨.numeric, some d.chars, position⟩) ∧
        Range.parse ("=" ++ s) = .error (.outOfRange ⟨.numeric, some d.chars, position + 1⟩)) := by
  obtain ⟨r, rs, rfl⟩ : ∃ r rs', rs = r :: rs' := by
    cases rs with
    | nil => cases hFour
    | cons r rs => exact ⟨r, rs, rfl⟩
  have hThree : rs.length = 3 := Nat.succ.inj hFour
  dsimp only
  rw [parse_dotted (by omega) (by omega), parse_equal_dotted (by omega)]
  rcases exists_first_oversize (r :: rs) with hFit | ⟨before, d, after, hSplit, hBefore, hLarge⟩
  · obtain ⟨cs, hValues⟩ := exists_components hFit
    obtain ⟨hLenient, hComponents⟩ := parseLenient_of_values hFour hValues
    rw [equalityOfRuns_of_values hValues, equalityOfRuns_of_values hValues, hLenient]
    refine ⟨fun v => by simp, fun v => by simp, .inl ⟨_, rfl, ?_⟩⟩
    rw [hComponents, map_value_eq hValues]
  · have hLenient := parseLenient_of_oversize (hSplit ▸ hFour) hBefore hLarge
    rw [equalityOfRuns_of_oversize hSplit hBefore hLarge,
      equalityOfRuns_of_oversize hSplit hBefore hLarge, hSplit, hLenient]
    refine ⟨fun v => by simp, fun v => by simp, .inr ?_⟩
    refine ⟨before, d, after, _, rfl, hBefore, hLarge, rfl, rfl, ?_, ?_⟩
    · rw [numericAt, Nat.zero_add]
    · rw [numericAt, Nat.add_comm]

/-- Zeros in front of the numbers change nothing. -/
theorem parse_four_padded_numbers :
    ∃ v : Version, Version.parseLenient "01.2.003.4" = .ok v ∧
      Range.parse "01.2.003.4" = .ok (.comparison .eq v) ∧
      Range.parse "=01.2.003.4" = .ok (.comparison .eq v) := by
  have hLenient : Version.parseLenient "01.2.003.4" =
      .ok ⟨⟨⟨1, by decide⟩, ⟨2, by decide⟩, ⟨3, by decide⟩, ⟨4, by decide⟩⟩, none, none⟩ := by
    decide +kernel
  obtain ⟨hPlain, hEqual, -⟩ := parse_four_numbers
    [⟨['0', '1'], nofun, List.all_eq_true.1 rfl⟩, ⟨['2'], nofun, List.all_eq_true.1 rfl⟩,
      ⟨['0', '0', '3'], nofun, List.all_eq_true.1 rfl⟩, ⟨['4'], nofun, List.all_eq_true.1 rfl⟩] rfl
  exact ⟨_, hLenient, (hPlain _).2 hLenient, (hEqual _).2 hLenient⟩

end Versioning.Range
