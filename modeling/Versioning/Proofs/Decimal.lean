import Versioning.Decimal

/-!
# Digit runs without leading zeros

A number has one run of digits that starts with no zero it could do without. The
digits of a number, the trimmed form of a run and the run of the next number all
are such runs. For the last, the carry is followed from the least significant
digit on: the most significant one is either untouched or was just increased,
and in neither case it is zero.
-/

namespace Versioning.Decimal

open Text

/-- Digits that start with a zero only as that zero alone. -/
def NoLeadingZero (ds : List Char) : Prop := ds.head? = some '0' → ds = ['0']

instance (ds : List Char) : Decidable (NoLeadingZero ds) :=
  inferInstanceAs (Decidable (_ → _))

theorem noLeadingZero_of_head?_ne {ds : List Char} (hHead : ds.head? ≠ some '0') :
    NoLeadingZero ds :=
  fun h => absurd h hHead

theorem digits_ne_nil (n : Nat) : digits n ≠ [] := Nat.toDigits_ne_nil

/-- The digits of a number have no leading zero. -/
theorem noLeadingZero_digits (n : Nat) : NoLeadingZero (digits n) := by
  induction n using Nat.strongRecOn with
  | ind n ih =>
      by_cases hSmall : n < 10
      · intro hHead
        unfold digits at hHead ⊢
        rw [Nat.toDigits_of_lt_base hSmall] at hHead ⊢
        exact congrArg (fun c => [c]) (Option.some.inj hHead)
      · apply noLeadingZero_of_head?_ne
        intro hHead
        have hSplit : digits n = digits (n / 10) ++ [(n % 10).digitChar] :=
          Nat.toDigits_of_base_le (by decide) (by omega)
        have hFirst : (digits (n / 10)).head? = some '0' := by
          obtain ⟨d, rest, hDigits⟩ := List.exists_cons_of_ne_nil (digits_ne_nil (n / 10))
          rw [hSplit, hDigits] at hHead
          rw [hDigits]
          exact hHead
        have hZero := congrArg value (ih (n / 10) (by omega) hFirst)
        rw [value_digits] at hZero
        have hTen : n / 10 = 0 := hZero
        omega

/-- A trimmed run has no leading zero. -/
theorem noLeadingZero_trim (ds : List Char) : NoLeadingZero (trim ds) := by
  unfold trim
  cases hDrop : ds.dropWhile (· == '0') with
  | nil => exact fun _ => rfl
  | cons d rest =>
      apply noLeadingZero_of_head?_ne
      have hFirst := List.head?_dropWhile_not (· == '0') ds
      rw [hDrop] at hFirst
      simpa using hFirst

/-- Carrying leaves the most significant digit other than zero. -/
theorem getLast?_carry_ne {ds : List Char}
    (hLast : 2 ≤ ds.length → ds.getLast? ≠ some '0') : (carry ds).getLast? ≠ some '0' := by
  induction ds with
  | nil => decide
  | cons d ds ih =>
      have hTail : ds ≠ [] → ds.getLast? ≠ some '0' := by
        intro hNe
        have hLength := List.length_pos_iff.2 hNe
        rw [← List.getLast?_cons_of_ne_nil (x := d) hNe]
        apply hLast
        rw [List.length_cons]
        omega
      unfold carry
      by_cases hNine : d = '9'
      · rw [if_pos hNine, List.getLast?_cons_of_ne_nil (carry_ne_nil ds)]
        apply ih
        intro hLength
        apply hTail
        intro hNil
        rw [hNil, List.length_nil] at hLength
        omega
      · rw [if_neg hNine]
        by_cases hNe : ds = []
        · simp [hNe]
        · rw [List.getLast?_cons_of_ne_nil hNe]
          exact hTail hNe

/-- The next number is written without leading zeros. -/
theorem noLeadingZero_next (r : Run Char.isDigit) : NoLeadingZero (next r).chars := by
  apply noLeadingZero_of_head?_ne
  show (carry (trim r.chars).reverse).reverse.head? ≠ some '0'
  rw [List.head?_reverse]
  apply getLast?_carry_ne
  intro hLength hHead
  rw [List.getLast?_reverse] at hHead
  rw [List.length_reverse, noLeadingZero_trim r.chars hHead, List.length_singleton] at hLength
  omega

end Versioning.Decimal
