import Versioning.Proofs.Decimal.Order

/-!
# Counting on

`Decimal.next` adds one to the digits of a run and never computes the number. The
carry goes from the least significant digit on, so its induction peels the last
digit of a run, while `value_cons` speaks of the first one; `value_concat` is the
same fact seen from the other end.

## Main results

* `value_next` — the next run denotes the next number, whatever the length of the run.
-/

namespace Versioning.Decimal

open Text

/-- The last digit counts once, and ten times as much is denoted by the digits before it. -/
theorem value_concat (ds : List Char) (d : Char) :
    value (ds ++ [d]) = 10 * value ds + (d.toNat - '0'.toNat) := by
  unfold value
  rw [Nat.ofDigitChars_append, Nat.ofDigitChars_cons, Nat.ofDigitChars_nil]

/-- The digit after one that is not nine counts one more. -/
theorem toNat_next {d : Char} (hDigit : d.isDigit = true) (hNine : d ≠ '9') :
    (d.toNat - '0'.toNat + 1).digitChar.toNat - '0'.toNat = d.toNat - '0'.toNat + 1 := by
  have hRange := toNat_of_isDigit hDigit
  have hNe : d.toNat ≠ 57 := fun h => hNine (Char.toNat_inj.1 h)
  have hZero : '0'.toNat = 48 := rfl
  exact Nat.toNat_digitChar_sub_48_of_lt_ten (by omega)

/-- Carrying adds one, by induction on the digits from the least significant one on. -/
theorem value_reverse_carry {ds : List Char} (hDigits : ∀ c ∈ ds, c.isDigit = true) :
    value (carry ds).reverse = value ds.reverse + 1 := by
  induction ds with
  | nil => rfl
  | cons d ds ih =>
      obtain ⟨hDigit, hRest⟩ := List.forall_mem_cons.1 hDigits
      unfold carry
      by_cases hNine : d = '9'
      · have hNines : '9'.toNat - '0'.toNat = 9 := rfl
        have hZero : '0'.toNat - '0'.toNat = 0 := rfl
        rw [if_pos hNine, hNine, List.reverse_cons, List.reverse_cons, value_concat, value_concat,
          ih hRest, hNines, hZero]
        omega
      · rw [if_neg hNine, List.reverse_cons, List.reverse_cons, value_concat, value_concat,
          toNat_next hDigit hNine]
        omega

/-- **Counting on adds one**: leading zeros do not count, and nines carry over as far as they
go. -/
theorem value_next (r : Run Char.isDigit) : value (next r).chars = value r.chars + 1 := by
  have hDigits : ∀ c ∈ (trim r.chars).reverse, c.isDigit = true := fun c hMem =>
    isDigit_of_mem_trim r.all_mem c (List.mem_reverse.1 hMem)
  show value (carry (trim r.chars).reverse).reverse = _
  rw [value_reverse_carry hDigits, List.reverse_reverse, value_trim]

end Versioning.Decimal
