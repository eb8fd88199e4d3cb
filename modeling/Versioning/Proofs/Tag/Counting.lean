import Mathlib.Logic.Function.Iterate
import Versioning.Proofs.Literal.Rendering
import Versioning.Proofs.Version.Effects

/-!
# Counting tags on

`Tag.increment` works on the digits of one identifier and looks at the tag anew
each time. Over several steps it is a counter: the first step settles which
identifiers stay, and with them the number that counting goes on from. That is the
number of the last identifier if it is numeric, and zero behind all identifiers if
it is not. From then on the last identifier is a number without leading zeros
(`Tag.counter`), and each step adds one to it.

## Main results

* `Identifier.ofDigits_next` — the next run is the canonical text of the next number.
* `Tag.iterate_increment` — what any number of steps comes to.
-/

namespace Versioning

namespace Identifier

theorem chars_ofNat (n : Nat) : (ofNat n).chars = Decimal.digits n := rfl

/-- The next run spells the next number as the number itself is written. -/
theorem ofDigits_next (r : Text.Run Char.isDigit) :
    ofDigits (Decimal.next r) = ofNat (Decimal.value r.chars + 1) := by
  have hTrimmed : Decimal.trim (Decimal.next r).chars = (Decimal.next r).chars :=
    Decimal.trim_of_noLeadingZero (Decimal.next r).ne_nil (Decimal.noLeadingZero_next r)
  have hChars : (Decimal.next r).chars = Decimal.digits (Decimal.value r.chars + 1) := by
    rw [← Decimal.value_next, Decimal.digits_value (Decimal.next r).all_mem, hTrimmed]
  exact Identifier.ext hChars

theorem digits?_of_isNumeric {i : Identifier} (hNumeric : i.isNumeric = true) :
    ∃ r, i.digits? = some r ∧ r.chars = i.chars :=
  ⟨_, dif_pos hNumeric, rfl⟩

theorem isNumeric_ofNat (n : Nat) : (ofNat n).isNumeric = true :=
  List.all_eq_true.2 (Decimal.run n).all_mem

end Identifier

namespace Tag

/-- The last identifier of a tag. -/
def last (t : Tag) : Identifier := t.identifiers.getLast t.ne_nil

/-- Identifiers with a number behind them. -/
def counter (before : List Identifier) (n : Nat) : Tag := ⟨before ++ [.ofNat n], by simp⟩

@[simp] theorem last_counter (before : List Identifier) (n : Nat) :
    (counter before n).last = .ofNat n :=
  List.getLast_append_singleton before

@[simp] theorem identifiers_counter (before : List Identifier) (n : Nat) :
    (counter before n).identifiers = before ++ [.ofNat n] := rfl

/-- The identifiers that counting on leaves as they are. -/
def counted (t : Tag) : List Identifier :=
  if t.last.isNumeric then t.identifiers.dropLast else t.identifiers

/-- The number that counting goes on from. -/
def count (t : Tag) : Nat := if t.last.isNumeric then Decimal.value t.last.chars else 0

/-- **One step**: the count goes up behind the identifiers that stay. -/
theorem increment_eq_counter (t : Tag) : t.increment = counter t.counted (t.count + 1) := by
  apply Tag.ext
  by_cases hNumeric : t.last.isNumeric = true
  · obtain ⟨r, hDigits, hChars⟩ := Identifier.digits?_of_isNumeric hNumeric
    have hStep : t.increment.identifiers =
        t.identifiers.dropLast ++ [.ofDigits (Decimal.next r)] := by
      unfold increment
      rw [show (t.identifiers.getLast t.ne_nil).digits? = some r from hDigits]
    rw [hStep, identifiers_counter, counted, count, if_pos hNumeric, if_pos hNumeric,
      Identifier.ofDigits_next, hChars]
  · have hStep : t.increment.identifiers = t.identifiers ++ [.ofNat 1] := by
      have hNone : (t.identifiers.getLast t.ne_nil).digits? = none := dif_neg hNumeric
      unfold increment
      rw [hNone]
    rw [hStep, identifiers_counter, counted, count, if_neg hNumeric, if_neg hNumeric]

theorem counted_counter (before : List Identifier) (n : Nat) :
    (counter before n).counted = before := by
  rw [counted, last_counter, if_pos (Identifier.isNumeric_ofNat n), identifiers_counter,
    List.dropLast_concat]

theorem count_counter (before : List Identifier) (n : Nat) : (counter before n).count = n := by
  rw [count, last_counter, if_pos (Identifier.isNumeric_ofNat n), Identifier.chars_ofNat,
    Decimal.value_digits]

/-- **Steps add up**, by induction on their number: the first one makes a counter of the tag, and a
counter stays one. -/
theorem iterate_increment (t : Tag) (n : Nat) :
    increment^[n + 1] t = counter t.counted (t.count + (n + 1)) := by
  induction n with
  | zero => exact t.increment_eq_counter
  | succ n ih =>
      rw [Function.iterate_succ_apply', ih, increment_eq_counter, counted_counter, count_counter]
      rfl

/-- **Increments count.** After some increments of a tag whose last identifier is all digits, that
identifier is the number it denoted and as many more, written without leading zeros; behind any
other tag the number of increments is written as one more identifier. No other identifier changes,
and the last one has no leading zero. -/
theorem increments_count (t : Tag) (n : Nat) (hSome : 1 ≤ n) :
    (t.last.isNumeric = true →
      (increment^[n] t).identifiers =
        t.identifiers.dropLast ++ [.ofNat (Decimal.value t.last.chars + n)]) ∧
    (t.last.isNumeric = false →
      (increment^[n] t).identifiers = t.identifiers ++ [.ofNat n]) ∧
    Decimal.NoLeadingZero (increment^[n] t).last.chars := by
  obtain ⟨m, rfl⟩ : ∃ m, n = m + 1 := ⟨n - 1, by omega⟩
  rw [iterate_increment, identifiers_counter, counted, count, last_counter]
  refine ⟨fun hNumeric => ?_, fun hOther => ?_, Decimal.noLeadingZero_digits _⟩
  · rw [if_pos hNumeric, if_pos hNumeric]
  · rw [if_neg (by simp [hOther]), if_neg (by simp [hOther]), Nat.zero_add]

/-- Twelve increments carry a padded number over the hundred, and behind a letter they are
written themselves. -/
theorem increments_count_twelve :
    ∃ a b : Tag, parse .build "rc.0099" = .ok a ∧ a.last.isNumeric = true ∧
      (increment^[12] a).identifiers = a.identifiers.dropLast ++ [.ofNat 111] ∧
      (increment^[12] a).text = "rc.111" ∧ parse .preRelease "7.b" = .ok b ∧
      b.last.isNumeric = false ∧ (increment^[12] b).identifiers = b.identifiers ++ [.ofNat 12] ∧
      (increment^[12] b).text = "7.b.12" ∧
      Decimal.NoLeadingZero (increment^[12] b).last.chars := by
  have hTags : ∃ a b : Tag, parse .build "rc.0099" = .ok a ∧ a.last.isNumeric = true ∧
      Decimal.value a.last.chars = 99 ∧ (increment^[12] a).text = "rc.111" ∧
      parse .preRelease "7.b" = .ok b ∧ b.last.isNumeric = false ∧
      (increment^[12] b).text = "7.b.12" :=
    ⟨.cons ⟨['r', 'c'], by decide, List.all_eq_true.1 rfl⟩
        (.singleton ⟨['0', '0', '9', '9'], by decide, List.all_eq_true.1 rfl⟩),
      .cons (.ofNat 7) (.singleton ⟨['b'], by decide, List.all_eq_true.1 rfl⟩),
      by decide +kernel, rfl, rfl, by decide +kernel, by decide +kernel, rfl, by decide +kernel⟩
  obtain ⟨a, b, hPadded, hNumeric, hValue, hHundred, hLetter, hOther, hTwelve⟩ := hTags
  have hCount := (increments_count a 12 (by decide)).1 hNumeric
  rw [hValue] at hCount
  obtain ⟨-, hAppended, hCanonical⟩ := increments_count b 12 (by decide)
  exact ⟨a, b, hPadded, hNumeric, hCount, hHundred, hLetter, hOther, hAppended hOther, hTwelve,
    hCanonical⟩

end Tag

end Versioning
