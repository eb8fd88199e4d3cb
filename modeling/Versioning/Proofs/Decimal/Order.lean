import Mathlib.Algebra.Group.Nat.Defs
import Versioning.Proofs.Decimal

/-!
# Digit runs in the order of their numbers

`Decimal.compare` never computes a number: it compares lengths and then texts of
trimmed runs. This module shows that it decides as the numbers do, for runs of
any length (`compare_eq`). The argument has two halves. Runs of one length are
in the order of their texts, since the first digit that differs outweighs all
that follow. Of trimmed runs the longer denotes the greater number, since its
first digit is not zero.
-/

namespace Versioning.Decimal

open Text

variable {ds es : List Char}

/-! ## The number of a run -/

/-- The first digit counts as often as there are numbers of the remaining length. -/
theorem value_cons (d : Char) (ds : List Char) :
    value (d :: ds) = 10 ^ ds.length * (d.toNat - '0'.toNat) + value ds := by
  unfold value
  rw [Nat.ofDigitChars_cons, Nat.ofDigitChars_eq_ofDigitChars_zero, Nat.mul_zero, Nat.zero_add]

theorem value_lt_pow (hDigits : ∀ c ∈ ds, c.isDigit = true) : value ds < 10 ^ ds.length := by
  induction ds with
  | nil => decide
  | cons d ds ih =>
      have hRest : value ds < 10 ^ ds.length := ih fun c hMem => hDigits c (by simp [hMem])
      have hFirst : d.toNat - '0'.toNat ≤ 9 := by
        have hRange := toNat_of_isDigit (hDigits d (by simp))
        have hZero : '0'.toNat = 48 := rfl
        omega
      have hProduct := Nat.mul_le_mul_left (10 ^ ds.length) hFirst
      rw [value_cons, List.length_cons, Nat.pow_succ]
      omega

/-- Trimming keeps the number. -/
@[simp] theorem value_trim (ds : List Char) : value (trim ds) = value ds := by
  have hDrop : value (ds.dropWhile (· == '0')) = value ds := by
    induction ds with
    | nil => rfl
    | cons d ds ih =>
        by_cases hZero : d = '0'
        · subst hZero
          rw [List.dropWhile_cons_of_pos rfl, ih, value_cons, Nat.sub_self, Nat.mul_zero,
            Nat.zero_add]
        · rw [List.dropWhile_cons_of_neg (by simpa using hZero)]
  rw [← hDrop]
  unfold trim
  split
  · rename_i hNil
    rw [hNil]
    rfl
  · rename_i hCons
    rw [hCons]

/-- A run that starts with no zero it could do without is its own trimmed form. -/
theorem trim_of_noLeadingZero (hNe : ds ≠ []) (hPlain : NoLeadingZero ds) : trim ds = ds := by
  obtain ⟨d, rest, rfl⟩ := List.exists_cons_of_ne_nil hNe
  by_cases hZero : d = '0'
  · subst hZero
    rw [hPlain rfl]
    rfl
  · have hDrop : (d :: rest).dropWhile (· == '0') = d :: rest :=
      List.dropWhile_cons_of_neg (by simpa using hZero)
    unfold trim
    rw [hDrop]

/-! ## Comparing runs -/

/-- Of two numbers with a leading part and a remainder the leading parts decide first. -/
theorem compare_mul_add {base a b r s : Nat} (hLeft : r < base) (hRight : s < base) :
    Ord.compare (base * a + r) (base * b + s) = (Ord.compare a b).then (Ord.compare r s) := by
  rcases Nat.lt_trichotomy a b with hLt | rfl | hGt
  · have hStep := Nat.mul_le_mul_left base (Nat.succ_le_of_lt hLt)
    rw [Nat.mul_succ] at hStep
    rw [Nat.compare_eq_lt.2 hLt, Nat.compare_eq_lt.2 (by omega)]
    rfl
  · rw [Nat.compare_eq_eq.2 rfl, Ordering.eq_then]
    simp only [Nat.compare_eq_ite_lt, Nat.add_lt_add_iff_left]
  · have hStep := Nat.mul_le_mul_left base (Nat.succ_le_of_lt hGt)
    rw [Nat.mul_succ] at hStep
    rw [Nat.compare_eq_gt.2 hGt, Nat.compare_eq_gt.2 (by omega)]
    rfl

/-- Digits are in the order of their numbers. -/
theorem compare_digit {d e : Char} (hLeft : d.isDigit = true) (hRight : e.isDigit = true) :
    Ord.compare d e = Ord.compare (d.toNat - '0'.toNat) (e.toNat - '0'.toNat) := by
  have hRangeLeft := toNat_of_isDigit hLeft
  have hRangeRight := toNat_of_isDigit hRight
  have hZero : '0'.toNat = 48 := rfl
  have hCodes : Ord.compare d e = Ord.compare d.toNat e.toNat := by
    show compareOfLessAndEq d e = compareOfLessAndEq d.toNat e.toNat
    simp only [compareOfLessAndEq, Char.toNat_inj]
    rfl
  rw [hCodes, Nat.compare_eq_ite_lt, Nat.compare_eq_ite_lt]
  grind

/-- Runs of one length are in the order of their texts. -/
theorem compare_of_length_eq (hLeft : ∀ c ∈ ds, c.isDigit = true)
    (hRight : ∀ c ∈ es, c.isDigit = true) (hLength : ds.length = es.length) :
    Ord.compare ds es = Ord.compare (value ds) (value es) := by
  induction ds generalizing es with
  | nil =>
      obtain rfl : es = [] := List.length_eq_zero_iff.1 hLength.symm
      rfl
  | cons d ds ih =>
      cases es with
      | nil => cases hLength
      | cons e es =>
          have hRest : ds.length = es.length := Nat.succ.inj hLength
          have hDigits : ∀ c ∈ ds, c.isDigit = true := fun c hMem => hLeft c (by simp [hMem])
          have hDigits' : ∀ c ∈ es, c.isDigit = true := fun c hMem => hRight c (by simp [hMem])
          have hBound : value ds < 10 ^ es.length := hRest ▸ value_lt_pow hDigits
          rw [List.compare_cons_cons, ih hDigits hDigits' hRest,
            compare_digit (hLeft d (by simp)) (hRight e (by simp)), value_cons, value_cons, hRest,
            compare_mul_add hBound (value_lt_pow hDigits')]

/-- The first digit of a trimmed run of several digits is not zero. -/
theorem pow_le_value (hDigits : ∀ c ∈ ds, c.isDigit = true) (hPlain : NoLeadingZero ds)
    (hMany : 2 ≤ ds.length) : 10 ^ (ds.length - 1) ≤ value ds := by
  cases ds with
  | nil => cases hMany
  | cons d ds =>
      have hNonzero : d ≠ '0' := by
        rintro rfl
        rw [hPlain rfl] at hMany
        exact absurd hMany (by decide)
      have hFirst : 1 ≤ d.toNat - '0'.toNat := by
        have hRange := toNat_of_isDigit (hDigits d (by simp))
        have hNe : d.toNat ≠ 48 := fun h => hNonzero (Char.toNat_inj.1 h)
        have hZero : '0'.toNat = 48 := rfl
        omega
      have hProduct := Nat.mul_le_mul_left (10 ^ ds.length) hFirst
      rw [value_cons, List.length_cons, Nat.add_sub_cancel]
      omega

/-- Of runs without leading zeros the longer denotes the greater number. -/
theorem value_lt_of_length_lt (hLeft : ∀ c ∈ ds, c.isDigit = true)
    (hRight : ∀ c ∈ es, c.isDigit = true) (hNe : ds ≠ []) (hPlain : NoLeadingZero es)
    (hLength : ds.length < es.length) : value ds < value es := by
  have hPos := List.length_pos_iff.2 hNe
  calc value ds < 10 ^ ds.length := value_lt_pow hLeft
    _ ≤ 10 ^ (es.length - 1) := Nat.pow_le_pow_right (by decide) (by omega)
    _ ≤ value es := pow_le_value hRight hPlain (by omega)

/-- **Runs by their numbers**: comparing runs is comparing the numbers that they denote,
whatever their lengths and leading zeros. -/
theorem compare_eq (hLeft : ∀ c ∈ ds, c.isDigit = true) (hRight : ∀ c ∈ es, c.isDigit = true) :
    compare ds es = Ord.compare (value ds) (value es) := by
  show (Ord.compare (trim ds).length (trim es).length).then (Ord.compare (trim ds) (trim es)) = _
  have hTrimLeft := isDigit_of_mem_trim hLeft
  have hTrimRight := isDigit_of_mem_trim hRight
  rw [← value_trim ds, ← value_trim es]
  rcases Nat.lt_trichotomy (trim ds).length (trim es).length with hLt | hEq | hGt
  · have hValue := value_lt_of_length_lt hTrimLeft hTrimRight (trim_ne_nil ds)
      (noLeadingZero_trim es) hLt
    rw [Nat.compare_eq_lt.2 hLt, Nat.compare_eq_lt.2 hValue]
    rfl
  · rw [Nat.compare_eq_eq.2 hEq, Ordering.eq_then]
    exact compare_of_length_eq hTrimLeft hTrimRight hEq
  · have hValue := value_lt_of_length_lt hTrimRight hTrimLeft (trim_ne_nil es)
      (noLeadingZero_trim ds) hGt
    rw [Nat.compare_eq_gt.2 hGt, Nat.compare_eq_gt.2 hValue]
    rfl

/-- Runs that denote one number are trimmed to one run. -/
theorem trim_eq_trim_iff (hLeft : ∀ c ∈ ds, c.isDigit = true)
    (hRight : ∀ c ∈ es, c.isDigit = true) : trim ds = trim es ↔ value ds = value es := by
  rw [← Nat.compare_eq_eq, ← compare_eq hLeft hRight]
  show _ ↔ (Ord.compare (trim ds).length (trim es).length).then
    (Ord.compare (trim ds) (trim es)) = .eq
  rw [Ordering.then_eq_eq, Nat.compare_eq_eq, Std.LawfulEqOrd.compare_eq_iff_eq]
  exact ⟨fun h => ⟨congrArg _ h, h⟩, fun h => h.2⟩

end Versioning.Decimal
