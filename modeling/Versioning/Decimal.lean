import Versioning.Text.Run

/-!
# Decimal numbers of any length

Numbers as digit runs, most significant digit first. Identifiers have no bound
on their length, so they are compared and incremented on their digits; only the
four components of a core are ever turned into a bounded number.

Leading zeros never change the value of a run: `trim` removes them, and both the
order and the successor work on trimmed runs.
-/

namespace Versioning.Decimal

open Text

/-- The number that a list of digits denotes. -/
def value (ds : List Char) : Nat := Nat.ofDigitChars 10 ds 0

/-- The digits of a number: none is a leading zero, except that of zero itself. -/
def digits (n : Nat) : List Char := Nat.toDigits 10 n

@[simp] theorem value_digits (n : Nat) : value (digits n) = n :=
  Nat.ofDigitChars_ten_toDigits

theorem isDigit_of_mem_digits {n : Nat} {c : Char} (h : c ∈ digits n) : c.isDigit = true :=
  Nat.isDigit_of_mem_toDigits (by decide) (by decide) h

/-- The digits of a number as a run. -/
def run (n : Nat) : Run Char.isDigit :=
  ⟨digits n, Nat.toDigits_ne_nil, fun _ hMem => isDigit_of_mem_digits hMem⟩

/-- The digits without leading zeros; nothing but zeros leaves one zero. -/
def trim (ds : List Char) : List Char :=
  match ds.dropWhile (· == '0') with
  | [] => ['0']
  | d :: rest => d :: rest

theorem trim_ne_nil (ds : List Char) : trim ds ≠ [] := by
  unfold trim
  split <;> simp

theorem isDigit_of_mem_trim {ds : List Char} (h : ∀ c ∈ ds, c.isDigit = true) :
    ∀ c ∈ trim ds, c.isDigit = true := by
  intro c hMem
  unfold trim at hMem
  split at hMem
  · obtain rfl := by simpa using hMem
    decide
  · rename_i d rest hDrop
    exact h c ((List.dropWhile_sublist _).mem (hDrop ▸ hMem))

/-- Of two trimmed runs the shorter denotes the smaller number, and runs of one
length are in the order of their text. -/
def compare : List Char → List Char → Ordering :=
  compareLex (compareOn fun ds => (trim ds).length) (compareOn trim)

/-- Adds one to digits whose least significant one comes first. -/
def carry : List Char → List Char
  | [] => ['1']
  | d :: ds => if d = '9' then '0' :: carry ds else (d.toNat - '0'.toNat + 1).digitChar :: ds

theorem carry_ne_nil (ds : List Char) : carry ds ≠ [] := by
  cases ds with
  | nil => simp [carry]
  | cons d ds =>
      unfold carry
      split <;> simp

/-- The digits are the code points from 48 to 57. -/
theorem toNat_of_isDigit {d : Char} (hDigit : d.isDigit = true) :
    48 ≤ d.toNat ∧ d.toNat ≤ 57 := by
  simp only [Char.isDigit, ge_iff_le, Bool.and_eq_true, decide_eq_true_eq,
    UInt32.le_iff_toNat_le] at hDigit
  exact hDigit

/-- A digit other than nine has a successor among the digits. -/
theorem isDigit_next {d : Char} (hDigit : d.isDigit = true) (hNine : d ≠ '9') :
    (d.toNat - '0'.toNat + 1).digitChar.isDigit = true := by
  rw [Nat.isDigit_digitChar, decide_eq_true_iff]
  have hRange := toNat_of_isDigit hDigit
  have hNe : d.toNat ≠ 57 := fun h => hNine (Char.toNat_inj.1 h)
  have hZero : '0'.toNat = 48 := rfl
  omega

theorem isDigit_of_mem_carry {ds : List Char} (h : ∀ c ∈ ds, c.isDigit = true) :
    ∀ c ∈ carry ds, c.isDigit = true := by
  induction ds with
  | nil => simp [carry]
  | cons d ds ih =>
      have hRest := ih fun c hc => h c (by simp [hc])
      intro c hMem
      unfold carry at hMem
      split at hMem
      · rcases List.mem_cons.1 hMem with rfl | hMem
        · decide
        · exact hRest c hMem
      · rename_i hNine
        rcases List.mem_cons.1 hMem with rfl | hMem
        · exact isDigit_next (h d (by simp)) hNine
        · exact h c (by simp [hMem])

/-- The next number, written without leading zeros. -/
def next (r : Run Char.isDigit) : Run Char.isDigit where
  chars := (carry (trim r.chars).reverse).reverse
  ne_nil := by simpa using carry_ne_nil _
  all_mem := by
    intro c hMem
    refine isDigit_of_mem_carry ?_ c (List.mem_reverse.1 hMem)
    intro c hMem
    exact isDigit_of_mem_trim r.all_mem c (List.mem_reverse.1 hMem)

end Versioning.Decimal
