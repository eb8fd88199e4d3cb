import Versioning.Decimal

/-!
# Version components

A component is one of the four numbers of a version core. It is bounded: it fits
in an unsigned word of 64 bits, and the bound is part of the type. Reading and
incrementing are therefore partial, and their failure is the only overflow that
the library knows.
-/

namespace Versioning

/-- A number of at most `2 ^ 64 - 1`. -/
@[ext] structure Component where
  value : Nat
  le_maximum : value ≤ 0xFFFFFFFFFFFFFFFF
deriving DecidableEq

namespace Component

/-- The largest value that a component may have. -/
def maximum : Nat := 0xFFFFFFFFFFFFFFFF

/-- The component of a number, if the number is small enough. -/
def ofNat? (n : Nat) : Option Component :=
  if h : n ≤ 0xFFFFFFFFFFFFFFFF then some ⟨n, h⟩ else none

instance : Zero Component := ⟨⟨0, by decide⟩⟩

instance : Inhabited Component := ⟨0⟩

@[simp] theorem value_zero : (0 : Component).value = 0 := rfl

/-- The component of a signed word, if it is not negative. -/
def ofInt64? (n : Int64) : Option Component :=
  if 0 ≤ n.toInt then some ⟨n.toInt.toNat, by have := n.toInt_lt; omega⟩ else none

/-- The number that a digit run denotes; leading zeros do not count against the bound. -/
def ofDigits? (ds : List Char) : Option Component := ofNat? (Decimal.value ds)

/-- What is behind a plus at the front of a text; without one, the text itself. -/
def unsigned : List Char → List Char
  | '+' :: cs => cs
  | cs => cs

/-- The component that a text denotes: a digit run, in front of which a plus may stand, and nothing
else. -/
def ofText? (cs : List Char) : Option Component :=
  match Text.Run.read? Char.isDigit (unsigned cs) with
  | some (r, []) => ofDigits? r.chars
  | _ => none

/-- The text of a component: its digits without leading zeros. -/
def digits (c : Component) : List Char := Decimal.digits c.value

/-- The component after this one; the largest has none. -/
def succ? (c : Component) : Option Component := ofNat? (c.value + 1)

instance : Ord Component := ⟨compareOn value⟩

theorem ofNat?_eq_some_iff {n : Nat} {c : Component} : ofNat? n = some c ↔ c.value = n := by
  unfold ofNat?
  split
  · simp [Component.ext_iff, eq_comm]
  · rename_i hLarge
    have hBound := c.le_maximum
    simp only [reduceCtorEq, false_iff]
    omega

theorem ofNat?_eq_none_iff {n : Nat} : ofNat? n = none ↔ maximum < n := by
  unfold ofNat? maximum
  split <;> simp <;> omega

@[simp] theorem ofNat?_value (c : Component) : ofNat? c.value = some c :=
  ofNat?_eq_some_iff.2 rfl

theorem ofText?_chars (r : Text.Run Char.isDigit) : ofText? r.chars = ofDigits? r.chars := by
  have hUnsigned : unsigned r.chars = r.chars := by
    unfold unsigned
    split
    · rename_i ds hPlus
      have hDigit := r.all_mem '+' (hPlus ▸ List.mem_cons_self)
      cases hDigit
    · rfl
  rw [ofText?, hUnsigned, r.read?_chars]

theorem ofText?_plus (r : Text.Run Char.isDigit) :
    ofText? ('+' :: r.chars) = ofDigits? r.chars := by
  rw [ofText?, unsigned, r.read?_chars]

/-- A component is denoted by digit runs and by what they are with a plus in front. -/
theorem exists_run_of_ofText? {cs : List Char} {c : Component} (h : ofText? cs = some c) :
    ∃ r : Text.Run Char.isDigit, (cs = r.chars ∨ cs = '+' :: r.chars) ∧
      ofDigits? r.chars = some c := by
  unfold ofText? at h
  split at h
  · rename_i r hRead
    have hAll := Text.Run.append_of_read? hRead
    rw [List.append_nil] at hAll
    refine ⟨r, ?_, h⟩
    unfold unsigned at hAll
    split at hAll
    · exact .inr (congrArg _ hAll.symm)
    · exact .inl hAll.symm
  · cases h

/-- A plus stands once and in front, nothing else but digits may stand, and there is one. -/
example : [['+', '7'], ['0', '7']].map ofText? = [ofDigits? ['7'], ofDigits? ['7']] ∧
    [[], ['+'], ['+', '+', '7'], ['7', '+'], ['-', '7'], ['7', 'a']].map ofText? =
      List.replicate 6 none := by
  decide

@[simp] theorem ofDigits?_digits (c : Component) : ofDigits? c.digits = some c := by
  simp [ofDigits?, digits]

end Component

end Versioning
