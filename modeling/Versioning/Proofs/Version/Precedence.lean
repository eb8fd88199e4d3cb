import Mathlib.Data.Char
import Mathlib.Data.List.Lex
import Mathlib.Data.Prod.Lex
import Mathlib.Data.Sum.Order
import Mathlib.Order.WithBot
import Versioning.Proofs.Decimal.Order
import Versioning.Proofs.Version.Order
import Versioning.Range.Operator

/-!
# Precedence as a linear order

The **rank** of a version is its place in an order that is put together from
well-known ones: natural numbers, texts, and the lexicographic orders of lists
and pairs. Each rule of precedence is one part of it.

* A numeric identifier ranks as its number and any other as its text, and the
  numbers come first: `ℕ ⊕ₗ List Char`.
* A pre-release ranks as the list of its identifiers, where a proper beginning
  of a list comes before it; no pre-release ranks above all: `WithTop`.
* A version ranks as its components, and then as its pre-release: `×ₗ`.

Comparing versions is comparing ranks (`Version.compare_eq_cmp_rank`). The order
on ranks is linear, and what holds of every linear order holds of precedence.
-/

namespace Versioning

/-! ## Ranks -/

/-- Numbers in their order, and after them texts in theirs. -/
abbrev IdentifierRank := ℕ ⊕ₗ List Char

/-- The number of a numeric identifier, or the text of another. -/
def Identifier.rank (i : Identifier) : IdentifierRank :=
  if i.isNumeric then Sum.inlₗ (Decimal.value i.chars) else Sum.inrₗ i.chars

/-- The ranks of the identifiers. -/
def Tag.rank (t : Tag) : List IdentifierRank := t.identifiers.map Identifier.rank

/-- The numbers of a core, the most significant first. -/
def Core.rank (c : Core) : List ℕ := c.components.map Component.value

/-- Components, and then a pre-release or what is above every pre-release. -/
def Version.Rank := List ℕ ×ₗ WithTop (List IdentifierRank)

instance : LinearOrder Version.Rank :=
  inferInstanceAs (LinearOrder (List ℕ ×ₗ WithTop (List IdentifierRank)))

/-- The place of a version in precedence. The build tag has no part in it. -/
def Version.rank (v : Version) : Version.Rank :=
  toLex (v.core.rank, v.preRelease.elim ⊤ fun t => t.rank)

/-! ## Comparing by ranks

`o.Compares x y` says that `o` is how `x` stands to `y`.
-/

section Compares

variable {α β γ : Type} [LinearOrder β] [LinearOrder γ]

/-- Pairs are in the order of their first parts, and of their second ones where these agree. -/
theorem compares_toLex {o o' : Ordering} {x y : β} {z w : γ} (hFirst : o.Compares x y)
    (hSecond : o'.Compares z w) : (o.then o').Compares (toLex (x, z)) (toLex (y, w)) := by
  cases o with
  | lt => exact Prod.Lex.toLex_lt_toLex.2 (.inl hFirst)
  | gt => exact Prod.Lex.toLex_lt_toLex.2 (.inl hFirst)
  | eq =>
      obtain rfl : x = y := hFirst
      have hMono : StrictMono fun z : γ => toLex (x, z) :=
        fun z w hLt => Prod.Lex.toLex_lt_toLex.2 (.inr ⟨rfl, hLt⟩)
      exact hMono.compares.2 hSecond

/-- Lists are in the order of their heads, and of their tails where these agree. -/
theorem compares_cons {o o' : Ordering} {x y : β} {xs ys : List β} (hHead : o.Compares x y)
    (hTail : o'.Compares xs ys) : (o.then o').Compares (x :: xs) (y :: ys) := by
  cases o with
  | lt => exact List.cons_lt_cons_iff.2 (.inl hHead)
  | gt => exact List.cons_lt_cons_iff.2 (.inl hHead)
  | eq =>
      obtain rfl : x = y := hHead
      have hMono : StrictMono (List.cons x) :=
        fun as bs hLt => List.cons_lt_cons_iff.2 (.inr ⟨rfl, hLt⟩)
      exact hMono.compares.2 hTail

/-- Lists of what is compared by rank are compared by the lists of ranks. -/
theorem compares_map {compare : α → α → Ordering} {rank : α → β}
    (hCompare : ∀ x y, (compare x y).Compares (rank x) (rank y)) (xs ys : List α) :
    (List.compareLex compare xs ys).Compares (xs.map rank) (ys.map rank) := by
  induction xs generalizing ys with
  | nil =>
      cases ys with
      | nil => rfl
      | cons y ys => exact List.nil_lt_cons _ _
  | cons x xs ih =>
      cases ys with
      | nil => exact List.nil_lt_cons _ _
      | cons y ys =>
          rw [List.compareLex_cons_cons]
          exact compares_cons (hCompare x y) (ih ys)

theorem compares_compare (x y : β) : (compare x y).Compares x y := by
  rw [← cmp_eq_compare]
  exact cmp_compares x y

/-- What is compared by rank obeys the laws of a comparison. -/
theorem transCmp_of_compares {compare : α → α → Ordering} {rank : α → β}
    (hCompare : ∀ x y, (compare x y).Compares (rank x) (rank y)) : Std.TransCmp compare where
  eq_swap {x y} := by
    rw [← (hCompare x y).cmp_eq, ← (hCompare y x).cmp_eq, cmp_swap]
  isLE_trans {x y z} hFirst hSecond := by
    rw [Ordering.isLE_iff_ne_gt] at hFirst hSecond ⊢
    exact (hCompare x z).ne_gt.2
      (le_trans ((hCompare x y).ne_gt.1 hFirst) ((hCompare y z).ne_gt.1 hSecond))

end Compares

/-! ## Identifiers, tags and cores -/

theorem Identifier.compares_rank (i j : Identifier) : (compare i j).Compares i.rank j.rank := by
  unfold compare instOrd rank
  dsimp only
  cases hLeft : i.isNumeric <;> cases hRight : j.isNumeric
  · have hTexts : (compare i.chars j.chars).Compares (i.chars.map id) (j.chars.map id) :=
      compares_map compares_compare i.chars j.chars
    rw [List.map_id, List.map_id] at hTexts
    exact Sum.Lex.inr_strictMono.compares.2 hTexts
  · exact Sum.Lex.inl_lt_inr _ _
  · exact Sum.Lex.inl_lt_inr _ _
  · have hNumbers := Decimal.compare_eq (List.all_eq_true.1 hLeft) (List.all_eq_true.1 hRight)
    dsimp only
    rw [hNumbers]
    exact Sum.Lex.inl_strictMono.compares.2 (compares_compare _ _)

theorem Tag.compares_rank (t u : Tag) : (compare t u).Compares t.rank u.rank :=
  compares_map Identifier.compares_rank t.identifiers u.identifiers

instance : Std.TransOrd Tag := transCmp_of_compares Tag.compares_rank

theorem Core.compares_rank (a b : Core) : (compare a b).Compares a.rank b.rank := by
  have hEnd : Ordering.eq.Compares ([] : List ℕ) [] := rfl
  have hLists := compares_cons (compares_compare a.major.value b.major.value)
    (compares_cons (compares_compare a.minor.value b.minor.value)
      (compares_cons (compares_compare a.build.value b.build.value)
        (compares_cons (compares_compare a.subBuild.value b.subBuild.value) hEnd)))
  rw [Ordering.then_eq] at hLists
  exact hLists

/-! ## Versions -/

theorem Version.compares_rank (a b : Version) : (compare a b).Compares a.rank b.rank := by
  refine compares_toLex (Core.compares_rank a.core b.core) ?_
  cases hLeft : a.preRelease with
  | none =>
      cases hRight : b.preRelease with
      | none => rfl
      | some u => exact WithTop.coe_lt_top u.rank
  | some t =>
      cases hRight : b.preRelease with
      | none => exact WithTop.coe_lt_top t.rank
      | some u => exact WithTop.coe_strictMono.compares.2 (Tag.compares_rank t u)

instance : Std.TransOrd Version := transCmp_of_compares Version.compares_rank

/-- Precedence is the order of ranks. -/
theorem Version.compare_eq_cmp_rank (a b : Version) : compare a b = cmp a.rank b.rank :=
  (compares_rank a b).cmp_eq.symm

theorem Version.compare_swap (a b : Version) : compare b a = (compare a b).swap := by
  rw [compare_eq_cmp_rank, compare_eq_cmp_rank, cmp_swap]

/-- Whatever the outcome is, two comparisons in a row with one outcome make a third. -/
theorem Version.compare_trans {o : Ordering} {a b c : Version} (hFirst : compare a b = o)
    (hSecond : compare b c = o) : compare a c = o := by
  rw [compare_eq_cmp_rank] at hFirst hSecond ⊢
  cases o with
  | lt =>
      rw [cmp_eq_lt_iff] at hFirst hSecond ⊢
      exact lt_trans hFirst hSecond
  | eq =>
      rw [cmp_eq_eq_iff] at hFirst hSecond ⊢
      exact hFirst.trans hSecond
  | gt =>
      rw [cmp_eq_gt_iff] at hFirst hSecond ⊢
      exact lt_trans hSecond hFirst

/-- The relations on versions are read off one comparison, also those that are defined by the
comparison the other way round. -/
theorem Version.relations_iff_compare (a b : Version) :
    (a < b ↔ compare a b = .lt) ∧ (a ≤ b ↔ compare a b ≠ .gt) ∧
      (a.samePrecedence b = true ↔ compare a b = .eq) ∧
      (b ≤ a ↔ compare a b ≠ .lt) ∧ (b < a ↔ compare a b = .gt) := by
  show (compare a b = .lt ↔ _) ∧ ((compare a b).isLE = true ↔ _) ∧
    ((compare a b == .eq) = true ↔ _) ∧ ((compare b a).isLE = true ↔ _) ∧
    (compare b a = .lt ↔ _)
  rw [compare_swap a b]
  cases compare a b <;> decide

/-- Which outcomes of a comparison an operator accepts. -/
def Operator.accepts : Operator → Ordering → Bool
  | .eq, o => o == .eq
  | .ne, o => o != .eq
  | .gt, o => o == .gt
  | .ge, o => o != .lt
  | .lt, o => o == .lt
  | .le, o => o != .gt

theorem Operator.holds_eq_accepts (op : Operator) (a b : Version) :
    op.holds a b = op.accepts (compare a b) := by
  obtain ⟨hLt, hLe, -, hGe, hGt⟩ := Version.relations_iff_compare a b
  cases op with
  | eq => rfl
  | ne => rfl
  | gt =>
      show decide (b < a) = (compare a b == .gt)
      rw [decide_eq_decide.2 hGt, beq_eq_decide]
  | ge =>
      show decide (b ≤ a) = (compare a b != .lt)
      rw [decide_eq_decide.2 hGe, decide_not, bne, beq_eq_decide]
  | lt =>
      show decide (a < b) = (compare a b == .lt)
      rw [decide_eq_decide.2 hLt, beq_eq_decide]
  | le =>
      show decide (a ≤ b) = (compare a b != .gt)
      rw [decide_eq_decide.2 hLe, decide_not, bne, beq_eq_decide]

/-- **Precedence is a linear order.** It is the order of ranks; the comparison the other way
round has the opposite outcome, outcomes are transitive, and just one of less, same and greater
holds. All relations and operators are read off the same comparison, and build tags do not
change it. -/
theorem Version.precedence_total_order :
    (∀ a b : Version, compare a b = cmp a.rank b.rank) ∧
    (∀ a b : Version, compare b a = (compare a b).swap) ∧
    (∀ (o : Ordering) (a b c : Version), compare a b = o → compare b c = o → compare a c = o) ∧
    (∀ a b : Version,
      (a < b ∧ ¬ a.samePrecedence b = true ∧ ¬ b < a) ∨
      (¬ a < b ∧ a.samePrecedence b = true ∧ ¬ b < a) ∨
      (¬ a < b ∧ ¬ a.samePrecedence b = true ∧ b < a)) ∧
    (∀ a b : Version,
      (a < b ↔ compare a b = .lt) ∧ (a ≤ b ↔ compare a b ≠ .gt) ∧
      (a.samePrecedence b = true ↔ compare a b = .eq) ∧
      (b ≤ a ↔ compare a b ≠ .lt) ∧ (b < a ↔ compare a b = .gt)) ∧
    (∀ (op : Operator) (a b : Version), op.holds a b = op.accepts (compare a b)) ∧
    (∀ (a b : Version) (x y : Option Tag),
      compare { a with build := x } { b with build := y } = compare a b) := by
  refine ⟨compare_eq_cmp_rank, compare_swap, fun o a b c => compare_trans, ?_,
    relations_iff_compare, Operator.holds_eq_accepts, fun a b x y => rfl⟩
  intro a b
  obtain ⟨hLt, -, hSame, -, hGt⟩ := relations_iff_compare a b
  rw [hLt, hSame, hGt]
  cases compare a b <;> decide

/-- A number counts as a number, whatever zeros it starts with, and comes before every text. -/
theorem Version.compare_numbers_and_text :
    ∃ a b c : Version, a.text = "1.0.0.0-9" ∧ b.text = "1.0.0.0-0010" ∧ c.text = "1.0.0.0--1" ∧
      compare a b = .lt ∧ compare b c = .lt ∧ compare a c = .lt := by
  have hChain : ∃ a b c : Version, a.text = "1.0.0.0-9" ∧ b.text = "1.0.0.0-0010" ∧
      c.text = "1.0.0.0--1" ∧ compare a b = .lt ∧ compare b c = .lt :=
    ⟨⟨⟨⟨1, by decide⟩, 0, 0, 0⟩, some (.singleton (.ofNat 9)), none⟩,
      ⟨⟨⟨1, by decide⟩, 0, 0, 0⟩,
        some (.singleton ⟨⟨['0', '0', '1', '0'], by decide, List.all_eq_true.1 rfl⟩⟩), none⟩,
      ⟨⟨⟨1, by decide⟩, 0, 0, 0⟩,
        some (.singleton ⟨⟨['-', '1'], by decide, List.all_eq_true.1 rfl⟩⟩), none⟩,
      by decide, by decide, by decide, by decide, by decide⟩
  obtain ⟨a, b, c, hFirst, hSecond, hThird, hLow, hHigh⟩ := hChain
  have hEnds := precedence_total_order.2.2.1 .lt a b c hLow hHigh
  exact ⟨a, b, c, hFirst, hSecond, hThird, hLow, hHigh, hEnds⟩

end Versioning
