import Mathlib.Data.List.Basic

/-!
# Stable sorting

What a stable sort makes of a list, said without a sorting algorithm: the values
stand in order, and those that compare equal stand as they stood before
(`IsStableSort`). The two properties leave just one list
(`IsStableSort.unique`), so a list that has them is the sorted list, however it
came about. Two ways to come by such a list matter here: values are taken out of
a sorted list (`IsStableSort.filter`), or a list is sorted in the opposite order
and read from its end (`IsStableSort.reverse`).
-/

namespace Versioning

variable {α : Type} {cmp : α → α → Ordering} {as bs cs : List α}

/-- `bs` holds the values of `as` in order, and those that compare equal as they stand in `as`. -/
structure IsStableSort (cmp : α → α → Ordering) (as bs : List α) : Prop where
  pairwise : bs.Pairwise fun a b => (cmp a b).isLE = true
  ties (a : α) : (bs.filter fun b => cmp a b == .eq) = as.filter fun b => cmp a b == .eq

namespace IsStableSort

/-- The values of a class in which all compare equal stand as they stood. -/
theorem filter_eq_of_class (hSort : IsStableSort cmp as bs) {p : α → Bool}
    (hClass : ∀ a b, p a = true → p b = true → cmp a b = .eq) : bs.filter p = as.filter p := by
  by_cases hMember : ∃ a, p a = true
  · obtain ⟨a, hMember⟩ := hMember
    have hWithin : ∀ xs : List α,
        (xs.filter fun b => cmp a b == .eq).filter p = xs.filter p := by
      intro xs
      rw [List.filter_filter]
      refine List.filter_congr fun b _ => ?_
      cases hOther : p b with
      | false => rfl
      | true =>
          rw [hClass a b hMember hOther]
          rfl
    rw [← hWithin bs, hSort.ties a, hWithin as]
  · have hNone : ∀ xs : List α, xs.filter p = [] :=
      fun xs => List.filter_eq_nil_iff.2 fun a _ hFound => hMember ⟨a, hFound⟩
    rw [hNone, hNone]

section Laws

variable [Std.TransCmp cmp]

theorem beq_self (cmp : α → α → Ordering) [Std.TransCmp cmp] (a : α) :
    (cmp a a == .eq) = true :=
  beq_iff_eq.2 Std.ReflCmp.compare_self

theorem mem_iff (hSort : IsStableSort cmp as bs) {a : α} : a ∈ bs ↔ a ∈ as := by
  have hTies : (a ∈ bs.filter fun b => cmp a b == .eq) ↔ a ∈ as.filter fun b => cmp a b == .eq := by
    rw [hSort.ties a]
  simpa only [List.mem_filter, beq_self, and_true] using hTies

/-- Nothing is lost and nothing is added: a value is counted among those that compare equal. -/
theorem perm (hSort : IsStableSort cmp as bs) : bs.Perm as := by
  classical
  rw [List.perm_iff_count]
  intro a
  have hCount : ∀ xs : List α, (xs.filter fun b => cmp a b == .eq).count a = xs.count a :=
    fun xs => List.count_filter (beq_self cmp a)
  rw [← hCount bs, hSort.ties a, hCount as]

/-- A list that is in order is its own sort. By induction on the list: the first values compare
equal, since each is in the other list, and so they are the first of one class of ties. -/
theorem eq_of_pairwise (hSort : IsStableSort cmp as bs)
    (hSorted : as.Pairwise fun a b => (cmp a b).isLE = true) : bs = as := by
  induction as generalizing bs with
  | nil => exact List.eq_nil_iff_forall_not_mem.2 fun b hMem => nomatch hSort.mem_iff.1 hMem
  | cons a as ih =>
      cases bs with
      | nil => exact nomatch hSort.mem_iff.2 List.mem_cons_self
      | cons b bs =>
          have hEqual : cmp a b = .eq := by
            rcases List.mem_cons.1 (hSort.mem_iff.2 List.mem_cons_self) with rfl | hLater
            · exact Std.ReflCmp.compare_self
            rcases List.mem_cons.1 (hSort.mem_iff.1 List.mem_cons_self) with rfl | hEarlier
            · exact Std.ReflCmp.compare_self
            exact Std.OrientedCmp.isLE_antisymm (List.rel_of_pairwise_cons hSorted hEarlier)
              (List.rel_of_pairwise_cons hSort.pairwise hLater)
          obtain rfl : b = a := by
            have hFirst := hSort.ties a
            simp only [List.filter_cons, hEqual, beq_self, if_true] at hFirst
            exact List.head_eq_of_cons_eq hFirst
          have hRest : IsStableSort cmp as bs := by
            refine ⟨hSort.pairwise.of_cons, fun c => ?_⟩
            have hTies := hSort.ties c
            simp only [List.filter_cons] at hTies
            by_cases hTie : (cmp c b == .eq) = true
            · rw [if_pos hTie, if_pos hTie] at hTies
              exact List.tail_eq_of_cons_eq hTies
            · rw [if_neg hTie, if_neg hTie] at hTies
              exact hTies
          rw [ih hRest hSorted.of_cons]

/-- **One stable sort**: order and ties determine the list. -/
theorem unique (hLeft : IsStableSort cmp as bs) (hRight : IsStableSort cmp as cs) : bs = cs := by
  have hSort : IsStableSort cmp cs bs :=
    ⟨hLeft.pairwise, fun a => (hLeft.ties a).trans (hRight.ties a).symm⟩
  exact hSort.eq_of_pairwise hRight.pairwise

end Laws

/-- What is left of a sorted list is the sort of what is left of the list. -/
theorem filter (hSort : IsStableSort cmp as bs) (p : α → Bool) :
    IsStableSort cmp (as.filter p) (bs.filter p) := by
  refine ⟨hSort.pairwise.filter p, fun a => ?_⟩
  rw [List.filter_comm, hSort.ties a, List.filter_comm]

end IsStableSort

section Sorting

variable [Std.TransCmp cmp]

/-- Sorted in the opposite order and read from its end, the reversed list is the sorted one. -/
theorem IsStableSort.reverse (hSort : IsStableSort cmp as bs) :
    IsStableSort (fun a b => cmp b a) as.reverse bs.reverse := by
  refine ⟨List.pairwise_reverse.2 hSort.pairwise, fun a => ?_⟩
  have hTurned : (fun b => cmp b a == .eq) = fun b => cmp a b == .eq := by
    funext b
    rw [Bool.eq_iff_iff, beq_iff_eq, beq_iff_eq]
    exact ⟨Std.OrientedCmp.eq_symm, Std.OrientedCmp.eq_symm⟩
  rw [hTurned, List.filter_reverse, List.filter_reverse, hSort.ties a]

/-- Merge sort is a stable sort. What compares equal to one value is in order as it stands, so it
is a sublist of the sorted list, and it is as long as the part of that list that compares equal. -/
theorem isStableSort_mergeSort (as : List α) :
    IsStableSort cmp as (as.mergeSort fun a b => (cmp a b).isLE) := by
  have hTrans : ∀ a b c, (cmp a b).isLE = true → (cmp b c).isLE = true →
      (cmp a c).isLE = true := fun a b c => Std.TransCmp.isLE_trans
  have hTotal : ∀ a b, ((cmp a b).isLE || (cmp b a).isLE) = true := by
    intro a b
    have hSwap : cmp b a = (cmp a b).swap := Std.OrientedCmp.eq_swap
    rw [hSwap]
    cases cmp a b <;> rfl
  refine ⟨List.pairwise_mergeSort hTrans hTotal as, fun a => ?_⟩
  have hClass : (as.filter fun b => cmp a b == .eq).Pairwise fun b c => (cmp b c).isLE = true := by
    refine List.pairwise_filter.2 (List.pairwise_of_forall fun b c hLeft hRight => ?_)
    rw [← Std.TransCmp.congr_left (beq_iff_eq.1 hLeft), beq_iff_eq.1 hRight]
    rfl
  have hKept := (List.sublist_mergeSort hTrans hTotal hClass List.filter_sublist).filter
    fun b => cmp a b == .eq
  rw [List.filter_filter] at hKept
  simp only [Bool.and_self] at hKept
  have hPerm := List.mergeSort_perm as fun a b => (cmp a b).isLE
  exact (hKept.eq_of_length (hPerm.filter _).length_eq.symm).symm

theorem isStableSort_iff :
    IsStableSort cmp as bs ↔ bs = as.mergeSort fun a b => (cmp a b).isLE := by
  refine ⟨fun hSort => hSort.unique (isStableSort_mergeSort as), ?_⟩
  rintro rfl
  exact isStableSort_mergeSort as

/-- A list that is in order has no sort but itself. -/
theorem isStableSort_iff_eq (hSorted : as.Pairwise fun a b => (cmp a b).isLE = true) :
    IsStableSort cmp as bs ↔ bs = as := by
  refine ⟨fun hSort => hSort.eq_of_pairwise hSorted, ?_⟩
  rintro rfl
  exact ⟨hSorted, fun _ => rfl⟩

end Sorting

end Versioning
