import Mathlib.Data.List.Induction
import Mathlib.Data.List.Nodup
import Versioning.Version.Order

/-!
# What a collection without repetition holds

A collection is described from the outside, by the list that was added to it: it
holds a value of every key in the list (`mem_keys_ofList`), never two of one key
(`nodup_keys_ofList`), and of each key the first (`ofList_eq_firsts`). Since only
keys count, so does the size: it is that of every rearrangement of the list
(`length_ofList_of_perm`).

Adding goes through a list from the front and appends to the collection, so the
inductions here take the last value of the list away.
-/

namespace Versioning.Distinct

variable {α κ : Type} [DecidableEq κ] {key : α → κ} {as bs : List α} {a : α}

theorem ofList_append_singleton (key : α → κ) (as : List α) (a : α) :
    ofList key (as ++ [a]) = insert key (ofList key as) a := by
  unfold ofList insertAll
  rw [List.foldl_append]
  rfl

theorem isNew_iff : isNew key as a = true ↔ key a ∉ as.map key := by
  simp only [isNew, List.all_eq_true, decide_eq_true_eq, List.mem_map, not_exists, not_and]

theorem mem_keys_insert {seen : List α} {k : κ} :
    k ∈ (insert key seen a).map key ↔ k ∈ seen.map key ∨ k = key a := by
  unfold insert
  split
  · rw [List.map_append, List.mem_append]
    exact or_congr_right List.mem_singleton
  · rename_i hOld
    rw [isNew_iff, Decidable.not_not] at hOld
    refine ⟨.inl, ?_⟩
    rintro (hSeen | rfl)
    · exact hSeen
    · exact hOld

/-- A collection has the keys of the list that was added to it. -/
theorem mem_keys_ofList {k : κ} : k ∈ (ofList key as).map key ↔ k ∈ as.map key := by
  induction as using List.reverseRecOn with
  | nil => rfl
  | append_singleton as a ih =>
      rw [ofList_append_singleton, mem_keys_insert, ih, List.map_append, List.mem_append]
      exact or_congr_right List.mem_singleton.symm

/-- What is new to a collection is what is new to the list that was added to it. -/
theorem isNew_ofList : isNew key (ofList key as) a = isNew key as a := by
  rw [Bool.eq_iff_iff, isNew_iff, isNew_iff, mem_keys_ofList]

/-- A collection never holds two values of one key. -/
theorem nodup_keys_ofList (key : α → κ) (as : List α) : ((ofList key as).map key).Nodup := by
  induction as using List.reverseRecOn with
  | nil => exact List.nodup_nil
  | append_singleton as a ih =>
      rw [ofList_append_singleton, insert]
      split
      · rename_i hNew
        have hFresh : key a ∉ (ofList key as).map key := isNew_iff.1 hNew
        rw [List.map_append, List.map_singleton, ← List.concat_eq_append]
        exact ih.concat hFresh
      · exact ih

/-- A collection holds the values of a list whose keys no value before them has. -/
theorem ofList_eq_firsts (key : α → κ) (as : List α) :
    ofList key as = (as.zipIdx.filter fun p => isNew key (as.take p.2) p.1).map Prod.fst := by
  induction as using List.reverseRecOn with
  | nil => rfl
  | append_singleton as a ih =>
      have hBefore : ∀ p ∈ as.zipIdx,
          isNew key ((as ++ [a]).take p.2) p.1 = isNew key (as.take p.2) p.1 := by
        intro p hMem
        have hIndex : p.2 < as.length := List.snd_lt_of_mem_zipIdx hMem
        rw [List.take_append_of_le_length (Nat.le_of_lt hIndex)]
      rw [ofList_append_singleton, insert, isNew_ofList, List.zipIdx_append, List.filter_append,
        List.map_append, List.filter_congr hBefore, ← ih]
      cases hNew : isNew key as a <;> simp [hNew]

/-- Added in whatever order, values make collections of one size. -/
theorem length_ofList_of_perm (hPerm : as.Perm bs) :
    (ofList key as).length = (ofList key bs).length := by
  have hKeys : ((ofList key as).map key).Perm ((ofList key bs).map key) := by
    refine (List.perm_ext_iff_of_nodup (nodup_keys_ofList key as) (nodup_keys_ofList key bs)).2 ?_
    intro k
    rw [mem_keys_ofList, mem_keys_ofList]
    exact (hPerm.map key).mem_iff
  simpa using hKeys.length_eq

end Versioning.Distinct
