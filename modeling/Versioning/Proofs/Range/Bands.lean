import Versioning.Proofs.Range.Numerals

/-!
# Making bands

The bands that the readers make are those of the grammar. A core is increased at
an index by `Core.incrementAt?`, which knows the four places of a core; the
grammar says instead which components the upper end starts with. The two agree
on padded cores (`incrementAt?_padded`), and everything else follows from the
position of the numeral that is increased.
-/

namespace Versioning

theorem Component.succ?_eq_some_iff {c next : Component} :
    c.succ? = some next ↔ next.value = c.value + 1 :=
  ofNat?_eq_some_iff

namespace Core

/-- Increasing a padded core at one of the components given forgets what comes after it. -/
theorem incrementAt?_padded : ∀ (before : List Component) (c : Component)
    (after : List Component), before.length ≤ 3 →
    (padded (before ++ c :: after)).incrementAt? before.length =
      c.succ?.map fun next => padded (before ++ [next])
  | [], _, _, _ => rfl
  | [_], _, _, _ => rfl
  | [_, _], _, _, _ => rfl
  | [_, _, _], _, _, _ => rfl

theorem padded_of_zeros {zeros : List Component} (hZeros : ∀ z ∈ zeros, z = 0) :
    padded zeros = {} := by
  have hGet : ∀ i, zeros.getD i 0 = 0 := by
    intro i
    rw [List.getD_eq_getElem?_getD]
    cases hAt : zeros[i]? with
    | none => rfl
    | some z => exact hZeros z (List.mem_of_getElem? hAt)
  simp only [padded, hGet]

end Core

namespace Range

open Grammar

/-- A list of components has a first one that is not zero, or has only zeros. -/
theorem exists_first_nonzero (cs : List Component) :
    (∀ z ∈ cs, z = 0) ∨
      ∃ zeros c after, cs = zeros ++ c :: after ∧ (∀ z ∈ zeros, z = 0) ∧ c ≠ 0 := by
  induction cs with
  | nil => exact .inl (by simp)
  | cons c cs ih =>
      by_cases hZero : c = 0
      · rcases ih with hZeros | ⟨zeros, d, after, rfl, hZeros, hNonzero⟩
        · exact .inl (by simpa [hZero] using hZeros)
        · exact .inr ⟨c :: zeros, d, after, rfl, by simpa [hZero] using hZeros, hNonzero⟩
      · exact .inr ⟨[], c, cs, rfl, by simp, hZero⟩

/-- A band is made exactly where the grammar has one. -/
theorem band_eq_ok_iff {before after : List Component} {c : Component} {numeral : Token}
    {r : Range} (hFew : before.length ≤ 3) :
    band (Core.padded (before ++ c :: after)) before.length numeral = .ok r ↔
      Band before c after r := by
  unfold band
  rw [Core.incrementAt?_padded before c after hFew]
  constructor
  · intro h
    cases hNext : c.succ? with
    | none =>
        rw [hNext] at h
        cases h
    | some next =>
        rw [hNext] at h
        cases h
        exact .upTo (Component.succ?_eq_some_iff.1 hNext)
  · rintro ⟨hNext⟩
    rw [Component.succ?_eq_some_iff.2 hNext]
    rfl

/-- The index of the last numeral is the number of those before it. -/
theorem index_of_values {ns : Numerals} {before : List Component} {c : Component}
    (hValues : ns.values = before ++ [c]) : ns.more.length = before.length := by
  have hLength := congrArg List.length hValues
  simpa [Numerals.values, Numerals.toList] using hLength

theorem bandAtLast_eq_ok_iff {ns : Numerals} {before : List Component} {c : Component}
    {r : Range} (hValues : ns.values = before ++ [c]) (hFew : before.length ≤ 3) :
    bandAtLast ns = .ok r ↔ Band before c [] r := by
  rw [bandAtLast, Numerals.core_eq, index_of_values hValues, hValues]
  exact band_eq_ok_iff hFew

/-- There is no band where the component to be increased is the largest, and nowhere else. -/
theorem band_eq_error_iff {before after : List Component} {c : Component} {numeral : Token}
    {e : Error} (hFew : before.length ≤ 3) :
    band (Core.padded (before ++ c :: after)) before.length numeral = .error e ↔
      c.value = Component.maximum ∧ e = .outOfRange numeral := by
  have hNone : c.succ? = none ↔ c.value = Component.maximum := by
    have hBound : c.value ≤ Component.maximum := c.le_maximum
    rw [Component.succ?, Component.ofNat?_eq_none_iff]
    omega
  rw [band, Core.incrementAt?_padded before c after hFew, ← hNone]
  cases c.succ? <;> simp [eq_comm]

/-- The last numeral is to blame if there is no band. -/
theorem bandAtLast_eq_error_iff {ns : Numerals} {before : List Component} {c : Component}
    {e : Error} (hValues : ns.values = before ++ [c]) (hFew : before.length ≤ 3) :
    bandAtLast ns = .error e ↔ c.value = Component.maximum ∧ e = .outOfRange ns.last.token := by
  rw [bandAtLast, Numerals.core_eq, index_of_values hValues, hValues]
  exact band_eq_error_iff hFew

/-- The first numeral that is not zero is found with the number of zeros before it. -/
theorem firstNonzero?_eq {ns : Numerals} {zeros after : List Numeral} {x : Numeral}
    (hList : ns.toList = zeros ++ x :: after) (hZeros : ∀ z ∈ zeros, z.value = 0)
    (hNonzero : x.value ≠ 0) : ns.firstNonzero? = some (x, zeros.length) := by
  refine List.find?_eq_some_iff_append.2 ⟨by simpa using hNonzero, ?_⟩
  refine ⟨zeros.zipIdx, after.zipIdx (zeros.length + 1), ?_, ?_⟩
  · rw [hList, List.zipIdx_append, List.zipIdx_cons]
    simp
  · intro y hMem
    have hZero := hZeros y.1 (List.fst_mem_of_mem_zipIdx hMem)
    simp [hZero]

/-- The core that is increased at the first numeral that is not zero. -/
theorem bandAtFirstNonzero_eq {ns : Numerals} {zeros after : List Numeral} {x : Numeral}
    (hList : ns.toList = zeros ++ x :: after) (hZeros : ∀ z ∈ zeros, z.value = 0)
    (hNonzero : x.value ≠ 0) :
    bandAtFirstNonzero ns = band (Core.padded (zeros.map Numeral.value ++ x.value ::
      after.map Numeral.value)) (zeros.map Numeral.value).length x.token := by
  rw [bandAtFirstNonzero, firstNonzero?_eq hList hZeros hNonzero, List.length_map,
    Numerals.core, hList, List.map_append, List.map_cons]

theorem bandAtFirstNonzero_eq_ok_iff {ns : Numerals} {zeros after : List Component}
    {c : Component} {r : Range} (hValues : ns.values = zeros ++ c :: after)
    (hZeros : ∀ z ∈ zeros, z = 0) (hNonzero : c ≠ 0) (hFew : zeros.length ≤ 3) :
    bandAtFirstNonzero ns = .ok r ↔ Band zeros c after r := by
  obtain ⟨xs, more, hList, rfl, hRest⟩ := List.map_eq_append_iff.1 hValues
  obtain ⟨x, ys, rfl, rfl, rfl⟩ := List.map_eq_cons_iff.1 hRest
  rw [bandAtFirstNonzero_eq hList (fun z hMem => hZeros _ (List.mem_map_of_mem hMem)) hNonzero]
  exact band_eq_ok_iff hFew

theorem bandAtFirstNonzero_eq_error_iff {ns : Numerals} {zeros after : List Numeral} {x : Numeral}
    {e : Error} (hList : ns.toList = zeros ++ x :: after) (hZeros : ∀ z ∈ zeros, z.value = 0)
    (hNonzero : x.value ≠ 0) (hFew : zeros.length ≤ 3) :
    bandAtFirstNonzero ns = .error e ↔
      x.value.value = Component.maximum ∧ e = .outOfRange x.token := by
  rw [bandAtFirstNonzero_eq hList hZeros hNonzero]
  exact band_eq_error_iff (by rwa [List.length_map])

theorem bandAtFirstNonzero_of_zeros {ns : Numerals} (hZeros : ∀ z ∈ ns.values, z = 0) :
    bandAtFirstNonzero ns = .ok (.comparison .eq ({} : Core)) := by
  have hNone : ns.firstNonzero? = none := by
    refine List.find?_eq_none.2 fun y hMem => ?_
    have hZero := hZeros _ (List.mem_map_of_mem (List.fst_mem_of_mem_zipIdx hMem))
    simpa using hZero
  unfold bandAtFirstNonzero
  rw [hNone, Numerals.core_eq, Core.padded_of_zeros hZeros]

end Range

end Versioning
