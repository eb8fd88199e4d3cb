import Versioning.Catalogue
import Versioning.Proofs.StableSort
import Versioning.Proofs.Version.Precedence

/-!
# Sorted catalogues

A catalogue is sorted with the versions at hand that its texts spell, but the
answer shows texts alone. Here it is described by texts from the outset: texts
compare as the versions that they spell (`byPrecedence`), and both answers are
stable sorts of the texts that spell versions, by this comparison and by its
opposite (`isStableSort_ascending`, `isStableSort_descending`). What a catalogue
promises about order, ties and repetition then follows from what is known of
stable sorts.
-/

namespace Versioning.Catalogue

variable {s t : String} {v w : Version} {versions : List String}

/-! ## Comparing texts -/

theorem parse?_eq_some_iff : Version.parse? s = some v ↔ Version.parse s = .ok v := by
  unfold Version.parse?
  cases Version.parse s <;> simp [Except.toOption]

theorem isValid_eq_isSome (s : String) : Version.isValid s = (Version.parse? s).isSome := by
  unfold Version.isValid Version.parse?
  cases Version.parse s <;> rfl

/-- How the versions compare that two texts spell. Texts that spell none come first. -/
def byPrecedence : String → String → Ordering := compareOn Version.parse?

instance : Std.TransCmp byPrecedence :=
  inferInstanceAs (Std.TransCmp (compareOn Version.parse?))

instance : Std.TransCmp fun s t => byPrecedence t s := Std.TransCmp.opposite

theorem byPrecedence_of_parse? (hLeft : Version.parse? s = some v)
    (hRight : Version.parse? t = some w) : byPrecedence s t = compare v w := by
  show compare (Version.parse? s) (Version.parse? t) = compare v w
  rw [hLeft, hRight]
  rfl

/-! ## Sorting texts -/

theorem parse?_of_mem_entries {e : Version × String} (hMem : e ∈ entries versions) :
    Version.parse? e.2 = some e.1 := by
  obtain ⟨s, -, hEntry⟩ := List.mem_filterMap.1 hMem
  obtain ⟨v, hParse, rfl⟩ := Option.map_eq_some_iff.1 hEntry
  exact hParse

/-- The entries of a catalogue are made of the texts that spell versions. -/
theorem map_snd_entries (versions : List String) :
    (entries versions).map Prod.snd = versions.filter Version.isValid := by
  unfold entries
  rw [List.map_filterMap, ← List.filterMap_eq_filter]
  refine List.filterMap_congr fun s _ => ?_
  rw [Option.map_map, Option.guard, isValid_eq_isSome]
  cases Version.parse? s <;> rfl

/-- Sorting entries by their versions sorts the texts, if texts compare as their versions do. -/
theorem isStableSort_entries {cmp : String → String → Ordering} [Std.TransCmp cmp]
    (compareVersions : Version → Version → Ordering)
    (hCompare : ∀ {s t v w}, Version.parse? s = some v → Version.parse? t = some w →
      cmp s t = compareVersions v w) (versions : List String) :
    IsStableSort cmp (versions.filter Version.isValid)
      (((entries versions).mergeSort fun d e => (compareVersions d.1 e.1).isLE).map Prod.snd) := by
  rw [← map_snd_entries, isStableSort_iff]
  refine List.map_mergeSort fun d hLeft e hRight => ?_
  rw [hCompare (parse?_of_mem_entries hLeft) (parse?_of_mem_entries hRight)]

theorem isStableSort_ascending (versions : List String) :
    IsStableSort byPrecedence (versions.filter Version.isValid) (ascending versions) :=
  isStableSort_entries compare byPrecedence_of_parse? versions

theorem isStableSort_descending (versions : List String) :
    IsStableSort (fun s t => byPrecedence t s) (versions.filter Version.isValid)
      (descending versions) :=
  isStableSort_entries (fun v w => compare w v)
    (fun hLeft hRight => byPrecedence_of_parse? hRight hLeft) versions

/-! ## What a sorted catalogue holds -/

/-- Both texts spell versions, and the first does not come after the second. -/
def InOrder (s t : String) : Prop :=
  ∃ v w, Version.parse s = .ok v ∧ Version.parse t = .ok w ∧ v ≤ w

/-- A text spells a version of a given precedence. -/
def isOfPrecedence (v : Version) (s : String) : Bool :=
  (Version.parse? s).any fun w => w.samePrecedence v

theorem inOrder_of_isLE (hLeft : Version.isValid s = true) (hRight : Version.isValid t = true)
    (hOrder : (byPrecedence s t).isLE = true) : InOrder s t := by
  rw [isValid_eq_isSome] at hLeft hRight
  obtain ⟨v, hParse⟩ := Option.isSome_iff_exists.1 hLeft
  obtain ⟨w, hParse'⟩ := Option.isSome_iff_exists.1 hRight
  rw [byPrecedence_of_parse? hParse hParse'] at hOrder
  exact ⟨v, w, parse?_eq_some_iff.1 hParse, parse?_eq_some_iff.1 hParse', hOrder⟩

/-- Only texts that spell versions have a precedence. -/
theorem filter_isOfPrecedence (v : Version) (versions : List String) :
    (versions.filter Version.isValid).filter (isOfPrecedence v) =
      versions.filter (isOfPrecedence v) := by
  rw [List.filter_filter]
  refine List.filter_congr fun s _ => ?_
  unfold isOfPrecedence
  rw [isValid_eq_isSome]
  cases Version.parse? s <;> simp

/-- Texts of one precedence compare as equal. -/
theorem byPrecedence_of_isOfPrecedence (hLeft : isOfPrecedence v s = true)
    (hRight : isOfPrecedence v t = true) : byPrecedence s t = .eq := by
  obtain ⟨a, hParse, hSame⟩ := (Option.any_eq_true _ _).1 hLeft
  obtain ⟨b, hParse', hSame'⟩ := (Option.any_eq_true _ _).1 hRight
  rw [byPrecedence_of_parse? hParse hParse']
  exact Std.TransCmp.eq_trans (beq_iff_eq.1 hSame) (Std.OrientedCmp.eq_symm (beq_iff_eq.1 hSame'))

section Sorted

variable {cmp : String → String → Ordering} [Std.TransCmp cmp] {sorted : List String}

theorem isValid_of_isStableSort
    (hSort : IsStableSort cmp (versions.filter Version.isValid) sorted) :
    ∀ s ∈ sorted, Version.isValid s = true :=
  fun _ hMem => (List.mem_filter.1 (hSort.mem_iff.1 hMem)).2

/-- A sorted catalogue holds nothing that a catalogue would not keep. -/
theorem filter_isValid_of_isStableSort
    (hSort : IsStableSort cmp (versions.filter Version.isValid) sorted) :
    sorted.filter Version.isValid = sorted :=
  List.filter_eq_self.2 (isValid_of_isStableSort hSort)

end Sorted

/-- **Sorted catalogues.** Ascending or descending, a catalogue holds the texts that spell
versions, as they were given and as often; they are in the order of precedence or in the opposite
one; and the texts of any one precedence stand as they were listed. Hence descending order is
ascending order read from its end, of the list read from its end, and sorting twice is sorting
once. -/
theorem sorted_catalogues :
    (∀ versions, (ascending versions).Perm (versions.filter Version.isValid) ∧
      (descending versions).Perm (versions.filter Version.isValid)) ∧
    (∀ versions, (ascending versions).Pairwise InOrder ∧
      (descending versions).Pairwise fun s t => InOrder t s) ∧
    (∀ versions v,
      (ascending versions).filter (isOfPrecedence v) = versions.filter (isOfPrecedence v) ∧
      (descending versions).filter (isOfPrecedence v) = versions.filter (isOfPrecedence v)) ∧
    (∀ versions, descending versions = (ascending versions.reverse).reverse) ∧
    (∀ versions, ascending (ascending versions) = ascending versions ∧
      descending (descending versions) = descending versions) := by
  have hUp := isStableSort_ascending
  have hDown := isStableSort_descending
  refine ⟨fun versions => ⟨(hUp versions).perm, (hDown versions).perm⟩, fun versions => ?_,
    fun versions v => ?_, fun versions => ?_, fun versions => ?_⟩
  · have hValid := isValid_of_isStableSort (hUp versions)
    have hValid' := isValid_of_isStableSort (hDown versions)
    constructor
    · exact (hUp versions).pairwise.imp_of_mem fun hLeft hRight =>
        inOrder_of_isLE (hValid _ hLeft) (hValid _ hRight)
    · exact (hDown versions).pairwise.imp_of_mem fun hLeft hRight =>
        inOrder_of_isLE (hValid' _ hRight) (hValid' _ hLeft)
  · rw [← filter_isOfPrecedence v versions]
    constructor
    · exact (hUp versions).filter_eq_of_class fun s t => byPrecedence_of_isOfPrecedence
    · exact (hDown versions).filter_eq_of_class fun s t hLeft hRight =>
        byPrecedence_of_isOfPrecedence hRight hLeft
  · have hTurned := (hUp versions.reverse).reverse
    rw [List.filter_reverse, List.reverse_reverse] at hTurned
    exact (hDown versions).unique hTurned
  · have hUpAgain := hUp (ascending versions)
    have hDownAgain := hDown (descending versions)
    rw [filter_isValid_of_isStableSort (hUp versions)] at hUpAgain
    rw [filter_isValid_of_isStableSort (hDown versions)] at hDownAgain
    exact ⟨hUpAgain.eq_of_pairwise (hUp versions).pairwise,
      hDownAgain.eq_of_pairwise (hDown versions).pairwise⟩

/-- The first of two builds stays the first, in both directions. -/
example : descending ["1.0.0.0", "2.0.0.0+b", "2.0", "2.0.0.0+a"] =
    ["2.0.0.0+b", "2.0.0.0+a", "1.0.0.0"] := by
  cbv

end Versioning.Catalogue
