import Versioning.Proofs.Distinct
import Versioning.Proofs.Version.Precedence
import Versioning.Proofs.Version.Runs
import Versioning.Version.Hash

/-!
# Versions of the same precedence

Precedence puts versions into classes, and three other traversals of a version
have to see the same ones: the key by which collections keep versions apart,
what is fed to a hasher, and the text. Trimming is where they could part. The
order compares numeric identifiers as numbers, while the others cut leading
zeros off, each on its own.

All of them agree with the key (`samePrecedence_iff_key_eq`,
`fed_eq_iff_key_eq`), so a hash set finds in it what precedence calls the same,
and what it holds is `distinct`. Texts agree only where nothing is left to trim,
which is what the strict parser makes sure of.
-/

namespace Versioning

/-! ## Keys -/

theorem Identifier.key_of_isNumeric {i : Identifier} (hNumeric : i.isNumeric = true) :
    i.key = Decimal.trim i.chars := if_pos hNumeric

theorem Identifier.key_of_not_isNumeric {i : Identifier} (hText : i.isNumeric = false) :
    i.key = i.chars := if_neg (by rw [hText]; decide)

/-- Trimming leaves a number a number, so no key of a number is that of a text. -/
theorem Identifier.key_ne {i j : Identifier} (hNumeric : i.isNumeric = true)
    (hText : j.isNumeric = false) : i.key ≠ j.key := by
  intro hSame
  rw [key_of_isNumeric hNumeric, key_of_not_isNumeric hText] at hSame
  have hDigits : j.isNumeric = true := by
    unfold isNumeric
    rw [List.all_eq_true, ← hSame]
    exact Decimal.isDigit_of_mem_trim (List.all_eq_true.1 hNumeric)
  rw [hText] at hDigits
  cases hDigits

theorem Identifier.rank_eq_iff_key_eq {i j : Identifier} : i.rank = j.rank ↔ i.key = j.key := by
  unfold rank
  cases hLeft : i.isNumeric <;> cases hRight : j.isNumeric
  · rw [key_of_not_isNumeric hLeft, key_of_not_isNumeric hRight]
    exact ⟨fun h => Sum.inr_injective h, fun h => congrArg Sum.inrₗ h⟩
  · exact iff_of_false Sum.inr_ne_inl (key_ne hRight hLeft).symm
  · exact iff_of_false Sum.inl_ne_inr (key_ne hLeft hRight)
  · rw [key_of_isNumeric hLeft, key_of_isNumeric hRight,
      Decimal.trim_eq_trim_iff (List.all_eq_true.1 hLeft) (List.all_eq_true.1 hRight)]
    exact ⟨fun h => Sum.inl_injective h, fun h => congrArg Sum.inlₗ h⟩

/-- Two views of the members of lists that agree on members agree on lists. -/
theorem map_eq_map_iff_of_iff {α β γ : Type} {f : α → β} {g : α → γ}
    (hAgree : ∀ a b, f a = f b ↔ g a = g b) (as bs : List α) :
    as.map f = bs.map f ↔ as.map g = bs.map g := by
  rw [← List.forall₂_eq_eq_eq, List.forall₂_map_left_iff, List.forall₂_map_right_iff,
    ← List.forall₂_eq_eq_eq, List.forall₂_map_left_iff, List.forall₂_map_right_iff]
  simp only [hAgree]

theorem Tag.rank_eq_iff_key_eq {t u : Tag} : t.rank = u.rank ↔ t.key = u.key :=
  map_eq_map_iff_of_iff (fun _ _ => Identifier.rank_eq_iff_key_eq) t.identifiers u.identifiers

/-- Tags compare as equal just if they have one key. -/
theorem Tag.compare_eq_eq_iff {t u : Tag} : compare t u = .eq ↔ t.key = u.key := by
  rw [(compares_rank t u).eq_eq, rank_eq_iff_key_eq]

/-! ## What is fed to a hasher -/

theorem Tag.fed_eq_iff_key_eq {t u : Tag} : t.fed = u.fed ↔ t.key = u.key := by
  have hTexts : (t.identifiers.map fun i => Fed.text i.key) =
      (u.identifiers.map fun i => Fed.text i.key) ↔ t.key = u.key :=
    map_eq_map_iff_of_iff (fun i j => iff_of_eq (Fed.text.injEq i.key j.key)) _ _
  have hCount : t.key = u.key → t.identifiers.length = u.identifiers.length := by
    intro hSame
    have hLengths := congrArg List.length hSame
    rw [key, key, List.length_map, List.length_map] at hLengths
    exact hLengths
  unfold fed
  rw [List.cons.injEq, Fed.count.injEq, hTexts]
  exact and_iff_right_of_imp hCount

theorem Core.fed_eq_iff {a b : Core} :
    a.components.map Fed.component = b.components.map Fed.component ↔ a = b := by
  refine ⟨fun hSame => ?_, fun hSame => by rw [hSame]⟩
  have hComponents := List.map_injective_iff.2 (fun c d => Fed.component.inj) hSame
  rw [← padded_components a, hComponents, padded_components]

namespace Version

variable {a b : Version}

theorem key_eq_iff : a.key = b.key ↔
    a.core = b.core ∧ a.preRelease.map Tag.key = b.preRelease.map Tag.key :=
  iff_of_eq (Key.mk.injEq ..)

/-- Versions feed the same to a hasher just if they have one key. -/
theorem fed_eq_iff_key_eq : a.fed = b.fed ↔ a.key = b.key := by
  have hSplit : a.fed = b.fed ↔ a.core.components.map Fed.component =
        b.core.components.map Fed.component ∧
      (a.preRelease.elim [Fed.present false] fun t => .present true :: t.fed) =
        b.preRelease.elim [Fed.present false] fun t => .present true :: t.fed := by
    refine ⟨fun hSame => List.append_inj hSame rfl, ?_⟩
    rintro ⟨hCore, hPreRelease⟩
    rw [fed, hCore, hPreRelease, fed]
  rw [hSplit, Core.fed_eq_iff, key_eq_iff]
  refine and_congr_right fun _ => ?_
  cases a.preRelease with
  | none => cases b.preRelease <;> simp
  | some t =>
      cases b.preRelease with
      | none => simp
      | some u => simp [Tag.fed_eq_iff_key_eq]

/-! ## Precedence and keys -/

/-- Neither of two versions precedes the other just if they have one key. -/
theorem samePrecedence_iff_key_eq : a.samePrecedence b = true ↔ a.key = b.key := by
  show ((compare a.core b.core).then
    (comparePreRelease a.preRelease b.preRelease) == .eq) = true ↔ _
  rw [beq_iff_eq, Ordering.then_eq_eq, Core.compare_eq_eq, key_eq_iff]
  refine and_congr_right fun _ => ?_
  cases a.preRelease with
  | none => cases b.preRelease <;> simp [comparePreRelease]
  | some t =>
      cases b.preRelease with
      | none => simp [comparePreRelease]
      | some u =>
          show compare t u = .eq ↔ some t.key = some u.key
          rw [Tag.compare_eq_eq_iff, Option.some_inj]

theorem isNew_iff {vs : List Version} {v : Version} :
    Distinct.isNew key vs v = vs.all fun u => !u.samePrecedence v := by
  unfold Distinct.isNew
  congr 1
  funext u
  rw [Bool.eq_iff_iff, decide_eq_true_iff, Bool.not_eq_true', ← Bool.not_eq_true,
    samePrecedence_iff_key_eq]

/-! ## Hash sets -/

variable {hash : List Fed → UInt64}

theorem beq_hashed_iff {x y : Hashed hash} : (x == y) = true ↔ x.version.key = y.version.key :=
  samePrecedence_iff_key_eq

instance : EquivBEq (Hashed hash) where
  rfl := beq_hashed_iff.2 rfl
  symm hSame := beq_hashed_iff.2 (beq_hashed_iff.1 hSame).symm
  trans hFirst hSecond :=
    beq_hashed_iff.2 ((beq_hashed_iff.1 hFirst).trans (beq_hashed_iff.1 hSecond))

/-- Equal elements have equal hashes, whatever the hasher makes of what it is fed. -/
instance : LawfulHashable (Hashed hash) where
  hash_eq x y hSame := by
    have hFed : x.version.fed = y.version.fed := fed_eq_iff_key_eq.2 (beq_hashed_iff.1 hSame)
    show hash x.version.fed = hash y.version.fed
    rw [hFed]

/-- The hash set to which the versions of a list are added one after the other. -/
def hashSet (hash : List Fed → UInt64) (vs : List Version) : Std.HashSet (Hashed hash) :=
  .ofList (vs.map Hashed.mk)

theorem hashSet_append_singleton (vs : List Version) (v : Version) :
    hashSet hash (vs ++ [v]) = (hashSet hash vs).insert ⟨v⟩ := by
  unfold hashSet
  rw [Std.HashSet.ofList_eq_insertMany_empty, List.map_append, Std.HashSet.insertMany_append,
    ← Std.HashSet.ofList_eq_insertMany_empty, List.map_singleton,
    Std.HashSet.insertMany_list_singleton]

theorem mem_hashSet_iff {vs : List Version} {v : Version} :
    (⟨v⟩ : Hashed hash) ∈ hashSet hash vs ↔
      v.key ∈ ((hashSet hash vs).toList.map Hashed.version).map key := by
  rw [← Std.HashSet.contains_iff_mem, ← Std.HashSet.contains_toList, List.contains_eq_any_beq,
    List.any_eq_true, List.map_map, List.mem_map]
  refine exists_congr fun x => and_congr_right fun _ => ?_
  rw [beq_hashed_iff]
  exact eq_comm

theorem distinct_append_singleton (vs : List Version) (v : Version) :
    distinct (vs ++ [v]) =
      if Distinct.isNew key (distinct vs) v then distinct vs ++ [v] else distinct vs :=
  Distinct.ofList_append_singleton key vs v

/-- **Hash sets**: what a hash set holds is the first version of each key, in some order. -/
theorem toList_hashSet_perm (hash : List Fed → UInt64) (vs : List Version) :
    ((hashSet hash vs).toList.map Hashed.version).Perm (distinct vs) := by
  induction vs using List.reverseRecOn with
  | nil =>
      show ((∅ : Std.HashSet (Hashed hash)).toList.map Hashed.version).Perm []
      rw [Std.HashSet.toList_empty]
      exact .refl _
  | append_singleton vs v ih =>
      have hStep : (hashSet hash (vs ++ [v])).toList.Perm
          (if ⟨v⟩ ∈ hashSet hash vs then (hashSet hash vs).toList
            else ⟨v⟩ :: (hashSet hash vs).toList) := by
        rw [hashSet_append_singleton]
        exact Std.HashSet.toList_insert_perm
      have hNew : Distinct.isNew key (distinct vs) v = true ↔
          ¬ (⟨v⟩ : Hashed hash) ∈ hashSet hash vs := by
        rw [Distinct.isNew_iff, mem_hashSet_iff, (ih.map key).mem_iff]
      refine (hStep.map Hashed.version).trans ?_
      rw [distinct_append_singleton]
      by_cases hMem : (⟨v⟩ : Hashed hash) ∈ hashSet hash vs
      · rw [if_pos hMem, if_neg fun h => hNew.1 h hMem]
        exact ih
      · rw [if_neg hMem, if_pos (hNew.2 hMem)]
        exact (ih.cons v).trans (List.perm_append_singleton v _).symm

theorem size_hashSet (hash : List Fed → UInt64) (vs : List Version) :
    (hashSet hash vs).size = (distinct vs).length := by
  rw [← (toList_hashSet_perm hash vs).length_eq, List.length_map, Std.HashSet.length_toList]

end Version

/-! ## Texts -/

open Literal

/-- Read strictly, numeric identifiers have no zeros to cut off. -/
theorem Tag.key_of_fits {t : Tag} (hFits : Fits .preRelease .strict t) :
    t.key = t.identifiers.map fun i => i.chars := by
  refine List.map_congr_left fun i hMem => ?_
  cases hNumeric : i.isNumeric with
  | true =>
      rw [Identifier.key_of_isNumeric hNumeric]
      exact Decimal.trim_of_noLeadingZero i.ne_nil (hFits i hMem rfl rfl hNumeric)
  | false => exact Identifier.key_of_not_isNumeric hNumeric

theorem Tag.key_eq_iff_of_fits {t u : Tag} (hLeft : Fits .preRelease .strict t)
    (hRight : Fits .preRelease .strict u) : t.key = u.key ↔ t = u := by
  refine ⟨fun hSame => ?_, fun hSame => by rw [hSame]⟩
  rw [key_of_fits hLeft, key_of_fits hRight] at hSame
  have hChars : Function.Injective fun i : Identifier => i.chars :=
    fun i j hSame => Identifier.ext hSame
  exact Tag.ext (List.map_injective_iff.2 hChars hSame)

namespace Version

/-- The text before any plus sign leaves just the build tag out. -/
theorem takeWhile_text (v : Version) :
    v.text.toList.takeWhile (· ≠ '+') = ({ v with build := none } : Version).chars := by
  have hCore : '+' ∉ v.core.chars := (spellsCore_chars .lenient v.core).plus_not_mem
  have hPreRelease : '+' ∉ marked '-' v.preRelease := by
    cases v.preRelease with
    | none => exact List.not_mem_nil
    | some t =>
        have hTag : '+' ∉ t.chars :=
          (spellsTag_iff.2 ⟨rfl, fits_build .lenient t⟩).plus_not_mem
        simp [hTag]
  have hBuild : (marked '+' v.build).takeWhile (· ≠ '+') = [] := by
    cases v.build <;> rfl
  rw [toList_text, chars, List.append_assoc,
    List.takeWhile_append_of_pos fun c hMem => decide_eq_true (ne_of_mem_of_not_mem hMem hCore),
    List.takeWhile_append_of_pos fun c hMem =>
      decide_eq_true (ne_of_mem_of_not_mem hMem hPreRelease), hBuild]
  simp [chars]

/-- Of strict versions, those and only those of one precedence have one text up to the
build tag. -/
theorem samePrecedence_iff_text_eq {a b : Version} (hLeft : a.PreReleaseFits .strict)
    (hRight : b.PreReleaseFits .strict) : a.samePrecedence b = true ↔
      a.text.toList.takeWhile (· ≠ '+') = b.text.toList.takeWhile (· ≠ '+') := by
  have hKeys : a.preRelease.map Tag.key = b.preRelease.map Tag.key ↔
      a.preRelease = b.preRelease := by
    cases hTag : a.preRelease with
    | none => cases b.preRelease <;> simp
    | some t =>
        cases hTag' : b.preRelease with
        | none => simp
        | some u =>
            rw [Option.map_some, Option.map_some, Option.some_inj, Option.some_inj]
            exact Tag.key_eq_iff_of_fits (hLeft t hTag) (hRight u hTag')
  have hSame : a.samePrecedence b = true ↔
      ({ a with build := none } : Version) = { b with build := none } := by
    rw [samePrecedence_iff_key_eq, key_eq_iff, hKeys, Version.mk.injEq]
    exact and_congr_right fun _ => (and_iff_left rfl).symm
  rw [hSame, takeWhile_text, takeWhile_text]
  refine ⟨congrArg chars, fun hText => ?_⟩
  -- Without their build tags both versions are still read back from what is now one text.
  have hParseLeft := PreReleaseFits.parseIn_text (v := { a with build := none }) hLeft
  have hParseRight := PreReleaseFits.parseIn_text (v := { b with build := none }) hRight
  rw [text, hText] at hParseLeft
  exact Except.ok.inj (hParseLeft.symm.trans hParseRight)

/-- **Classes of versions.** Versions of one precedence are those with one core and with
pre-releases that differ in leading zeros of numbers at most, and those that feed the same to a
hasher. So the first version of each class is what a collection of versions holds, and a hash
set as well, whose size does not depend on the order in which versions are added. Read strictly,
versions of one precedence are those with one text up to any plus sign. -/
theorem precedence_classes :
    (∀ a b : Version, a.samePrecedence b = true ↔
      a.core = b.core ∧ a.preRelease.map Tag.key = b.preRelease.map Tag.key) ∧
    (∀ a b : Version, a.samePrecedence b = true ↔ a.fed = b.fed) ∧
    (∀ vs : List Version, distinct vs = (vs.zipIdx.filter fun p =>
      (vs.take p.2).all fun u => !u.samePrecedence p.1).map Prod.fst) ∧
    (∀ (hash : List Fed → UInt64) (vs : List Version),
      ((hashSet hash vs).toList.map Hashed.version).Perm (distinct vs)) ∧
    (∀ (hash : List Fed → UInt64) (vs ws : List Version), vs.Perm ws →
      (hashSet hash vs).size = (hashSet hash ws).size) ∧
    (∀ (s t : String) (a b : Version), Version.parse s = .ok a → Version.parse t = .ok b →
      (a.samePrecedence b = true ↔
        a.text.toList.takeWhile (· ≠ '+') = b.text.toList.takeWhile (· ≠ '+'))) := by
  refine ⟨fun a b => ?_, fun a b => ?_, fun vs => ?_, toList_hashSet_perm,
    fun hash vs ws hPerm => ?_, fun s t a b hLeft hRight => ?_⟩
  · exact samePrecedence_iff_key_eq.trans key_eq_iff
  · exact samePrecedence_iff_key_eq.trans fed_eq_iff_key_eq.symm
  · simp only [← isNew_iff]
    exact Distinct.ofList_eq_firsts key vs
  · rw [size_hashSet, size_hashSet]
    exact Distinct.length_ofList_of_perm hPerm
  · exact samePrecedence_iff_text_eq (preReleaseFits_of_parseIn hLeft)
      (preReleaseFits_of_parseIn hRight)

/-- Two builds of one pre-release are of one precedence, and a hash set holds as many of them
whichever comes first. -/
theorem samePrecedence_of_two_builds :
    ∃ a b : Version, Version.parse "1.0.0.0-rc.1+x" = .ok a ∧
      Version.parse "1.0.0.0-rc.1+y" = .ok b ∧ a ≠ b ∧ a.samePrecedence b = true ∧
      ∀ hash, (hashSet hash [a, b]).size = (hashSet hash [b, a]).size := by
  have hBuilds : ∃ a b : Version, a.PreReleaseFits .strict ∧ b.PreReleaseFits .strict ∧
      a.text = "1.0.0.0-rc.1+x" ∧ b.text = "1.0.0.0-rc.1+y" ∧ a ≠ b :=
    ⟨⟨⟨⟨1, by decide⟩, 0, 0, 0⟩,
        some (.cons ⟨['r', 'c'], by decide, List.all_eq_true.1 rfl⟩ (.singleton (.ofNat 1))),
        some (.singleton ⟨['x'], by decide, List.all_eq_true.1 rfl⟩)⟩,
      ⟨⟨⟨1, by decide⟩, 0, 0, 0⟩,
        some (.cons ⟨['r', 'c'], by decide, List.all_eq_true.1 rfl⟩ (.singleton (.ofNat 1))),
        some (.singleton ⟨['y'], by decide, List.all_eq_true.1 rfl⟩)⟩,
      by decide, by decide, by decide, by decide, by decide⟩
  obtain ⟨a, b, hFits, hFits', hText, hText', hNe⟩ := hBuilds
  have hParse := hFits.parseIn_text
  have hParse' := hFits'.parseIn_text
  rw [hText] at hParse
  rw [hText'] at hParse'
  have hTexts : a.text.toList.takeWhile (· ≠ '+') = b.text.toList.takeWhile (· ≠ '+') := by
    rw [hText, hText']
    decide
  have hSame := (precedence_classes.2.2.2.2.2 _ _ a b hParse hParse').2 hTexts
  have hSize := fun hash => precedence_classes.2.2.2.2.1 hash [a, b] [b, a] (.swap b a [])
  exact ⟨a, b, hParse, hParse', hNe, hSame, hSize⟩

end Version

end Versioning
