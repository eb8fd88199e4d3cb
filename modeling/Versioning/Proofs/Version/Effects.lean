import Versioning.Proofs.Decimal.Successor
import Versioning.Proofs.Version.Assembly
import Versioning.Proofs.Version.BuildOrder
import Versioning.Proofs.Version.Increments

/-!
# What a change does to the orders

Each change moves a version in one direction. A release that is started comes
after the version, since its core does, and this is so even for its pre-releases.
Counting a pre-release on leaves the core and moves the version up, but not past
the release; counting a build on moves it up among versions of one precedence.

Counting a tag on makes it greater for one of two reasons (`Tag.rank_lt_rank_increment`):
the last identifier is a number and becomes a greater one, or the tag gets longer.
In terms of ranks both are the same step, from a list to one that goes on from a
common beginning with something greater.

## Main results

* `Core.increment?_eq_some_iff`, `Core.increment?_eq_none_iff` — when there is a next core, and
  which one it is.
* `Tag.compare_increment` — counting a tag on makes it greater.
* `effects_of_changes` — when a change fails, what it keeps and where it moves a version.
-/

namespace Versioning

/-! ## The next core -/

namespace Core

variable {a b : Core} {p : Place}

/-- A core comes next after another at a place: one more there, zeros behind it, and all else as
it was. -/
structure NextAt (p : Place) (a b : Core) : Prop where
  kept : ∀ q, q.index < p.index → b.get q = a.get q
  increased : (b.get p).value = (a.get p).value + 1
  zeroed : ∀ q, p.index < q.index → b.get q = 0

theorem get_startAt (a : Core) (p q : Place) (n : Component) :
    (a.startAt p n).get q =
      if q.index < p.index then a.get q else if q = p then n else 0 := by
  cases p <;> cases q <;> rfl

/-- The places of a core tell it apart from others. -/
theorem eq_of_get (hSame : ∀ q, a.get q = b.get q) : a = b :=
  Core.ext (hSame .major) (hSame .minor) (hSame .build) (hSame .subBuild)

/-- Incrementing gives the next core and no other. -/
theorem increment?_eq_some_iff : a.increment? p = some b ↔ NextAt p a b := by
  unfold increment?
  rw [Option.map_eq_some_iff]
  constructor
  · rintro ⟨n, hSucc, rfl⟩
    refine ⟨fun q hBefore => ?_, ?_, fun q hBehind => ?_⟩
    · rw [get_startAt, if_pos hBefore]
    · rw [get_startAt, if_neg (Nat.lt_irrefl _), if_pos rfl]
      exact Component.ofNat?_eq_some_iff.1 hSucc
    · have hOther : q ≠ p := by
        rintro rfl
        exact Nat.lt_irrefl _ hBehind
      rw [get_startAt, if_neg (Nat.lt_asymm hBehind), if_neg hOther]
  · rintro ⟨hKept, hIncreased, hZeroed⟩
    refine ⟨b.get p, Component.ofNat?_eq_some_iff.2 hIncreased, eq_of_get fun q => ?_⟩
    rw [get_startAt]
    split
    · rename_i hBefore
      exact (hKept q hBefore).symm
    · rename_i hNot
      split
      · rename_i hSame
        rw [hSame]
      · rename_i hOther
        refine (hZeroed q (Nat.lt_of_le_of_ne (Nat.le_of_not_lt hNot) fun hIndex => ?_)).symm
        exact hOther (Place.eq_of_index_eq hIndex.symm)

/-- There is no next core just where the component is the largest. -/
theorem increment?_eq_none_iff : a.increment? p = none ↔ (a.get p).value = Component.maximum := by
  have hBound : (a.get p).value ≤ Component.maximum := (a.get p).le_maximum
  unfold increment? Component.succ?
  rw [Option.map_eq_none_iff, Component.ofNat?_eq_none_iff]
  omega

theorem increment_eq_error_iff {e : ChangeError} :
    a.increment p = .error e ↔ (a.get p).value = Component.maximum ∧ e = .atMaximum p := by
  rw [← increment?_eq_none_iff]
  unfold increment
  cases a.increment? p with
  | none => simp [eq_comm]
  | some b => simp

/-- There is no next core or there is one. -/
theorem exists_increment_eq_ok_iff :
    (∃ b, a.increment p = .ok b) ↔ (a.get p).value ≠ Component.maximum := by
  simp only [increment_eq_ok_iff]
  rw [Ne, ← increment?_eq_none_iff, ← Option.ne_none_iff_exists']

theorem NextAt.lt (hNext : NextAt p a b) : a < b :=
  lt_increment? (increment?_eq_some_iff.2 hNext)

end Core

/-! ## The next tag -/

theorem Identifier.rank_ofDigits (r : Text.Run Char.isDigit) :
    (ofDigits r).rank = Sum.inlₗ (Decimal.value r.chars) :=
  if_pos (List.all_eq_true.2 r.all_mem)

theorem Identifier.eq_ofDigits {i : Identifier} {r : Text.Run Char.isDigit}
    (hDigits : i.digits? = some r) : i = ofDigits r := by
  unfold digits? at hDigits
  split at hDigits
  · cases hDigits
    rfl
  · cases hDigits

/-- **Counting on goes up**: a number becomes the next one, and anything else is followed by one
more identifier. -/
theorem Tag.rank_lt_rank_increment (t : Tag) : t.rank < t.increment.rank := by
  unfold increment
  split
  · -- The tags agree in front of the number, which decides.
    rename_i r hLast
    have hSplit := List.dropLast_concat_getLast t.ne_nil
    rw [Identifier.eq_ofDigits hLast] at hSplit
    have hRank : t.rank =
        t.identifiers.dropLast.map Identifier.rank ++ [Sum.inlₗ (Decimal.value r.chars)] := by
      rw [← Identifier.rank_ofDigits, ← List.map_singleton, ← List.map_append, hSplit]
      rfl
    have hNumber : Sum.inlₗ (Decimal.value r.chars) <
        (Sum.inlₗ (Decimal.value (Decimal.next r).chars) : IdentifierRank) := by
      rw [Decimal.value_next]
      exact Sum.Lex.inl_strictMono (Nat.lt_succ_self _)
    rw [hRank, rank, List.map_append, List.map_singleton, Identifier.rank_ofDigits]
    exact List.Lex.append_left _ (.rel hNumber) _
  · -- The tags agree as far as the first one goes.
    have hLonger : List.Lex (· < ·) ([] : List IdentifierRank) [(Identifier.ofNat 1).rank] := .nil
    have hAppended := hLonger.append_left _ t.rank
    rw [List.append_nil] at hAppended
    show t.rank < (t.identifiers ++ [Identifier.ofNat 1]).map Identifier.rank
    rw [List.map_append]
    exact hAppended

theorem Tag.compare_increment (t : Tag) : compare t t.increment = .lt :=
  (compares_rank t t.increment).eq_lt.2 t.rank_lt_rank_increment

/-! ## Where a version moves -/

namespace Version

open Outcome

variable {v w : Version} {p : Place} {s : String}

theorem lt_of_core_lt (hCore : v.core < w.core) : v < w := by
  show (compare v.core w.core).then (comparePreRelease v.preRelease w.preRelease) = .lt
  exact Ordering.then_eq_lt.2 (.inl hCore)

/-- Among versions of one core, pre-releases decide. -/
theorem lt_of_preRelease_lt {t u : Tag} (hCore : w.core = v.core) (hFrom : v.preRelease = some t)
    (hTo : w.preRelease = some u) (hTags : compare t u = .lt) : v < w := by
  show (compare v.core w.core).then (comparePreRelease v.preRelease w.preRelease) = .lt
  rw [hCore, hFrom, hTo]
  exact Ordering.then_eq_lt.2 (.inr ⟨Core.compare_eq_eq.2 rfl, hTags⟩)

/-- The build has no part in precedence. -/
theorem samePrecedence_of_parts (hCore : w.core = v.core) (hTag : w.preRelease = v.preRelease) :
    v.samePrecedence w = true := by
  rw [samePrecedence_iff_key_eq, key, key, hCore, hTag]

/-- A version starts a release after another: its core comes next at a place, of the tags it has
just the pre-release of a text, or none, and it comes later in precedence. -/
structure StartsRelease (p : Place) (preRelease : Option String) (v w : Version) : Prop where
  core : Core.NextAt p v.core w.core
  preRelease : w.preRelease.map Tag.text = preRelease
  build : w.build = none
  later : v < w

theorem startsRelease_of_increment (hNext : v.increment p = .ok w) :
    StartsRelease p none v w := by
  obtain ⟨c, hCore, rfl⟩ := increment_eq_ok_iff.1 hNext
  have hNextAt := Core.increment?_eq_some_iff.1 hCore
  exact ⟨hNextAt, rfl, rfl, lt_of_core_lt hNextAt.lt⟩

theorem startsRelease_of_incrementTo (hNext : v.incrementTo p s = .ok w) :
    StartsRelease p (some s) v w := by
  obtain ⟨c, hCore, h⟩ := bind_eq_ok_iff.1 hNext
  obtain ⟨t, hGiven, h⟩ := bind_eq_ok_iff.1 h
  cases h
  have hNextAt := Core.increment?_eq_some_iff.1 (Core.increment_eq_ok_iff.1 hCore)
  have hText := (Tag.parse_eq_ok_iff_text.1 (Tag.given_eq_ok_iff.1 hGiven)).1
  exact ⟨hNextAt, congrArg some hText.symm, rfl, lt_of_core_lt hNextAt.lt⟩

theorem increment_eq_error_iff {e : ChangeError} :
    v.increment p = .error e ↔ (v.core.get p).value = Component.maximum ∧ e = .atMaximum p := by
  rw [← Core.increment_eq_error_iff, increment, bind_eq_error_iff]
  constructor
  · rintro (hCore | ⟨c, -, h⟩)
    · exact hCore
    · cases h
  · exact .inl

/-- The text is looked at only if there is a next core. -/
theorem incrementTo_eq_error_iff {e : ChangeError} :
    v.incrementTo p s = .error e ↔
      (v.core.get p).value = Component.maximum ∧ e = .atMaximum p ∨
      (v.core.get p).value ≠ Component.maximum ∧
        ∃ fault, Tag.parse .preRelease s = .error fault ∧ e = .literal fault := by
  rw [incrementTo, bind_eq_error_iff, Core.increment_eq_error_iff]
  -- What is left is the case in which the core has been incremented.
  refine or_congr_right ?_
  rw [← Core.exists_increment_eq_ok_iff]
  constructor
  · rintro ⟨c, hCore, hTag⟩
    rcases bind_eq_error_iff.1 hTag with hGiven | ⟨t, -, h⟩
    · exact ⟨⟨c, hCore⟩, Tag.given_eq_error_iff.1 hGiven⟩
    · cases h
  · rintro ⟨⟨c, hCore⟩, hFault⟩
    exact ⟨c, hCore, bind_eq_error_iff.2 (.inl (Tag.given_eq_error_iff.2 hFault))⟩

theorem incrementPreRelease_eq_error_iff {e : ChangeError} :
    v.incrementPreRelease = .error e ↔ v.preRelease = none ∧ e = .absent .preRelease := by
  unfold incrementPreRelease
  cases v.preRelease <;> simp [eq_comm]

theorem incrementBuild_eq_error_iff {e : ChangeError} :
    v.incrementBuild = .error e ↔ v.build = none ∧ e = .absent .build := by
  unfold incrementBuild
  cases v.build <;> simp [eq_comm]

theorem incrementPreRelease_eq_ok_iff :
    v.incrementPreRelease = .ok w ↔
      ∃ t, v.preRelease = some t ∧ w = { core := v.core, preRelease := some t.increment } := by
  unfold incrementPreRelease
  cases v.preRelease <;> simp [eq_comm]

theorem incrementBuild_eq_ok_iff :
    v.incrementBuild = .ok w ↔
      ∃ t, v.build = some t ∧ w = { v with build := some t.increment } := by
  unfold incrementBuild
  cases v.build <;> simp [eq_comm]

/-- What counting a pre-release on leaves and where it moves: up, but not past the release. -/
theorem between_of_incrementPreRelease (hNext : v.incrementPreRelease = .ok w) :
    w.core = v.core ∧ w.build = none ∧ v < w ∧ w < (v.core : Version) := by
  obtain ⟨t, hTag, rfl⟩ := incrementPreRelease_eq_ok_iff.1 hNext
  exact ⟨rfl, rfl, lt_of_preRelease_lt rfl hTag rfl t.compare_increment,
    lt_release_iff.2 (.inr ⟨rfl, rfl⟩)⟩

/-- What counting a build on leaves and where it moves: up, in the build-aware order only. -/
theorem later_build_of_incrementBuild (hNext : v.incrementBuild = .ok w) :
    w.core = v.core ∧ w.preRelease = v.preRelease ∧ v.samePrecedence w = true ∧
      compareWithBuild v w = .lt := by
  obtain ⟨t, hBuild, rfl⟩ := incrementBuild_eq_ok_iff.1 hNext
  have hSame : v.samePrecedence { v with build := some t.increment } = true :=
    samePrecedence_of_parts rfl rfl
  refine ⟨rfl, rfl, hSame, ?_⟩
  rw [compareWithBuild_of_samePrecedence hSame, hBuild]
  exact t.compare_increment

theorem samePrecedence_of_withBuild (hGiven : v.withBuild s = .ok w) :
    v.samePrecedence w = true := by
  obtain ⟨t, -, h⟩ := bind_eq_ok_iff.1 hGiven
  cases h
  exact samePrecedence_of_parts rfl rfl

/-- **The effects of changes.** A component is incremented unless it is the largest, which is
found out before a text for the pre-release is read; the version then starts a later release. A tag
is counted on just if there is one. A pre-release that is counted on comes later and still before its
release. A build that is counted on comes later among versions of the same precedence, and one that
is replaced is of the same precedence too. -/
theorem effects_of_changes (v : Version) :
    (∀ (p : Place) (e : ChangeError), v.increment p = .error e ↔
        (v.core.get p).value = Component.maximum ∧ e = .atMaximum p) ∧
      (∀ (p : Place) (w : Version), v.increment p = .ok w → StartsRelease p none v w) ∧
      (∀ (p : Place) (s : String) (e : ChangeError), v.incrementTo p s = .error e ↔
        (v.core.get p).value = Component.maximum ∧ e = .atMaximum p ∨
        (v.core.get p).value ≠ Component.maximum ∧
          ∃ fault, Tag.parse .preRelease s = .error fault ∧ e = .literal fault) ∧
      (∀ (p : Place) (s : String) (w : Version), v.incrementTo p s = .ok w →
        StartsRelease p (some s) v w) ∧
      (∀ e : ChangeError, v.incrementPreRelease = .error e ↔
        v.preRelease = none ∧ e = .absent .preRelease) ∧
      (∀ w : Version, v.incrementPreRelease = .ok w →
        w.core = v.core ∧ w.build = none ∧ v < w ∧ w < (v.core : Version)) ∧
      (∀ e : ChangeError, v.incrementBuild = .error e ↔
        v.build = none ∧ e = .absent .build) ∧
      (∀ w : Version, v.incrementBuild = .ok w →
        w.core = v.core ∧ w.preRelease = v.preRelease ∧ v.samePrecedence w = true ∧
          compareWithBuild v w = .lt) ∧
      ∀ (s : String) (w : Version), v.withBuild s = .ok w → v.samePrecedence w = true :=
  ⟨fun _ _ => increment_eq_error_iff, fun _ _ => startsRelease_of_increment,
    fun _ _ _ => incrementTo_eq_error_iff, fun _ _ _ => startsRelease_of_incrementTo,
    fun _ => incrementPreRelease_eq_error_iff, fun _ => between_of_incrementPreRelease,
    fun _ => incrementBuild_eq_error_iff, fun _ => later_build_of_incrementBuild,
    fun _ _ => samePrecedence_of_withBuild⟩

/-- The minor number is the largest, which is found out before the text is: no minor release comes
next, whatever is to be its pre-release. The next major release is within reach, and a nine that is
counted on is followed by a ten, in the pre-release as in the build. -/
theorem effects_at_largest_minor :
    ∃ v a b c d f : Version, v.text = "1.18446744073709551615.0.4-rc.9+9" ∧
      v.increment .minor = .error (.atMaximum .minor) ∧
      v.incrementTo .minor "$" = .error (.atMaximum .minor) ∧
      v.increment .major = .ok a ∧ a.text = "2.0.0.0" ∧ StartsRelease .major none v a ∧
      v.incrementTo .build "x-1" = .ok b ∧ b.text = "1.18446744073709551615.1.0-x-1" ∧
      StartsRelease .build (some "x-1") v b ∧
      v.incrementPreRelease = .ok c ∧ c.text = "1.18446744073709551615.0.4-rc.10" ∧
      v < c ∧ c < (v.core : Version) ∧
      v.incrementBuild = .ok d ∧ d.text = "1.18446744073709551615.0.4-rc.9+10" ∧
      v.samePrecedence d = true ∧ compareWithBuild v d = .lt ∧
      v.withBuild "007" = .ok f ∧ f.text = "1.18446744073709551615.0.4-rc.9+007" ∧
      v.samePrecedence f = true := by
  let v : Version :=
    ⟨⟨⟨1, by decide⟩, ⟨18446744073709551615, by decide⟩, 0, ⟨4, by decide⟩⟩,
      some (.cons ⟨['r', 'c'], by decide, List.all_eq_true.1 rfl⟩ (.singleton (.ofNat 9))),
      some (.singleton (.ofNat 9))⟩
  have hChanged : ∃ a b c d f : Version, v.increment .major = .ok a ∧ a.text = "2.0.0.0" ∧
      v.incrementTo .build "x-1" = .ok b ∧ b.text = "1.18446744073709551615.1.0-x-1" ∧
      v.incrementPreRelease = .ok c ∧ c.text = "1.18446744073709551615.0.4-rc.10" ∧
      v.incrementBuild = .ok d ∧ d.text = "1.18446744073709551615.0.4-rc.9+10" ∧
      v.withBuild "007" = .ok f ∧ f.text = "1.18446744073709551615.0.4-rc.9+007" :=
    ⟨_, ⟨⟨⟨1, by decide⟩, ⟨18446744073709551615, by decide⟩, ⟨1, by decide⟩, 0⟩,
        some (.singleton ⟨['x', '-', '1'], by decide, List.all_eq_true.1 rfl⟩), none⟩, _, _,
      { v with build := some (.singleton ⟨['0', '0', '7'], by decide, List.all_eq_true.1 rfl⟩) },
      rfl, by decide, by decide +kernel, by decide, rfl, by decide, rfl, by decide,
      by decide +kernel, by decide⟩
  obtain ⟨a, b, c, d, f, hMajor, hMajorText, hBuild, hBuildText, hTag, hTagText, hCounted,
    hCountedText, hReplaced, hReplacedText⟩ := hChanged
  obtain ⟨hFails, hStarts, hFailsTo, hStartsTo, -, hBetween, -, hLater, hKept⟩ :=
    effects_of_changes v
  obtain ⟨-, -, hUp, hBelow⟩ := hBetween c hTag
  obtain ⟨-, -, hSame, hAfter⟩ := hLater d hCounted
  exact ⟨v, a, b, c, d, f, by decide, (hFails .minor _).2 ⟨rfl, rfl⟩,
    (hFailsTo .minor "$" _).2 (.inl ⟨rfl, rfl⟩), hMajor, hMajorText, hStarts _ a hMajor, hBuild,
    hBuildText, hStartsTo _ _ b hBuild, hTag, hTagText, hUp, hBelow, hCounted, hCountedText, hSame,
    hAfter, hReplaced, hReplacedText, hKept _ f hReplaced⟩

end Version

end Versioning
