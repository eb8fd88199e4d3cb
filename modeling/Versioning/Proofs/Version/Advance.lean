import Versioning.Proofs.Version.Order
import Versioning.Version.Change

/-!
# Which place a run of changes advances

`Core.advance?` compares the two ends of a run and knows nothing of the steps
between them. A step may zero what earlier steps have counted up, so the digits
of the ends tell little about the steps; the place at which they first differ
tells all that is claimed here. It is never lost again: what a later step does at
a less significant place leaves it, and a later step at a more significant place
takes over (`Core.advance?_eq_lead`). By induction on the run, the place of the
whole run is the most significant one of those that were incremented.
-/

namespace Versioning

/-! ## The more significant place -/

namespace Place

/-- Places with the same number of more significant ones are the same. -/
theorem eq_of_index_eq {p q : Place} (hIndex : p.index = q.index) : p = q := by
  have hSame : ofIndex? p.index = ofIndex? q.index := congrArg _ hIndex
  rw [ofIndex?_index, ofIndex?_index] at hSame
  exact Option.some.inj hSame

/-- The first place that satisfies a test is found if none before it does. -/
theorem find?_all_eq_some {test : Place → Bool} {p : Place} (hTest : test p = true)
    (hBefore : ∀ q, q.index < p.index → test q = false) : all.find? test = some p := by
  cases p with
  | major => simp [all, hTest]
  | minor => simp [all, hTest, hBefore .major (by decide)]
  | build => simp [all, hTest, hBefore .major (by decide), hBefore .minor (by decide)]
  | subBuild =>
      simp [all, hTest, hBefore .major (by decide), hBefore .minor (by decide),
        hBefore .build (by decide)]

/-- The more significant of two places; no place is less significant than any. -/
def lead : Option Place → Option Place → Option Place
  | none, q => q
  | some p, none => some p
  | some p, some q => if p.index ≤ q.index then some p else some q

/-- The most significant of some places, if there are any. -/
def foremost (ps : List Place) : Option Place := ps.foldr (fun p => lead (some p)) none

theorem foremost_eq_none_iff {ps : List Place} : foremost ps = none ↔ ps = [] := by
  cases ps with
  | nil => exact iff_of_true rfl rfl
  | cons p ps =>
      refine iff_of_false ?_ (List.cons_ne_nil p ps)
      show lead (some p) (foremost ps) ≠ none
      unfold lead
      split
      · contradiction
      · exact Option.some_ne_none _
      · split <;> exact Option.some_ne_none _

/-- What is found is one of the places, and none of them is more significant. -/
theorem mem_and_le_of_foremost {ps : List Place} {p : Place} (hFirst : foremost ps = some p) :
    p ∈ ps ∧ ∀ q ∈ ps, p.index ≤ q.index := by
  induction ps generalizing p with
  | nil => cases hFirst
  | cons r ps ih =>
      replace hFirst : lead (some r) (foremost ps) = some p := hFirst
      cases hRest : foremost ps with
      | none =>
          rw [hRest] at hFirst
          cases hFirst
          rw [foremost_eq_none_iff.1 hRest]
          simp
      | some s =>
          obtain ⟨hMem, hLeast⟩ := ih hRest
          rw [hRest] at hFirst
          by_cases hLe : r.index ≤ s.index
          · obtain rfl : r = p := Option.some.inj ((if_pos hLe).symm.trans hFirst)
            refine ⟨by simp, fun q hOther => ?_⟩
            rcases List.mem_cons.1 hOther with rfl | hOther
            · exact Nat.le_refl _
            · exact Nat.le_trans hLe (hLeast q hOther)
          · obtain rfl : s = p := Option.some.inj ((if_neg hLe).symm.trans hFirst)
            refine ⟨by simp [hMem], fun q hOther => ?_⟩
            rcases List.mem_cons.1 hOther with rfl | hOther
            · omega
            · exact hLeast q hOther

theorem foremost_eq_some_iff {ps : List Place} {p : Place} :
    foremost ps = some p ↔ p ∈ ps ∧ ∀ q ∈ ps, p.index ≤ q.index := by
  refine ⟨mem_and_le_of_foremost, ?_⟩
  rintro ⟨hMem, hLeast⟩
  cases hFirst : foremost ps with
  | none =>
      rw [foremost_eq_none_iff.1 hFirst] at hMem
      cases hMem
  | some s =>
      obtain ⟨hMem', hLeast'⟩ := mem_and_le_of_foremost hFirst
      rw [eq_of_index_eq (Nat.le_antisymm (hLeast' p hMem) (hLeast s hMem'))]

end Place

namespace Core

variable {a b c : Core} {p q : Place}

/-! ## Being ahead at a place -/

/-- One core is ahead of another at a place: they agree on all more significant places. -/
def AheadAt (p : Place) (a b : Core) : Prop :=
  (∀ q, q.index < p.index → a.get q = b.get q) ∧ (a.get p).value < (b.get p).value

/-- What being ahead at each place says of the components. -/
theorem aheadAt_iff : AheadAt p a b ↔
    match p with
    | .major => a.major.value < b.major.value
    | .minor => a.major.value = b.major.value ∧ a.minor.value < b.minor.value
    | .build => a.major.value = b.major.value ∧ a.minor.value = b.minor.value ∧
        a.build.value < b.build.value
    | .subBuild => a.major.value = b.major.value ∧ a.minor.value = b.minor.value ∧
        a.build.value = b.build.value ∧ a.subBuild.value < b.subBuild.value := by
  have hForall : ∀ P : Place → Prop,
      (∀ q, P q) ↔ P .major ∧ P .minor ∧ P .build ∧ P .subBuild := by
    intro P
    refine ⟨fun h => ⟨h _, h _, h _, h _⟩, ?_⟩
    rintro ⟨hMajor, hMinor, hBuild, hSubBuild⟩ q
    cases q <;> assumption
  unfold AheadAt
  rw [hForall]
  cases p <;> simp [Place.index, get, Component.ext_iff, and_assoc]

/-- Cores are ordered by the first place at which they differ. -/
theorem lt_iff_exists_aheadAt : a < b ↔ ∃ p, AheadAt p a b := by
  rw [lt_iff]
  constructor
  · rintro (hMajor | ⟨hSame, hMinor | ⟨hSame', hBuild | ⟨hSame'', hSubBuild⟩⟩⟩)
    · exact ⟨.major, aheadAt_iff.2 hMajor⟩
    · exact ⟨.minor, aheadAt_iff.2 ⟨hSame, hMinor⟩⟩
    · exact ⟨.build, aheadAt_iff.2 ⟨hSame, hSame', hBuild⟩⟩
    · exact ⟨.subBuild, aheadAt_iff.2 ⟨hSame, hSame', hSame'', hSubBuild⟩⟩
  · rintro ⟨p, hAhead⟩
    rw [aheadAt_iff] at hAhead
    cases p <;> dsimp only at hAhead <;> omega

theorem advance?_of_aheadAt (hAhead : AheadAt p a b) : a.advance? b = some p := by
  have hDiffers : (a.get p != b.get p) = true := by
    rw [bne_iff_ne]
    intro hSame
    have hLt := hAhead.2
    rw [hSame] at hLt
    omega
  unfold advance?
  rw [if_pos (lt_iff_exists_aheadAt.2 ⟨p, hAhead⟩)]
  apply Place.find?_all_eq_some hDiffers
  intro q hBefore
  rw [hAhead.1 q hBefore, bne_self_eq_false]

theorem advance?_eq_none_iff : a.advance? b = none ↔ ¬ a < b := by
  constructor
  · intro hNone hLt
    obtain ⟨p, hAhead⟩ := lt_iff_exists_aheadAt.1 hLt
    rw [advance?_of_aheadAt hAhead] at hNone
    cases hNone
  · intro hNot
    exact if_neg hNot

theorem advance?_eq_some_iff : a.advance? b = some p ↔ AheadAt p a b := by
  refine ⟨fun hSome => ?_, advance?_of_aheadAt⟩
  have hLt : a < b := by
    refine Decidable.byContradiction fun hNot => ?_
    rw [advance?_eq_none_iff.2 hNot] at hSome
    cases hSome
  obtain ⟨q, hAhead⟩ := lt_iff_exists_aheadAt.1 hLt
  rw [advance?_of_aheadAt hAhead] at hSome
  cases hSome
  exact hAhead

/-! ## Two stretches of a run -/

/-- A later advance at a less significant place, or at the same, leaves the earlier one. -/
theorem AheadAt.trans_left (hFirst : AheadAt p a b) (hSecond : AheadAt q b c)
    (hLe : p.index ≤ q.index) : AheadAt p a c := by
  refine ⟨fun r hBefore => ?_, ?_⟩
  · rw [hFirst.1 r hBefore, hSecond.1 r (by omega)]
  · rcases Nat.lt_or_eq_of_le hLe with hLt | hEq
    · rw [← hSecond.1 p hLt]
      exact hFirst.2
    · rw [Place.eq_of_index_eq hEq] at hFirst ⊢
      exact Nat.lt_trans hFirst.2 hSecond.2

/-- A later advance at a more significant place takes over. -/
theorem AheadAt.trans_right (hFirst : AheadAt p a b) (hSecond : AheadAt q b c)
    (hLt : q.index < p.index) : AheadAt q a c := by
  refine ⟨fun r hBefore => ?_, ?_⟩
  · rw [hFirst.1 r (by omega), hSecond.1 r hBefore]
  · rw [hFirst.1 q hLt]
    exact hSecond.2

/-- **Advances of stretches**: from one core over a second to a third, none of them going back,
the whole way advances at the more significant of the places at which its two parts do. -/
theorem advance?_eq_lead (hFirst : a ≤ b) (hSecond : b ≤ c) :
    a.advance? c = Place.lead (a.advance? b) (b.advance? c) := by
  rcases le_iff_lt_or_eq.1 hFirst with hLt | rfl
  · rcases le_iff_lt_or_eq.1 hSecond with hLt' | rfl
    · obtain ⟨p, hAhead⟩ := lt_iff_exists_aheadAt.1 hLt
      obtain ⟨q, hAhead'⟩ := lt_iff_exists_aheadAt.1 hLt'
      rw [advance?_of_aheadAt hAhead, advance?_of_aheadAt hAhead']
      by_cases hLe : p.index ≤ q.index
      · rw [Place.lead, if_pos hLe]
        exact advance?_of_aheadAt (hAhead.trans_left hAhead' hLe)
      · rw [Place.lead, if_neg hLe]
        exact advance?_of_aheadAt (hAhead.trans_right hAhead' (by omega))
    · rw [advance?_eq_none_iff.2 (not_lt_self b)]
      cases a.advance? b <;> rfl
  · rw [advance?_eq_none_iff.2 (not_lt_self a)]
    rfl

/-- Incrementing a core puts it ahead at the place that is incremented. -/
theorem aheadAt_of_increment? (hNext : a.increment? p = some b) : AheadAt p a b := by
  obtain ⟨n, hSucc, rfl⟩ := Option.map_eq_some_iff.1 hNext
  have hValue : n.value = (a.get p).value + 1 := Component.ofNat?_eq_some_iff.1 hSucc
  rw [aheadAt_iff]
  cases p <;> simp only [get] at hValue <;> simp [startAt, hValue]

theorem increment_eq_ok_iff : a.increment p = .ok b ↔ a.increment? p = some b := by
  unfold increment
  cases a.increment? p <;> simp

end Core

/-! ## Runs of changes -/

/-- The place that a change increments, if it increments one. -/
def Change.place? : Change → Option Place
  | .increment p => some p
  | .incrementTo p _ => some p
  | .incrementPreRelease => none
  | .incrementBuild => none
  | .setPreRelease _ => none
  | .setBuild _ => none

/-- The places that a list of changes increments one after the other. A change that fails
increments none. -/
def Version.incremented (v : Version) : List Change → List Place
  | [] => []
  | c :: cs =>
    match v.apply c with
    | .ok w => c.place?.toList ++ w.incremented cs
    | .error _ => v.incremented cs

namespace Version

open Outcome

variable {v w : Version}

/-- **One change.** A change that succeeds increments the core at its place, and leaves the core
if it has none. -/
theorem core_of_apply {change : Change} (hApply : v.apply change = .ok w) :
    match change.place? with
    | some p => v.core.increment? p = some w.core
    | none => w.core = v.core := by
  cases change with
  | increment p =>
      obtain ⟨c, hNext, h⟩ := bind_eq_ok_iff.1 hApply
      cases h
      exact Core.increment_eq_ok_iff.1 hNext
  | incrementTo p s =>
      obtain ⟨c, hNext, h⟩ := bind_eq_ok_iff.1 hApply
      obtain ⟨t, -, h⟩ := bind_eq_ok_iff.1 h
      cases h
      exact Core.increment_eq_ok_iff.1 hNext
  | incrementPreRelease =>
      simp only [apply, incrementPreRelease] at hApply
      split at hApply
      · cases hApply
        rfl
      · cases hApply
  | incrementBuild =>
      simp only [apply, incrementBuild] at hApply
      split at hApply
      · cases hApply
        rfl
      · cases hApply
  | setPreRelease s =>
      obtain ⟨t, -, h⟩ := bind_eq_ok_iff.1 hApply
      cases h
      rfl
  | setBuild s =>
      obtain ⟨t, -, h⟩ := bind_eq_ok_iff.1 hApply
      cases h
      rfl

/-- A change that succeeds advances the core at its place, and never takes it back. -/
theorem advance?_of_apply {change : Change} (hApply : v.apply change = .ok w) :
    v.core ≤ w.core ∧ v.core.advance? w.core = change.place? := by
  have hCore := core_of_apply hApply
  cases hPlace : change.place? with
  | some p =>
      rw [hPlace] at hCore
      have hAhead := Core.aheadAt_of_increment? hCore
      have hLt : v.core < w.core := Core.lt_iff_exists_aheadAt.2 ⟨p, hAhead⟩
      exact ⟨Core.le_iff_lt_or_eq.2 (.inl hLt), Core.advance?_of_aheadAt hAhead⟩
  | none =>
      rw [hPlace] at hCore
      replace hCore : w.core = v.core := hCore
      rw [hCore]
      exact ⟨Core.le_iff_lt_or_eq.2 (.inr rfl),
        Core.advance?_eq_none_iff.2 (Core.not_lt_self v.core)⟩

/-- What a run of changes makes of the core, by induction on the run. -/
theorem advance?_run (v : Version) (changes : List Change) :
    v.core ≤ (v.run changes).core ∧
      v.core.advance? (v.run changes).core = Place.foremost (v.incremented changes) := by
  induction changes generalizing v with
  | nil =>
      exact ⟨Core.le_iff_lt_or_eq.2 (.inr rfl),
        Core.advance?_eq_none_iff.2 (Core.not_lt_self v.core)⟩
  | cons change changes ih =>
      unfold run incremented
      cases hApply : v.apply change with
      | error e => exact ih v
      | ok w =>
          obtain ⟨hStep, hPlace⟩ := advance?_of_apply hApply
          obtain ⟨hRest, hPlaces⟩ := ih w
          refine ⟨Core.le_trans hStep hRest, ?_⟩
          dsimp only
          rw [Core.advance?_eq_lead hStep hRest, hPlace, hPlaces]
          cases change.place? <;> rfl

/-- **Releases of a run**: the place at which a run of changes advances a version is the most
significant one that the run incremented, and it advances none if it incremented none. Of any
two stretches on which cores do not go back, the more significant advance is that of both
together. -/
theorem advance?_of_changes :
    (∀ (v : Version) (changes : List Change) (p : Place),
        v.core.advance? (v.run changes).core = some p ↔
          p ∈ v.incremented changes ∧ ∀ q ∈ v.incremented changes, p.index ≤ q.index) ∧
      (∀ (v : Version) (changes : List Change),
        v.core.advance? (v.run changes).core = none ↔ v.incremented changes = []) ∧
      ∀ a b c : Version, a.core ≤ b.core → b.core ≤ c.core →
        a.core.advance? c.core =
          Place.lead (a.core.advance? b.core) (b.core.advance? c.core) := by
  refine ⟨fun v changes p => ?_, fun v changes => ?_, fun a b c hFirst hSecond => ?_⟩
  · rw [(advance?_run v changes).2]
    exact Place.foremost_eq_some_iff
  · rw [(advance?_run v changes).2]
    exact Place.foremost_eq_none_iff
  · exact Core.advance?_eq_lead hFirst hSecond

/-- A run that sets a pre-release, fails to count on a build tag, and makes two releases is one to
the next minor release. That is no major one, but with a major release after it the way is. -/
theorem advance?_over_minor_to_major :
    ∃ (a b c : Version) (tags toMinor toMajor : List Change), a.text = "0.1.0.3" ∧
      b.text = "0.2.0.0-rc" ∧ c.text = "1.0.0.0" ∧
      tags = [.setPreRelease "rc", .incrementBuild] ∧
      toMinor = tags ++ [.increment .subBuild, .incrementTo .minor "rc"] ∧
      toMajor = [.incrementTo .major "$", .increment .major] ∧
      (a.run tags).text = "0.1.0.3-rc" ∧ a.core.advance? (a.run tags).core = none ∧
      a.run toMinor = b ∧ a.incremented toMinor = [.subBuild, .minor] ∧ b.run toMajor = c ∧
      a.core.advance? b.core = some .minor ∧ b.core.advance? c.core = some .major ∧
      a.core.advance? c.core = some .major := by
  let tags : List Change := [.setPreRelease "rc", .incrementBuild]
  let toMinor : List Change := tags ++ [.increment .subBuild, .incrementTo .minor "rc"]
  let toMajor : List Change := [.incrementTo .major "$", .increment .major]
  have hWay : ∃ a : Version, a.text = "0.1.0.3" ∧ (a.run toMinor).text = "0.2.0.0-rc" ∧
      ((a.run toMinor).run toMajor).text = "1.0.0.0" ∧ (a.run tags).text = "0.1.0.3-rc" ∧
      a.incremented tags = [] ∧ a.incremented toMinor = [.subBuild, .minor] ∧
      (a.run toMinor).incremented toMajor = [.major] :=
    ⟨⟨⟨0, ⟨1, by decide⟩, 0, ⟨3, by decide⟩⟩, none, none⟩, by decide, by decide +kernel,
      by decide +kernel, by decide +kernel, by decide +kernel, by decide +kernel, by decide +kernel⟩
  obtain ⟨a, hFrom, hOver, hTo, hTagged, hNone, hTwo, hOne⟩ := hWay
  obtain ⟨hPlace, hStill, hLead⟩ := advance?_of_changes
  have hTags := (hStill a tags).2 hNone
  have hMinor := (hPlace a toMinor .minor).2 (by rw [hTwo]; decide)
  have hMajor := (hPlace (a.run toMinor) toMajor .major).2 (by rw [hOne]; decide)
  have hBoth := hLead a (a.run toMinor) ((a.run toMinor).run toMajor) (advance?_run a toMinor).1
    (advance?_run (a.run toMinor) toMajor).1
  rw [hMinor, hMajor] at hBoth
  exact ⟨a, _, _, tags, toMinor, toMajor, hFrom, hOver, hTo, rfl, rfl, rfl, hTagged, hTags, rfl,
    hTwo, rfl, hMinor, hMajor, hBoth⟩

end Version

end Versioning
