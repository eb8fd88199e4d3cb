import Versioning.Proofs.Version.Precedence
import Versioning.Range.Basic

/-!
# Equal ranges admit equal versions

Ranges and versions are equal for more than one text each: build tags and leading
zeros of numeric identifiers do not count in precedence. A range looks at a
version only to compare it with its operands (`admits_eq_of_compare`), and
comparing gives the same for versions of the same precedence, on either side
(`Version.compare_congr`). So it makes no difference which of several equal ranges
is asked about which of several equal versions.
-/

namespace Versioning

/-- Versions have one precedence just if they have one rank. -/
theorem Version.samePrecedence_iff_rank_eq {a b : Version} :
    a.samePrecedence b = true ↔ a.rank = b.rank := by
  rw [samePrecedence, beq_iff_eq, compare_eq_cmp_rank, cmp_eq_eq_iff]

/-- Versions of one precedence compare alike, on both sides. -/
theorem Version.compare_congr {a a' b b' : Version} (hLeft : a.samePrecedence a' = true)
    (hRight : b.samePrecedence b' = true) : compare a b = compare a' b' := by
  rw [compare_eq_cmp_rank, compare_eq_cmp_rank, samePrecedence_iff_rank_eq.1 hLeft,
    samePrecedence_iff_rank_eq.1 hRight]

namespace Range

variable {v w : Version}

/-- A range tells no versions apart that compare alike with its operands. By induction on the
range; an operator looks at the outcome of one comparison. -/
theorem admits_eq_of_compare {e : Range} (hAlike : ∀ o ∈ e.operands, compare v o = compare w o) :
    e.admits v = e.admits w := by
  induction e with
  | and l r ihLeft ihRight =>
      obtain ⟨hLeft, hRight⟩ := List.forall_mem_append.1 hAlike
      show (l.admits v && r.admits v) = (l.admits w && r.admits w)
      rw [ihLeft hLeft, ihRight hRight]
  | or l r ihLeft ihRight =>
      obtain ⟨hLeft, hRight⟩ := List.forall_mem_append.1 hAlike
      show (l.admits v || r.admits v) = (l.admits w || r.admits w)
      rw [ihLeft hLeft, ihRight hRight]
  | not e ih =>
      show (!e.admits v) = !e.admits w
      rw [ih hAlike]
  | comparison op o =>
      show op.holds v o = op.holds w o
      rw [op.holds_eq_accepts, op.holds_eq_accepts, hAlike o (List.mem_singleton_self o)]

/-- Equal ranges, asked about one version, answer alike. By induction on one of them, which
fixes the shape of the other. -/
theorem admits_eq_of_same {e f : Range} (hSame : e.same f = true) (v : Version) :
    e.admits v = f.admits v := by
  induction e generalizing f with
  | and l r ihLeft ihRight =>
      cases f with
      | and l' r' =>
          obtain ⟨hLeft, hRight⟩ := Bool.and_eq_true_iff.1 hSame
          show (l.admits v && r.admits v) = (l'.admits v && r'.admits v)
          rw [ihLeft hLeft, ihRight hRight]
      | _ => cases hSame
  | or l r ihLeft ihRight =>
      cases f with
      | or l' r' =>
          obtain ⟨hLeft, hRight⟩ := Bool.and_eq_true_iff.1 hSame
          show (l.admits v || r.admits v) = (l'.admits v || r'.admits v)
          rw [ihLeft hLeft, ihRight hRight]
      | _ => cases hSame
  | not e ih =>
      cases f with
      | not f =>
          show (!e.admits v) = !f.admits v
          rw [ih hSame]
      | _ => cases hSame
  | comparison op o =>
      cases f with
      | comparison op' o' =>
          obtain ⟨hOperator, hOperand⟩ := Bool.and_eq_true_iff.1 hSame
          obtain rfl : op = op' := of_decide_eq_true hOperator
          have hSelf : v.samePrecedence v = true := Version.samePrecedence_iff_rank_eq.2 rfl
          show op.holds v o = op.holds v o'
          rw [op.holds_eq_accepts, op.holds_eq_accepts, Version.compare_congr hSelf hOperand]
      | _ => cases hSame

/-- **Equal ranges admit equal versions.** Ranges of one shape whose operands have the same
precedence, each to each, answer alike about versions of the same precedence; and all that a
range looks at is how a version compares with its operands. -/
theorem admits_congr :
    (∀ (e f : Range) (v w : Version), e.same f = true → v.samePrecedence w = true →
      e.admits v = f.admits w) ∧
    ∀ (e : Range) (v w : Version), (∀ o ∈ e.operands, compare v o = compare w o) →
      e.admits v = e.admits w := by
  refine ⟨fun e f v w hSame hEqual => ?_, fun e v w => admits_eq_of_compare⟩
  have hOperand : ∀ o : Version, o.samePrecedence o = true :=
    fun o => Version.samePrecedence_iff_rank_eq.2 rfl
  calc
    e.admits v = f.admits v := admits_eq_of_same hSame v
    _ = f.admits w := admits_eq_of_compare fun o _ => Version.compare_congr hEqual (hOperand o)

/-- The texts differ in build tags and in leading zeros, and that makes no difference: one version is
admitted in both spellings, and another one is refused in both. -/
theorem admits_of_leading_zeros :
    ∃ (e f : Range) (v w x y : Version), e.text = ">=1.0.0.0-rc.7" ∧
      f.text = ">=1.0.0.0-rc.007" ∧ v.text = "1.0.0.0-rc.08+b" ∧ w.text = "1.0.0.0-rc.8" ∧
      x.text = "1.0.0.0-rc.06+b" ∧ y.text = "1.0.0.0-rc.6" ∧ e.same f = true ∧
      v.samePrecedence w = true ∧ x.samePrecedence y = true ∧ e.admits v = true ∧
      f.admits w = true ∧ f.admits v = true ∧ e.admits x = false ∧ f.admits y = false ∧
      f.admits x = false := by
  have hChoice : ∃ (e f : Range) (v w x y : Version), e.text = ">=1.0.0.0-rc.7" ∧
      f.text = ">=1.0.0.0-rc.007" ∧ v.text = "1.0.0.0-rc.08+b" ∧ w.text = "1.0.0.0-rc.8" ∧
      x.text = "1.0.0.0-rc.06+b" ∧ y.text = "1.0.0.0-rc.6" ∧ e.same f = true ∧
      v.samePrecedence w = true ∧ x.samePrecedence y = true ∧ e.admits v = true ∧
      e.admits x = false ∧ (∀ o ∈ f.operands, compare v o = compare w o) ∧
      ∀ o ∈ f.operands, compare x o = compare y o := by
    let candidate (number : Identifier) (build : Option Tag) : Version :=
      ⟨⟨⟨1, by decide⟩, 0, 0, 0⟩,
        some (.cons ⟨['r', 'c'], by decide, List.all_eq_true.1 rfl⟩ (.singleton number)), build⟩
    let built : Option Tag := some (.singleton ⟨['b'], by decide, List.all_eq_true.1 rfl⟩)
    exact ⟨.comparison .ge (candidate (.ofNat 7) none),
      .comparison .ge (candidate ⟨['0', '0', '7'], by decide, List.all_eq_true.1 rfl⟩ none),
      candidate ⟨['0', '8'], by decide, List.all_eq_true.1 rfl⟩ built, candidate (.ofNat 8) none,
      candidate ⟨['0', '6'], by decide, List.all_eq_true.1 rfl⟩ built, candidate (.ofNat 6) none,
      by decide, by decide, by decide, by decide, by decide, by decide, by decide, by decide,
      by decide, by decide, by decide, by decide, by decide⟩
  obtain ⟨e, f, v, w, x, y, hSeven, hPadded, hBuilt, hPlain, hBuilt', hPlain', hSame, hEqual,
    hEqual', hAdmits, hRefuses, hAlike, hAlike'⟩ := hChoice
  have hOther : f.admits w = true := (admits_congr.1 e f v w hSame hEqual).symm.trans hAdmits
  have hOther' : f.admits y = false := (admits_congr.1 e f x y hSame hEqual').symm.trans hRefuses
  have hBack : f.admits v = true := (admits_congr.2 f v w hAlike).trans hOther
  have hBack' : f.admits x = false := (admits_congr.2 f x y hAlike').trans hOther'
  exact ⟨e, f, v, w, x, y, hSeven, hPadded, hBuilt, hPlain, hBuilt', hPlain', hSame, hEqual,
    hEqual', hAdmits, hOther, hBack, hRefuses, hOther', hBack'⟩

end Range

end Versioning
