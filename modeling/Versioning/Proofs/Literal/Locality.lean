import Versioning.Proofs.Literal.Diagnostics

/-!
# What a fault depends on

Two texts agree up to the character that is found at a character fault of the
first. The second is refused too, since no literal starts so. Its fault is the same
if the search for a letter or hyphen finds the same behind that character
(`BreaksVersion.replace`). If not, lenient reading still breaks off at the same
character, and at most it says otherwise what could have started an identifier.
Strict reading may find a leading zero that the first text excused, and does so
before that character: up to a leading zero, and with a zero behind it, a text is
the beginning of a literal, so the zero cannot stand at the character or behind it.

## Main results

* `not_faultsAreLocal` — a fault does not depend on the text up to its character alone.
* `parseIn_error_depends_on` — what the rest of a text can change about its fault.
-/

namespace Versioning.Literal

variable {slot : Slot} {mode : Mode} {cause : Cause} {us us' rest rest' : List Char}

/-- Two causes are the same, or both say what could have started an identifier. -/
def Cause.Resembles (a b : Cause) : Prop :=
  a = b ∨ ∀ c ∈ [a, b], c = .unexpected [.digit] ∨ c = .unexpected CharClass.ofIdentifier

instance (a b : Cause) : Decidable (a.Resembles b) := inferInstanceAs (Decidable (_ ∨ _))

theorem Becomes.resembles {cause' : Cause} (hBecomes : Becomes slot rest rest' cause cause') :
    cause.Resembles cause' := by
  have hAwaited : ∀ us, Cause.unexpected (awaited slot us) = .unexpected [.digit] ∨
      Cause.unexpected (awaited slot us) = .unexpected CharClass.ofIdentifier := by
    intro us
    unfold awaited
    split
    · exact .inr rfl
    · exact .inl rfl
  rcases hBecomes with rfl | ⟨rfl, rfl⟩
  · exact .inl rfl
  · refine .inr (List.forall_mem_cons.2 ⟨hAwaited rest, ?_⟩)
    exact List.forall_mem_singleton.2 (hAwaited rest')

/-- Where the search finds the same, nothing becomes of a cause. -/
theorem Becomes.eq {cause' : Cause} (hBecomes : Becomes slot rest rest' cause cause')
    (hSearch : looksAlphanumeric slot rest = looksAlphanumeric slot rest') : cause' = cause := by
  rcases hBecomes with h | ⟨rfl, rfl⟩
  · exact h
  · rw [awaited, awaited, hSearch]

/-- A text that agrees with a refused one up to the character found there, cut at that character. -/
theorem exists_split_of_agree {cs : List Char} (hFound : rest.head? ≠ none)
    (hAgree : cs.take (us.length + 1) = (us ++ rest).take (us.length + 1)) :
    ∃ rest', cs = us ++ rest' ∧ rest.head? = rest'.head? := by
  obtain ⟨c, hHead⟩ := Option.ne_none_iff_exists'.1 hFound
  obtain ⟨vs, rfl⟩ := List.head?_eq_some_iff.1 hHead
  rw [List.take_length_add_append, List.take_succ_cons, List.take_zero] at hAgree
  refine ⟨c :: cs.drop (us.length + 1), ?_, rfl⟩
  have hSplit := List.take_append_drop (us.length + 1) cs
  rw [hAgree, List.append_assoc, List.singleton_append] at hSplit
  exact hSplit.symm

/-- Up to a leading zero, and with a zero behind it, a text is the beginning of a literal. -/
theorem BreaksVersion.isVersion_append_zero
    (hBreaks : BreaksVersion mode us .leadingZero rest) :
    ∃ rest', IsVersion mode (us ++ '0' :: rest') := by
  rcases hBreaks.allows with ⟨-, hAllows⟩ | ⟨-, hMisfit, -⟩
  · obtain ⟨zs, hHead, hVersion⟩ := hAllows .digit (List.mem_singleton_self _)
    obtain ⟨rest', rfl⟩ := List.head?_eq_some_iff.1 hHead
    exact ⟨rest', hVersion⟩
  · exact hMisfit.elim

/-- A leading zero in a text that agrees with another up to the character of a fault comes before
that character. -/
theorem BreaksVersion.length_lt {c : Char} {vs vs' : List Char} (hMisfit : cause.IsMisfit)
    (hBreaks : BreaksVersion mode us cause (c :: vs))
    (hZero : BreaksVersion mode us' .leadingZero rest) (hSame : us ++ c :: vs' = us' ++ rest) :
    us'.length < us.length := by
  by_contra hBehind
  have hPrefix : us <+: us' := by
    refine List.prefix_of_prefix_length_le (List.prefix_append us (c :: vs')) ?_
      (Nat.le_of_not_lt hBehind)
    rw [hSame]
    exact List.prefix_append us' rest
  obtain ⟨ws, rfl⟩ := hPrefix
  rw [List.append_assoc, List.append_cancel_left_eq] at hSame
  obtain ⟨zs, hVersion⟩ := hZero.isVersion_append_zero
  rw [List.append_assoc] at hVersion
  cases ws with
  | nil =>
      obtain ⟨d, ds, rfl, -⟩ := exists_cons_of_hasLeadingZero hZero.describes
      cases hSame
      exact hBreaks.not_isVersion_append hMisfit zs hVersion
  | cons w ws =>
      cases hSame
      exact hBreaks.not_isVersion_append hMisfit (ws ++ '0' :: zs) hVersion

end Versioning.Literal

namespace Versioning.Version

open Literal

variable {mode : Mode} {s t : String} {e : Literal.Error}

/-- Character faults depend on nothing but the text up to the character found. -/
def FaultsAreLocal (mode : Mode) : Prop :=
  ∀ (s t : String) (e : Literal.Error), parseIn mode s = .error e → e.cause.IsMisfit →
    e.found ≠ none → t.toList.take (e.position + 1) = s.toList.take (e.position + 1) →
    parseIn mode t = .error e

/-- In neither mode do they: a letter behind an illegal character changes what is said to have been
possible in its place. -/
theorem not_faultsAreLocal : ¬ FaultsAreLocal .strict ∧ ¬ FaultsAreLocal .lenient := by
  have hEach : ∀ mode, ¬ FaultsAreLocal mode := by
    intro mode hLocal
    have hSame := hLocal "1.0.0.0-a.$b" "1.0.0.0-a.$"
      ⟨.unexpected CharClass.ofIdentifier, 10, some '$'⟩ (by cases mode <;> decide +kernel) trivial
      (by decide) (by decide)
    revert hSame
    cases mode <;> decide +kernel
  exact ⟨hEach .strict, hEach .lenient⟩

/-- The rest of a text can change the fault found in it only by what the search for a letter or
hyphen finds there. -/
theorem parseIn_eq_error_of_agree (hError : parseIn mode s = .error e)
    (hMisfit : e.cause.IsMisfit) (hFound : e.found ≠ none)
    (hAgree : t.toList.take (e.position + 1) = s.toList.take (e.position + 1)) :
    (looksAlphanumeric (slotBehind (s.toList.take e.position)) (s.toList.drop e.position) =
        looksAlphanumeric (slotBehind (s.toList.take e.position)) (t.toList.drop e.position) →
      parseIn mode t = .error e) ∧
    (mode = .lenient → ∃ cause, parseIn mode t = .error { e with cause } ∧
      e.cause.Resembles cause) := by
  obtain ⟨us, rest, hText, hBreaks, hPosition, hRest⟩ := parseIn_eq_error_iff.1 hError
  rw [hRest] at hFound
  rw [hPosition, hText] at hAgree ⊢
  obtain ⟨rest', hText', hHead⟩ := exists_split_of_agree hFound hAgree
  rw [hText', List.take_left, List.drop_left, List.drop_left]
  refine ⟨fun hSearch => ?_, fun hLenient => ?_⟩
  · obtain ⟨cause', hBreaks', hBecomes⟩ := hBreaks.replace hHead hMisfit (.inr hSearch)
    rw [hBecomes.eq hSearch] at hBreaks'
    exact parseIn_eq_error_iff.2 ⟨us, rest', hText', hBreaks', hPosition, hRest.trans hHead⟩
  · obtain ⟨cause', hBreaks', hBecomes⟩ := hBreaks.replace hHead hMisfit (.inl hLenient)
    refine ⟨cause', ?_, hBecomes.resembles⟩
    exact parseIn_eq_error_iff.2 ⟨us, rest', hText', hBreaks', rfl, hRest.trans hHead⟩

/-- A leading zero in a text that agrees with a refused one up to the character found there comes
before that character. -/
theorem position_lt_of_leadingZero {e' : Literal.Error} (hError : parseIn mode s = .error e)
    (hMisfit : e.cause.IsMisfit) (hFound : e.found ≠ none)
    (hAgree : t.toList.take (e.position + 1) = s.toList.take (e.position + 1))
    (hError' : parseIn mode t = .error e') (hZero : e'.cause = .leadingZero) :
    e'.position < e.position := by
  obtain ⟨us, rest, hText, hBreaks, hPosition, hRest⟩ := parseIn_eq_error_iff.1 hError
  obtain ⟨us', rest', hText', hBreaks', hPosition', -⟩ := parseIn_eq_error_iff.1 hError'
  rw [hZero] at hBreaks'
  rw [hRest] at hFound
  rw [hPosition, hText] at hAgree
  obtain ⟨ws, hSplit, hHead⟩ := exists_split_of_agree hFound hAgree
  obtain ⟨c, hFirst⟩ := Option.ne_none_iff_exists'.1 hFound
  obtain ⟨vs, rfl⟩ := List.head?_eq_some_iff.1 hFirst
  obtain ⟨vs', rfl⟩ := List.head?_eq_some_iff.1 hHead.symm
  rw [hPosition, hPosition']
  exact hBreaks.length_lt hMisfit hBreaks' (hSplit.symm.trans hText')

/-- **What a fault depends on.** A text that agrees with a refused one up to the character found
there is refused for the same reason if the search for a letter or hyphen finds the same behind
that character. If it does not, the fault is still at that character, and its cause at most says
otherwise what could have started an identifier; but in the strict mode there may be a leading zero
before that character instead. -/
theorem parseIn_error_depends_on (hError : parseIn mode s = .error e)
    (hMisfit : e.cause.IsMisfit) (hFound : e.found ≠ none)
    (hAgree : t.toList.take (e.position + 1) = s.toList.take (e.position + 1)) :
    (looksAlphanumeric (slotBehind (s.toList.take e.position)) (s.toList.drop e.position) =
        looksAlphanumeric (slotBehind (s.toList.take e.position)) (t.toList.drop e.position) →
      parseIn mode t = .error e) ∧
    ∃ e', parseIn mode t = .error e' ∧
      (e'.position = e.position ∧ e'.found = e.found ∧ e.cause.Resembles e'.cause ∨
        mode = .strict ∧ e'.cause = .leadingZero ∧ e'.position < e.position) := by
  obtain ⟨hSame, hLenient⟩ := parseIn_eq_error_of_agree hError hMisfit hFound hAgree
  refine ⟨hSame, ?_⟩
  cases mode with
  | lenient =>
      obtain ⟨cause, hError', hResembles⟩ := hLenient rfl
      exact ⟨_, hError', .inl ⟨rfl, rfl, hResembles⟩⟩
  | strict =>
      -- Without a leading zero in it, each of the two texts is read as leniently.
      by_cases hZero : ∃ e', Version.parse t = .error e' ∧ e'.cause = .leadingZero
      · obtain ⟨e', hError', hZero⟩ := hZero
        have hBefore := position_lt_of_leadingZero hError hMisfit hFound hAgree hError' hZero
        exact ⟨e', hError', .inr ⟨rfl, hZero, hBefore⟩⟩
      · have hLeft : Version.parse s = Version.parseLenient s := by
          refine parse_eq_parseLenient fun e' hError' hZero => ?_
          rw [show Version.parse s = .error e from hError] at hError'
          cases hError'
          rw [hZero] at hMisfit
          exact hMisfit
        have hRight : Version.parse t = Version.parseLenient t :=
          parse_eq_parseLenient fun e' hError' hCause => hZero ⟨e', hError', hCause⟩
        obtain ⟨cause, hError', hResembles⟩ :=
          (parseIn_eq_error_of_agree (hLeft.symm.trans hError) hMisfit hFound hAgree).2 rfl
        exact ⟨_, hRight.trans hError', .inl ⟨rfl, rfl, hResembles⟩⟩

/-- What follows the dollar sign may change, as long as no letter is added to it or is missing. -/
theorem parseIn_error_before_other_rest :
    parseIn .strict "1.0.0.0-a.$b" = .error ⟨.unexpected CharClass.ofIdentifier, 10, some '$'⟩ ∧
      parseIn .strict "1.0.0.0-a.$?-.c" =
        .error ⟨.unexpected CharClass.ofIdentifier, 10, some '$'⟩ := by
  have hError : parseIn .strict "1.0.0.0-a.$b" =
      .error ⟨.unexpected CharClass.ofIdentifier, 10, some '$'⟩ := by
    decide +kernel
  exact ⟨hError, (parseIn_error_depends_on hError trivial (by decide) (by decide)).1 (by decide)⟩

end Versioning.Version
