import Versioning.Proofs.Token.Cutting

/-!
# Seams between tokens

Where a text may be parted or put together without a change to its tokens. A
lexeme that starts with another one grows out of it character by character
(`Lexeme.grows`), so whether a lexeme is the longest at its place shows in the one
character behind it (`leads_iff`). That is finer than `continues`, which asks
whether a character goes on with any lexeme at all: a connective may stand right
behind a number, although `&` goes on with another `&`.

White space goes on with no lexeme. A text may therefore be parted at every place
that is not inside a token (`Cuts.split`), and white space may be put there.

## Main results

* `leads_iff` — the longest lexeme is the one with which the next character does not go on.
* `Cuts.append_of_parted`, `Cuts.split` — texts put together and parted between tokens.
* `Cuts.blanks` — white space in front of a text.
-/

namespace Versioning.Token

open Text

variable {position : Nat} {kind kind' : Kind} {c : Char} {l cs rest more : List Char}
  {ts us : List Token}

/-! ## How lexemes grow -/

/-- A lexeme that starts with another one has a lexeme for each of its beginnings from there
on. -/
theorem Lexeme.grows (h : Lexeme kind l) (h' : Lexeme kind' (l ++ c :: more)) :
    ∃ kind'', Lexeme kind'' (l ++ [c]) := by
  have hTable : ∀ s ∈ spellings, ∀ s' ∈ spellings, s.2 <+: s'.2 →
      s'.2.length ≤ s.2.length + 1 := by
    decide
  have hStarts : l <+: l ++ c :: more := List.prefix_append _ _
  have hNumeric := h.numeric_iff h' hStarts
  cases h' with
  | number _ hDigits =>
      refine ⟨.numeric, .number (by simp) fun d hMem => hDigits d ?_⟩
      rcases List.mem_append.1 hMem with hMem | hMem
      · exact List.mem_append_left _ hMem
      · rw [List.mem_singleton.1 hMem]
        simp
  | word hWord' =>
      cases h with
      | number =>
          obtain rfl := hNumeric.1 rfl
          cases hWord'
      | word hWord =>
          have hLength : (l ++ c :: more).length ≤ l.length + 1 :=
            hTable _ (mem_spellings_iff.2 hWord) _ (mem_spellings_iff.2 hWord') hStarts
          rw [List.length_append, List.length_cons] at hLength
          obtain rfl : more = [] := List.length_eq_zero_iff.1 (by omega)
          exact ⟨kind', .word hWord'⟩

/-- A text does not go on with a lexeme. -/
def Parted (l rest : List Char) : Prop := ∀ c ∈ rest.head?, ∀ kind, ¬ Lexeme kind (l ++ [c])

theorem parted_nil : Parted l [] := fun _ hMem => nomatch hMem

/-- Only the next character counts. -/
theorem Parted.append (h : Parted l cs) (hNe : cs ≠ []) : Parted l (cs ++ rest) := by
  obtain ⟨d, us, rfl⟩ := List.exists_cons_of_ne_nil hNe
  exact h

theorem parted_of_isBlank (hBlank : isBlank c = true) : Parted l (c :: cs) := by
  intro d hMem kind hLexeme
  cases hMem
  have hPlain := hLexeme.isBlank_eq_false (List.mem_append_right l (List.mem_singleton_self c))
  rw [hBlank] at hPlain
  cases hPlain

/-- **The next character decides**: a lexeme is the longest at its place just when the text
behind it does not go on with it. -/
theorem leads_iff : Leads kind l (l ++ rest) ↔ Lexeme kind l ∧ Parted l rest := by
  constructor
  · intro hLeads
    exact ⟨hLeads.lexeme, fun c hMem kind' hLonger => hLeads.head?_ne hLonger hMem⟩
  · rintro ⟨hLexeme, hParted⟩
    refine ⟨hLexeme, List.prefix_append _ _, fun kind' l' hLexeme' hPrefix => ?_⟩
    rcases isPrefix_append_cases hPrefix with hWithin | ⟨d, more, hHead, rfl⟩
    · exact hWithin.length_le
    · obtain ⟨kind'', hLonger⟩ := hLexeme.grows hLexeme'
      exact absurd hLonger (hParted d hHead kind'')

/-! ## Texts side by side -/

namespace Cuts

/-- A token is the longest lexeme at the place where it stands. -/
theorem lexeme_of_parted (hLexeme : Lexeme kind l) (hParted : Parted l cs)
    (hRest : Cuts (position + l.length) cs ts) :
    Cuts position (l ++ cs) (⟨kind, some l, position⟩ :: ts) :=
  .lexeme (leads_iff.2 ⟨hLexeme, hParted⟩) hRest

theorem eq_nil (h : Cuts position [] ts) : ts = [] := by
  generalize hText : ([] : List Char) = text at h
  cases h with
  | nil => rfl
  | blank => cases hText
  | lexeme hLeads => exact absurd (List.append_eq_nil_iff.1 hText.symm).1 hLeads.lexeme.ne_nil

/-- Two texts are cut one after the other if the second does not go on with the last token of
the first. By induction on the first text: all other tokens have something of it behind them. -/
theorem append_of_parted (hFirst : Cuts position cs ts)
    (hSeam : ∀ t ∈ ts.getLast?, Parted t.chars rest)
    (hSecond : Cuts (position + cs.length) rest us) : Cuts position (cs ++ rest) (ts ++ us) := by
  induction hFirst with
  | nil => exact hSecond
  | blank hBlank _ ih =>
      refine .blank hBlank (ih hSeam ?_)
      rwa [List.length_cons, Nat.add_comm _ 1, ← Nat.add_assoc] at hSecond
  | @lexeme position kind l cs ts hLeads hRest ih =>
      obtain ⟨hLexeme, hParted⟩ := leads_iff.1 hLeads
      rw [List.length_append, ← Nat.add_assoc] at hSecond
      rw [List.append_assoc, List.cons_append]
      have hBehind : Parted l (cs ++ rest) := by
        by_cases hNil : cs = []
        · subst hNil
          rw [hRest.eq_nil] at hSeam
          exact hSeam _ rfl
        · exact hParted.append hNil
      refine lexeme_of_parted hLexeme hBehind (ih (fun t hLast => hSeam t ?_) hSecond)
      rw [List.getLast?_cons_of_ne_nil (List.ne_nil_of_mem (List.mem_of_getLast? hLast))]
      exact hLast

/-- A text is parted at a place that is not inside a token. By induction on the way in which it
is cut. -/
theorem split {before after : List Char} (h : Cuts position (before ++ after) ts)
    (hBetween : ∀ t ∈ ts, ¬ (t.position < position + before.length ∧
      position + before.length < t.stop)) :
    ∃ us vs, ts = us ++ vs ∧ Cuts position before us ∧
      Cuts (position + before.length) after vs := by
  generalize hText : before ++ after = text at h
  induction h generalizing before with
  | nil =>
      obtain ⟨rfl, rfl⟩ := List.append_eq_nil_iff.1 hText
      exact ⟨[], [], rfl, .nil, .nil⟩
  | @blank position c cs ts hBlank hRest ih =>
      cases before with
      | nil =>
          obtain rfl : after = c :: cs := hText
          exact ⟨[], ts, rfl, .nil, .blank hBlank hRest⟩
      | cons d before =>
          obtain ⟨rfl, rfl⟩ := List.cons_eq_cons.1 hText
          rw [List.length_cons, Nat.add_comm before.length 1, ← Nat.add_assoc] at hBetween ⊢
          obtain ⟨us, vs, rfl, hFirst, hSecond⟩ := ih hBetween rfl
          exact ⟨us, vs, rfl, .blank hBlank hFirst, hSecond⟩
  | @lexeme position kind l cs ts hLeads hRest ih =>
      by_cases hNil : before = []
      · subst hNil
        obtain rfl : after = l ++ cs := hText
        exact ⟨[], _, rfl, .nil, .lexeme hLeads hRest⟩
      obtain ⟨hLexeme, hParted⟩ := leads_iff.1 hLeads
      have hPos := List.length_pos_iff.2 hNil
      -- The place is behind the first token, since it is not inside of it.
      have hLonger : l.length ≤ before.length := by
        have hOutside := hBetween _ List.mem_cons_self
        simp only [stop, chars, Option.getD_some] at hOutside
        omega
      obtain ⟨before, rfl⟩ : l <+: before :=
        List.prefix_of_prefix_length_le (hText ▸ List.prefix_append l cs)
          (List.prefix_append before after) hLonger
      rw [List.append_assoc] at hText
      obtain rfl := List.append_cancel_left hText
      have hBehind : Parted l before := by
        by_cases hEnd : before = []
        · rw [hEnd]
          exact parted_nil
        · obtain ⟨d, ds, rfl⟩ := List.exists_cons_of_ne_nil hEnd
          exact hParted
      rw [List.length_append, ← Nat.add_assoc] at hBetween ⊢
      obtain ⟨us, vs, rfl, hFirst, hSecond⟩ :=
        ih (fun t hMem => hBetween t (List.mem_cons_of_mem _ hMem)) rfl
      exact ⟨_ :: us, vs, rfl, lexeme_of_parted hLexeme hBehind hFirst, hSecond⟩

/-- White space in front of a text adds no token. -/
theorem blanks {gap : List Char} (hBlank : ∀ c ∈ gap, isBlank c = true)
    (h : Cuts (position + gap.length) cs ts) : Cuts position (gap ++ cs) ts := by
  induction gap generalizing position with
  | nil => exact h
  | cons c gap ih =>
      obtain ⟨hFirst, hBlank⟩ := List.forall_mem_cons.1 hBlank
      refine .blank hFirst (ih hBlank ?_)
      rwa [List.length_cons, Nat.add_comm _ 1, ← Nat.add_assoc] at h

end Cuts

end Versioning.Token
