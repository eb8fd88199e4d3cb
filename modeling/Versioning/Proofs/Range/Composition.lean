import Versioning.Proofs.Range.Shorthands
import Versioning.Proofs.Token.Cutting

/-!
# Putting texts together

A text in parentheses is a unit, whatever the text is, so ranges can be put
together by putting their texts together. There are two seams at which this could
go wrong. The lexer could read a lexeme that reaches over a seam: no lexeme goes
on with a parenthesis, and after a connective of one mark there is no second
mark, since no expression starts with a connective (`Derives.exists_start`). And
the tokens of the parts are found at other positions than in the parts alone: the
grammar does not look at positions (`Derives.later`). That the reader looks past
the end of an atom is no concern here, because what it reads is just what the
grammar derives.

## Main results

* `parse_composed` — what comes of parsing a text in parentheses, negated or joined to another
  text.
-/

namespace Versioning

namespace Token

open Text

variable {position : Nat} {kind kind' : Kind} {c : Char} {cs rest : List Char}
  {ts us : List Token}

/-! ## Tokens further on -/

/-- The same token, at a position that is greater by `n`. -/
def later (n : Nat) (t : Token) : Token := { t with position := t.position + n }

/-- A text is cut in the same way wherever it stands. -/
theorem Cuts.later (h : Cuts position cs ts) (n : Nat) :
    Cuts (position + n) cs (ts.map (Token.later n)) := by
  induction h with
  | nil => exact .nil
  | blank hBlank _ ih =>
      rw [Nat.add_right_comm] at ih
      exact .blank hBlank ih
  | lexeme hLeads _ ih =>
      rw [Nat.add_right_comm] at ih
      exact .lexeme hLeads ih

/-! ## Marks around texts -/

theorem Cuts.mark (hRest : Cuts (position + 1) cs ts) (hLeads : Leads kind [c] (c :: cs)) :
    Cuts position (c :: cs) (⟨kind, some [c], position⟩ :: ts) :=
  .lexeme (l := [c]) hLeads hRest

theorem leads_leftParen : Leads .leftParen ['('] ('(' :: rest) := lexeme?_eq_some_iff.1 rfl

theorem leads_rightParen : Leads .rightParen [')'] (')' :: rest) := lexeme?_eq_some_iff.1 rfl

/-- The connectives that are written as one mark. -/
def connectiveMarks : List (Kind × Char) := [(.and, '&'), (.or, '|')]

/-- What starts with such a mark is a connective of its kind and goes on with that mark only. -/
theorem Lexeme.of_connectiveMark (h : Lexeme kind' (c :: cs))
    (hMark : (kind, c) ∈ connectiveMarks) : kind' = kind ∧ ∀ d ∈ cs, d = c := by
  have hTable : ∀ m ∈ connectiveMarks, ∀ s ∈ spellings, s.2.head? = some m.2 →
      s.1 = m.1 ∧ (s.2.tail.all fun d => d == m.2) = true := by
    decide
  have hDigit : ∀ m ∈ connectiveMarks, m.2.isDigit = false := by decide
  cases h with
  | number _ hDigits =>
      have hNone := hDigit _ hMark
      rw [hDigits c List.mem_cons_self] at hNone
      cases hNone
  | word hWord =>
      obtain ⟨hKind, hAll⟩ := hTable _ hMark _ (mem_spellings_iff.2 hWord) rfl
      exact ⟨hKind, fun d hMem => beq_iff_eq.1 (List.all_eq_true.1 hAll d hMem)⟩

/-- A connective of one mark is read in front of anything but the same mark. -/
theorem leads_connective (hMark : (kind, c) ∈ connectiveMarks) (hNext : rest.head? ≠ some c) :
    Leads kind [c] (c :: rest) := by
  have hWord : ∀ m ∈ connectiveMarks, [m.2] ∈ m.1.words := by decide
  refine ⟨.word (hWord _ hMark), ⟨rest, rfl⟩, fun kind' l hLexeme hPrefix => ?_⟩
  replace hPrefix : l <+: [c] ++ rest := hPrefix
  rcases isPrefix_append_cases hPrefix with hWithin | ⟨d, more, hHead, rfl⟩
  · exact hWithin.length_le
  · obtain rfl : d = c := (hLexeme.of_connectiveMark hMark).2 d (by simp)
    exact absurd hHead hNext

/-- A text that starts with such a mark has a connective for its first token. -/
theorem Cuts.exists_connective (h : Cuts position (c :: cs) ts)
    (hMark : (kind, c) ∈ connectiveMarks) : ∃ t us, ts = t :: us ∧ t.kind = kind := by
  generalize hText : c :: cs = text at h
  cases h with
  | nil => cases hText
  | blank hBlank _ =>
      have hNone : ∀ m ∈ connectiveMarks, isBlank m.2 = false := by decide
      cases hText
      rw [hNone _ hMark] at hBlank
      cases hBlank
  | @lexeme _ kind' l rest us hLeads _ =>
      obtain ⟨d, more, rfl⟩ := List.exists_cons_of_ne_nil hLeads.lexeme.ne_nil
      cases hText
      exact ⟨_, us, rfl, (hLeads.lexeme.of_connectiveMark hMark).1⟩

/-- The tokens of a text in parentheses. -/
def parenthesized (position : Nat) (cs : List Char) (ts : List Token) : List Token :=
  ⟨.leftParen, some ['('], position⟩ ::
    (ts ++ [⟨.rightParen, some [')'], position + 1 + cs.length⟩])

/-- A text in parentheses is cut like the text, and then the parentheses are tokens as well. -/
theorem Cuts.parenthesized (hInner : Cuts (position + 1) cs ts)
    (hRest : Cuts (position + 1 + cs.length + 1) rest us) :
    Cuts position ('(' :: (cs ++ ')' :: rest)) (Token.parenthesized position cs ts ++ us) := by
  have hClosed := hInner.append (by simp [continues]) (.mark hRest leads_rightParen)
  have hOpened : Cuts position ('(' :: (cs ++ ')' :: rest)) _ := .mark hClosed leads_leftParen
  simpa [Token.parenthesized] using hOpened

end Token

namespace Range

open Grammar Token Outcome

/-! ## Derivations and positions -/

section Later

variable {ts : List Token} {cs : List Component} {r : Range}

theorem Grammar.Numbers.later (h : Numbers ts cs) (n : Nat) :
    Numbers (ts.map (Token.later n)) cs := by
  induction h with
  | one hKind hValue => exact .one hKind hValue
  | more hKind hValue hDot _ ih => exact .more hKind hValue hDot ih

theorem Grammar.Atom.later (h : Grammar.Atom ts r) (n : Nat) :
    Grammar.Atom (ts.map (Token.later n)) r := by
  cases h with
  | tilde hMark hNumbers hFew hBand => exact .tilde hMark (hNumbers.later n) hFew hBand
  | caret hMark hNumbers hFew hZeros hNonzero hBand =>
      exact .caret hMark (hNumbers.later n) hFew hZeros hNonzero hBand
  | caretZero hMark hNumbers hFew hZeros =>
      exact .caretZero hMark (hNumbers.later n) hFew hZeros
  | any hStar => exact .any hStar
  | wildcard hNumbers hFew hDot hStar hBand =>
      rw [List.map_append]
      exact .wildcard (hNumbers.later n) hFew hDot hStar hBand
  | hyphen hLower hLowerFew hMark hUpper hUpperFew =>
      rw [List.map_append]
      exact .hyphen (hLower.later n) hLowerFew hMark (hUpper.later n) hUpperFew
  | partialVersion hNumbers hFew hBand => exact .partialVersion (hNumbers.later n) hFew hBand
  | plain hNumbers hMany hFew => exact .plain (hNumbers.later n) hMany hFew
  | comparison hMark hNumbers hFew => exact .comparison hMark (hNumbers.later n) hFew

/-- Tokens derive the same wherever they stand. -/
theorem Grammar.Derives.later {phrase : Phrase} (h : Derives phrase ts r) (n : Nat) :
    Derives phrase (ts.map (Token.later n)) r := by
  induction h with
  | unit _ ih => exact .unit ih
  | and _ hMark _ ihLeft ihRight =>
      rw [List.map_append]
      exact .and ihLeft hMark ihRight
  | or _ hMark _ ihLeft ihRight =>
      rw [List.map_append]
      exact .or ihLeft hMark ihRight
  | atom hAtom => exact .atom (hAtom.later n)
  | enclosed hOpening _ hClosing ih =>
      rw [List.map_cons, List.map_append]
      exact .enclosed hOpening ih hClosing
  | not hMark hOpening _ hClosing ih =>
      rw [List.map_cons, List.map_cons, List.map_append]
      exact .not hMark hOpening ih hClosing

/-- No phrase starts with a connective. -/
theorem Grammar.Derives.exists_start {phrase : Phrase} (h : Derives phrase ts r) :
    ∃ t us, ts = t :: us ∧ t.kind ≠ .and ∧ t.kind ≠ .or := by
  induction h with
  | unit _ ih => exact ih
  | and _ _ _ ihLeft _ =>
      obtain ⟨t, us, rfl, hStart⟩ := ihLeft
      exact ⟨t, _, rfl, hStart⟩
  | or _ _ _ ihLeft _ =>
      obtain ⟨t, us, rfl, hStart⟩ := ihLeft
      exact ⟨t, _, rfl, hStart⟩
  | atom hAtom =>
      obtain ⟨t, us, rfl, hStart⟩ := hAtom.exists_start
      refine ⟨t, us, rfl, ?_, ?_⟩ <;> intro hKind <;> rw [hKind] at hStart <;> cases hStart
  | enclosed hOpening _ _ _ => exact ⟨_, _, rfl, by simp [hOpening]⟩
  | not hMark _ _ _ _ => exact ⟨_, _, rfl, by simp [hMark]⟩

end Later

/-! ## Ranges in parentheses -/

variable {s t : String} {r r' : Range}

/-- A text that is cut into tokens is parsed by reading them. -/
theorem parse_of_cuts {ts : List Token} (hCuts : Cuts 0 s.toList ts) :
    Range.parse s = (ofTokens (.endAt s.toList.length) ts).outcome := by
  unfold Range.parse
  rw [ofChars_eq_ok_iff.2 hCuts]
  rfl

theorem parse_eq_ok_iff_cuts :
    Range.parse s = .ok r ↔ ∃ ts, Cuts 0 s.toList ts ∧ Derives .expression ts r := by
  rw [parse_eq_ok_iff]
  simp only [ofChars_eq_ok_iff]

theorem derives_parenthesized {position : Nat} {cs : List Char} {ts : List Token}
    (hDerives : Derives .expression ts r) :
    Derives .unit (parenthesized position cs (ts.map (Token.later (position + 1)))) r :=
  .enclosed rfl (hDerives.later _) rfl

theorem parse_parenthesized (hParse : Range.parse s = .ok r) :
    Range.parse ("(" ++ s ++ ")") = .ok r := by
  obtain ⟨ts, hCuts, hDerives⟩ := parse_eq_ok_iff_cuts.1 hParse
  have hText : ("(" ++ s ++ ")").toList = '(' :: (s.toList ++ [')']) := by simp
  have hWhole : Cuts 0 _ _ := Cuts.parenthesized (hCuts.later 1) .nil
  rw [List.append_nil] at hWhole
  rw [parse_eq_ok_iff_cuts, hText]
  exact ⟨_, hWhole, .unit (derives_parenthesized hDerives)⟩

theorem parse_not_parenthesized (hParse : Range.parse s = .ok r) :
    Range.parse ("!(" ++ s ++ ")") = .ok (.not r) := by
  obtain ⟨ts, hCuts, hDerives⟩ := parse_eq_ok_iff_cuts.1 hParse
  have hText : ("!(" ++ s ++ ")").toList = '!' :: '(' :: (s.toList ++ [')']) := by simp
  have hMark : ∀ rest, Leads .not ['!'] ('!' :: '(' :: rest) := fun _ => lexeme?_eq_some_iff.1 rfl
  have hWhole : Cuts 1 _ _ := Cuts.parenthesized (hCuts.later 2) .nil
  rw [List.append_nil] at hWhole
  rw [parse_eq_ok_iff_cuts, hText]
  exact ⟨_, .mark hWhole (hMark _), .unit (.not rfl rfl (hDerives.later 2) rfl)⟩

/-- After a connective of one mark, a text that spells a range does not go on with the mark. -/
theorem head?_ne_of_parse {kind : Kind} {c : Char} (hMark : (kind, c) ∈ connectiveMarks)
    (hParse : Range.parse s = .ok r) : s.toList.head? ≠ some c := by
  intro hHead
  obtain ⟨cs, hText⟩ := List.head?_eq_some_iff.1 hHead
  obtain ⟨ts, hCuts, hDerives⟩ := parse_eq_ok_iff_cuts.1 hParse
  rw [hText] at hCuts
  obtain ⟨t, us, rfl, hKind⟩ := hCuts.exists_connective hMark
  obtain ⟨t', us', hTokens, hAnd, hOr⟩ := hDerives.exists_start
  cases hTokens
  have hConnective : ∀ m ∈ connectiveMarks, m.1 = .and ∨ m.1 = .or := by decide
  rcases hConnective _ hMark with hKind' | hKind'
  · exact hAnd (hKind.trans hKind')
  · exact hOr (hKind.trans hKind')

/-- A range in parentheses, a connective and another range spell what the grammar makes of a
unit, a connective and an expression. -/
theorem parse_joined {text : String} {kind : Kind} {c : Char} {q : Range}
    (hMark : (kind, c) ∈ connectiveMarks)
    (hText : text.toList = '(' :: (s.toList ++ ')' :: c :: t.toList))
    (hLeft : Range.parse s = .ok r) (hRight : Range.parse t = .ok r')
    (hJoin : ∀ {us vs : List Token} {mark : Token}, Derives .unit us r → mark.kind = kind →
      Derives .expression vs r' → Derives .expression (us ++ mark :: vs) q) :
    Range.parse text = .ok q := by
  obtain ⟨us, hCuts, hDerives⟩ := parse_eq_ok_iff_cuts.1 hLeft
  obtain ⟨vs, hCuts', hDerives'⟩ := parse_eq_ok_iff_cuts.1 hRight
  have hLater := hCuts'.later (0 + 1 + s.toList.length + 1 + 1)
  rw [Nat.zero_add] at hLater
  have hMarked := hLater.mark (leads_connective hMark (head?_ne_of_parse hMark hRight))
  rw [parse_eq_ok_iff_cuts, hText]
  exact ⟨_, (hCuts.later 1).parenthesized hMarked,
    hJoin (derives_parenthesized hDerives) rfl (hDerives'.later _)⟩

theorem parse_and (hLeft : Range.parse s = .ok r) (hRight : Range.parse t = .ok r') :
    Range.parse ("(" ++ s ++ ")&" ++ t) = .ok (.and r r') := by
  have hMark : (Kind.and, '&') ∈ connectiveMarks := by decide
  exact parse_joined hMark (by simp) hLeft hRight .and

theorem parse_or (hLeft : Range.parse s = .ok r) (hRight : Range.parse t = .ok r') :
    Range.parse ("(" ++ s ++ ")|" ++ t) = .ok (.or r r') := by
  have hMark : (Kind.or, '|') ∈ connectiveMarks := by decide
  exact parse_joined hMark (by simp) hLeft hRight .or

/-- **Texts are put together as ranges are.** Parentheses around a text change nothing, `!` in
front of them negates the range, and a connective between them and a second text joins the two
ranges. So what a composed text admits follows from what its parts admit, although neither
connective binds more tightly than the other. -/
theorem parse_composed (s t : String) (r r' : Range) (hLeft : Range.parse s = .ok r)
    (hRight : Range.parse t = .ok r') :
    Range.parse ("(" ++ s ++ ")") = .ok r ∧
    Range.parse ("!(" ++ s ++ ")") = .ok (.not r) ∧
    Range.parse ("(" ++ s ++ ")&" ++ t) = .ok (.and r r') ∧
    Range.parse ("(" ++ s ++ ")|" ++ t) = .ok (.or r r') ∧
    ∀ v : Version,
      (Range.parse ("!(" ++ s ++ ")")).map (fun q => q.admits v) = .ok (!r.admits v) ∧
      (Range.parse ("(" ++ s ++ ")&" ++ t)).map (fun q => q.admits v) =
        .ok (r.admits v && r'.admits v) ∧
      (Range.parse ("(" ++ s ++ ")|" ++ t)).map (fun q => q.admits v) =
        .ok (r.admits v || r'.admits v) := by
  have hNot := parse_not_parenthesized hLeft
  have hAnd := parse_and hLeft hRight
  have hOr := parse_or hLeft hRight
  refine ⟨parse_parenthesized hLeft, hNot, hAnd, hOr, fun v => ?_⟩
  rw [hNot, hAnd, hOr]
  exact ⟨rfl, rfl, rfl⟩

/-- Where the parentheses stand decides whether `1`, `2` and `3` are joined to a conjunction or
to a disjunction. -/
theorem parse_composed_or_and :
    ∃ one two three : Range, Range.parse "1" = .ok one ∧ Range.parse "2" = .ok two ∧
      Range.parse "3" = .ok three ∧
      Range.parse "((1)|2)&3" = .ok (.and (.or one two) three) ∧
      Range.parse "(1)|(2)&3" = .ok (.or one (.and two three)) := by
  have hMajor : ∀ c next : Component, next.value = c.value + 1 →
      ∃ r, Range.parse (dottedText [c]) = .ok r := by
    intro c next hNext
    have hParse : Range.parse (dottedText ([] ++ [c])) = .ok _ :=
      parse_partialVersion (Nat.zero_le 1) (.upTo hNext)
    exact ⟨_, hParse⟩
  obtain ⟨one, hOne⟩ := hMajor ⟨1, by decide⟩ ⟨2, by decide⟩ rfl
  obtain ⟨two, hTwo⟩ := hMajor ⟨2, by decide⟩ ⟨3, by decide⟩ rfl
  obtain ⟨three, hThree⟩ := hMajor ⟨3, by decide⟩ ⟨4, by decide⟩ rfl
  have hOr := (parse_composed _ _ _ _ hOne hTwo).2.2.2.1
  have hAnd := (parse_composed _ _ _ _ hTwo hThree).2.2.1
  have hOrAnd := (parse_composed _ _ _ _ hOr hThree).2.2.1
  have hAndOr := (parse_composed _ _ _ _ hOne hAnd).2.2.2.1
  exact ⟨one, two, three, hOne, hTwo, hThree, hOrAnd, hAndOr⟩

end Range

end Versioning
