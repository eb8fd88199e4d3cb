import Versioning.Proofs.Token.Scanning

/-!
# Lexemes

Which texts are lexemes, said kind by kind, and which lexeme is read at the front
of a text: the longest. `Token.lexeme?` goes through a table and takes what fits
first. The two rules agree because no spelling in the table starts a later one,
and nothing else about the order of the table is used.

A lexeme can only be made longer by a few characters (`continues`). In front of
any other character it is read as if the text ended there, which is what allows
texts to be put together without a second look at their tokens.

## Main results

* `lexeme?_eq_some_iff`, `lexeme?_eq_none_iff` — the lexeme that is read is the longest one,
  and none is read where none stands.
* `Leads.head?_ne` — the character after a lexeme does not go on with it.
* `Leads.append` — what comes after the end of a text does not change its first lexeme, unless
  it goes on with a lexeme.
-/

namespace Versioning

open Text

namespace Kind

/-- The words that are tokens of a kind. Numbers are not among them, since any digit run is
one; the end of the input has no text. -/
def words : Kind → List (List Char)
  | .numeric => []
  | .dot => [['.']]
  | .hyphen => [['-']]
  | .equal => [['=']]
  | .notEqual => [['!', '=']]
  | .greater => [['>']]
  | .greaterEqual => [['>', '=']]
  | .less => [['<']]
  | .lessEqual => [['<', '=']]
  | .tilde => [['~']]
  | .wildcard => [['*'], ['x'], ['X']]
  | .caret => [['^']]
  | .and => [['&'], ['&', '&'], ['a', 'n', 'd'], ['A', 'N', 'D']]
  | .or => [['|'], ['|', '|'], ['o', 'r'], ['O', 'R']]
  | .not => [['!']]
  | .leftParen => [['(']]
  | .rightParen => [[')']]
  | .endOfInput => []

theorem mem_all (kind : Kind) : kind ∈ all := by
  cases kind <;> decide

end Kind

namespace Token

variable {kind kind' : Kind} {l l' cs rest : List Char} {c : Char}

/-- The table of the lexer lists the words of all kinds. -/
theorem mem_spellings_iff : (kind, l) ∈ spellings ↔ l ∈ kind.words := by
  have hWords : ∀ s ∈ spellings, s.2 ∈ s.1.words := by decide
  have hListed : ∀ kind ∈ Kind.all, ∀ l ∈ kind.words, (kind, l) ∈ spellings := by decide
  exact ⟨fun hMem => hWords _ hMem, fun hMem => hListed kind kind.mem_all l hMem⟩

/-! ## What lexemes are -/

/-- A text is a lexeme of a kind: a digit run, or one of the words of the kind. -/
inductive Lexeme : Kind → List Char → Prop where
  | number {l : List Char} (hNe : l ≠ []) (hDigits : ∀ c ∈ l, c.isDigit = true) :
      Lexeme .numeric l
  | word {kind : Kind} {l : List Char} (hWord : l ∈ kind.words) : Lexeme kind l

namespace Lexeme

/-- A word has characters, and none of them is a digit or blank. -/
theorem of_mem_words (hWord : l ∈ kind.words) :
    l ≠ [] ∧ ∀ c ∈ l, c.isDigit = false ∧ isBlank c = false := by
  have hTable : ∀ s ∈ spellings,
      s.2 ≠ [] ∧ (s.2.all fun c => !c.isDigit && !isBlank c) = true := by
    decide
  obtain ⟨hNe, hAll⟩ := hTable _ (mem_spellings_iff.2 hWord)
  refine ⟨hNe, fun c hMem => ?_⟩
  have hChar := List.all_eq_true.1 hAll c hMem
  rwa [Bool.and_eq_true, Bool.not_eq_true', Bool.not_eq_true'] at hChar

theorem ne_nil (h : Lexeme kind l) : l ≠ [] := by
  cases h with
  | number hNe _ => exact hNe
  | word hWord => exact (of_mem_words hWord).1

theorem mem_words (h : Lexeme kind l) (hKind : kind ≠ .numeric) : l ∈ kind.words := by
  cases h with
  | number _ _ => exact absurd rfl hKind
  | word hWord => exact hWord

theorem kind_ne_endOfInput (h : Lexeme kind l) : kind ≠ .endOfInput := by
  rintro rfl
  cases h with
  | word hWord => cases hWord

/-- A digit stands in numbers only, and numbers hold nothing else. -/
theorem isDigit_iff (h : Lexeme kind l) (hMem : c ∈ l) : c.isDigit = true ↔ kind = .numeric := by
  cases h with
  | number _ hDigits => exact iff_of_true (hDigits c hMem) rfl
  | word hWord =>
      refine iff_of_false (by simp [((of_mem_words hWord).2 c hMem).1]) ?_
      rintro rfl
      cases hWord

theorem isBlank_eq_false (h : Lexeme kind l) (hMem : c ∈ l) : isBlank c = false := by
  cases h with
  | number _ hDigits => exact isBlank_eq_false_of_isDigit (hDigits c hMem)
  | word hWord => exact ((of_mem_words hWord).2 c hMem).2

/-- Where one lexeme starts another, both are numbers or neither is. -/
theorem numeric_iff (h : Lexeme kind l) (h' : Lexeme kind' l') (hPrefix : l <+: l') :
    kind = .numeric ↔ kind' = .numeric := by
  obtain ⟨c, cs, rfl⟩ := List.exists_cons_of_ne_nil h.ne_nil
  have hMem : c ∈ c :: cs := List.mem_cons_self
  rw [← h.isDigit_iff hMem, ← h'.isDigit_iff (hPrefix.mem hMem)]

/-- A text is a lexeme of one kind at most. -/
theorem kind_unique (h : Lexeme kind l) (h' : Lexeme kind' l) : kind = kind' := by
  have hTable : ∀ s ∈ spellings, ∀ s' ∈ spellings, s.2 = s'.2 → s.1 = s'.1 := by decide
  have hNumeric := h.numeric_iff h' (List.prefix_refl l)
  cases h with
  | number _ _ => exact (hNumeric.1 rfl).symm
  | word hWord =>
      cases h' with
      | number _ _ => exact hNumeric.2 rfl
      | word hWord' =>
          exact hTable _ (mem_spellings_iff.2 hWord) _ (mem_spellings_iff.2 hWord') rfl

end Lexeme

/-! ## Which lexeme is read -/

/-- The longest lexeme at the front of a text, with its kind. -/
structure Leads (kind : Kind) (l cs : List Char) : Prop where
  lexeme : Lexeme kind l
  isPrefix : l <+: cs
  longest : ∀ kind' l', Lexeme kind' l' → l' <+: cs → l'.length ≤ l.length

theorem Leads.unique (h : Leads kind l cs) (h' : Leads kind' l' cs) : kind = kind' ∧ l = l' := by
  have hLe : l.length ≤ l'.length := h'.longest _ _ h.lexeme h.isPrefix
  have hGe : l'.length ≤ l.length := h.longest _ _ h'.lexeme h'.isPrefix
  obtain rfl : l = l' :=
    (List.prefix_of_prefix_length_le h.isPrefix h'.isPrefix hLe).eq_of_length_le hGe
  exact ⟨h.lexeme.kind_unique h'.lexeme, rfl⟩

/-- What starts a text that is put together of two reaches into the second part or ends in the
first. -/
theorem isPrefix_append_cases (hPrefix : l <+: cs ++ rest) :
    l <+: cs ∨ ∃ c more, rest.head? = some c ∧ l = cs ++ c :: more := by
  rcases List.prefix_or_prefix_of_prefix hPrefix (List.prefix_append cs rest) with
    hWithin | ⟨more, rfl⟩
  · exact .inl hWithin
  · cases more with
    | nil => exact .inl (by simp)
    | cons c more =>
        obtain ⟨after, rfl⟩ := (List.prefix_append_right_inj _).1 hPrefix
        exact .inr ⟨c, more, rfl, rfl⟩

/-- A digit run that is read leads, since all lexemes that start with a digit are runs. -/
theorem leads_of_read? {r : Run Char.isDigit}
    (hRead : Run.read? Char.isDigit cs = some (r, rest)) : Leads .numeric r.chars cs := by
  obtain ⟨rfl, hEnd⟩ := Run.read?_eq_some_iff.1 hRead
  have hRun : Lexeme .numeric r.chars := .number r.ne_nil r.all_mem
  refine ⟨hRun, List.prefix_append _ _, fun kind' l' hLexeme hPrefix => ?_⟩
  rcases isPrefix_append_cases hPrefix with hWithin | ⟨d, more, hNext, rfl⟩
  · exact hWithin.length_le
  · -- What a longer run has after `r` are digits, but the text goes on with none.
    obtain rfl : kind' = .numeric :=
      (hRun.numeric_iff hLexeme (List.prefix_append _ _)).1 rfl
    have hDigit : d.isDigit = true := (hLexeme.isDigit_iff (by simp)).2 rfl
    rw [hEnd d hNext] at hDigit
    cases hDigit

theorem isDigit_eq_false_of_read? (hRead : Run.read? Char.isDigit cs = none) :
    ∀ c ∈ cs.head?, c.isDigit = false := by
  intro c hMem
  obtain ⟨us, rfl⟩ := List.head?_eq_some_iff.1 hMem
  unfold Run.read? at hRead
  cases hDigit : c.isDigit with
  | false => rfl
  | true => simp [hDigit] at hRead

/-- Where no digit stands, every lexeme is in the table. -/
theorem Lexeme.mem_spellings (h : Lexeme kind l) (hPrefix : l <+: cs)
    (hRead : Run.read? Char.isDigit cs = none) : (kind, l) ∈ spellings := by
  cases h with
  | word hWord => exact mem_spellings_iff.2 hWord
  | number hNe hDigits =>
      obtain ⟨c, us, rfl⟩ := List.exists_cons_of_ne_nil hNe
      obtain ⟨rest, rfl⟩ := hPrefix
      have hDigit := isDigit_eq_false_of_read? hRead c rfl
      rw [hDigits c List.mem_cons_self] at hDigit
      cases hDigit

/-- The first word of the table that fits leads: a later one does not start with it. -/
theorem leads_of_find? (hRead : Run.read? Char.isDigit cs = none)
    (hFind : spellings.find? (fun s => s.2.isPrefixOf cs) = some (kind, l)) :
    Leads kind l cs := by
  have hOrder : spellings.Pairwise fun s s' => ¬ s.2 <+: s'.2 := by decide
  obtain ⟨hFits, before, after, hSplit, hBefore⟩ := List.find?_eq_some_iff_append.1 hFind
  have hPrefix : l <+: cs := List.isPrefixOf_iff_prefix.1 hFits
  refine ⟨.word (mem_spellings_iff.1 (by simp [hSplit])), hPrefix, ?_⟩
  intro kind' l' hLexeme hPrefix'
  have hMem := hLexeme.mem_spellings hPrefix' hRead
  rw [hSplit] at hMem hOrder
  rcases List.mem_append.1 hMem with hMem | hMem
  · have hMisfit := hBefore _ hMem
    rw [List.isPrefixOf_iff_prefix.2 hPrefix'] at hMisfit
    cases hMisfit
  · rcases List.mem_cons.1 hMem with hSame | hMem
    · exact Nat.le_of_eq (congrArg List.length (Prod.mk.inj hSame).2)
    · have hApart := (List.pairwise_cons.1 (List.pairwise_append.1 hOrder).2.1).1 _ hMem
      rcases List.prefix_or_prefix_of_prefix hPrefix hPrefix' with hStarts | hStarts
      · exact absurd hStarts hApart
      · exact hStarts.length_le

/-- Nothing is read just where no lexeme stands. -/
theorem lexeme?_eq_none_iff :
    lexeme? cs = none ↔ ∀ kind l, Lexeme kind l → ¬ l <+: cs := by
  unfold lexeme?
  constructor
  · intro hNone kind l hLexeme hPrefix
    split at hNone
    · cases hNone
    · rename_i hRead
      have hMisfit := List.find?_eq_none.1 hNone _ (hLexeme.mem_spellings hPrefix hRead)
      exact hMisfit (List.isPrefixOf_iff_prefix.2 hPrefix)
  · intro hNone
    split
    · rename_i r rest hRead
      have hLeads := leads_of_read? hRead
      exact absurd hLeads.isPrefix (hNone _ _ hLeads.lexeme)
    · refine List.find?_eq_none.2 fun s hMem hFits => ?_
      have hLexeme : Lexeme s.1 s.2 := .word (mem_spellings_iff.1 hMem)
      exact hNone _ _ hLexeme (List.isPrefixOf_iff_prefix.1 hFits)

/-- **Longest lexemes**: what is read at the front of a text is the longest lexeme there. -/
theorem lexeme?_eq_some_iff : lexeme? cs = some (kind, l) ↔ Leads kind l cs := by
  have hSound : ∀ {kind l}, lexeme? cs = some (kind, l) → Leads kind l cs := by
    intro kind l hSome
    unfold lexeme? at hSome
    split at hSome
    · rename_i hRead
      cases hSome
      exact leads_of_read? hRead
    · rename_i hRead
      exact leads_of_find? hRead hSome
  refine ⟨hSound, fun hLeads => ?_⟩
  cases hFound : lexeme? cs with
  | none => exact absurd hLeads.isPrefix (lexeme?_eq_none_iff.1 hFound _ _ hLeads.lexeme)
  | some found =>
      obtain ⟨rfl, rfl⟩ := hLeads.unique (hSound hFound)
      rfl

/-! ## What comes after a lexeme -/

/-- The character after a lexeme does not make a longer lexeme of it. -/
theorem Leads.head?_ne (h : Leads kind l (l ++ rest)) (hLonger : Lexeme kind' (l ++ [c])) :
    rest.head? ≠ some c := by
  intro hNext
  obtain ⟨after, rfl⟩ := List.head?_eq_some_iff.1 hNext
  have hPrefix : l ++ [c] <+: l ++ c :: after := ⟨after, by simp⟩
  have hLength := h.longest _ _ hLonger hPrefix
  rw [List.length_append, List.length_singleton] at hLength
  omega

/-- Characters that may stand in a lexeme after its first one. -/
def continues (c : Char) : Bool :=
  c.isDigit || ['=', '&', '|', 'n', 'd', 'N', 'D', 'r', 'R'].contains c

theorem Lexeme.continues_of_mem_tail (h : Lexeme kind l) (hMem : c ∈ l.tail) :
    continues c = true := by
  have hTable : ∀ s ∈ spellings, s.2.tail.all continues = true := by decide
  cases h with
  | number _ hDigits => simp [continues, hDigits c (List.mem_of_mem_tail hMem)]
  | word hWord => exact List.all_eq_true.1 (hTable _ (mem_spellings_iff.2 hWord)) c hMem

/-- The first lexeme of a text stays the same when the text goes on with a character that does
not continue a lexeme. -/
theorem Leads.append (h : Leads kind l cs) (hSeam : ∀ c ∈ rest.head?, continues c = false) :
    Leads kind l (cs ++ rest) := by
  refine ⟨h.lexeme, List.prefix_append_of_prefix h.isPrefix, ?_⟩
  intro kind' l' hLexeme hPrefix
  rcases isPrefix_append_cases hPrefix with hWithin | ⟨c, more, hNext, rfl⟩
  · exact h.longest _ _ hLexeme hWithin
  · -- The text is not empty, so `c` is not the first character of the lexeme.
    obtain ⟨d, us, rfl⟩ := List.exists_cons_of_ne_nil h.lexeme.ne_nil
    obtain ⟨vs, rfl⟩ := h.isPrefix
    have hContinues := hLexeme.continues_of_mem_tail (c := c) (by simp)
    rw [hSeam c hNext] at hContinues
    cases hContinues

end Token

end Versioning
