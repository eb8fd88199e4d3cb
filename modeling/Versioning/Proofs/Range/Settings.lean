import Versioning.Proofs.Range.Composition
import Versioning.Proofs.Range.Results
import Versioning.Proofs.Token.Spacing

/-!
# Units in their settings

A text may stand as a unit in a longer one: in parentheses, negated, or as an
operand beside other texts that spell ranges (`Setting`). What the whole comes to
is then a function of what the unit comes to, and the unit may as well fail: the
whole fails with the same fault. The function depends on the setting alone, so two
texts that are read alike are read alike in every setting.

Since neither connective binds more tightly than the other and both lean to the
right, an operand on the left must be a unit, while one on the right may be any
expression. The setting of a unit is built from within, and a text that stands on
the left of a connective may itself hold connectives.

## Main results

* `Reads.join`, `Reads.enclosed`, `Reads.not` — what phrases come to, by what their parts come to.
* `Setting.exists_readsText` — a unit in a setting.
-/

namespace Versioning

namespace Token

open Text

variable {kind kind' : Kind} {l cs rest : List Char} {ts : List Token} {position : Nat}

/-! ## Seams at connectives -/

/-- Whether a phrase may end with a token of a kind. -/
def endsPhrase (kind : Kind) : Bool := [.numeric, .wildcard, .rightParen].contains kind

/-- A connective does not go on with the last token of a phrase. -/
theorem parted_of_endsPhrase (hLexeme : Lexeme kind l) (hEnds : endsPhrase kind = true)
    (hMark : kind' = .and ∨ kind' = .or) (hWord : cs ∈ kind'.words) : Parted l (cs ++ rest) := by
  have hTable : ∀ m ∈ spellings, (m.1 = .and ∨ m.1 = .or) → m.2.head?.all (!·.isDigit) = true ∧
      ∀ s ∈ spellings, endsPhrase s.1 = true → ∀ s' ∈ spellings, s'.2 ≠ s.2 ++ m.2.take 1 := by
    decide
  obtain ⟨hPlain, hNone⟩ := hTable _ (mem_spellings_iff.2 hWord) hMark
  obtain ⟨c, cs, rfl⟩ := List.exists_cons_of_ne_nil (Lexeme.word hWord).ne_nil
  intro d hMem kind'' hLonger
  cases hMem
  have hNumeric := hLexeme.numeric_iff hLonger (List.prefix_append _ _)
  cases hLonger with
  | number _ hDigits =>
      have hDigit := hDigits c (by simp)
      simp [hDigit] at hPlain
  | word hWord' =>
      cases hLexeme with
      | number =>
          obtain rfl := hNumeric.1 rfl
          cases hWord'
      | word hShort =>
          exact hNone _ (mem_spellings_iff.2 hShort) hEnds _ (mem_spellings_iff.2 hWord') rfl

/-- A text that starts with no connective does not go on with one. -/
theorem parted_connective (hMark : kind = .and ∨ kind = .or) (hWord : l ∈ kind.words)
    (hCuts : Cuts position cs ts) (hStart : ∀ t ∈ ts.head?, t.kind ≠ .and ∧ t.kind ≠ .or) :
    Parted l cs := by
  have hTable : ∀ m ∈ spellings, (m.1 = .and ∨ m.1 = .or) → ∀ s ∈ spellings,
      m.2 = s.2.dropLast → s.2.getLast?.all (fun c => (m.1, c) ∈ connectiveMarks) = true := by
    decide
  intro c hMem kind' hLonger
  obtain ⟨rest, rfl⟩ := List.head?_eq_some_iff.1 hMem
  have hNumeric := (Lexeme.word hWord).numeric_iff hLonger (List.prefix_append _ _)
  have hConnective : (kind, c) ∈ connectiveMarks := by
    cases hLonger with
    | number =>
        obtain rfl := hNumeric.2 rfl
        cases hWord
    | word hLong =>
        have hLast := hTable _ (mem_spellings_iff.2 hWord) hMark _ (mem_spellings_iff.2 hLong)
          List.dropLast_concat.symm
        simpa using hLast
  obtain ⟨t, us, rfl, rfl⟩ := hCuts.exists_connective hConnective
  obtain ⟨hAnd, hOr⟩ := hStart t rfl
  exact hMark.elim hAnd hOr

/-- Tokens that neither start with a connective nor end in the middle of a phrase. -/
structure Closed (ts : List Token) : Prop where
  starts : ∃ t us, ts = t :: us ∧ t.kind ≠ .and ∧ t.kind ≠ .or
  ends : ∃ us t, ts = us ++ [t] ∧ endsPhrase t.kind = true

theorem Closed.bracketed {t u : Token} (hStart : t.kind ≠ .and ∧ t.kind ≠ .or)
    (hEnd : endsPhrase u.kind = true) : Closed (t :: (ts ++ [u])) :=
  ⟨⟨t, ts ++ [u], rfl, hStart⟩, ⟨t :: ts, u, rfl, hEnd⟩⟩

theorem Closed.joined {us : List Token} {mark : Token} (h : Closed ts) (h' : Closed us) :
    Closed (ts ++ mark :: us) := by
  obtain ⟨t, vs, rfl, hStart⟩ := h.starts
  obtain ⟨ws, u, rfl, hEnd⟩ := h'.ends
  exact ⟨⟨t, vs ++ mark :: (ws ++ [u]), rfl, hStart⟩, ⟨t :: vs ++ mark :: ws, u, by simp, hEnd⟩⟩

theorem Closed.later (h : Closed ts) (n : Nat) : Closed (ts.map (Token.later n)) := by
  obtain ⟨⟨t, vs, hStart, hKind⟩, ⟨ws, u, hEnd, hLast⟩⟩ := h
  refine ⟨⟨t.later n, vs.map (Token.later n), ?_, hKind⟩,
    ⟨ws.map (Token.later n), u.later n, ?_, hLast⟩⟩
  · rw [hStart, List.map_cons]
  · rw [hEnd, List.map_append, List.map_singleton]

/-- Two texts with a connective between them are cut one after the other. -/
theorem Cuts.joined {us : List Token} (hMark : kind = .and ∨ kind = .or) (hWord : l ∈ kind.words)
    (hFirst : Cuts position cs ts) (hClosed : Closed ts)
    (hSecond : Cuts (position + cs.length + l.length) rest us) (hClosed' : Closed us) :
    Cuts position (cs ++ (l ++ rest)) (ts ++ ⟨kind, some l, position + cs.length⟩ :: us) := by
  obtain ⟨vs, t, hEnd, hLast⟩ := hClosed.ends
  obtain ⟨u, ws, rfl, hStart⟩ := hClosed'.starts
  have hBehind : Parted l rest := parted_connective hMark hWord hSecond (by simpa using hStart)
  refine hFirst.append_of_parted ?_ (.lexeme_of_parted (.word hWord) hBehind hSecond)
  intro t' hMem
  obtain rfl : t = t' := by simpa [hEnd] using hMem
  obtain ⟨before, l', after, -, hLeads, hToken⟩ := hFirst.exists_split (List.mem_of_getLast? hMem)
  have hChars : t.chars = l' := by rw [hToken]; rfl
  rw [hChars]
  exact parted_of_endsPhrase hLeads.lexeme hLast hMark hWord

end Token

namespace Range

open Grammar Outcome Token Text

/-- How a connective joins two ranges. -/
def join? : Kind → Option (Range → Range → Range)
  | .and => some .and
  | .or => some .or
  | _ => none

theorem join?_ne_none_iff {kind : Kind} : join? kind ≠ none ↔ kind = .and ∨ kind = .or := by
  cases kind <;> simp [join?]

/-! ## How phrases end -/

section Ends

variable {ts : List Token} {cs : List Component} {r : Range}

theorem Grammar.Numbers.exists_end (h : Numbers ts cs) :
    ∃ us t, ts = us ++ [t] ∧ t.kind = .numeric := by
  induction h with
  | one hKind => exact ⟨[], _, rfl, hKind⟩
  | @more t dot c ts cs _ _ _ _ ih =>
      obtain ⟨us, u, rfl, hKind⟩ := ih
      exact ⟨t :: dot :: us, u, rfl, hKind⟩

theorem Grammar.Atom.exists_end (h : Grammar.Atom ts r) :
    ∃ us t, ts = us ++ [t] ∧ endsPhrase t.kind = true := by
  have hNumeric : ∀ {vs : List Token} {cs : List Component} (us : List Token), Numbers vs cs →
      ∃ ws t, us ++ vs = ws ++ [t] ∧ endsPhrase t.kind = true := by
    intro vs cs us hNumbers
    obtain ⟨ws, t, rfl, hKind⟩ := hNumbers.exists_end
    exact ⟨us ++ ws, t, (List.append_assoc ..).symm, by rw [hKind]; rfl⟩
  cases h with
  | tilde _ hNumbers => exact hNumeric [_] hNumbers
  | caret _ hNumbers => exact hNumeric [_] hNumbers
  | caretZero _ hNumbers => exact hNumeric [_] hNumbers
  | any hStar => exact ⟨[], _, rfl, by rw [hStar]; rfl⟩
  | @wildcard dot star ts _ _ _ _ _ _ hStar =>
      exact ⟨ts ++ [dot], star, by simp, by rw [hStar]; rfl⟩
  | @hyphen mark ts us _ _ _ _ _ hUpper =>
      simpa using hNumeric (ts ++ [mark]) hUpper
  | partialVersion hNumbers => exact hNumeric [] hNumbers
  | plain hNumbers => exact hNumeric [] hNumbers
  | comparison _ hNumbers => exact hNumeric [_] hNumbers

theorem Grammar.Derives.exists_end {phrase : Phrase} (h : Derives phrase ts r) :
    ∃ us t, ts = us ++ [t] ∧ endsPhrase t.kind = true := by
  induction h with
  | unit _ ih => exact ih
  | @and mark ts _ _ _ _ _ _ _ ihRight =>
      obtain ⟨us, t, rfl, hEnds⟩ := ihRight
      exact ⟨ts ++ mark :: us, t, by simp, hEnds⟩
  | @or mark ts _ _ _ _ _ _ _ ihRight =>
      obtain ⟨us, t, rfl, hEnds⟩ := ihRight
      exact ⟨ts ++ mark :: us, t, by simp, hEnds⟩
  | atom hAtom => exact hAtom.exists_end
  | @enclosed opening closing ts _ _ _ hClosing =>
      exact ⟨opening :: ts, closing, rfl, by rw [hClosing]; rfl⟩
  | @not mark opening closing ts _ _ _ _ hClosing =>
      exact ⟨mark :: opening :: ts, closing, rfl, by rw [hClosing]; rfl⟩

theorem Grammar.Derives.closed {phrase : Phrase} (h : Derives phrase ts r) : Closed ts :=
  ⟨h.exists_start, h.exists_end⟩

end Ends

/-! ## What tokens come to -/

namespace Parser

variable {kind : Phrase} {ts us : List Token} {x y : Except Error Range} {left right : Range}
  {mark opening closing : Token} {joins : Range → Range → Range}

/-- In front of whatever may follow a phrase, tokens are read as one, all of them, and it comes to
a range or a fault. -/
def Reads (kind : Phrase) (ts : List Token) (x : Except Error Range) : Prop :=
  ∀ stop us, kind.Ends us → result (phrase stop kind (ts ++ us)) = x.map fun r => (r, us)

theorem Reads.of_derives (h : Derives kind ts right) : Reads kind ts (.ok right) :=
  fun _ _ hEnds => result_eq_ok_iff.2 (yields_of_derives h hEnds)

theorem joinedResult_of_ends {stop : Token} (hEnds : Phrase.expression.Ends us) :
    joinedResult stop left us = .ok (left, us) := by
  cases us with
  | nil => rfl
  | cons t us =>
      have hKind : t.kind = .rightParen := hEnds t rfl
      rw [joinedResult, if_neg (by simp [hKind]), if_neg (by simp [hKind])]

theorem joinedResult_of_join {stop : Token} (hJoin : join? mark.kind = some joins) :
    joinedResult stop left (mark :: us) =
      (result (phrase stop .expression us)).map fun z => (joins left z.1, z.2) := by
  rcases join?_ne_none_iff.1 (Option.ne_none_iff_exists'.2 ⟨joins, hJoin⟩) with hMark | hMark
  · rw [hMark] at hJoin
    cases hJoin
    rw [joinedResult, if_pos hMark]
  · rw [hMark] at hJoin
    cases hJoin
    rw [joinedResult, if_neg (by simp [hMark]), if_pos hMark]

/-- A unit alone is an expression. -/
theorem Reads.expression (h : Reads .unit ts x) : Reads .expression ts x := by
  intro stop us hEnds
  have hFollows : Follows us := fun t hMem => .inr (.inr (hEnds t hMem))
  rw [result_expression, h stop us hFollows]
  cases x with
  | error e => rfl
  | ok r => exact joinedResult_of_ends hEnds

/-- A unit and an expression with a connective between them. -/
theorem Reads.join (hLeft : Reads .unit ts x) (hJoin : join? mark.kind = some joins)
    (hRight : Reads .expression us y) :
    Reads .expression (ts ++ mark :: us) (x >>= fun l => y.map (joins l)) := by
  intro stop vs hEnds
  have hFollows : Follows (mark :: (us ++ vs)) := by
    rw [follows_cons, ← or_assoc]
    exact .inl (join?_ne_none_iff.1 (Option.ne_none_iff_exists'.2 ⟨joins, hJoin⟩))
  rw [List.append_assoc, List.cons_append, result_expression, hLeft stop _ hFollows]
  cases x with
  | error e => rfl
  | ok l =>
      dsimp only [Except.map, bind, Except.bind]
      rw [joinedResult_of_join hJoin, hRight stop vs hEnds]
      cases y <;> rfl

theorem enclosedResult_of_reads {stop : Token} (hOpening : opening.kind = .leftParen)
    (h : Reads .expression ts x) (hClosing : closing.kind = .rightParen) :
    enclosedResult stop (opening :: (ts ++ closing :: us)) = x.map fun r => (r, us) := by
  have hOpen : Atom.expect stop .leftParen (opening :: (ts ++ closing :: us)) = .ok (opening, _) :=
    Atom.expect_eq_ok_iff.2 ⟨hOpening, rfl⟩
  have hClose : Atom.expect stop .rightParen (closing :: us) = .ok (closing, us) :=
    Atom.expect_eq_ok_iff.2 ⟨hClosing, rfl⟩
  rw [enclosedResult_of_expect hOpen, h stop _ (by simpa [Phrase.Ends] using hClosing)]
  cases x with
  | error e => rfl
  | ok r =>
      dsimp only [Except.map, bind, Except.bind]
      rw [hClose]

/-- An expression in parentheses is a unit. -/
theorem Reads.enclosed (hOpening : opening.kind = .leftParen) (h : Reads .expression ts x)
    (hClosing : closing.kind = .rightParen) : Reads .unit (opening :: (ts ++ [closing])) x := by
  intro stop us _
  rw [List.cons_append, List.append_assoc, List.singleton_append, result_unit_enclosed hOpening,
    enclosedResult_of_reads hOpening h hClosing]

theorem Reads.not (hMark : mark.kind = .not) (hOpening : opening.kind = .leftParen)
    (h : Reads .expression ts x) (hClosing : closing.kind = .rightParen) :
    Reads .unit (mark :: opening :: (ts ++ [closing])) (x.map .not) := by
  intro stop us _
  rw [List.cons_append, List.cons_append, List.append_assoc, List.singleton_append,
    result_unit_not hMark, enclosedResult_of_reads hOpening h hClosing, map_map, map_map]

/-- What reads on behind a connective reads on behind all that stands before it. -/
theorem Reads.behind {ms : List Token} {n : Nat} {f : Range → Range} {mark' : Token}
    (hUnit : Derives .unit ts left) (hJoin : join? mark.kind = some joins)
    (hReads : Reads .expression (us.map (Token.later n) ++ mark' :: ms) (x.map f)) :
    Reads .expression ((ts ++ mark :: us).map (Token.later n) ++ mark' :: ms)
      (x.map fun r => joins left (f r)) := by
  have hLater : join? (mark.later n).kind = some joins := hJoin
  have hWhole := (Reads.of_derives (hUnit.later n)).join hLater hReads
  rw [List.map_append, List.map_cons, List.append_assoc, List.cons_append]
  cases x <;> exact hWhole

/-- An expression on the left of a connective leans to the right, so its last unit is the operand.
The function is found by induction on the expression, wherever it stands. -/
theorem exists_join_expression {kind : Kind} (hJoin : join? kind = some joins)
    (h : Derives .expression us left) :
    ∃ f : Range → Range, ∀ (n : Nat) (mark : Token) (ts : List Token) (x : Except Error Range),
      mark.kind = kind → Reads .expression ts x →
      Reads .expression (us.map (Token.later n) ++ mark :: ts) (x.map f) := by
  generalize hPhrase : Phrase.expression = phrase at h
  induction h with
  | @unit us left hUnit =>
      refine ⟨joins left, fun n mark ts x hMark hReads => ?_⟩
      exact (Reads.of_derives (hUnit.later n)).join (hMark ▸ hJoin) hReads
  | @and mark' us vs left _ hUnit hMark' _ _ ih =>
      obtain ⟨f, hRight⟩ := ih hPhrase
      refine ⟨fun r => .and left (f r), fun n mark ts x hMark hReads => ?_⟩
      exact .behind hUnit (by rw [hMark']; rfl) (hRight n mark ts x hMark hReads)
  | @or mark' us vs left _ hUnit hMark' _ _ ih =>
      obtain ⟨f, hRight⟩ := ih hPhrase
      refine ⟨fun r => .or left (f r), fun n mark ts x hMark hReads => ?_⟩
      exact .behind hUnit (by rw [hMark']; rfl) (hRight n mark ts x hMark hReads)
  | atom => cases hPhrase
  | enclosed => cases hPhrase
  | not => cases hPhrase

end Parser

/-! ## Texts in a setting -/

open Versioning.Range.Parser

/-- Wherever a text stands, it is cut into tokens that are read as a phrase. What they come to may
depend on the position. -/
def ReadsText (kind : Phrase) (text : List Char) (x : Nat → Except Error Range) : Prop :=
  ∀ position, ∃ ts, Cuts position text ts ∧ Closed ts ∧ Reads kind ts (x position)

/-- A text that is read to the end is parsed to what it comes to at its start. -/
theorem ReadsText.parse {s : String} {x : Nat → Except Error Range}
    (h : ReadsText .expression s.toList x) : Range.parse s = x 0 := by
  obtain ⟨ts, hCuts, -, hReads⟩ := h 0
  have hAll := hReads (.endAt s.toList.length) [] (by simp [Phrase.Ends])
  rw [List.append_nil] at hAll
  rw [parse_of_cuts hCuts, outcome_ofTokens, hAll]
  cases x 0 <;> rfl

theorem ReadsText.expression {text : List Char} {x : Nat → Except Error Range}
    (h : ReadsText .unit text x) : ReadsText .expression text x := by
  intro position
  obtain ⟨ts, hCuts, hClosed, hReads⟩ := h position
  exact ⟨ts, hCuts, hClosed, hReads.expression⟩

/-- A text is a unit if its tokens start as an atom does and the reader of atoms takes them all. -/
theorem ReadsText.of_atom {text : List Char} {x : Nat → Except Error Range}
    (h : ∀ position, ∃ ts, Cuts position text ts ∧
      (∃ t us, ts = t :: us ∧ startsAtom t.kind = true) ∧
      (∃ us t, ts = us ++ [t] ∧ endsPhrase t.kind = true) ∧
      ∀ stop us, Follows us → Atom.read stop (Shorthand.select? (ts ++ us)) (ts ++ us) =
        (x position).map fun r => (r, us)) : ReadsText .unit text x := by
  have hTable : ∀ kind ∈ Kind.all, startsAtom kind = true →
      (kind ≠ .and ∧ kind ≠ .or) ∧ kind ≠ .not ∧ kind ≠ .leftParen := by
    decide
  intro position
  obtain ⟨_, hCuts, ⟨t, us, rfl, hStart⟩, hEnd, hRead⟩ := h position
  obtain ⟨hClosed, hAtom⟩ := hTable t.kind (Kind.mem_all _) hStart
  refine ⟨_, hCuts, ⟨⟨t, us, rfl, hClosed⟩, hEnd⟩, fun stop vs hFollows => ?_⟩
  rw [List.cons_append, result_unit_atom (by simpa using hAtom)]
  exact hRead stop vs hFollows

/-- What stands before and after a unit in a longer text, which is a phrase of a kind: nothing,
white space, parentheses, a negation, or other operands, each of which spells a range by itself.
Only a unit may stand on the left of a connective; on the right there may be any expression. -/
inductive Setting : Phrase → String → String → Prop where
  | alone : Setting .unit "" ""
  | expression {before after : String} (h : Setting .unit before after) :
      Setting .expression before after
  | spaced {kind : Phrase} {before after left right : String}
      (hLeft : ∀ c ∈ left.toList, isBlank c = true) (hRight : ∀ c ∈ right.toList, isBlank c = true)
      (h : Setting kind before after) : Setting kind (left ++ before) (after ++ right)
  | enclosed {before after : String} (h : Setting .expression before after) :
      Setting .unit ("(" ++ before) (after ++ ")")
  | negated {before after : String} (h : Setting .expression before after) :
      Setting .unit ("!(" ++ before) (after ++ ")")
  | leftOf {before after mark other : String} {kind : Kind} {r : Range}
      (h : Setting .unit before after) (hMark : kind = .and ∨ kind = .or)
      (hWord : mark.toList ∈ kind.words) (hOther : Range.parse other = .ok r) :
      Setting .expression before (after ++ mark ++ other)
  | rightOf {before after mark other : String} {kind : Kind} {r : Range}
      (hOther : Range.parse other = .ok r) (hMark : kind = .and ∨ kind = .or)
      (hWord : mark.toList ∈ kind.words) (h : Setting .expression before after) :
      Setting .expression (other ++ mark ++ before) after

section Steps

variable {text other l left right : List Char} {x : Nat → Except Error Range} {kind : Kind}
  {phrase : Phrase} {es : List Token} {r : Range}

theorem ReadsText.congr {text' : List Char} {x' : Nat → Except Error Range}
    (h : ReadsText phrase text x) (hText : text' = text)
    (hOutcome : ∀ position, x' position = x position) : ReadsText phrase text' x' := by
  obtain rfl := hText
  rwa [funext hOutcome]

theorem ReadsText.spaced (h : ReadsText phrase text x) (hLeft : ∀ c ∈ left, isBlank c = true)
    (hRight : ∀ c ∈ right, isBlank c = true) :
    ReadsText phrase (left ++ text ++ right) fun position => x (position + left.length) := by
  intro position
  obtain ⟨ts, hCuts, hClosed, hReads⟩ := h (position + left.length)
  have hBehind : ∀ t ∈ ts.getLast?, Parted t.chars right := by
    intro t _
    cases right with
    | nil => exact parted_nil
    | cons c right => exact parted_of_isBlank (hRight c List.mem_cons_self)
  have hEnd : Cuts (position + left.length + text.length) (right ++ []) [] := .blanks hRight .nil
  have hWhole := (hCuts.append_of_parted hBehind (by rwa [List.append_nil] at hEnd)).blanks hLeft
  rw [List.append_nil, ← List.append_assoc] at hWhole
  exact ⟨ts, hWhole, hClosed, hReads⟩

theorem ReadsText.enclosed (h : ReadsText .expression text x) :
    ReadsText .unit ('(' :: (text ++ [')'])) fun position => x (position + 1) := by
  intro position
  obtain ⟨ts, hCuts, -, hReads⟩ := h (position + 1)
  have hWhole := hCuts.parenthesized .nil
  rw [List.append_nil] at hWhole
  exact ⟨_, hWhole, .bracketed ⟨nofun, nofun⟩ rfl, .enclosed rfl hReads rfl⟩

theorem ReadsText.negated (h : ReadsText .expression text x) :
    ReadsText .unit ('!' :: '(' :: (text ++ [')'])) fun position =>
      (x (position + 2)).map .not := by
  intro position
  obtain ⟨ts, hCuts, -, hReads⟩ := h (position + 1 + 1)
  have hMark : ∀ rest, Leads .not ['!'] ('!' :: '(' :: rest) := fun _ => lexeme?_eq_some_iff.1 rfl
  have hWhole := Cuts.mark (hCuts.parenthesized .nil) (hMark _)
  rw [List.append_nil] at hWhole
  refine ⟨_, hWhole, ?_, .not rfl rfl hReads rfl⟩
  exact @Closed.bracketed (_ :: ts) _ _ ⟨nofun, nofun⟩ rfl

theorem ReadsText.leftOf (hMark : kind = .and ∨ kind = .or) (hWord : l ∈ kind.words)
    (hCuts : Cuts 0 other es) (hDerives : Derives .expression es r) :
    ∃ f : Range → Range, ∀ text x, ReadsText .unit text x →
      ReadsText .expression (text ++ (l ++ other)) fun position => (x position).map f := by
  obtain ⟨joins, hJoin⟩ := Option.ne_none_iff_exists'.1 (join?_ne_none_iff.2 hMark)
  have hOutcome : ∀ y : Except Error Range, y.map (fun left => joins left r) =
      y >>= fun left => (Except.ok r).map (joins left) := by
    rintro (e | left) <;> rfl
  refine ⟨fun left => joins left r, fun text x h position => ?_⟩
  obtain ⟨ts, hFirst, hClosed, hReads⟩ := h position
  have hSecond := hCuts.later (position + text.length + l.length)
  rw [Nat.zero_add] at hSecond
  have hBehind := hDerives.closed.later (position + text.length + l.length)
  have hMarked : join? (Token.mk kind (some l) (position + text.length)).kind = some joins := hJoin
  refine ⟨_, hFirst.joined hMark hWord hClosed hSecond hBehind, hClosed.joined hBehind, ?_⟩
  dsimp only
  rw [hOutcome]
  exact hReads.join hMarked (.of_derives (hDerives.later _))

theorem ReadsText.rightOf (hCuts : Cuts 0 other es) (hDerives : Derives .expression es r)
    (hMark : kind = .and ∨ kind = .or) (hWord : l ∈ kind.words) :
    ∃ f : Range → Range, ∀ text x, ReadsText .expression text x →
      ReadsText .expression (other ++ (l ++ text)) fun position =>
        (x (position + other.length + l.length)).map f := by
  obtain ⟨joins, hJoin⟩ := Option.ne_none_iff_exists'.1 (join?_ne_none_iff.2 hMark)
  obtain ⟨f, hJoined⟩ := exists_join_expression hJoin hDerives
  refine ⟨f, fun text x h position => ?_⟩
  obtain ⟨ts, hSecond, hClosed, hReads⟩ := h (position + other.length + l.length)
  have hFirst := hCuts.later position
  rw [Nat.zero_add] at hFirst
  have hBefore := hDerives.closed.later position
  exact ⟨_, hFirst.joined hMark hWord hBefore hSecond hClosed, hBefore.joined hClosed,
    hJoined position _ ts _ rfl hReads⟩

end Steps

/-- **A unit in its setting**: what the whole comes to is what the unit comes to at the place where
it stands, put through a function that the setting determines. -/
theorem Setting.exists_readsText {phrase : Phrase} {before after : String}
    (h : Setting phrase before after) : ∃ f : Range → Range, ∀ text x, ReadsText .unit text x →
      ReadsText phrase (before.toList ++ text ++ after.toList) fun position =>
        (x (position + before.toList.length)).map f := by
  induction h with
  | alone =>
      refine ⟨id, fun text x h => h.congr (by simp) fun position => ?_⟩
      cases hOutcome : x position <;> simp [hOutcome, Except.map]
  | expression _ ih =>
      obtain ⟨f, hRead⟩ := ih
      exact ⟨f, fun text x h => (hRead text x h).expression⟩
  | @spaced phrase before after left right hLeft hRight _ ih =>
      obtain ⟨f, hRead⟩ := ih
      refine ⟨f, fun text x h => ((hRead text x h).spaced hLeft hRight).congr ?_ fun position => ?_⟩
      · simp
      · rw [String.toList_append, List.length_append, ← Nat.add_assoc]
  | enclosed _ ih =>
      obtain ⟨f, hRead⟩ := ih
      refine ⟨f, fun text x h => (hRead text x h).enclosed.congr ?_ fun position => ?_⟩
      · simp
      · simp [Nat.add_assoc, Nat.add_comm 1]
  | negated _ ih =>
      obtain ⟨f, hRead⟩ := ih
      refine ⟨fun r => .not (f r),
        fun text x h => (hRead text x h).negated.congr ?_ fun position => ?_⟩
      · simp
      · rw [map_map]
        simp [Nat.add_assoc, Nat.add_comm 2]
  | leftOf _ hMark hWord hOther ih =>
      obtain ⟨f, hRead⟩ := ih
      obtain ⟨es, hCuts, hDerives⟩ := parse_eq_ok_iff_cuts.1 hOther
      obtain ⟨g, hJoined⟩ := ReadsText.leftOf hMark hWord hCuts hDerives
      refine ⟨fun r => g (f r),
        fun text x h => (hJoined _ _ (hRead text x h)).congr ?_ fun position => ?_⟩
      · simp
      · rw [map_map]
  | rightOf hOther hMark hWord _ ih =>
      obtain ⟨f, hRead⟩ := ih
      obtain ⟨es, hCuts, hDerives⟩ := parse_eq_ok_iff_cuts.1 hOther
      obtain ⟨g, hJoined⟩ := ReadsText.rightOf hCuts hDerives hMark hWord
      refine ⟨fun r => g (f r),
        fun text x h => (hJoined _ _ (hRead text x h)).congr ?_ fun position => ?_⟩
      · simp
      · rw [map_map]
        simp [Nat.add_assoc]

end Range

end Versioning
