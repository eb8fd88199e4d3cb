import Versioning.Proofs.Decimal
import Versioning.Proofs.Range.Shorthands

/-!
# Rendered ranges

What comes of parsing the text of a range. Rendering writes an operator before
every operand and parentheses around everything else, so a rendered range that
is parsed at all is parsed as a unit, and its shape comes back. What may not come
back is an operand, since the language of ranges knows no tags.

The two kinds of range are told apart by their tokens. If no operand carries a
tag, a rendered range is scanned as tokens that derive it
(`exists_derives_of_untagged`). A tag is introduced by a mark: a plus sign is no
lexeme at all, and a hyphen is one, but in no expression does a hyphen stand
after the operand of an operator (`not_hyphenated_of_derives`). So what comes
after the hyphen does not matter, even where it looks like a part of a range.
-/

namespace Versioning

/-- The kind of token that an operator is. -/
def Operator.kind : Operator → Kind
  | .eq => .equal
  | .ne => .notEqual
  | .gt => .greater
  | .ge => .greaterEqual
  | .lt => .less
  | .le => .lessEqual

@[simp] theorem Operator.ofKind?_kind (op : Operator) : ofKind? op.kind = some op := by
  cases op <;> rfl

theorem Core.chars_eq_dotted (c : Core) :
    c.chars = Token.dotted (c.components.map Component.run) := rfl

/-- A core starts with a digit, whatever follows it. -/
theorem Core.exists_digit_cons (c : Core) (rest : List Char) :
    ∃ d ds, c.chars ++ rest = d :: ds ∧ d.isDigit = true := by
  obtain ⟨d, ds, hDigits⟩ := List.exists_cons_of_ne_nil (Decimal.digits_ne_nil c.major.value)
  have hDigit : d.isDigit = true := Decimal.isDigit_of_mem_digits (by rw [hDigits]; simp)
  rw [chars_eq, show c.major.digits = d :: ds from hDigits]
  exact ⟨d, _, rfl, hDigit⟩

namespace Range

open Grammar Outcome

/-! ## Hyphens after operands -/

/-- Somewhere a hyphen stands after an operator and numbers. `inOperand` tells whether there are
just an operator and numbers in front. -/
def hyphenated (inOperand : Bool) : List Token → Bool
  | [] => false
  | t :: ts =>
    inOperand && t.kind = .hyphen ||
      hyphenated ((Operator.ofKind? t.kind).isSome || inOperand && t.kind.inVersion) ts

/-- Whether tokens of a kind can be no part of an operator with its operand, nor of a hyphen
after it. -/
def divides (kind : Kind) : Bool :=
  kind ≠ .hyphen && (Operator.ofKind? kind).isNone && !kind.inVersion

section Hyphenated

variable {inOperand : Bool} {t : Token} {ts us vs : List Token} {cs : List Component} {r : Range}

/-- Numbers change nothing about what stands in front. -/
theorem hyphenated_numbers_append (h : Numbers vs cs) :
    hyphenated inOperand (vs ++ us) = hyphenated inOperand us := by
  induction h with
  | one hKind => simp [hyphenated, hKind, Operator.ofKind?, Kind.inVersion]
  | more hKind _ hDot _ ih => simp [hyphenated, hKind, hDot, Operator.ofKind?, Kind.inVersion, ih]

theorem hyphenated_numbers (h : Numbers vs cs) : hyphenated inOperand vs = false := by
  rw [← List.append_nil vs, hyphenated_numbers_append h]
  rfl

/-- What stands in front of a divider has nothing to do with what stands after it. -/
theorem hyphenated_append_cons (hDivides : divides t.kind = true) :
    hyphenated inOperand (ts ++ t :: us) =
      (hyphenated inOperand ts || hyphenated false us) := by
  induction ts generalizing inOperand with
  | nil =>
      simp only [divides, Bool.and_eq_true, decide_eq_true_eq, Option.isNone_iff_eq_none,
        Bool.not_eq_true'] at hDivides
      obtain ⟨⟨hHyphen, hOperator⟩, hVersion⟩ := hDivides
      simp [hyphenated, hHyphen, hOperator, hVersion]
  | cons u ts ih =>
      rw [List.cons_append, hyphenated, hyphenated, ih, Bool.or_assoc]

theorem hyphenated_cons (hDivides : divides t.kind = true) :
    hyphenated inOperand (t :: us) = hyphenated false us := by
  have hSplit : hyphenated inOperand ([] ++ t :: us) = _ := hyphenated_append_cons hDivides
  simpa [hyphenated] using hSplit

theorem hyphenated_cons_operator {op : Operator} (hOperator : Operator.ofKind? t.kind = some op) :
    hyphenated inOperand (t :: us) = hyphenated true us := by
  have hHyphen : t.kind ≠ .hyphen := by
    intro hKind
    rw [hKind] at hOperator
    cases hOperator
  simp [hyphenated, hHyphen, hOperator]

theorem not_hyphenated_of_atom (h : Grammar.Atom ts r) : hyphenated false ts = false := by
  cases h with
  | tilde hMark hNumbers =>
      rw [hyphenated_cons (by rw [hMark]; rfl)]
      exact hyphenated_numbers hNumbers
  | caret hMark hNumbers =>
      rw [hyphenated_cons (by rw [hMark]; rfl)]
      exact hyphenated_numbers hNumbers
  | caretZero hMark hNumbers =>
      rw [hyphenated_cons (by rw [hMark]; rfl)]
      exact hyphenated_numbers hNumbers
  | any hStar => simp [hyphenated]
  | wildcard hNumbers hFew hDot hStar =>
      rw [hyphenated_numbers_append hNumbers]
      simp [hyphenated, hDot, Operator.ofKind?]
  | hyphen hLower hLowerFew hMark hUpper =>
      rw [hyphenated_numbers_append hLower]
      simp [hyphenated, hMark, Operator.ofKind?, hyphenated_numbers hUpper]
  | partialVersion hNumbers => exact hyphenated_numbers hNumbers
  | plain hNumbers => exact hyphenated_numbers hNumbers
  | comparison hMark hNumbers =>
      rw [hyphenated_cons_operator hMark]
      exact hyphenated_numbers hNumbers

/-- In no expression does a hyphen stand after the operand of an operator. -/
theorem not_hyphenated_of_derives {kind : Phrase} (h : Derives kind ts r) :
    hyphenated false ts = false := by
  induction h with
  | unit _ ih => exact ih
  | and _ hMark _ ihLeft ihRight =>
      rw [hyphenated_append_cons (by rw [hMark]; rfl), ihLeft, ihRight]
      rfl
  | or _ hMark _ ihLeft ihRight =>
      rw [hyphenated_append_cons (by rw [hMark]; rfl), ihLeft, ihRight]
      rfl
  | atom hAtom => exact not_hyphenated_of_atom hAtom
  | enclosed hOpening _ hClosing ih =>
      rw [hyphenated_cons (by rw [hOpening]; rfl), hyphenated_append_cons (by rw [hClosing]; rfl),
        ih]
      rfl
  | not hMark hOpening _ hClosing ih =>
      rw [hyphenated_cons (by rw [hMark]; rfl), hyphenated_cons (by rw [hOpening]; rfl),
        hyphenated_append_cons (by rw [hClosing]; rfl), ih]
      rfl

end Hyphenated

/-! ## Scanning rendered ranges -/

/-- In front of anything but a digit, a text is scanned as some tokens. -/
def Scans (position : Nat) (cs : List Char) (ts : List Token) : Prop :=
  ∀ rest : List Char, (∀ c ∈ rest.head?, c.isDigit = false) →
    Token.scan position (cs ++ rest) =
      (Token.scan (position + cs.length) rest).map fun us => ts ++ us

section Scanning

variable {position : Nat} {cs ds rest : List Char} {ts us : List Token}

theorem Scans.ofChars (h : Scans 0 cs ts) : Token.ofChars cs = .ok ts := by
  have hScan := h [] (by simp)
  rw [List.append_nil, Token.scan] at hScan
  unfold Token.ofChars
  rw [hScan]
  simp [Except.map]

/-- An operator in front of a digit is one token. -/
theorem scan_operator (op : Operator) (hDigit : ∃ d ds, cs = d :: ds ∧ d.isDigit = true) :
    Token.scan position (op.chars ++ cs) =
      (Token.scan (position + op.chars.length) cs).map fun us =>
        ⟨op.kind, some op.chars, position⟩ :: us := by
  -- No operator goes on to a longer one, since a digit is no equals sign.
  have hLonger : ['='].isPrefixOf cs = false := by
    obtain ⟨d, ds, rfl, hDigit⟩ := hDigit
    have hEqual : d ≠ '=' := by
      rintro rfl
      exact absurd hDigit (by decide)
    simp [List.isPrefixOf, hEqual.symm]
  have hLexeme : Token.lexeme? (op.chars ++ cs) = some (op.kind, op.chars) := by
    cases op <;>
      simp [Token.lexeme?, Token.spellings, Text.Run.read?, Operator.chars, Operator.kind, hLonger]
  have hBlank : ∀ c ∈ op.chars, Text.isBlank c = false := by
    have hNone : op.chars.any Text.isBlank = false := by
      cases op <;> rfl
    simpa using hNone
  have hNe : op.chars ≠ [] := by
    cases op <;> decide
  obtain ⟨c, us, hChars⟩ := List.exists_cons_of_ne_nil hNe
  rw [hChars] at hLexeme hBlank ⊢
  exact Token.scan_lexeme hLexeme (hBlank c (by simp))

/-- An operator in front of a core is a token, and so is each part of the core. -/
theorem scans_comparison (op : Operator) (c : Core) :
    Scans position (op.chars ++ c.chars) (⟨op.kind, some op.chars, position⟩ ::
      Token.ofRuns (position + op.chars.length) (c.components.map Component.run)) := by
  intro rest hEnd
  have hNe : c.components.map Component.run ≠ [] := runs_ne_nil (List.cons_ne_nil _ _)
  rw [List.append_assoc, scan_operator op (c.exists_digit_cons rest), Core.chars_eq_dotted,
    Token.scan_dotted hNe hEnd, map_map, List.length_append, Nat.add_assoc]
  rfl

theorem lexeme?_ampersand (us : List Char) :
    Token.lexeme? ('&' :: ' ' :: us) = some (.and, ['&']) := rfl

theorem lexeme?_bar (us : List Char) : Token.lexeme? ('|' :: ' ' :: us) = some (.or, ['|']) := rfl

/-- What is written as a connective is scanned as one. -/
theorem scan_connective {kind : Kind} {c : Char}
    (hLexeme : Token.lexeme? (c :: ' ' :: rest) = some (kind, [c]))
    (hBlank : Text.isBlank c = false) :
    Token.scan position (' ' :: c :: ' ' :: rest) =
      (Token.scan (position + 3) rest).map fun us => ⟨kind, some [c], position + 1⟩ :: us := by
  rw [Token.scan_blank rfl, Token.scan_mark hLexeme hBlank, Token.scan_blank rfl]

/-- Two scanned texts in parentheses with a connective between them. -/
theorem scans_joined {kind : Kind} {c : Char}
    (hLexeme : ∀ us, Token.lexeme? (c :: ' ' :: us) = some (kind, [c]))
    (hBlank : Text.isBlank c = false) (hLeft : Scans (position + 1) cs ts)
    (hRight : Scans (position + 1 + cs.length + 3) ds us) :
    ∃ opening mark closing : Token, opening.kind = .leftParen ∧ mark.kind = kind ∧
      closing.kind = .rightParen ∧
      Scans position (['('] ++ cs ++ [' ', c, ' '] ++ ds ++ [')'])
        (opening :: (ts ++ mark :: us ++ [closing])) := by
  refine ⟨⟨.leftParen, some ['('], position⟩, ⟨kind, some [c], position + 1 + cs.length + 1⟩,
    ⟨.rightParen, some [')'], position + 1 + cs.length + 3 + ds.length⟩, rfl, rfl, rfl, ?_⟩
  intro rest hEnd
  have hShape : ['('] ++ cs ++ [' ', c, ' '] ++ ds ++ [')'] ++ rest =
      '(' :: (cs ++ ' ' :: c :: ' ' :: (ds ++ ')' :: rest)) := by
    simp
  have hLength : position + (['('] ++ cs ++ [' ', c, ' '] ++ ds ++ [')']).length =
      position + 1 + cs.length + 3 + ds.length + 1 := by
    simp only [List.length_append, List.length_cons, List.length_nil]
    omega
  rw [hShape, hLength, Token.scan_mark rfl rfl, hLeft _ (by simp),
    scan_connective (hLexeme _) hBlank, hRight _ (by simp), Token.scan_mark rfl rfl]
  simp only [map_map, List.append_assoc, List.cons_append, List.nil_append]

/-- A scanned text in parentheses behind a negation. -/
theorem scans_negated (hInner : Scans (position + 2) cs ts) :
    ∃ mark opening closing : Token, mark.kind = .not ∧ opening.kind = .leftParen ∧
      closing.kind = .rightParen ∧
      Scans position (['!', '('] ++ cs ++ [')']) (mark :: opening :: (ts ++ [closing])) := by
  refine ⟨⟨.not, some ['!'], position⟩, ⟨.leftParen, some ['('], position + 1⟩,
    ⟨.rightParen, some [')'], position + 2 + cs.length⟩, rfl, rfl, rfl, ?_⟩
  intro rest hEnd
  have hShape : ['!', '('] ++ cs ++ [')'] ++ rest = '!' :: '(' :: (cs ++ ')' :: rest) := by
    simp
  have hLength : position + (['!', '('] ++ cs ++ [')']).length =
      position + 2 + cs.length + 1 := by
    simp only [List.length_append, List.length_cons, List.length_nil]
    omega
  rw [hShape, hLength, Token.scan_mark rfl rfl, Token.scan_mark rfl rfl, hInner _ (by simp),
    Token.scan_mark rfl rfl]
  simp only [map_map, List.append_assoc, List.cons_append, List.nil_append]

end Scanning

/-! ## Operands without tags -/

/-- No operand of a range carries a tag. -/
def Untagged (r : Range) : Prop := ∀ v ∈ r.operands, v.preRelease = none ∧ v.build = none

instance (r : Range) : Decidable r.Untagged := inferInstanceAs (Decidable (∀ v ∈ r.operands, _))

theorem untagged_and_iff {l r : Range} : (and l r).Untagged ↔ l.Untagged ∧ r.Untagged :=
  List.forall_mem_append

theorem untagged_or_iff {l r : Range} : (or l r).Untagged ↔ l.Untagged ∧ r.Untagged :=
  List.forall_mem_append

theorem untagged_comparison_iff {op : Operator} {v : Version} :
    (comparison op v).Untagged ↔ v.preRelease = none ∧ v.build = none :=
  List.forall_mem_singleton

/-- **Rendering is scanned back**: without tags, a rendered range is scanned as tokens that
derive it as a unit. -/
theorem exists_derives_of_untagged {r : Range} (hUntagged : r.Untagged) (position : Nat) :
    ∃ ts, Derives .unit ts r ∧ Scans position r.chars ts := by
  induction r generalizing position with
  | and l r ihLeft ihRight =>
      obtain ⟨hLeft, hRight⟩ := untagged_and_iff.1 hUntagged
      obtain ⟨ts, hDerives, hScans⟩ := ihLeft hLeft (position + 1)
      obtain ⟨us, hDerives', hScans'⟩ := ihRight hRight (position + 1 + l.chars.length + 3)
      obtain ⟨opening, mark, closing, hOpening, hMark, hClosing, hJoined⟩ :=
        scans_joined lexeme?_ampersand rfl hScans hScans'
      exact ⟨_, .enclosed hOpening (.and hDerives hMark (.unit hDerives')) hClosing, hJoined⟩
  | or l r ihLeft ihRight =>
      obtain ⟨hLeft, hRight⟩ := untagged_or_iff.1 hUntagged
      obtain ⟨ts, hDerives, hScans⟩ := ihLeft hLeft (position + 1)
      obtain ⟨us, hDerives', hScans'⟩ := ihRight hRight (position + 1 + l.chars.length + 3)
      obtain ⟨opening, mark, closing, hOpening, hMark, hClosing, hJoined⟩ :=
        scans_joined lexeme?_bar rfl hScans hScans'
      exact ⟨_, .enclosed hOpening (.or hDerives hMark (.unit hDerives')) hClosing, hJoined⟩
  | not inner ih =>
      obtain ⟨ts, hDerives, hScans⟩ := ih hUntagged (position + 2)
      obtain ⟨mark, opening, closing, hMark, hOpening, hClosing, hNegated⟩ := scans_negated hScans
      exact ⟨_, .not hMark hOpening (.unit hDerives) hClosing, hNegated⟩
  | comparison op v =>
      obtain ⟨core, preRelease, build⟩ := v
      obtain ⟨rfl, rfl⟩ := untagged_comparison_iff.1 hUntagged
      have hChars : (comparison op { core := core }).chars = op.chars ++ core.chars := by
        simp [chars, Version.chars]
      rw [hChars]
      refine ⟨_, .atom ?_, scans_comparison op core⟩
      exact .comparison op.ofKind?_kind (numbers_dotted (List.cons_ne_nil _ _)) (Nat.le_refl 4)

/-! ## Operands with tags -/

/-- Whatever stands around a text, it is not scanned without a hyphen after an operand. -/
def Spoils (cs : List Char) : Prop :=
  ∀ (position : Nat) (rest : List Char) (ts : List Token) (inOperand : Bool),
    Token.scan position (cs ++ rest) = .ok ts → hyphenated inOperand ts = true

section Spoiling

variable {kind : Kind} {c : Char} {cs ds : List Char}

theorem Spoils.append (h : Spoils cs) (ds : List Char) : Spoils (cs ++ ds) := by
  intro position rest ts inOperand hScan
  rw [List.append_assoc] at hScan
  exact h position (ds ++ rest) ts inOperand hScan

/-- A divider in front does not help. -/
theorem Spoils.cons (hLexeme : ∀ rest, Token.lexeme? (c :: (cs ++ rest)) = some (kind, [c]))
    (hBlank : Text.isBlank c = false) (hDivides : divides kind = true) (h : Spoils cs) :
    Spoils (c :: cs) := by
  intro position rest ts inOperand hScan
  rw [List.cons_append, Token.scan_mark (hLexeme rest) hBlank] at hScan
  obtain ⟨us, hRest, rfl⟩ := map_eq_ok_iff.1 hScan
  rw [hyphenated_cons hDivides]
  exact h _ rest us false hRest

/-- Nor does a range without tags, in front of a connective. -/
theorem Spoils.append_connective (hScans : ∀ position, ∃ ts, Scans position cs ts)
    (hLexeme : ∀ us, Token.lexeme? (c :: ' ' :: us) = some (kind, [c]))
    (hBlank : Text.isBlank c = false) (hDivides : divides kind = true) (h : Spoils ds) :
    Spoils (cs ++ ' ' :: c :: ' ' :: ds) := by
  intro position rest ts inOperand hScan
  obtain ⟨us, hUs⟩ := hScans position
  rw [List.append_assoc, List.cons_append, List.cons_append, List.cons_append,
    hUs _ (by simp), scan_connective (hLexeme _) hBlank, map_map] at hScan
  obtain ⟨vs, hRest, rfl⟩ := map_eq_ok_iff.1 hScan
  rw [hyphenated_append_cons hDivides, h _ rest vs false hRest, Bool.or_true]

/-- Of two ranges with a connective between them, one that spoils is enough. -/
theorem spoils_joined {l r : Range}
    (hLexeme : ∀ us, Token.lexeme? (c :: ' ' :: us) = some (kind, [c]))
    (hBlank : Text.isBlank c = false) (hDivides : divides kind = true)
    (hLeft : ¬ l.Untagged → Spoils l.chars) (hRight : ¬ r.Untagged → Spoils r.chars)
    (hTagged : ¬ (l.Untagged ∧ r.Untagged)) :
    Spoils (['('] ++ l.chars ++ [' ', c, ' '] ++ r.chars ++ [')']) := by
  have hShape : ['('] ++ l.chars ++ [' ', c, ' '] ++ r.chars ++ [')'] =
      '(' :: (l.chars ++ ' ' :: c :: ' ' :: (r.chars ++ [')'])) := by
    simp
  rw [hShape]
  refine Spoils.cons (fun _ => rfl) rfl rfl ?_
  -- Without tags on the left, scanning gets as far as the connective, and the tag is behind it.
  by_cases hPlain : l.Untagged
  · have hRight := hRight fun h => hTagged ⟨hPlain, h⟩
    refine .append_connective (fun position => ?_) hLexeme hBlank hDivides (hRight.append _)
    obtain ⟨ts, -, hScans⟩ := exists_derives_of_untagged hPlain position
    exact ⟨ts, hScans⟩
  · exact (hLeft hPlain).append _

/-- A plus sign is no lexeme. -/
theorem scan_plus (position : Nat) (cs : List Char) :
    Token.scan position ('+' :: cs) = .error ⟨'+', position⟩ := by
  have hNone : Token.lexeme? ('+' :: cs) = none := rfl
  rw [Token.scan, if_neg (by decide), hNone]

/-- Behind a core, a tag is a hyphen or is not scanned at all. -/
theorem spoils_comparison (op : Operator) {v : Version}
    (hTagged : ¬ (v.preRelease = none ∧ v.build = none)) : Spoils (op.chars ++ v.chars) := by
  intro position rest ts inOperand hScan
  have hNumbers : Numbers (Token.ofRuns (position + op.chars.length)
      (v.core.components.map Component.run)) v.core.components :=
    numbers_dotted (List.cons_ne_nil _ _)
  have hCore : Scans position (op.chars ++ v.core.chars) _ := scans_comparison op v.core
  cases hPreRelease : v.preRelease with
  | some t =>
      have hShape : op.chars ++ v.chars ++ rest = op.chars ++ v.core.chars ++
          '-' :: (t.chars ++ Version.marked '+' v.build ++ rest) := by
        simp [Version.chars, hPreRelease]
      rw [hShape, hCore _ (by simp), Token.scan_mark rfl rfl, map_map] at hScan
      obtain ⟨us, -, rfl⟩ := map_eq_ok_iff.1 hScan
      rw [List.cons_append, hyphenated_cons_operator op.ofKind?_kind,
        hyphenated_numbers_append hNumbers]
      rfl
  | none =>
      cases hBuild : v.build with
      | some t =>
          have hShape : op.chars ++ v.chars ++ rest = op.chars ++ v.core.chars ++
              '+' :: (t.chars ++ rest) := by
            simp [Version.chars, hPreRelease, hBuild]
          rw [hShape, hCore _ (by simp), scan_plus] at hScan
          cases hScan
      | none => exact absurd ⟨hPreRelease, hBuild⟩ hTagged

end Spoiling

/-- With a tag somewhere, a rendered range spoils every text. -/
theorem spoils_of_tagged {r : Range} (hTagged : ¬ r.Untagged) : Spoils r.chars := by
  induction r with
  | and l r ihLeft ihRight =>
      exact spoils_joined lexeme?_ampersand rfl rfl ihLeft ihRight
        (mt untagged_and_iff.2 hTagged)
  | or l r ihLeft ihRight =>
      exact spoils_joined lexeme?_bar rfl rfl ihLeft ihRight (mt untagged_or_iff.2 hTagged)
  | not inner ih =>
      have hInner := (ih hTagged).append [')']
      have hOpened : Spoils ('(' :: (inner.chars ++ [')'])) :=
        .cons (fun _ => rfl) rfl rfl hInner
      exact .cons (fun _ => rfl) rfl rfl hOpened
  | comparison op v =>
      exact spoils_comparison op fun hPlain => hTagged (untagged_comparison_iff.2 hPlain)

/-! ## Parsing rendered ranges -/

theorem toList_text (r : Range) : r.text.toList = r.chars := String.toList_ofList

theorem parse_text_of_untagged {r : Range} (hUntagged : r.Untagged) :
    Range.parse r.text = .ok r := by
  obtain ⟨ts, hDerives, hScans⟩ := exists_derives_of_untagged hUntagged 0
  refine parse_eq_ok_iff.2 ⟨ts, ?_, .unit hDerives⟩
  rw [toList_text]
  exact hScans.ofChars

theorem untagged_of_parse_text {r r' : Range} (hParse : Range.parse r.text = .ok r') :
    r.Untagged := by
  obtain ⟨ts, hTokens, hDerives⟩ := parse_eq_ok_iff.1 hParse
  rw [toList_text, ← List.append_nil r.chars] at hTokens
  refine Decidable.byContradiction fun hTagged => ?_
  have hHyphen := spoils_of_tagged hTagged 0 [] ts false hTokens
  rw [not_hyphenated_of_derives hDerives] at hHyphen
  cases hHyphen

theorem untagged_comparison (op : Operator) (c : Core) : (comparison op c).Untagged :=
  untagged_comparison_iff.2 ⟨rfl, rfl⟩

theorem untagged_of_band {before after : List Component} {c : Component} {r : Range}
    (h : Band before c after r) : r.Untagged := by
  cases h with
  | upTo _ => exact untagged_and_iff.2 ⟨untagged_comparison _ _, untagged_comparison _ _⟩

/-- What is parsed has no tags. -/
theorem untagged_of_derives {kind : Phrase} {ts : List Token} {r : Range}
    (h : Derives kind ts r) : r.Untagged := by
  induction h with
  | unit _ ih => exact ih
  | and _ _ _ ihLeft ihRight => exact untagged_and_iff.2 ⟨ihLeft, ihRight⟩
  | or _ _ _ ihLeft ihRight => exact untagged_or_iff.2 ⟨ihLeft, ihRight⟩
  | enclosed _ _ _ ih => exact ih
  | not _ _ _ _ ih => exact ih
  | atom hAtom =>
      cases hAtom with
      | tilde _ _ _ hBand => exact untagged_of_band hBand
      | caret _ _ _ _ _ hBand => exact untagged_of_band hBand
      | caretZero => exact untagged_comparison _ _
      | any => exact untagged_comparison _ _
      | wildcard _ _ _ _ hBand => exact untagged_of_band hBand
      | hyphen => exact untagged_and_iff.2 ⟨untagged_comparison _ _, untagged_comparison _ _⟩
      | partialVersion _ _ hBand => exact untagged_of_band hBand
      | plain => exact untagged_comparison _ _
      | comparison => exact untagged_comparison _ _

/-- **Rendered ranges**: the text of a range is parsed exactly if no operand carries a tag, and
then to that very range. In particular what is parsed is parsed again from its own text. -/
theorem parse_text_eq_ok_iff :
    (∀ r r' : Range, Range.parse r.text = .ok r' ↔
      r' = r ∧ ∀ v ∈ r.operands, v.preRelease = none ∧ v.build = none) ∧
    ∀ (s : String) (r : Range), Range.parse s = .ok r → Range.parse r.text = .ok r := by
  refine ⟨fun r r' => ⟨fun hParse => ?_, ?_⟩, fun s r hParse => ?_⟩
  · have hUntagged := untagged_of_parse_text hParse
    rw [parse_text_of_untagged hUntagged] at hParse
    exact ⟨(Except.ok.inj hParse).symm, hUntagged⟩
  · rintro ⟨rfl, hUntagged⟩
    exact parse_text_of_untagged hUntagged
  · obtain ⟨ts, -, hDerives⟩ := parse_eq_ok_iff.1 hParse
    exact parse_text_of_untagged (untagged_of_derives hDerives)

/-- The range `~1.2` is shown as a band, which is parsed to the same range. -/
theorem parse_text_of_tilde :
    ∃ r, Range.parse "~1.2" = .ok r ∧ r.text = "(>=1.2.0.0 & <1.3.0.0)" ∧
      Range.parse "(>=1.2.0.0 & <1.3.0.0)" = .ok r := by
  obtain ⟨r, hBand, hText⟩ : ∃ r, Band [⟨1, by decide⟩] ⟨2, by decide⟩ [] r ∧
      r.text = "(>=1.2.0.0 & <1.3.0.0)" :=
    ⟨_, @Band.upTo _ _ _ ⟨3, by decide⟩ rfl, by decide⟩
  have hParse := parse_tilde (by decide) hBand
  rw [show "~" ++ dottedText ([⟨1, by decide⟩] ++ [⟨2, by decide⟩]) = "~1.2" by decide] at hParse
  have hAgain := parse_text_eq_ok_iff.2 "~1.2" r hParse
  rw [hText] at hAgain
  exact ⟨r, hParse, hText, hAgain⟩

end Range

end Versioning
