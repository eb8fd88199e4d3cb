import Versioning.Outcome
import Versioning.Proofs.Token.Lexemes

/-!
# Cutting texts into tokens

A text can be tokenized exactly if it is made of white space and lexemes in any
order. One half of this is not plain: a text may be made of lexemes in several
ways, and the lexer follows one of them only, taking the longest lexeme each
time. It may take more than the lexeme that stands first in a given way, as
where `&` is followed by `&&`. What it takes in excess are characters each of
which is a lexeme by itself (`isLoose`), and such characters can be removed from
the front of a text that is made of lexemes (`Lexical.of_loose_cons`), so what is
left is made of lexemes again.

`Cuts` says how a text falls into tokens without saying how they are found. All
that holds of the tokens of a text is proved of it, by induction on the way in
which the text is cut.

## Main results

* `scan_eq_ok_iff` — the lexer finds the tokens into which a text is cut.
* `Lexical.exists_cuts` — every text made of white space and lexemes is cut into tokens.
* `Cuts.append` — texts are cut one by one, if no lexeme goes on over the seam.
* `tokenize_outcome` — which texts are tokenized, what their tokens are, and where tokenizing
  stops in the other texts.
-/

namespace Versioning.Token

open Text Outcome

variable {position : Nat} {kind kind' : Kind} {c : Char} {l p q cs rest : List Char}
  {t : Token} {ts us : List Token}

/-! ## The steps of the lexer -/

theorem scan_nil : scan position [] = .ok [] := by
  rw [scan]

theorem Leads.isBlank_eq_false (h : Leads kind l (c :: cs)) : isBlank c = false := by
  obtain ⟨d, us, rfl⟩ := List.exists_cons_of_ne_nil h.lexeme.ne_nil
  obtain ⟨rfl, -⟩ := List.cons_prefix_cons.1 h.isPrefix
  exact h.lexeme.isBlank_eq_false List.mem_cons_self

theorem scan_leads (h : Leads kind l (l ++ rest)) :
    scan position (l ++ rest) =
      (scan (position + l.length) rest).map fun ts => ⟨kind, some l, position⟩ :: ts := by
  obtain ⟨c, cs, rfl⟩ := List.exists_cons_of_ne_nil h.lexeme.ne_nil
  exact scan_lexeme (lexeme?_eq_some_iff.2 h) (h.lexeme.isBlank_eq_false List.mem_cons_self)

theorem scan_illegal (hBlank : isBlank c = false)
    (hNone : ∀ kind l, Lexeme kind l → ¬ l <+: c :: rest) :
    scan position (c :: rest) = .error ⟨c, position⟩ := by
  rw [scan, if_neg (by simp [hBlank]), lexeme?_eq_none_iff.2 hNone]

/-- What is to be shown of a text is shown by what stands at its front: nothing, white space, a
lexeme or a character with which no lexeme starts. -/
@[elab_as_elim] theorem text_induction {motive : Nat → List Char → Prop}
    (nil : ∀ position, motive position [])
    (blank : ∀ position c rest, isBlank c = true → motive (position + 1) rest →
      motive position (c :: rest))
    (lexeme : ∀ position kind l rest, Leads kind l (l ++ rest) →
      motive (position + l.length) rest → motive position (l ++ rest))
    (illegal : ∀ position c rest, isBlank c = false →
      (∀ kind l, Lexeme kind l → ¬ l <+: c :: rest) → motive position (c :: rest))
    (position : Nat) (cs : List Char) : motive position cs := by
  induction position, cs using scan.induct with
  | case1 position => exact nil position
  | case2 position c rest hBlank ih => exact blank position c rest hBlank ih
  | case3 position c rest hBlank hNone =>
      exact illegal position c rest (by simpa using hBlank) (lexeme?_eq_none_iff.1 hNone)
  | case4 position c rest _ kind l hSome ih =>
      have hLeads := lexeme?_eq_some_iff.1 hSome
      obtain ⟨d, us, rfl⟩ := List.exists_cons_of_ne_nil hLeads.lexeme.ne_nil
      obtain ⟨after, hText⟩ := hLeads.isPrefix
      rw [← hText] at hLeads ⊢
      obtain ⟨-, rfl⟩ := List.cons_eq_cons.1 hText
      exact lexeme position kind (d :: us) after hLeads (by simpa using ih)

/-! ## Texts that are cut into tokens -/

/-- From a position on, a text is cut into tokens: the longest lexeme becomes a token each time,
and white space is passed over. -/
inductive Cuts : Nat → List Char → List Token → Prop where
  | nil {position : Nat} : Cuts position [] []
  | blank {position : Nat} {c : Char} {cs : List Char} {ts : List Token}
      (hBlank : isBlank c = true) (hRest : Cuts (position + 1) cs ts) : Cuts position (c :: cs) ts
  | lexeme {position : Nat} {kind : Kind} {l cs : List Char} {ts : List Token}
      (hLeads : Leads kind l (l ++ cs)) (hRest : Cuts (position + l.length) cs ts) :
      Cuts position (l ++ cs) (⟨kind, some l, position⟩ :: ts)

/-- The tokens that the lexer finds are those into which the text is cut. -/
theorem scan_eq_ok_iff : scan position cs = .ok ts ↔ Cuts position cs ts := by
  constructor
  · intro hScan
    induction position, cs using text_induction generalizing ts with
    | nil position =>
        rw [scan_nil] at hScan
        cases hScan
        exact .nil
    | blank position c rest hBlank ih =>
        rw [scan_blank hBlank] at hScan
        exact .blank hBlank (ih hScan)
    | lexeme position kind l rest hLeads ih =>
        rw [scan_leads hLeads] at hScan
        obtain ⟨us, hRest, rfl⟩ := map_eq_ok_iff.1 hScan
        exact .lexeme hLeads (ih hRest)
    | illegal position c rest hBlank hNone =>
        rw [scan_illegal hBlank hNone] at hScan
        cases hScan
  · intro hCuts
    induction hCuts with
    | nil => exact scan_nil
    | blank hBlank _ ih => rw [scan_blank hBlank, ih]
    | lexeme hLeads _ ih =>
        rw [scan_leads hLeads, ih]
        rfl

theorem ofChars_eq_ok_iff : ofChars cs = .ok ts ↔ Cuts 0 cs ts := scan_eq_ok_iff

/-- The texts of the numeric tokens are digit runs. -/
def Digital (ts : List Token) : Prop :=
  ∀ t ∈ ts, t.kind = .numeric → ∃ r : Run Char.isDigit, t.chars = r.chars

theorem Digital.suffix (h : Digital ts) (hEnd : us <:+ ts) : Digital us :=
  fun t hMem => h t (hEnd.mem hMem)

namespace Cuts

/-- Two texts are cut one after the other, unless a lexeme goes on over the seam. -/
theorem append (hFirst : Cuts position cs ts) (hSeam : ∀ c ∈ rest.head?, continues c = false)
    (hSecond : Cuts (position + cs.length) rest us) : Cuts position (cs ++ rest) (ts ++ us) := by
  induction hFirst with
  | nil => exact hSecond
  | blank hBlank _ ih =>
      refine .blank hBlank (ih ?_)
      rwa [List.length_cons, Nat.add_comm _ 1, ← Nat.add_assoc] at hSecond
  | @lexeme position kind l cs ts hLeads _ ih =>
      have hLonger := hLeads.append hSeam
      rw [List.length_append, ← Nat.add_assoc] at hSecond
      rw [List.append_assoc] at hLonger ⊢
      exact .lexeme hLonger (ih hSecond)

/-- Each token is the longest lexeme at its place in the text. -/
theorem exists_split (h : Cuts position cs ts) (hMem : t ∈ ts) :
    ∃ before l after, cs = before ++ (l ++ after) ∧ Leads t.kind l (l ++ after) ∧
      t = ⟨t.kind, some l, position + before.length⟩ := by
  induction h with
  | nil => cases hMem
  | @blank position c cs ts _ _ ih =>
      obtain ⟨before, l, after, rfl, hLeads, hToken⟩ := ih hMem
      refine ⟨c :: before, l, after, rfl, hLeads, ?_⟩
      rwa [List.length_cons, Nat.add_comm _ 1, ← Nat.add_assoc]
  | @lexeme position kind l cs ts hLeads _ ih =>
      rcases List.mem_cons.1 hMem with rfl | hMem
      · exact ⟨[], l, cs, rfl, hLeads, rfl⟩
      · obtain ⟨before, l', after, rfl, hLeads', hToken⟩ := ih hMem
        refine ⟨l ++ before, l', after, (List.append_assoc ..).symm, hLeads', ?_⟩
        rwa [List.length_append, ← Nat.add_assoc]

theorem position_le (h : Cuts position cs ts) (hMem : t ∈ ts) : position ≤ t.position := by
  obtain ⟨before, l, after, -, -, hToken⟩ := h.exists_split hMem
  rw [hToken]
  exact Nat.le_add_right _ _

theorem position_lt_stop (h : Cuts position cs ts) (hMem : t ∈ ts) : t.position < t.stop := by
  obtain ⟨before, l, after, -, hLeads, hToken⟩ := h.exists_split hMem
  have hPos := List.length_pos_iff.2 hLeads.lexeme.ne_nil
  rw [hToken]
  exact Nat.lt_add_of_pos_right hPos

theorem stop_le (h : Cuts position cs ts) (hMem : t ∈ ts) : t.stop ≤ position + cs.length := by
  obtain ⟨before, l, after, rfl, -, hToken⟩ := h.exists_split hMem
  rw [hToken]
  simp only [stop, chars, Option.getD_some, List.length_append]
  omega

theorem kind_ne_endOfInput (h : Cuts position cs ts) (hMem : t ∈ ts) : t.kind ≠ .endOfInput := by
  obtain ⟨before, l, after, -, hLeads, -⟩ := h.exists_split hMem
  exact hLeads.lexeme.kind_ne_endOfInput

/-- A number is a digit run. -/
theorem digital (h : Cuts position cs ts) : Digital ts := by
  intro t hMem hKind
  obtain ⟨before, l, after, -, hLeads, hToken⟩ := h.exists_split hMem
  have hLexeme : Lexeme .numeric l := hKind ▸ hLeads.lexeme
  cases hLexeme with
  | number hNe hDigits =>
      rw [hToken]
      exact ⟨⟨l, hNe, hDigits⟩, rfl⟩
  | word hWord => cases hWord

/-- Every token starts where those before it have ended, or later. -/
theorem pairwise_stop_le (h : Cuts position cs ts) :
    ts.Pairwise fun t u => t.stop ≤ u.position := by
  induction h with
  | nil => exact .nil
  | blank _ _ ih => exact ih
  | lexeme _ hRest ih => exact .cons (fun u hMem => hRest.position_le hMem) ih

/-- A character that belongs to no token is white space. -/
theorem isBlank_of_outside (h : Cuts position cs ts) {i : Nat} (hAt : cs[i]? = some c)
    (hOutside : ∀ t ∈ ts, ¬ (t.position ≤ position + i ∧ position + i < t.stop)) :
    isBlank c = true := by
  induction h generalizing i with
  | nil => cases hAt
  | @blank position d cs ts hBlank _ ih =>
      cases i with
      | zero =>
          obtain rfl : d = c := Option.some.inj hAt
          exact hBlank
      | succ i =>
          refine ih (i := i) hAt ?_
          rwa [Nat.add_assoc, Nat.add_comm 1 i]
  | @lexeme position kind l cs ts _ _ ih =>
      have hAfter : l.length ≤ i := by
        refine Nat.le_of_not_lt fun hInside => hOutside _ List.mem_cons_self ⟨?_, ?_⟩
        · exact Nat.le_add_right _ _
        · exact Nat.add_lt_add_left hInside _
      rw [List.getElem?_append_right hAfter] at hAt
      refine ih hAt fun t hMem => ?_
      rw [Nat.add_assoc, Nat.add_sub_cancel' hAfter]
      exact hOutside t (List.mem_cons_of_mem _ hMem)

end Cuts

/-! ## Texts made of lexemes -/

/-- A text is made of white space and lexemes, one after the other in any order. -/
inductive Lexical : List Char → Prop where
  | nil : Lexical []
  | blank {c : Char} {cs : List Char} (hBlank : isBlank c = true) (hRest : Lexical cs) :
      Lexical (c :: cs)
  | lexeme {kind : Kind} {l cs : List Char} (hLexeme : Lexeme kind l) (hRest : Lexical cs) :
      Lexical (l ++ cs)

theorem Cuts.lexical (h : Cuts position cs ts) : Lexical cs := by
  induction h with
  | nil => exact .nil
  | blank hBlank _ ih => exact .blank hBlank ih
  | lexeme hLeads _ ih => exact .lexeme hLeads.lexeme ih

/-- Characters that are lexemes by themselves and may stand in a lexeme after its first one. -/
def isLoose (c : Char) : Bool := c.isDigit || ['=', '&', '|'].contains c

theorem exists_lexeme_of_isLoose (hLoose : isLoose c = true) : ∃ kind, Lexeme kind [c] := by
  have hTable : ∀ l ∈ [['='], ['&'], ['|']], ∃ kind ∈ Kind.all, l ∈ kind.words := by decide
  cases hDigit : c.isDigit with
  | true => exact ⟨.numeric, .number (List.cons_ne_nil c []) (by simpa using hDigit)⟩
  | false =>
      simp only [isLoose, hDigit, Bool.false_or, List.contains_iff_mem] at hLoose
      obtain ⟨kind, -, hWord⟩ := hTable [c] (by simpa using hLoose)
      exact ⟨kind, .word hWord⟩

/-- If a loose character starts a lexeme, the others in it are loose as well. -/
theorem Lexeme.isLoose_of_cons (h : Lexeme kind (c :: l)) (hLoose : isLoose c = true) :
    ∀ d ∈ l, isLoose d = true := by
  have hTable : ∀ s ∈ spellings, s.2.head?.any isLoose = true →
      s.2.tail.all isLoose = true := by
    decide
  intro d hMem
  cases h with
  | number _ hDigits => simp [isLoose, hDigits d (List.mem_cons_of_mem _ hMem)]
  | word hWord =>
      exact List.all_eq_true.1 (hTable _ (mem_spellings_iff.2 hWord) hLoose) d hMem

/-- What a lexeme has more than another one at its front is loose. -/
theorem Lexeme.isLoose_of_append (h : Lexeme kind (p ++ q)) (h' : Lexeme kind' p) :
    ∀ d ∈ q, isLoose d = true := by
  have hTable : ∀ s ∈ spellings, ∀ s' ∈ spellings, s'.2 <+: s.2 →
      (s.2.drop s'.2.length).all isLoose = true := by
    decide
  intro d hMem
  have hNumeric := h'.numeric_iff h (List.prefix_append p q)
  cases h with
  | number _ hDigits => simp [isLoose, hDigits d (List.mem_append_right _ hMem)]
  | word hWord =>
      cases h' with
      | number hNe hDigits =>
          obtain rfl := hNumeric.1 rfl
          cases hWord
      | word hWord' =>
          have hAll := hTable _ (mem_spellings_iff.2 hWord) _ (mem_spellings_iff.2 hWord')
            (List.prefix_append p q)
          rw [List.drop_left] at hAll
          exact List.all_eq_true.1 hAll d hMem

namespace Lexical

/-- A text made of lexemes starts with one of them, if not with white space. -/
theorem exists_lexeme (h : Lexical (c :: cs)) (hBlank : isBlank c = false) :
    ∃ kind l rest, Lexeme kind l ∧ c :: cs = l ++ rest ∧ Lexical rest := by
  generalize hText : c :: cs = text at h
  cases h with
  | nil => cases hText
  | blank hBlank' _ =>
      cases hText
      rw [hBlank] at hBlank'
      cases hBlank'
  | lexeme hLexeme hRest => exact ⟨_, _, _, hLexeme, rfl, hRest⟩

theorem of_blank_cons (h : Lexical (c :: cs)) (hBlank : isBlank c = true) : Lexical cs := by
  generalize hText : c :: cs = text at h
  cases h with
  | nil => cases hText
  | blank _ hRest =>
      cases hText
      exact hRest
  | @lexeme kind l rest hLexeme hRest =>
      obtain ⟨d, us, rfl⟩ := List.exists_cons_of_ne_nil hLexeme.ne_nil
      cases hText
      rw [hLexeme.isBlank_eq_false List.mem_cons_self] at hBlank
      cases hBlank

/-- Loose characters may be put in front. -/
theorem loose_append (hLoose : ∀ c ∈ l, isLoose c = true) (h : Lexical cs) :
    Lexical (l ++ cs) := by
  induction l with
  | nil => exact h
  | cons c l ih =>
      obtain ⟨kind, hLexeme⟩ := exists_lexeme_of_isLoose (hLoose c List.mem_cons_self)
      have hRest := ih fun d hMem => hLoose d (List.mem_cons_of_mem _ hMem)
      exact .lexeme (l := [c]) hLexeme hRest

/-- A loose character may be removed from the front: what it leaves of a lexeme is loose. -/
theorem of_loose_cons (h : Lexical (c :: cs)) (hLoose : isLoose c = true) : Lexical cs := by
  obtain ⟨kind, hSingle⟩ := exists_lexeme_of_isLoose hLoose
  obtain ⟨kind', l, rest, hLexeme, hText, hRest⟩ :=
    h.exists_lexeme (hSingle.isBlank_eq_false List.mem_cons_self)
  obtain ⟨d, us, rfl⟩ := List.exists_cons_of_ne_nil hLexeme.ne_nil
  cases hText
  exact hRest.loose_append (hLexeme.isLoose_of_cons hLoose)

theorem of_loose_append (hLoose : ∀ c ∈ l, isLoose c = true) (h : Lexical (l ++ cs)) :
    Lexical cs := by
  induction l with
  | nil => exact h
  | cons c l ih =>
      exact ih (fun d hMem => hLoose d (List.mem_cons_of_mem _ hMem))
        (h.of_loose_cons (hLoose c List.mem_cons_self))

/-- The longest lexeme may be removed from the front, whichever lexeme the text was made with. -/
theorem of_leads (hLeads : Leads kind l (l ++ cs)) (h : Lexical (l ++ cs)) : Lexical cs := by
  obtain ⟨c, us, rfl⟩ := List.exists_cons_of_ne_nil hLeads.lexeme.ne_nil
  obtain ⟨kind', p, rest, hLexeme, hText, hRest⟩ := h.exists_lexeme hLeads.isBlank_eq_false
  have hFits : p <+: c :: us ++ cs := ⟨rest, hText.symm⟩
  have hShorter := hLeads.longest _ _ hLexeme hFits
  obtain ⟨q, hMore⟩ := List.prefix_of_prefix_length_le hFits hLeads.isPrefix hShorter
  have hLoose : ∀ d ∈ q, isLoose d = true := by
    have hLonger := hLeads.lexeme
    rw [← hMore] at hLonger
    exact hLonger.isLoose_of_append hLexeme
  have hRemains : rest = q ++ cs := by
    replace hText : c :: us ++ cs = p ++ rest := hText
    rw [← hMore, List.append_assoc] at hText
    exact (List.append_cancel_left hText).symm
  rw [hRemains] at hRest
  exact hRest.of_loose_append hLoose

/-- **Completeness**: in whichever way a text is made of lexemes, it is cut into tokens. -/
theorem exists_cuts (h : Lexical cs) (position : Nat) : ∃ ts, Cuts position cs ts := by
  induction position, cs using text_induction with
  | nil position => exact ⟨[], .nil⟩
  | blank position c rest hBlank ih =>
      obtain ⟨ts, hCuts⟩ := ih (h.of_blank_cons hBlank)
      exact ⟨ts, .blank hBlank hCuts⟩
  | lexeme position kind l rest hLeads ih =>
      obtain ⟨ts, hCuts⟩ := ih (h.of_leads hLeads)
      exact ⟨_, .lexeme hLeads hCuts⟩
  | illegal position c rest hBlank hNone =>
      obtain ⟨kind, l, after, hLexeme, hText, -⟩ := h.exists_lexeme hBlank
      exact absurd ⟨after, hText.symm⟩ (hNone kind l hLexeme)

end Lexical

/-- Where the lexer stops, nothing can go on, and what it has read is made of lexemes. -/
theorem exists_split_of_scan_error {e : IllegalCharacter} (hScan : scan position cs = .error e) :
    ∃ before rest, cs = before ++ e.character :: rest ∧ e.position = position + before.length ∧
      Lexical before ∧ isBlank e.character = false ∧
      ∀ kind l, Lexeme kind l → ¬ l <+: e.character :: rest := by
  induction position, cs using text_induction with
  | nil position =>
      rw [scan_nil] at hScan
      cases hScan
  | blank position c rest hBlank ih =>
      rw [scan_blank hBlank] at hScan
      obtain ⟨before, after, rfl, hPosition, hLexical, hEnd⟩ := ih hScan
      refine ⟨c :: before, after, rfl, ?_, .blank hBlank hLexical, hEnd⟩
      rw [hPosition, List.length_cons]
      omega
  | lexeme position kind l rest hLeads ih =>
      rw [scan_leads hLeads, map_eq_error_iff] at hScan
      obtain ⟨before, after, rfl, hPosition, hLexical, hEnd⟩ := ih hScan
      refine ⟨l ++ before, after, (List.append_assoc ..).symm, ?_,
        .lexeme hLeads.lexeme hLexical, hEnd⟩
      rw [hPosition, List.length_append, Nat.add_assoc]
  | illegal position c rest hBlank hNone =>
      rw [scan_illegal hBlank hNone] at hScan
      cases hScan
      exact ⟨[], rest, rfl, rfl, .nil, hBlank, hNone⟩

/-! ## Tokenizing -/

/-- What the tokens of a text have to do with it. -/
structure TokensOf (cs : List Char) (ts : List Token) : Prop where
  /-- The last token is the end of the input, after all characters, and no other one is. -/
  ends : ∃ us, ts = us ++ [endAt cs.length] ∧ ∀ t ∈ us, t.kind ≠ .endOfInput
  /-- The positions increase. -/
  increasing : ts.Pairwise fun t u => t.position < u.position
  /-- No two tokens share a character. -/
  apart : ts.Pairwise fun t u => t.stop ≤ u.position
  /-- The text of a token stands at its position and is a lexeme of its kind. -/
  lexeme : ∀ t ∈ ts, t.kind ≠ .endOfInput →
    ∃ l, t.lexeme = some l ∧ l <+: cs.drop t.position ∧ Lexeme t.kind l
  /-- Characters outside the tokens are white space. -/
  blank : ∀ (i : Nat) (c : Char), cs[i]? = some c →
    (∀ t ∈ ts, ¬ (t.position ≤ i ∧ i < t.stop)) → isBlank c = true
  /-- No number is followed by a digit. -/
  number_ends : ∀ t ∈ ts, t.kind = .numeric → ∀ c, cs[t.stop]? = some c → c.isDigit = false
  /-- No operator that an equals sign would change is followed by one. -/
  operator_ends : ∀ t ∈ ts, t.kind ∈ [Kind.not, .greater, .less] → cs[t.stop]? ≠ some '='
  /-- No connective of one mark is followed by the same mark. -/
  connective_ends : ∀ t ∈ ts, ∀ c ∈ ['&', '|'], t.lexeme = some [c] → cs[t.stop]? ≠ some c

/-- A token is the longest lexeme at its position, and what comes after it is found there. -/
theorem Cuts.leads_drop (h : Cuts 0 cs ts) (hMem : t ∈ ts) :
    ∃ l, t.lexeme = some l ∧ Leads t.kind l (l ++ cs.drop t.stop) ∧
      cs.drop t.position = l ++ cs.drop t.stop := by
  obtain ⟨before, l, after, rfl, hLeads, hToken⟩ := h.exists_split hMem
  have hPosition : t.position = before.length := by
    rw [hToken]
    exact Nat.zero_add _
  have hLexeme : t.lexeme = some l := by rw [hToken]
  have hStop : t.stop = (before ++ l).length := by
    rw [stop, chars, hPosition, hLexeme, List.length_append]
    rfl
  refine ⟨l, hLexeme, ?_⟩
  rw [hStop, hPosition, ← List.append_assoc, List.drop_left, List.append_assoc, List.drop_left]
  exact ⟨hLeads, rfl⟩

/-- The character after a token does not make a longer lexeme of it. -/
theorem Cuts.getElem?_stop_ne (h : Cuts 0 cs ts) (hMem : t ∈ ts) (hText : t.lexeme = some l)
    (hLonger : Lexeme kind (l ++ [c])) : cs[t.stop]? ≠ some c := by
  obtain ⟨l', hText', hLeads, -⟩ := h.leads_drop hMem
  obtain rfl : l = l' := Option.some.inj (hText.symm.trans hText')
  rw [← List.head?_drop]
  exact hLeads.head?_ne hLonger

/-- A number is not followed by a digit, which would belong to it. -/
theorem Cuts.isDigit_after_number (h : Cuts 0 cs ts) (hMem : t ∈ ts) (hKind : t.kind = .numeric)
    (hAt : cs[t.stop]? = some c) : c.isDigit = false := by
  obtain ⟨l, hText, hLeads, -⟩ := h.leads_drop hMem
  refine Bool.eq_false_iff.2 fun hDigit => ?_
  have hLonger : Lexeme .numeric (l ++ [c]) := by
    refine .number (by simp) fun d hMem => ?_
    rcases List.mem_append.1 hMem with hMem | hMem
    · exact (hLeads.lexeme.isDigit_iff hMem).2 hKind
    · rwa [List.mem_singleton.1 hMem]
  exact h.getElem?_stop_ne hMem hText hLonger hAt

/-- An operator of one character is not followed by an equals sign, which would change it. -/
theorem Cuts.ne_equal_after_operator (h : Cuts 0 cs ts) (hMem : t ∈ ts)
    (hKind : t.kind ∈ [Kind.not, .greater, .less]) : cs[t.stop]? ≠ some '=' := by
  have hTable : ∀ kind ∈ [Kind.not, .greater, .less], kind ≠ .numeric ∧
      ∀ l ∈ kind.words, ∃ kind' ∈ Kind.all, l ++ ['='] ∈ kind'.words := by
    decide
  obtain ⟨hNumeric, hLonger⟩ := hTable t.kind hKind
  obtain ⟨l, hText, hLeads, -⟩ := h.leads_drop hMem
  obtain ⟨kind, -, hWord⟩ := hLonger l (hLeads.lexeme.mem_words hNumeric)
  exact h.getElem?_stop_ne hMem hText (.word hWord)

/-- A connective of one mark is not followed by the same mark: two are one connective. -/
theorem Cuts.ne_mark_after_connective (h : Cuts 0 cs ts) (hMem : t ∈ ts)
    (hMark : c ∈ ['&', '|']) (hText : t.lexeme = some [c]) : cs[t.stop]? ≠ some c := by
  have hTable : ∀ l ∈ [['&'], ['|']], ∃ kind ∈ Kind.all, l ++ l ∈ kind.words := by decide
  obtain ⟨kind, -, hWord⟩ := hTable [c] (by simpa using hMark)
  exact h.getElem?_stop_ne hMem hText (.word hWord)

/-- The tokens into which a text is cut, with the end of the input after them. -/
theorem Cuts.tokensOf (h : Cuts 0 cs ts) : TokensOf cs (ts ++ [endAt cs.length]) := by
  have hStops : ∀ t ∈ ts, t.stop ≤ (endAt cs.length).position := by
    intro t hMem
    have hStop := h.stop_le hMem
    rwa [Nat.zero_add] at hStop
  have hIncreasing : ts.Pairwise fun t u => t.position < u.position :=
    h.pairwise_stop_le.imp_of_mem fun hMem _ hApart =>
      Nat.lt_of_lt_of_le (h.position_lt_stop hMem) hApart
  have hToken : ∀ t ∈ ts ++ [endAt cs.length], t ∈ ts ∨ t = endAt cs.length := fun t hMem =>
    (List.mem_append.1 hMem).imp_right List.mem_singleton.1
  refine
    { ends := ⟨ts, rfl, fun t hMem => h.kind_ne_endOfInput hMem⟩
      increasing := List.pairwise_append.2 ⟨hIncreasing, List.pairwise_singleton _ _, ?_⟩
      apart := List.pairwise_append.2 ⟨h.pairwise_stop_le, List.pairwise_singleton _ _, ?_⟩
      lexeme := fun t hMem hKind => ?_
      blank := fun i c hAt hOutside => ?_
      number_ends := fun t hMem hKind c hAt => ?_
      operator_ends := fun t hMem hKind => ?_
      connective_ends := fun t hMem c hMark hText => ?_ }
  · intro t hMem u hLast
    obtain rfl := List.mem_singleton.1 hLast
    exact Nat.lt_of_lt_of_le (h.position_lt_stop hMem) (hStops t hMem)
  · intro t hMem u hLast
    obtain rfl := List.mem_singleton.1 hLast
    exact hStops t hMem
  · rcases hToken t hMem with hMem | rfl
    · obtain ⟨l, hText, hLeads, hDrop⟩ := h.leads_drop hMem
      exact ⟨l, hText, ⟨_, hDrop.symm⟩, hLeads.lexeme⟩
    · exact absurd rfl hKind
  · refine h.isBlank_of_outside hAt fun t hMem => ?_
    rw [Nat.zero_add]
    exact hOutside t (List.mem_append_left _ hMem)
  · rcases hToken t hMem with hMem | rfl
    · exact h.isDigit_after_number hMem hKind hAt
    · cases hKind
  · rcases hToken t hMem with hMem | rfl
    · exact h.ne_equal_after_operator hMem hKind
    · exact absurd hKind (show Kind.endOfInput ∉ _ by decide)
  · rcases hToken t hMem with hMem | rfl
    · exact h.ne_mark_after_connective hMem hMark hText
    · cases hText

theorem tokenize_eq_ok_iff_cuts {s : String} :
    tokenize s = .ok ts ↔
      ∃ us, Cuts 0 s.toList us ∧ ts = us ++ [endAt s.toList.length] := by
  unfold tokenize
  rw [map_eq_ok_iff]
  refine exists_congr fun us => ?_
  rw [ofChars_eq_ok_iff, eq_comm (a := ts)]

theorem digital_of_tokenize {s : String} (h : tokenize s = .ok ts) : Digital ts := by
  obtain ⟨us, hCuts, rfl⟩ := tokenize_eq_ok_iff_cuts.1 h
  intro t hMem hKind
  rcases List.mem_append.1 hMem with hMem | hLast
  · exact hCuts.digital t hMem hKind
  · rw [List.mem_singleton.1 hLast] at hKind
    cases hKind

theorem exists_tokenize_iff {s : String} : (∃ ts, tokenize s = .ok ts) ↔ Lexical s.toList := by
  constructor
  · rintro ⟨ts, hTokens⟩
    obtain ⟨us, hCuts, -⟩ := tokenize_eq_ok_iff_cuts.1 hTokens
    exact hCuts.lexical
  · intro hLexical
    obtain ⟨us, hCuts⟩ := hLexical.exists_cuts 0
    exact ⟨_, tokenize_eq_ok_iff_cuts.2 ⟨us, hCuts, rfl⟩⟩

/-- **Tokenizing**: a text is tokenized exactly if it is made of white space and lexemes. Its
tokens are then the longest lexemes, in order and with nothing but white space between them.
Otherwise tokenizing stops at a character with which neither white space nor a lexeme starts,
and what stands before it is tokenized. -/
theorem tokenize_outcome (s : String) :
    ((∃ ts, tokenize s = .ok ts) ↔ Lexical s.toList) ∧
    (∀ ts, tokenize s = .ok ts → TokensOf s.toList ts) ∧
    ∀ e, tokenize s = .error e →
      s.toList[e.position]? = some e.character ∧
      (∃ ts, tokenize (String.ofList (s.toList.take e.position)) = .ok ts) ∧
      isBlank e.character = false ∧
      ∀ kind l, Lexeme kind l → ¬ l <+: s.toList.drop e.position := by
  refine ⟨exists_tokenize_iff, fun ts hTokens => ?_, fun e hError => ?_⟩
  · obtain ⟨us, hCuts, rfl⟩ := tokenize_eq_ok_iff_cuts.1 hTokens
    exact hCuts.tokensOf
  · obtain ⟨before, rest, hText, hPosition, hLexical, hBlank, hNone⟩ :=
      exists_split_of_scan_error (map_eq_error_iff.1 hError)
    rw [Nat.zero_add] at hPosition
    rw [exists_tokenize_iff, String.toList_ofList, hText, hPosition, List.take_left,
      List.drop_left]
    refine ⟨?_, hLexical, hBlank, hNone⟩
    rw [List.getElem?_append_right (Nat.le_refl _), Nat.sub_self]
    rfl

/-- Of three ampersands the first two are one token; a dollar sign is no token at all. -/
theorem tokenize_three_ampersands :
    Lexical ['&', '&', '&'] ∧
      TokensOf ['&', '&', '&']
        [⟨.and, some ['&', '&'], 0⟩, ⟨.and, some ['&'], 2⟩, endAt 3] ∧
      tokenize "& $" = .error ⟨'$', 2⟩ ∧
      ∃ ts, tokenize "& " = .ok ts := by
  have hPair : Leads .and ['&', '&'] ['&', '&', '&'] := lexeme?_eq_some_iff.1 rfl
  have hSingle : Leads .and ['&'] ['&'] := lexeme?_eq_some_iff.1 rfl
  have hTokens : tokenize "&&&" =
      .ok [⟨.and, some ['&', '&'], 0⟩, ⟨.and, some ['&'], 2⟩, endAt 3] := by
    refine tokenize_eq_ok_iff_cuts.2 ⟨[⟨.and, some ['&', '&'], 0⟩, ⟨.and, some ['&'], 2⟩], ?_, rfl⟩
    exact .lexeme (l := ['&', '&']) hPair (.lexeme (l := ['&']) hSingle .nil)
  have hError : tokenize "& $" = .error ⟨'$', 2⟩ := by
    have hDollar : scan 2 ['$'] = .error ⟨'$', 2⟩ := scan_illegal rfl (lexeme?_eq_none_iff.1 rfl)
    have hScan : scan 0 ['&', ' ', '$'] = .error ⟨'$', 2⟩ := by
      rw [scan_mark rfl rfl, scan_blank rfl, hDollar]
      rfl
    exact map_eq_error_iff.2 hScan
  obtain ⟨hExists, hTokensOf, -⟩ := tokenize_outcome "&&&"
  obtain ⟨-, hPrefix, -⟩ := (tokenize_outcome "& $").2.2 _ hError
  exact ⟨hExists.1 ⟨_, hTokens⟩, hTokensOf _ hTokens, hError, hPrefix⟩

end Versioning.Token
