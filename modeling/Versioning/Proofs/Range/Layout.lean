import Versioning.Proofs.Range.Agreement
import Versioning.Proofs.Range.Composition
import Versioning.Proofs.Token.Spacing

/-!
# Layout and spelling

What a text spells depends neither on its layout nor on the way in which its
numbers, connectives and wildcards are written. Two texts whose tokens are alike
are read in step, so they spell one range or fail at the same place
(`agree_parse`). And white space moves tokens but changes none, if it is put at a
place that is not inside a token (`exists_tokenize_spaced`). The only thing that
could go wrong there is that two parts of a lexeme are torn apart, or that two
lexemes had been kept apart by what now follows the first: white space goes on with
no lexeme at all.

## Main results

* `parse_layout` — like texts are parsed alike, and white space between tokens leaves a text like
  itself.
-/

namespace Versioning

namespace Token

open Text

variable {cs before gap after : List Char} {ts : List Token}

/-- Tokens of one kind, which denote the same number if they are numbers. -/
def Alike (t u : Token) : Prop :=
  t.kind = u.kind ∧ (t.kind = .numeric → Decimal.value t.chars = Decimal.value u.chars)

instance (t u : Token) : Decidable (t.Alike u) := inferInstanceAs (Decidable (_ ∧ _))

/-- The kind of a token and its text, without the position. -/
def word (t : Token) : Kind × Option (List Char) := (t.kind, t.lexeme)

theorem alike_of_word_eq {t u : Token} (h : t.word = u.word) : t.Alike u := by
  obtain ⟨hKind, hLexeme⟩ := Prod.mk.inj h
  refine ⟨hKind, fun _ => ?_⟩
  rw [chars, chars, hLexeme]

theorem map_word_later (n : Nat) : (ts.map (later n)).map word = ts.map word := by
  rw [List.map_map]
  rfl

/-- White space between tokens moves those behind it and changes none. -/
theorem Cuts.exists_spaced (hBlank : ∀ c ∈ gap, isBlank c = true) (h : Cuts 0 (before ++ after) ts)
    (hBetween : ∀ t ∈ ts, ¬ (t.position < before.length ∧ before.length < t.stop)) :
    ∃ us, Cuts 0 (before ++ gap ++ after) us ∧ us.map word = ts.map word := by
  cases gap with
  | nil => exact ⟨ts, by rwa [List.append_nil], rfl⟩
  | cons c gap =>
      rw [← Nat.zero_add before.length] at hBetween
      obtain ⟨us, vs, rfl, hFirst, hSecond⟩ := h.split hBetween
      have hSeam : ∀ t ∈ us.getLast?, Parted t.chars (c :: gap ++ after) := fun t _ =>
        parted_of_isBlank (hBlank c List.mem_cons_self)
      have hMoved := (hSecond.later (c :: gap).length).blanks hBlank
      refine ⟨us ++ vs.map (Token.later (c :: gap).length), ?_, ?_⟩
      · rw [List.append_assoc]
        exact hFirst.append_of_parted hSeam hMoved
      · rw [List.map_append, List.map_append, map_word_later]

theorem exists_tokenize_spaced {before gap after : String}
    (hBlank : ∀ c ∈ gap.toList, isBlank c = true) (hTokens : tokenize (before ++ after) = .ok ts)
    (hBetween : ∀ t ∈ ts, ¬ (t.position < before.toList.length ∧ before.toList.length < t.stop)) :
    ∃ us, tokenize (before ++ gap ++ after) = .ok us ∧ us.map word = ts.map word := by
  obtain ⟨vs, hCuts, rfl⟩ := tokenize_eq_ok_iff_cuts.1 hTokens
  rw [String.toList_append] at hCuts
  obtain ⟨us, hSpaced, hWords⟩ := hCuts.exists_spaced hBlank fun t hMem =>
    hBetween t (List.mem_append_left _ hMem)
  refine ⟨us ++ [endAt (before ++ gap ++ after).toList.length], ?_, ?_⟩
  · refine tokenize_eq_ok_iff_cuts.2 ⟨us, ?_, rfl⟩
    rwa [String.toList_append, String.toList_append]
  · rw [List.map_append, List.map_append, hWords]
    rfl

/-- The tokens stand at one place in their lists. -/
def Together (ts us : List Token) (t u : Token) : Prop :=
  ∃ i : Nat, ts[i]? = some t ∧ us[i]? = some u

theorem Together.mem {us : List Token} {t u : Token} (h : Together ts us t u) :
    t ∈ ts ∧ u ∈ us := by
  obtain ⟨i, hLeft, hRight⟩ := h
  exact ⟨List.mem_of_getElem? hLeft, List.mem_of_getElem? hRight⟩

/-- What goes together pair by pair stands together. -/
theorem forall₂_together {R : Token → Token → Prop} {us : List Token} (h : List.Forall₂ R ts us) :
    List.Forall₂ (fun t u => R t u ∧ Together ts us t u) ts us := by
  obtain ⟨hLength, hPairs⟩ := List.forall₂_iff_get.1 h
  refine List.forall₂_iff_get.2 ⟨hLength, fun i hLeft hRight => ⟨hPairs i hLeft hRight, i, ?_⟩⟩
  exact ⟨List.getElem?_eq_getElem hLeft, List.getElem?_eq_getElem hRight⟩

end Token

namespace Range

open Token Text Outcome

variable {s s' : String} {ts us : List Token}

/-- Tokens of texts that are alike can stand for one another, since their numbers are digit runs. -/
theorem interchangeable_of_alike {t u : Token} (hTokens : tokenize s = .ok ts) (hMem : t ∈ ts)
    (hTokens' : tokenize s' = .ok us) (hMem' : u ∈ us) (hAlike : t.Alike u) :
    t.Interchangeable u := by
  refine ⟨hAlike.1, fun hKind => ?_⟩
  have hKind' : u.kind = .numeric := hAlike.1 ▸ hKind
  rw [ofText?_of_digital (digital_of_tokenize hTokens) hMem hKind,
    ofText?_of_digital (digital_of_tokenize hTokens') hMem' hKind', hAlike.2 hKind]

/-- Texts whose tokens are alike spell one range, or fail alike at tokens that stand together. -/
theorem agree_parse (hTokens : tokenize s = .ok ts) (hTokens' : tokenize s' = .ok us)
    (hAlike : List.Forall₂ Alike ts us) :
    Agree (Together ts us) Eq (Range.parse s) (Range.parse s') := by
  have hAll : List.Forall₂ (fun t u => t.Interchangeable u ∧ Together ts us t u) ts us := by
    refine (forall₂_together hAlike).imp fun t u hPair => ⟨?_, hPair.2⟩
    have hMem := hPair.2.mem
    exact interchangeable_of_alike hTokens hMem.1 hTokens' hMem.2 hPair.1
  obtain ⟨vs, hCuts, rfl⟩ := tokenize_eq_ok_iff_cuts.1 hTokens
  obtain ⟨ws, hCuts', rfl⟩ := tokenize_eq_ok_iff_cuts.1 hTokens'
  have hLength : vs.length = ws.length := by simpa using hAlike.length_eq
  -- The ends of the input are the last tokens on either side.
  have hFront := List.forall₂_take_append _ _ _ hAll
  rw [← hLength, List.take_left] at hFront
  have hEnds := List.forall₂_drop_append _ _ _ hAll
  rw [← hLength, List.drop_left, List.forall₂_cons] at hEnds
  rw [parse_of_cuts hCuts, parse_of_cuts hCuts']
  refine (Parser.agree_ofTokens (fun t u hPair => hPair.1) hEnds.1 hFront).weaken ?_
  exact fun t u hPair => hPair.2

/-- **Layout and spelling**: texts whose tokens are of the same kinds and denote the same numbers
are parsed to the same range, or fail with the same fault at the token of the same index. White
space that is put at a place outside all tokens changes neither the kinds nor the texts of the
tokens, and so it does not change what is parsed. -/
theorem parse_layout :
    (∀ (s s' : String) (ts us : List Token), tokenize s = .ok ts → tokenize s' = .ok us →
      List.Forall₂ Alike ts us →
      Agree (Together ts us) Eq (Range.parse s) (Range.parse s')) ∧
    ∀ (before gap after : String) (ts : List Token), (∀ c ∈ gap.toList, isBlank c = true) →
      tokenize (before ++ after) = .ok ts →
      (∀ t ∈ ts, ¬ (t.position < before.toList.length ∧ before.toList.length < t.stop)) →
      ∃ us, tokenize (before ++ gap ++ after) = .ok us ∧ us.map word = ts.map word ∧
        Agree (Together ts us) Eq (Range.parse (before ++ after))
          (Range.parse (before ++ gap ++ after)) := by
  refine ⟨fun s s' ts us => agree_parse, fun before gap after ts hBlank hTokens hBetween => ?_⟩
  obtain ⟨us, hSpaced, hWords⟩ := exists_tokenize_spaced hBlank hTokens hBetween
  refine ⟨us, hSpaced, hWords, agree_parse hTokens hSpaced ?_⟩
  have hSame : List.Forall₂ Eq (ts.map word) (us.map word) := by
    rw [List.forall₂_eq_eq_eq]
    exact hWords.symm
  rw [List.forall₂_map_left_iff, List.forall₂_map_right_iff] at hSame
  exact hSame.imp fun t u hWord => alike_of_word_eq hWord

/-- Two spellings of a conjunction, a blank before the dot of a wildcard, and two spellings of a
conjunction of which the right side is missing, where the parenthesis is to blame in either. -/
theorem parse_layout_conjunction :
    (∃ ts us : List Token, tokenize "~01 AND 2.*" = .ok ts ∧ tokenize "~1&2.x" = .ok us ∧
      List.Forall₂ Alike ts us ∧
      Agree (Together ts us) Eq (Range.parse "~01 AND 2.*") (Range.parse "~1&2.x") ∧
      ∃ vs, tokenize ("~1&2" ++ " " ++ ".x") = .ok vs ∧ vs.map word = us.map word ∧
        Agree (Together us vs) Eq (Range.parse ("~1&2" ++ ".x"))
          (Range.parse ("~1&2" ++ " " ++ ".x"))) ∧
    ∃ (ts us : List Token) (t u : Token), tokenize "~01 AND )" = .ok ts ∧
      tokenize "~1&)" = .ok us ∧
      Agree (Together ts us) Eq (Range.parse "~01 AND )") (Range.parse "~1&)") ∧
      Range.parse "~01 AND )" = .error (.unexpected ⟨t, [.numeric]⟩) ∧ ts[3]? = some t ∧
      Range.parse "~1&)" = .error (.unexpected ⟨u, [.numeric]⟩) ∧ us[3]? = some u := by
  obtain ⟨hSame, hSpaced⟩ := parse_layout
  constructor
  · have hLong : tokenize "~01 AND 2.*" = .ok
        [⟨.tilde, some ['~'], 0⟩, ⟨.numeric, some ['0', '1'], 1⟩,
          ⟨.and, some ['A', 'N', 'D'], 4⟩, ⟨.numeric, some ['2'], 8⟩, ⟨.dot, some ['.'], 9⟩,
          ⟨.wildcard, some ['*'], 10⟩, endAt 11] := by
      decide +kernel
    have hShort : tokenize "~1&2.x" = .ok
        [⟨.tilde, some ['~'], 0⟩, ⟨.numeric, some ['1'], 1⟩, ⟨.and, some ['&'], 2⟩,
          ⟨.numeric, some ['2'], 3⟩, ⟨.dot, some ['.'], 4⟩, ⟨.wildcard, some ['x'], 5⟩,
          endAt 6] := by
      decide +kernel
    exact ⟨_, _, hLong, hShort, by decide, hSame _ _ _ _ hLong hShort (by decide),
      hSpaced "~1&2" " " ".x" _ (List.all_eq_true.1 rfl) hShort (by decide)⟩
  · have hLong : tokenize "~01 AND )" = .ok
        [⟨.tilde, some ['~'], 0⟩, ⟨.numeric, some ['0', '1'], 1⟩,
          ⟨.and, some ['A', 'N', 'D'], 4⟩, ⟨.rightParen, some [')'], 8⟩, endAt 9] := by
      decide +kernel
    have hShort : tokenize "~1&)" = .ok
        [⟨.tilde, some ['~'], 0⟩, ⟨.numeric, some ['1'], 1⟩, ⟨.and, some ['&'], 2⟩,
          ⟨.rightParen, some [')'], 3⟩, endAt 4] := by
      decide +kernel
    exact ⟨_, _, ⟨.rightParen, some [')'], 8⟩, ⟨.rightParen, some [')'], 3⟩, hLong, hShort,
      hSame _ _ _ _ hLong hShort (by decide), by decide +kernel, rfl, by decide +kernel, rfl⟩

end Range

end Versioning
