import Versioning.Component
import Versioning.Token.Lexer

/-!
# Scanning lexemes

How `Token.scan` goes over a text that is put together from known parts. One
equation covers every lexeme (`scan_lexeme`); which lexeme stands in front is
decided by `lexeme?` alone, and that only looks as far as the lexeme reaches or,
for a digit run, one character further.

The last section scans numbers with dots between them, the common part of all
atoms of range expressions.
-/

namespace Versioning.Token

open Text

variable {position : Nat} {rest : List Char}

theorem scan_blank {c : Char} (hBlank : isBlank c = true) :
    scan position (c :: rest) = scan (position + 1) rest := by
  rw [scan, if_pos hBlank]

/-- A lexeme becomes a token, and scanning goes on after it. -/
theorem scan_lexeme {kind : Kind} {c : Char} {cs : List Char}
    (hLexeme : lexeme? (c :: (cs ++ rest)) = some (kind, c :: cs)) (hBlank : isBlank c = false) :
    scan position (c :: (cs ++ rest)) =
      (scan (position + (c :: cs).length) rest).map fun ts =>
        ⟨kind, some (c :: cs), position⟩ :: ts := by
  have hDrop : (cs ++ rest).drop ((c :: cs).length - 1) = rest := by simp
  rw [scan, if_neg (by simp [hBlank]), hLexeme]
  dsimp only
  rw [hDrop]

/-- A lexeme of one character. -/
theorem scan_mark {kind : Kind} {c : Char} (hLexeme : lexeme? (c :: rest) = some (kind, [c]))
    (hBlank : isBlank c = false) :
    scan position (c :: rest) =
      (scan (position + 1) rest).map fun ts => ⟨kind, some [c], position⟩ :: ts :=
  scan_lexeme (show lexeme? (c :: ([] ++ rest)) = some (kind, c :: []) from hLexeme) hBlank

theorem isBlank_eq_false_of_isDigit {c : Char} (hDigit : c.isDigit = true) :
    isBlank c = false := by
  have hRange := Decimal.toNat_of_isDigit hDigit
  simp only [isBlank, blankRanges, List.any_cons, List.any_nil, Bool.or_false,
    Bool.or_eq_false_iff, Bool.and_eq_false_iff, decide_eq_false_iff_not]
  omega

/-- A digit run in front of anything but a digit is one numeric token. -/
theorem scan_run (r : Run Char.isDigit) (hEnd : ∀ c ∈ rest.head?, c.isDigit = false) :
    scan position (r.chars ++ rest) =
      (scan (position + r.chars.length) rest).map fun ts =>
        ⟨.numeric, some r.chars, position⟩ :: ts := by
  have hLexeme : lexeme? (r.chars ++ rest) = some (.numeric, r.chars) := by
    unfold lexeme?
    rw [Run.read?_append r hEnd]
  have hDigits := r.all_mem
  obtain ⟨c, cs, hChars⟩ := List.exists_cons_of_ne_nil r.ne_nil
  rw [hChars] at hLexeme hDigits ⊢
  exact scan_lexeme hLexeme (isBlank_eq_false_of_isDigit (hDigits c (by simp)))

/-! ## Numbers with dots between them -/

/-- The text of digit runs, with dots between them. -/
def dotted (rs : List (Run Char.isDigit)) : List Char := ['.'].intercalate (rs.map Run.chars)

@[simp] theorem dotted_singleton (r : Run Char.isDigit) : dotted [r] = r.chars := by
  simp [dotted, List.intercalate]

@[simp] theorem dotted_cons_cons (r s : Run Char.isDigit) (rs : List (Run Char.isDigit)) :
    dotted (r :: s :: rs) = r.chars ++ '.' :: dotted (s :: rs) := by
  simp [dotted, List.intercalate]

/-- The tokens of digit runs with dots between them, from a position on. -/
def ofRuns (position : Nat) : List (Run Char.isDigit) → List Token
  | [] => []
  | [r] => [⟨.numeric, some r.chars, position⟩]
  | r :: s :: rs =>
    ⟨.numeric, some r.chars, position⟩ :: ⟨.dot, some ['.'], position + r.chars.length⟩ ::
      ofRuns (position + r.chars.length + 1) (s :: rs)

theorem scan_dotted {rs : List (Run Char.isDigit)} (hNe : rs ≠ [])
    (hEnd : ∀ c ∈ rest.head?, c.isDigit = false) :
    scan position (dotted rs ++ rest) =
      (scan (position + (dotted rs).length) rest).map fun ts => ofRuns position rs ++ ts := by
  induction rs generalizing position with
  | nil => exact absurd rfl hNe
  | cons r rs ih =>
      cases rs with
      | nil =>
          rw [dotted_singleton]
          exact scan_run r hEnd
      | cons s rs =>
          have hDot : ∀ c ∈ ('.' :: (dotted (s :: rs) ++ rest)).head?, c.isDigit = false := by
            simp
          rw [dotted_cons_cons, List.append_assoc, List.cons_append, scan_run r hDot,
            scan_mark rfl rfl, ih (by simp)]
          have hLength : position + r.chars.length + 1 + (dotted (s :: rs)).length =
              position + (r.chars ++ '.' :: dotted (s :: rs)).length := by
            simp only [List.length_append, List.length_cons]
            omega
          rw [hLength]
          cases scan (position + (r.chars ++ '.' :: dotted (s :: rs)).length) rest <;> rfl

/-! ## Texts made of numbers -/

variable {rs ss : List (Run Char.isDigit)}

/-- Numbers up to the end of a text. -/
theorem scan_dotted_nil (hNe : rs ≠ []) :
    scan position (dotted rs) = .ok (ofRuns position rs) := by
  have hScan : scan position (dotted rs ++ []) = _ := scan_dotted hNe (by simp)
  rw [List.append_nil] at hScan
  rw [hScan, scan]
  simp [Except.map]

theorem ofChars_dotted (hNe : rs ≠ []) : ofChars (dotted rs) = .ok (ofRuns 0 rs) :=
  scan_dotted_nil hNe

/-- Numbers after a mark of one character. -/
theorem ofChars_cons_dotted {kind : Kind} {c : Char} (hNe : rs ≠ [])
    (hLexeme : lexeme? (c :: dotted rs) = some (kind, [c])) (hBlank : isBlank c = false) :
    ofChars (c :: dotted rs) = .ok (⟨kind, some [c], 0⟩ :: ofRuns 1 rs) := by
  unfold ofChars
  rw [scan_mark hLexeme hBlank, scan_dotted_nil hNe]
  rfl

/-- Numbers before a dot and a star. -/
theorem ofChars_dotted_star (hNe : rs ≠ []) :
    ofChars (dotted rs ++ ['.', '*']) =
      .ok (ofRuns 0 rs ++ [⟨.dot, some ['.'], (dotted rs).length⟩,
        ⟨.wildcard, some ['*'], (dotted rs).length + 1⟩]) := by
  unfold ofChars
  rw [scan_dotted hNe (by simp), scan_mark rfl rfl, scan_mark rfl rfl, scan, Nat.zero_add]
  rfl

/-- Numbers on both sides of a hyphen with blanks around it. -/
theorem ofChars_dotted_hyphen (hNe : rs ≠ []) (hNe' : ss ≠ []) :
    ofChars (dotted rs ++ ' ' :: '-' :: ' ' :: dotted ss) =
      .ok (ofRuns 0 rs ++ ⟨.hyphen, some ['-'], (dotted rs).length + 1⟩ ::
        ofRuns ((dotted rs).length + 3) ss) := by
  unfold ofChars
  rw [scan_dotted hNe (by simp), scan_blank rfl, scan_mark rfl rfl, scan_blank rfl,
    scan_dotted_nil hNe', Nat.zero_add]
  rfl

end Versioning.Token
