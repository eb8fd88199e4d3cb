/-!
# Runs of characters

A **run** is a non-empty list of characters that all belong to one class. Digit
runs and identifiers are runs, and so is every numeric lexeme: the class and the
length are part of the value, so no later step has to check them again.
-/

namespace Versioning.Text

/-- A non-empty list of characters of the class `p`. -/
@[ext] structure Run (p : Char → Bool) where
  chars : List Char
  ne_nil : chars ≠ []
  all_mem : ∀ c ∈ chars, p c = true
deriving DecidableEq

namespace Run

variable {p q : Char → Bool}

/-- The longest run at the front of a text, with what follows it. -/
def read? (p : Char → Bool) (cs : List Char) : Option (Run p × List Char) :=
  if h : cs.takeWhile p = [] then none
  else some (⟨cs.takeWhile p, h, fun _ hc => List.all_eq_true.1 List.all_takeWhile _ hc⟩,
    cs.dropWhile p)

/-- A run of a class is a run of every wider class. -/
def widen (h : ∀ c, p c = true → q c = true) (r : Run p) : Run q :=
  ⟨r.chars, r.ne_nil, fun c hc => h c (r.all_mem c hc)⟩

@[simp] theorem chars_widen (h : ∀ c, p c = true → q c = true) (r : Run p) :
    (r.widen h).chars = r.chars := rfl

/-- Reading splits the text: nothing is lost. -/
theorem append_of_read? {cs rest : List Char} {r : Run p}
    (h : read? p cs = some (r, rest)) : r.chars ++ rest = cs := by
  unfold read? at h
  split at h
  · simp at h
  · obtain ⟨rfl, rfl⟩ := by simpa using h
    exact List.takeWhile_append_dropWhile

/-- What is read is the longest run: what follows does not start with the class. -/
theorem eq_false_of_read? {cs rest : List Char} {c : Char} {r : Run p}
    (h : read? p cs = some (r, c :: rest)) : p c = false := by
  unfold read? at h
  split at h
  · simp at h
  · obtain ⟨-, hRest⟩ := by simpa using h
    have hHead := List.head?_dropWhile_not p cs
    simpa [hRest] using hHead

/-- A run is read in front of whatever does not go on with the class. -/
theorem read?_append (r : Run p) {rest : List Char} (hEnd : ∀ c ∈ rest.head?, p c = false) :
    read? p (r.chars ++ rest) = some (r, rest) := by
  have hStop : rest.takeWhile p = [] ∧ rest.dropWhile p = rest := by
    cases rest with
    | nil => exact ⟨rfl, rfl⟩
    | cons c rest => simp [hEnd c rfl]
  have hTake : (r.chars ++ rest).takeWhile p = r.chars := by
    rw [List.takeWhile_append_of_pos r.all_mem, hStop.1, List.append_nil]
  have hDrop : (r.chars ++ rest).dropWhile p = rest := by
    rw [List.dropWhile_append_of_pos r.all_mem, hStop.2]
  unfold read?
  rw [dif_neg (by rw [hTake]; exact r.ne_nil), hDrop]
  simp only [hTake]

/-- Of a run nothing is left over. -/
theorem read?_chars (r : Run p) : read? p r.chars = some (r, []) := by
  have hRead : read? p (r.chars ++ []) = some (r, []) :=
    r.read?_append fun _ hMem => nomatch hMem
  rwa [List.append_nil] at hRead

/-- A run is read exactly where the text goes on with it and then with something else. -/
theorem read?_eq_some_iff {cs rest : List Char} {r : Run p} :
    read? p cs = some (r, rest) ↔ cs = r.chars ++ rest ∧ ∀ c ∈ rest.head?, p c = false := by
  constructor
  · intro h
    refine ⟨(append_of_read? h).symm, ?_⟩
    intro c hMem
    obtain ⟨us, rfl⟩ := List.head?_eq_some_iff.1 hMem
    exact eq_false_of_read? h
  · rintro ⟨rfl, hEnd⟩
    exact read?_append r hEnd

/-- Something is always read, so what follows is shorter. -/
theorem length_lt_of_read? {cs rest : List Char} {r : Run p}
    (h : read? p cs = some (r, rest)) : rest.length < cs.length := by
  have hSplit := congrArg List.length (append_of_read? h)
  have hPos := List.length_pos_iff.2 r.ne_nil
  simp only [List.length_append] at hSplit
  omega

end Run

end Versioning.Text
