import Versioning.Proofs.Token.Requests

/-!
# Moving along a stream

Whoever reads a stream only ever moves on along it: from one place to a later one, past
tokens none of which is an end (`Moves`). That is all that accepting a token does, and it
is kept from step to step, so of whatever has been done by accepting tokens it can be said
where the cursor is: no further back than before, and at one of the tokens.

A reader of lists has the tokens before the end and is told of the end apart. What is next
in a stream is the first of these tokens, or else the end (`next_eq`), and moving on takes
it from the front of them (`upcoming_advance`).
-/

namespace Versioning.TokenStream

/-- A stream becomes another by moving past some tokens, none of which is an end. -/
def Moves (s t : TokenStream) : Prop :=
  ∃ passed, t.taken = s.taken ++ passed ∧ s.rest = passed ++ t.rest ∧
    ∀ u ∈ passed, u.kind ≠ .endOfInput

variable {s t u : TokenStream}

theorem Moves.refl (s : TokenStream) : s.Moves s :=
  ⟨[], (List.append_nil _).symm, rfl, fun _ hMem => nomatch hMem⟩

theorem Moves.trans (hFirst : s.Moves t) (hThen : t.Moves u) : s.Moves u := by
  obtain ⟨front, hTaken, hRest, hFront⟩ := hFirst
  obtain ⟨back, hTaken', hRest', hBack⟩ := hThen
  refine ⟨front ++ back, ?_, ?_, fun v hMem => ?_⟩
  · rw [hTaken', hTaken, List.append_assoc]
  · rw [hRest, hRest', List.append_assoc]
  · rcases List.mem_append.1 hMem with hMem | hMem
    · exact hFront v hMem
    · exact hBack v hMem

theorem moves_advance (hMore : s.next.kind ≠ .endOfInput) : s.Moves (s.advance hMore) := by
  refine ⟨[s.next], rfl, (List.cons_head_tail s.rest_ne_nil).symm, fun v hMem => ?_⟩
  rwa [List.mem_singleton.1 hMem]

namespace Moves

variable (h : s.Moves t)
include h

theorem tokens_eq : t.tokens = s.tokens := by
  obtain ⟨passed, hTaken, hRest, -⟩ := h
  rw [tokens, tokens, hTaken, hRest, List.append_assoc]

/-- The end stays where it is. -/
theorem last_eq : t.last = s.last :=
  Option.some.inj (by rw [← getLast?_tokens, ← getLast?_tokens, h.tokens_eq])

theorem length_rest : t.rest.length + t.cursor = s.rest.length + s.cursor := by
  have hLength := congrArg List.length h.tokens_eq
  rw [tokens, tokens, List.length_append, List.length_append] at hLength
  unfold cursor
  omega

theorem cursor_le : s.cursor ≤ t.cursor := by
  obtain ⟨passed, hTaken, -, -⟩ := h
  rw [cursor, cursor, hTaken, List.length_append]
  exact Nat.le_add_right _ _

theorem length_rest_le : t.rest.length ≤ s.rest.length := by
  have hSum := h.length_rest
  have hCursor := h.cursor_le
  omega

/-- The tokens between the two places are those that were passed. -/
theorem kind_ne {i : Nat} {v : Token} (hFrom : s.cursor ≤ i) (hTo : i < t.cursor)
    (hAt : s.tokens[i]? = some v) : v.kind ≠ .endOfInput := by
  obtain ⟨passed, hTaken, hRest, hKinds⟩ := h
  refine hKinds v (List.mem_of_getElem? (i := i - s.cursor) ?_)
  rw [cursor, hTaken, List.length_append] at hTo
  rw [tokens, List.getElem?_append_right hFrom, hRest, List.getElem?_append_left] at hAt
  · exact hAt
  · unfold cursor at hFrom
    omega

end Moves

/-! ## The tokens before the end -/

theorem rest_eq (s : TokenStream) : s.rest = s.upcoming ++ [s.last] :=
  (List.dropLast_concat_getLast s.rest_ne_nil).symm

theorem length_upcoming (s : TokenStream) : s.upcoming.length + 1 = s.rest.length := by
  rw [rest_eq, List.length_append, List.length_singleton]

/-- The next token is the first before the end, if there is one. -/
theorem next_eq (s : TokenStream) : s.next = s.upcoming.headD s.last := by
  have hHead : s.rest.head? = some s.next := List.head?_eq_some_head s.rest_ne_nil
  rw [rest_eq] at hHead
  cases hUpcoming : s.upcoming with
  | nil =>
      rw [hUpcoming] at hHead
      exact (Option.some.inj hHead).symm
  | cons v vs =>
      rw [hUpcoming] at hHead
      exact (Option.some.inj hHead).symm

theorem upcoming_advance (hMore : s.next.kind ≠ .endOfInput) :
    (s.advance hMore).upcoming = s.upcoming.tail := by
  show s.rest.tail.dropLast = s.rest.dropLast.tail
  exact List.tail_dropLast.symm

/-- What is not at an end is in front of it. -/
theorem upcoming_eq_cons (hMore : s.next.kind ≠ .endOfInput) :
    s.upcoming = s.next :: (s.advance hMore).upcoming := by
  rw [upcoming_advance]
  have hNext := s.next_eq
  cases hUpcoming : s.upcoming with
  | nil =>
      rw [hUpcoming] at hNext
      exact absurd (congrArg Token.kind hNext |>.trans s.kind_last) hMore
  | cons v vs =>
      rw [hUpcoming] at hNext
      rw [hNext]
      rfl

end Versioning.TokenStream
