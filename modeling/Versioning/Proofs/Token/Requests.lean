import Versioning.Token.Stream

/-!
# Runs of requests to a stream

A stream is asked for tokens in any order and number of requests, and only one kind
of request moves it: accepting a token other than the end. Whatever was asked, the
tokens that have been passed are just those that were accepted, the end left out,
and together with the tokens to come they are the tokens that the stream was made of
(`Tracks`). One request keeps this up (`taken_rest_respond`), and so does a run of
them.

A stream ends even if the tokens that it is made of do not (`MadeOf`). The position of
the end that is added is computed in machine words, and that sum can be too large for
one. It is either reduced or not computed at all, so the two ways of making a stream
differ in whether there is one, and never in what the stream is.

A stream has no index, but the place in it can be counted (`cursor`), and all that
is looked up can be found by counting from there: the tokens to come are those behind
the cursor, and an index past the last token is taken for that of the last.

## Main results

* `madeOf_ofTokens` — which tokens a stream has, and when it can be made with checked sums.
* `taken_rest_run`, `tokens_run` — what a run of requests takes and what it leaves.
* `versionEnds_iff` — the bounded scan finds a token behind numbers and dots.
* `run_ofTokens` — what holds of a stream of any tokens after any requests.
-/

namespace Versioning.TokenStream

/-- What can be asked of a stream. -/
inductive Request where
  | tokens
  | rest
  | nth (k : Nat)
  | nextIs (kind : Kind)
  | versionEnds (limit : Nat) (excluded : List Kind)
  | consume (expected : List Kind)
deriving DecidableEq, Repr

/-- What a stream answers. -/
inductive Answer where
  | listed (ts : List Token)
  | shown (t : Token)
  | verdict (holds : Bool)
  | accepted (t : Token)
  | refused (fault : UnexpectedToken)
deriving DecidableEq, Repr

/-- The token that was accepted, if the answer is that one was. -/
def Answer.accepted? : Answer → Option Token
  | .accepted t => some t
  | _ => none

/-- The answer to a request, and the stream after it. A token that is refused leaves the stream as
it was. -/
def respond (s : TokenStream) : Request → Answer × TokenStream
  | .tokens => (.listed s.tokens, s)
  | .rest => (.listed s.rest, s)
  | .nth k => (.shown (s.nth k), s)
  | .nextIs kind => (.verdict (s.next.kind = kind), s)
  | .versionEnds limit excluded => (.verdict (s.versionEnds limit excluded), s)
  | .consume expected =>
    match s.consume expected with
    | .ok (t, after) => (.accepted t, after)
    | .error fault => (.refused fault, s)

/-- The answers to requests made one after the other, and the stream after the last. -/
def run (s : TokenStream) : List Request → List Answer × TokenStream
  | [] => ([], s)
  | r :: rs => ((s.respond r).1 :: ((s.respond r).2.run rs).1, ((s.respond r).2.run rs).2)

/-- The accepted tokens that a stream has moved past: all but the ends. -/
def passed (answers : List Answer) : List Token :=
  (answers.filterMap Answer.accepted?).filter fun t => t.kind ≠ .endOfInput

/-- How many tokens have been taken. -/
def cursor (s : TokenStream) : Nat := s.taken.length

variable {s : TokenStream} {expected : List Kind}

/-! ## The next token and the end -/

theorem getLast?_tokens (s : TokenStream) : s.tokens.getLast? = some s.last := by
  have hLast : s.rest.getLast? = some s.last := List.getLast?_eq_some_getLast s.rest_ne_nil
  rw [tokens, List.getLast?_append, hLast, Option.some_or]

theorem kind_last (s : TokenStream) : s.last.kind = .endOfInput := by
  have hEnds := s.ends
  rw [List.getLast?_eq_some_getLast s.rest_ne_nil] at hEnds
  exact Option.some.inj hEnds

theorem drop_cursor (s : TokenStream) : s.tokens.drop s.cursor = s.rest := List.drop_left

theorem take_cursor (s : TokenStream) : s.tokens.take s.cursor = s.taken := List.take_left

theorem getElem?_tokens_cursor (s : TokenStream) : s.tokens[s.cursor]? = some s.next := by
  rw [tokens, cursor, List.getElem?_append_right (Nat.le_refl _), Nat.sub_self,
    ← List.head?_eq_getElem?, List.head?_eq_some_head s.rest_ne_nil, next]

/-! ## Accepting a token -/

/-- The stream after its next token, which is not the end. -/
def advance (s : TokenStream) (hMore : s.next.kind ≠ .endOfInput) : TokenStream where
  taken := s.taken ++ [s.next]
  rest := s.rest.tail
  ends := by
    have hEnds := s.ends
    rw [← List.cons_head_tail s.rest_ne_nil] at hEnds
    exact ends_of_cons hEnds hMore

theorem consume_eq (s : TokenStream) (expected : List Kind) :
    s.consume expected =
      if expected ≠ [] ∧ s.next.kind ∉ expected then .error ⟨s.next, expected⟩
      else if hEnd : s.next.kind = .endOfInput then .ok (s.next, s)
      else .ok (s.next, s.advance hEnd) := by
  obtain ⟨taken, rest, hEnds⟩ := s
  cases rest with
  | nil => cases hEnds
  | cons t ts => rfl

/-- A token of a kind that is not expected is refused, and nothing moves. -/
theorem respond_refused (hSome : expected ≠ []) (hOther : s.next.kind ∉ expected) :
    s.respond (.consume expected) = (.refused ⟨s.next, expected⟩, s) := by
  simp only [respond]
  rw [consume_eq, if_pos ⟨hSome, hOther⟩]

/-- The end is accepted as often as one likes. -/
theorem respond_end (hExpected : expected = [] ∨ s.next.kind ∈ expected)
    (hEnd : s.next.kind = .endOfInput) : s.respond (.consume expected) = (.accepted s.next, s) := by
  simp only [respond]
  rw [consume_eq, if_neg fun hNot => hExpected.elim hNot.1 hNot.2, dif_pos hEnd]

theorem respond_accepted (hExpected : expected = [] ∨ s.next.kind ∈ expected)
    (hMore : s.next.kind ≠ .endOfInput) :
    s.respond (.consume expected) = (.accepted s.next, s.advance hMore) := by
  simp only [respond]
  rw [consume_eq, if_neg fun hNot => hExpected.elim hNot.1 hNot.2, dif_neg hMore]

/-! ## Runs -/

theorem passed_cons (a : Answer) (answers : List Answer) :
    passed (a :: answers) = passed [a] ++ passed answers := by
  show passed ([a] ++ answers) = _
  simp only [passed, List.filterMap_append, List.filter_append]

theorem passed_accepted (t : Token) :
    passed [.accepted t] = if t.kind = .endOfInput then [] else [t] := by
  by_cases hEnd : t.kind = .endOfInput <;> simp [passed, Answer.accepted?, hEnd]

/-- **One request** takes the token that was accepted, unless that is the end, and leaves what is
behind it. -/
theorem taken_rest_respond (s : TokenStream) (r : Request) :
    (s.respond r).2.taken = s.taken ++ passed [(s.respond r).1] ∧
      s.rest = passed [(s.respond r).1] ++ (s.respond r).2.rest := by
  have hStill : ∀ a : Answer, a.accepted? = none →
      s.taken = s.taken ++ passed [a] ∧ s.rest = passed [a] ++ s.rest := by
    intro a hNone
    simp [passed, hNone]
  cases r with
  | tokens => exact hStill _ rfl
  | rest => exact hStill _ rfl
  | nth k => exact hStill _ rfl
  | nextIs kind => exact hStill _ rfl
  | versionEnds limit excluded => exact hStill _ rfl
  | consume expected =>
      by_cases hExpected : expected = [] ∨ s.next.kind ∈ expected
      · by_cases hEnd : s.next.kind = .endOfInput
        · rw [respond_end hExpected hEnd, passed_accepted, if_pos hEnd, List.append_nil]
          exact ⟨rfl, rfl⟩
        · rw [respond_accepted hExpected hEnd, passed_accepted, if_neg hEnd]
          exact ⟨rfl, (List.cons_head_tail s.rest_ne_nil).symm⟩
      · obtain ⟨hSome, hOther⟩ := not_or.1 hExpected
        rw [respond_refused hSome hOther]
        exact hStill _ rfl

/-- What a run of requests takes and leaves, by induction on the requests. -/
theorem taken_rest_run (s : TokenStream) (requests : List Request) :
    (s.run requests).2.taken = s.taken ++ passed (s.run requests).1 ∧
      s.rest = passed (s.run requests).1 ++ (s.run requests).2.rest := by
  induction requests generalizing s with
  | nil => exact ⟨(List.append_nil s.taken).symm, rfl⟩
  | cons r requests ih =>
      obtain ⟨hTaken, hRest⟩ := s.taken_rest_respond r
      obtain ⟨hTakenRun, hRestRun⟩ := ih (s.respond r).2
      simp only [run]
      rw [passed_cons, hTakenRun, hTaken, List.append_assoc, List.append_assoc, ← hRestRun]
      exact ⟨rfl, hRest⟩

theorem tokens_run (s : TokenStream) (requests : List Request) :
    (s.run requests).2.tokens = s.tokens := by
  obtain ⟨hTaken, hRest⟩ := s.taken_rest_run requests
  rw [tokens, tokens, hTaken, hRest, List.append_assoc]

theorem kind_ne_of_mem_passed {answers : List Answer} {t : Token} (hMem : t ∈ passed answers) :
    t.kind ≠ .endOfInput := by
  have hKept := (List.mem_filter.1 hMem).2
  exact of_decide_eq_true hKept

/-! ## Looking ahead -/

theorem kind_inVersion_iff {kind : Kind} :
    kind.inVersion = true ↔ kind = .numeric ∨ kind = .dot := by
  cases kind <;> decide

/-- Among all tokens the index of the `k`-th one to come is counted from the cursor on, and stops at
that of the last. -/
theorem getElem?_tokens_nth {k : Nat} (hWord : s.cursor + k < UInt64.size) :
    s.tokens[min (s.cursor + max k 1 - 1) (s.tokens.length - 1)]? = some (s.nth k) := by
  have hLength : s.tokens.length = s.cursor + s.rest.length := List.length_append
  have hPos := List.length_pos_iff.2 s.rest_ne_nil
  have hIndex : min (s.cursor + max k 1 - 1) (s.tokens.length - 1) < s.tokens.length := by omega
  have hSum : s.taken.length + max k 1 - 1 < UInt64.size := by
    rw [← cursor]
    omega
  rw [nth, Nat.mod_eq_of_lt hSum, ← cursor, List.getD_eq_getElem?_getD,
    List.getElem?_eq_getElem hIndex, Option.getD_some]

/-- The `k`-th token to come is found at its place behind the cursor, or else it is the last. -/
theorem nth_eq {k : Nat} (hWord : s.cursor + k < UInt64.size) :
    (s.rest[max k 1 - 1]?).or s.tokens.getLast? = some (s.nth k) := by
  have hLength : s.tokens.length = s.cursor + s.rest.length := List.length_append
  have hPos := List.length_pos_iff.2 s.rest_ne_nil
  rw [← getElem?_tokens_nth hWord]
  by_cases hThere : max k 1 - 1 < s.rest.length
  · have hIndex : min (s.cursor + max k 1 - 1) (s.tokens.length - 1) =
        s.cursor + (max k 1 - 1) := by omega
    rw [hIndex, tokens, cursor, List.getElem?_append_right (Nat.le_add_right _ _),
      Nat.add_sub_cancel_left, List.getElem?_eq_getElem hThere, Option.some_or]
  · have hIndex : min (s.cursor + max k 1 - 1) (s.tokens.length - 1) =
        s.tokens.length - 1 := by omega
    rw [hIndex, ← List.getLast?_eq_getElem?, List.getElem?_eq_none (Nat.le_of_not_lt hThere),
      Option.none_or]

/-- **The bounded scan** finds a token behind numbers and dots if there is one in the window, and
tells whether it is of none of the excluded kinds. -/
theorem versionEnds_iff (s : TokenStream) (limit : Nat) (excluded : List Kind) :
    s.versionEnds limit excluded = true ↔
      ∃ j, j < limit ∧ (∀ u ∈ s.rest.take j, u.kind = .numeric ∨ u.kind = .dot) ∧
        ∃ t, s.rest[j]? = some t ∧ t.kind ≠ .numeric ∧ t.kind ≠ .dot ∧ t.kind ∉ excluded := by
  unfold versionEnds
  rw [Option.any_eq_true]
  constructor
  · rintro ⟨t, hFound, hAllowed⟩
    obtain ⟨hOther, front, back, hSplit, hFront⟩ := List.find?_eq_some_iff_append.1 hFound
    have hRest : s.rest = front ++ t :: (back ++ s.rest.drop limit) := by
      calc s.rest = s.rest.take limit ++ s.rest.drop limit := (List.take_append_drop _ _).symm
        _ = front ++ t :: (back ++ s.rest.drop limit) := by
          rw [hSplit, List.append_assoc, List.cons_append]
    have hWindow : front.length < limit := by
      have hLength := congrArg List.length hSplit
      rw [List.length_take, List.length_append, List.length_cons] at hLength
      omega
    have hKind : ¬ (t.kind = .numeric ∨ t.kind = .dot) := by
      rw [← kind_inVersion_iff]
      simpa using hOther
    refine ⟨front.length, hWindow, fun u hMem => ?_, t, ?_, not_or.1 hKind |>.1,
      not_or.1 hKind |>.2, of_decide_eq_true hAllowed⟩
    · rw [hRest, List.take_left] at hMem
      exact kind_inVersion_iff.1 (by simpa using hFront u hMem)
    · rw [hRest, List.getElem?_append_right (Nat.le_refl _), Nat.sub_self, List.getElem?_cons_zero]
  · rintro ⟨j, hWindow, hFront, t, hAt, hNumeric, hDot, hAllowed⟩
    obtain ⟨hBound, hGet⟩ := List.getElem?_eq_some_iff.1 hAt
    have hOther : ¬ t.kind.inVersion = true := by
      rw [kind_inVersion_iff]
      exact not_or.2 ⟨hNumeric, hDot⟩
    refine ⟨t, List.find?_eq_some_iff_append.2 ⟨by simpa using hOther, s.rest.take j,
      (s.rest.drop (j + 1)).take (limit - (j + 1)), ?_, fun u hMem => ?_⟩, decide_eq_true hAllowed⟩
    · obtain ⟨k, rfl⟩ : ∃ k, limit = j + 1 + k := ⟨limit - (j + 1), by omega⟩
      rw [Nat.add_sub_cancel_left, List.take_add, List.take_succ_eq_append_getElem hBound, hGet,
        List.append_assoc]
      rfl
    · simpa using kind_inVersion_iff.2 (hFront u hMem)

/-! ## Making a stream -/

section Making

variable {ts : List Token}

theorem ends_iff :
    ts.getLast?.map Token.kind = some .endOfInput ↔ ∃ t ∈ ts.getLast?, t.kind = .endOfInput := by
  rw [Option.map_eq_some_iff]
  rfl

theorem tokens_ofTokens_of_ends (hEnds : ∃ t ∈ ts.getLast?, t.kind = .endOfInput) :
    (ofTokens ts).tokens = ts := by
  rw [ofTokens, dif_pos (ends_iff.2 hEnds)]
  rfl

theorem tokens_ofTokens_of_open (hOpen : ¬ ∃ t ∈ ts.getLast?, t.kind = .endOfInput) :
    (ofTokens ts).tokens =
      ts ++ [.endAt (ts.getLast?.elim 0 Token.stop % UInt64.size)] := by
  rw [ofTokens, dif_neg (mt ends_iff.1 hOpen)]
  rfl

/-- A stream may have one more token than it was made of. -/
theorem prefix_tokens_ofTokens (ts : List Token) : ts <+: (ofTokens ts).tokens := by
  by_cases hEnds : ∃ t ∈ ts.getLast?, t.kind = .endOfInput
  · exact ⟨[], (List.append_nil ts).trans (tokens_ofTokens_of_ends hEnds).symm⟩
  · exact ⟨_, (tokens_ofTokens_of_open hEnds).symm⟩

/-- A sum that is a word is the same whether it is checked or not. -/
theorem ofTokens?_of_fits
    (hFits : ∀ t ∈ ts.getLast?, t.kind ≠ .endOfInput → t.stop < UInt64.size) :
    ofTokens? ts = some (ofTokens ts) := by
  by_cases hEnds : ∃ t ∈ ts.getLast?, t.kind = .endOfInput
  · rw [ofTokens?, ofTokens, dif_pos (ends_iff.2 hEnds), dif_pos (ends_iff.2 hEnds)]
  · rw [ofTokens?, ofTokens, dif_neg (mt ends_iff.1 hEnds), dif_neg (mt ends_iff.1 hEnds)]
    cases hLast : ts.getLast? with
    | none => rfl
    | some t =>
        have hWord := hFits t hLast fun hKind => hEnds ⟨t, hLast, hKind⟩
        rw [Option.elim_some, Option.elim_some, Token.stop?, if_pos hWord, Nat.mod_eq_of_lt hWord]
        rfl

theorem ofTokens?_of_oversize {t : Token} (hLast : t ∈ ts.getLast?) (hKind : t.kind ≠ .endOfInput)
    (hLarge : UInt64.size ≤ t.stop) : ofTokens? ts = none := by
  have hOpen : ¬ ts.getLast?.map Token.kind = some .endOfInput := by
    rw [hLast]
    exact fun hSame => hKind (Option.some.inj hSame)
  rw [ofTokens?, dif_neg hOpen, hLast, Option.elim_some, Token.stop?, if_neg (Nat.not_lt.2 hLarge)]
  rfl

/-- How a stream is made of some tokens. -/
structure MadeOf (ts : List Token) (s : TokenStream) : Prop where
  front : ts <+: s.tokens
  /-- If the last token is an end, there are no more. -/
  tokens_eq : (∃ t ∈ ts.getLast?, t.kind = .endOfInput) → s.tokens = ts
  /-- Otherwise an end is added, which stands behind the last token. -/
  tokens_append : (¬ ∃ t ∈ ts.getLast?, t.kind = .endOfInput) →
    s.tokens = ts ++ [.endAt (ts.getLast?.elim 0 Token.stop % UInt64.size)]
  /-- With checked sums no other stream is made. -/
  checked : ∀ made, ofTokens? ts = some made → made = s
  /-- And none is made just if the end that is to be added would have no position. -/
  unmade_iff : ofTokens? ts = none ↔
    ∃ t ∈ ts.getLast?, t.kind ≠ .endOfInput ∧ UInt64.size ≤ t.stop

theorem madeOf_ofTokens (ts : List Token) : MadeOf ts (ofTokens ts) := by
  have hChecked : (∀ made, ofTokens? ts = some made → made = ofTokens ts) ∧
      (ofTokens? ts = none ↔
        ∃ t ∈ ts.getLast?, t.kind ≠ .endOfInput ∧ UInt64.size ≤ t.stop) := by
    by_cases hLarge : ∃ t ∈ ts.getLast?, t.kind ≠ .endOfInput ∧ UInt64.size ≤ t.stop
    · obtain ⟨t, hLast, hKind, hStop⟩ := hLarge
      rw [ofTokens?_of_oversize hLast hKind hStop]
      exact ⟨fun made hSome => (nomatch hSome), iff_of_true rfl ⟨t, hLast, hKind, hStop⟩⟩
    · have hMade : ofTokens? ts = some (ofTokens ts) := ofTokens?_of_fits fun t hLast hKind =>
        Nat.lt_of_not_le fun hStop => hLarge ⟨t, hLast, hKind, hStop⟩
      rw [hMade]
      exact ⟨fun made hSome => (Option.some.inj hSome).symm,
        iff_of_false (fun hNone => nomatch hNone) hLarge⟩
  exact ⟨prefix_tokens_ofTokens ts, tokens_ofTokens_of_ends, tokens_ofTokens_of_open,
    hChecked.1, hChecked.2⟩

/-- Behind the largest position there is none, and without checks the end is put at the start. -/
example : (ofTokens [⟨.numeric, some ['1'], UInt64.size - 1⟩]).last = .endAt 0 ∧
    ofTokens? [⟨.numeric, some ['1'], UInt64.size - 1⟩] = none := by
  decide +kernel

end Making

/-! ## A stream after requests -/

/-- What holds of a stream of some tokens that has given some answers. -/
structure Tracks (ts : List Token) (answers : List Answer) (s : TokenStream) : Prop where
  /-- No token is lost or added. -/
  tokens_eq : s.tokens = ts
  /-- The last token is the end of the input. -/
  ends : ts.getLast?.map Token.kind = some .endOfInput
  /-- The cursor is at one of the tokens, which is the next one. -/
  next_eq : ts[s.cursor]? = some s.next
  /-- What is to come is behind the cursor. -/
  rest_eq : ts.drop s.cursor = s.rest
  /-- In front of the cursor are the tokens that were accepted, but no end. -/
  taken_eq : ts.take s.cursor = passed answers
  kind_ne : ∀ t ∈ ts.take s.cursor, t.kind ≠ .endOfInput
  /-- What was accepted and what is to come are all there is. -/
  split : passed answers ++ s.rest = ts

theorem taken_ofTokens (ts : List Token) : (ofTokens ts).taken = [] := by
  unfold ofTokens
  split <;> rfl

/-- A run from the start keeps track. -/
theorem tracks_run (ts : List Token) (requests : List Request) :
    Tracks (ofTokens ts).tokens ((ofTokens ts).run requests).1
      ((ofTokens ts).run requests).2 := by
  have hTokens := (ofTokens ts).tokens_run requests
  have hTaken := ((ofTokens ts).taken_rest_run requests).1
  rw [taken_ofTokens, List.nil_append] at hTaken
  generalize ((ofTokens ts).run requests).2 = s at hTokens hTaken ⊢
  have hFront := s.take_cursor
  rw [hTaken] at hFront
  rw [← hTokens]
  refine ⟨rfl, ?_, s.getElem?_tokens_cursor, s.drop_cursor, hFront, fun t hMem => ?_, ?_⟩
  · rw [s.getLast?_tokens, Option.map_some, s.kind_last]
  · rw [hFront] at hMem
    exact kind_ne_of_mem_passed hMem
  · rw [← hTaken, tokens]

/-- **A stream of any tokens after any requests.** However the position of the end is added, no more
than that end is added to the tokens, and nothing else depends on it. The stream keeps its tokens and
its place among them, which is behind those that were accepted. A token that is refused is reported
with what was expected instead, and the stream is what it was; one that is accepted is passed, unless
it is the end. What comes after a number of tokens, if that can be counted in a word, is the end if
there are no more; and a scan succeeds where numbers and dots are followed within bounds by a token
of a kind that is not excluded. -/
theorem run_ofTokens (ts : List Token) (requests : List Request) :
    ∃ (answers : List Answer) (s : TokenStream), (ofTokens ts).run requests = (answers, s) ∧
      MadeOf ts (ofTokens ts) ∧ Tracks (ofTokens ts).tokens answers s ∧
      (∀ expected : List Kind, expected ≠ [] → s.next.kind ∉ expected →
        s.respond (.consume expected) = (.refused ⟨s.next, expected⟩, s)) ∧
      (∀ expected : List Kind, expected = [] ∨ s.next.kind ∈ expected →
        (s.next.kind = .endOfInput → s.respond (.consume expected) = (.accepted s.next, s)) ∧
        (s.next.kind ≠ .endOfInput → ∃ after : TokenStream,
          s.respond (.consume expected) = (.accepted s.next, after) ∧
            after.cursor = s.cursor + 1)) ∧
      (∀ k : Nat, s.cursor + k < UInt64.size →
        (s.rest[max k 1 - 1]?).or s.tokens.getLast? = some (s.nth k) ∧
        s.tokens[min (s.cursor + max k 1 - 1) (s.tokens.length - 1)]? = some (s.nth k)) ∧
      ∀ (limit : Nat) (excluded : List Kind), s.versionEnds limit excluded = true ↔
        ∃ j, j < limit ∧ (∀ u ∈ s.rest.take j, u.kind = .numeric ∨ u.kind = .dot) ∧
          ∃ t, s.rest[j]? = some t ∧ t.kind ≠ .numeric ∧ t.kind ≠ .dot ∧ t.kind ∉ excluded := by
  refine ⟨_, _, rfl, madeOf_ofTokens ts, tracks_run ts requests, fun _ => respond_refused,
    fun expected hExpected => ⟨respond_end hExpected, fun hMore => ?_⟩,
    fun k hWord => ⟨nth_eq hWord, getElem?_tokens_nth hWord⟩, versionEnds_iff _⟩
  exact ⟨_, respond_accepted hExpected hMore, List.length_append⟩

/-- A token behind an end is never reached, though it can be seen. -/
theorem run_ofTokens_inner_end :
    ∃ (one inner dot : Token) (answers : List Answer) (s : TokenStream),
      (ofTokens [one, inner, dot]).run [.consume [.caret], .nth 3, .consume [], .consume []] =
        (answers, s) ∧ inner.kind = .endOfInput ∧
      answers = [.refused ⟨one, [.caret]⟩, .shown dot, .accepted one, .accepted inner] ∧
      Tracks [one, inner, dot, .endAt 2] answers s ∧
      s.respond (.consume [.dot]) = (.refused ⟨inner, [.dot]⟩, s) ∧
      s.respond (.consume [.endOfInput]) = (.accepted inner, s) ∧
      s.nth 2 = dot ∧ s.nth 9 = .endAt 2 ∧ s.versionEnds 1 [.hyphen] = true := by
  let one : Token := ⟨.numeric, some ['1'], 0⟩
  let dot : Token := ⟨.dot, some ['.'], 1⟩
  obtain ⟨answers, s, hRun, -, hTracks, hRefused, hAccepted, hNth, hScan⟩ :=
    run_ofTokens [one, .endAt 1, dot] [.consume [.caret], .nth 3, .consume [], .consume []]
  obtain ⟨rfl, rfl⟩ := Prod.mk.inj hRun.symm
  refine ⟨one, .endAt 1, dot, _, _, rfl, rfl, by decide, hTracks,
    hRefused _ (List.cons_ne_nil _ _) (by decide), (hAccepted _ (.inr (by decide))).1 (by decide),
    (Option.some.inj (hNth 2 (by decide)).1).symm, (Option.some.inj (hNth 9 (by decide)).1).symm,
    (hScan 1 _).2 ⟨0, by decide, by simp, .endAt 1, by decide, by decide, by decide, by decide⟩⟩

end Versioning.TokenStream
