import Versioning.Proofs.Range.Descent.Atoms
import Versioning.Proofs.Range.Results

/-!
# Progress in reading expressions

A descent that is to read an expression comes to an end, wherever in a stream it starts and
whatever the tokens are. This does not show in its text: at the end a token may be accepted
without the stream moving on, and then a call would start where its caller did. It does not
happen because the tokens behind which a call is made are of kinds other than the end
(`matches_behind`). So a call has fewer tokens left than its caller, and by induction on
how deep calls may be nested as many as there are tokens are enough (`matches_expression`).

The descent reads what the reader of lists reads, so all that is known of that reader holds
of it as well: which ranges it comes to, and at what it fails.

## Main results

* `matches_expression` — a descent comes to what the reader of expressions comes to.
* `run_progress` — no limit is met, and the stream moves on from call to call.
-/

namespace Versioning.Range.Descent

open Versioning.Range.Parser

variable {limits : Limits} {stop : Token} {w v : Walker}

/-! ## The reader of lists by the kind of the next token -/

/-- A unit by the kind of its first token. -/
theorem result_unit (ts : List Token) :
    result (phrase stop .unit ts) =
      if Shorthand.nextIs .not ts then do
        let (_, us) ← Atom.expect stop .not ts
        let (r, vs) ← enclosedResult stop us
        return (.not r, vs)
      else if Shorthand.nextIs .leftParen ts then enclosedResult stop ts
      else Atom.read stop (Shorthand.select? ts) ts := by
  cases ts with
  | nil => exact result_unit_atom fun _ hMem => nomatch hMem
  | cons t ts =>
      simp only [Shorthand.nextIs, List.head?_cons, Option.any_some, decide_eq_true_eq]
      by_cases hNot : t.kind = .not
      · rw [result_unit_not hNot, if_pos hNot, Atom.expect, if_pos hNot]
        show _ = enclosedResult stop ts >>= _
        cases enclosedResult stop ts <;> rfl
      by_cases hParen : t.kind = .leftParen
      · rw [result_unit_enclosed hParen, if_neg hNot, if_pos hParen]
      · rw [if_neg hNot, if_neg hParen]
        exact result_unit_atom (by simpa using ⟨hNot, hParen⟩)

/-- What goes on after a unit, by the kind of the token behind it. -/
theorem joinedResult_eq (r : Range) (ts : List Token) :
    joinedResult stop r ts =
      if Shorthand.nextIs .and ts then do
        let (_, us) ← Atom.expect stop .and ts
        let (right, vs) ← result (phrase stop .expression us)
        return (.and r right, vs)
      else if Shorthand.nextIs .or ts then do
        let (_, us) ← Atom.expect stop .or ts
        let (right, vs) ← result (phrase stop .expression us)
        return (.or r right, vs)
      else .ok (r, ts) := by
  cases ts with
  | nil => rfl
  | cons t ts =>
      have hMap : ∀ join : Range → Range,
          ((result (phrase stop .expression ts)).map fun x => (join x.1, x.2)) =
            result (phrase stop .expression ts) >>= fun x => .ok (join x.1, x.2) := by
        intro join
        cases result (phrase stop .expression ts) <;> rfl
      simp only [Shorthand.nextIs, List.head?_cons, Option.any_some, decide_eq_true_eq]
      rw [joinedResult]
      by_cases hAnd : t.kind = .and
      · rw [if_pos hAnd, if_pos hAnd, Atom.expect, if_pos hAnd]
        exact hMap (.and r)
      by_cases hOr : t.kind = .or
      · rw [if_neg hAnd, if_pos hOr, if_neg hAnd, if_pos hOr, Atom.expect, if_pos hOr]
        exact hMap (.or r)
      · rw [if_neg hAnd, if_neg hOr, if_neg hAnd, if_neg hOr]

/-! ## Expressions -/

/-- A call that is made from the expression at `caller` comes to what the reader of expressions does
with the tokens it is made at, and what it records lies on the way since `caller`. -/
def Answers (caller : TokenStream) (call : Cause → Walk Range) : Prop :=
  ∀ cause w, caller.Moves w.stream → w.stream.rest.length < caller.rest.length →
    Matches caller w (call cause w)
      (result (phrase caller.last .expression w.stream.upcoming))

/-- Taking a token leaves fewer. -/
theorem rest_lt_of_expect {kind : Kind} {t : Token}
    (hExpect : Atom.expect stop kind w.stream.upcoming = .ok (t, v.stream.upcoming)) :
    v.stream.rest.length < w.stream.rest.length := by
  have hOne := Atom.length_of_expect hExpect
  have hBefore := w.stream.length_upcoming
  have hAfter := v.stream.length_upcoming
  omega

section Expressions

variable (hWildcard : 3 ≤ limits.wildcardRounds) (hVersion : 3 ≤ limits.versionRounds)
  {caller : TokenStream} {call : Cause → Walk Range} (hCall : Answers caller call)
  (hMoves : caller.Moves w.stream)
include hCall hMoves

/-- What is read behind a token that has been accepted: an expression, and what comes after it. -/
theorem matches_behind {β : Type} {mark : Kind} (hMark : mark ≠ .endOfInput) (cause : Cause)
    {f : Range → Walk β} {g : Range × List Token → Except Error (β × List Token)}
    (hThen : ∀ r, Mirrors caller.last (f r) fun ts => g (r, ts)) :
    Matches caller w ((do
        let _ ← accept [mark]
        let r ← call cause
        f r : Walk β) w) (do
      let (_, us) ← Atom.expect caller.last mark w.stream.upcoming
      result (phrase caller.last .expression us) >>= g) := by
  refine (mirrors_accept hMark caller w hMoves.last_eq).bind fun t v hLeads hTaken => ?_
  have hThere := hMoves.trans hLeads.moves
  have hFewer : v.stream.rest.length < caller.rest.length :=
    Nat.lt_of_lt_of_le (rest_lt_of_expect hTaken) hMoves.length_rest_le
  refine (hCall cause v hThere hFewer).bind fun r u hLeads _ => ?_
  exact hThen r caller u (hThere.trans hLeads.moves).last_eq

theorem matches_enclosed (cause : Cause) :
    Matches caller w (enclosed (call cause) w) (enclosedResult caller.last w.stream.upcoming) :=
  matches_behind hCall hMoves (by decide) cause fun r =>
    (mirrors_accept (by decide)).bind fun _ => .pure r

include hWildcard hVersion in
theorem matches_unit : Matches caller w (unit limits call w)
    (result (phrase caller.last .unit w.stream.upcoming)) := by
  rw [result_unit]
  refine matches_ite (by decide) ?_ (matches_ite (by decide) ?_ ?_)
  · refine (mirrors_accept (by decide) caller w hMoves.last_eq).bind fun t v hLeads _ => ?_
    exact (matches_enclosed hCall (hMoves.trans hLeads.moves) .negation).bind fun r u _ _ =>
      .ok (.refl _ _)
  · exact matches_enclosed hCall hMoves .parenthesis
  · exact mirrors_atom hWildcard hVersion caller w hMoves.last_eq

theorem matches_connect (r : Range) : Matches caller w (connect call r w)
    (joinedResult caller.last r w.stream.upcoming) := by
  rw [joinedResult_eq]
  refine matches_ite (by decide) ?_ (matches_ite (by decide) ?_ (.ok (.refl _ _)))
  · exact matches_behind hCall hMoves (by decide) .connective fun right => .pure (r.and right)
  · exact matches_behind hCall hMoves (by decide) .connective fun right => .pure (r.or right)

end Expressions

/-- A call from an expression is answered if the descent answers wherever fewer tokens are left. -/
theorem answers_calling {caller : TokenStream} {read : Walk Range}
    (hRead : ∀ w : Walker, w.stream.rest.length < caller.rest.length →
      Matches w.stream w (read w) (result (phrase w.stream.last .expression w.stream.upcoming))) :
    Answers caller fun cause => calling caller cause read := by
  intro cause w hMoves hFewer
  let recorded : Walker := { w with calls := w.calls ++ [⟨cause, caller, w.stream⟩] }
  have hMatches := hRead recorded hFewer
  rw [show recorded.stream.last = caller.last from hMoves.last_eq] at hMatches
  refine hMatches.imp fun v hLeads => ?_
  obtain ⟨hThere, more, hMore, hLies⟩ := hLeads
  refine ⟨hThere, ⟨cause, caller, w.stream⟩ :: more, ?_, fun c hMem => ?_⟩
  · rw [hMore, List.append_assoc, List.singleton_append]
  · rcases List.mem_cons.1 hMem with rfl | hMem
    · exact ⟨.refl _, hMoves, hFewer, hThere⟩
    · exact (hLies c hMem).widen hMoves (.refl _)

/-- **The descent reads what the reader of lists reads**, by induction on the depth that is
allowed: each call leaves less to read than there was where it is made from. -/
theorem matches_expression (hWildcard : 3 ≤ limits.wildcardRounds)
    (hVersion : 3 ≤ limits.versionRounds) (depth : Nat) (w : Walker)
    (hDepth : w.stream.rest.length ≤ depth) :
    Matches w.stream w (expression limits depth w)
      (result (phrase w.stream.last .expression w.stream.upcoming)) := by
  induction depth generalizing w with
  | zero => exact absurd (List.length_eq_zero_iff.1 (Nat.le_zero.1 hDepth)) w.stream.rest_ne_nil
  | succ depth ih =>
      let call := fun cause => calling w.stream cause (expression limits depth)
      have hCall : Answers w.stream call := answers_calling fun v hFewer => ih v (by omega)
      have hSteps : expression limits (depth + 1) w = (unit limits call >>= connect call) w := by
        rw [expression]
        rfl
      rw [result_expression, hSteps]
      refine (matches_unit hWildcard hVersion hCall (.refl _)).bind fun r v hLeads _ => ?_
      exact matches_connect hCall hLeads.moves r

/-! ## Progress -/

/-- What holds of a descent from one place in a stream to another, with the calls made on the
way. -/
structure Progress (s after : TokenStream) (calls : List Call) : Prop where
  /-- No token is lost or added. -/
  tokens_eq : after.tokens = s.tokens
  /-- The cursor has not moved backwards, and it is at one of the tokens. -/
  cursor_le : s.cursor ≤ after.cursor
  cursor_lt : after.cursor < s.tokens.length
  /-- The tokens that it has moved past are not ends. -/
  kind_ne : ∀ i t, s.cursor ≤ i → i < after.cursor → s.tokens[i]? = some t →
    t.kind ≠ .endOfInput
  /-- Each call is made in between, and with fewer tokens left than there are for its caller. -/
  calls : ∀ c ∈ calls, c.LiesOn s after

theorem progress_of_leads {s : TokenStream} (hLeads : Leads s ⟨s, []⟩ w) :
    Progress s w.stream w.calls := by
  have hMoves : s.Moves w.stream := hLeads.moves
  obtain ⟨more, hCalls, hLies⟩ := hLeads.calls
  obtain rfl : w.calls = more := hCalls
  have hSum := hMoves.length_rest
  have hLength : s.tokens.length = s.cursor + s.rest.length := List.length_append
  have hPos := List.length_pos_iff.2 w.stream.rest_ne_nil
  exact ⟨hMoves.tokens_eq, hMoves.cursor_le, by omega, fun i t => hMoves.kind_ne, hLies⟩

/-- **Progress**: reading an expression comes to an end wherever in a stream it starts. Each loop
makes three rounds at most, that of a version behind its first numeral, and no more expressions are
read one inside another than there are tokens left, so limits that allow for these are never met.
There is either a fault or a range with one token taken at least, the same as the reader of lists
comes to. -/
theorem run_progress (limits : Limits) (s : TokenStream) (hWildcard : 3 ≤ limits.wildcardRounds)
    (hVersion : 3 ≤ limits.versionRounds) (hDepth : s.rest.length ≤ limits.depth) :
    ∃ (outcome : Except Error Range) (after : TokenStream) (calls : List Call),
      run limits s = (outcome.mapError .fault, ⟨after, calls⟩) ∧
      result (Parser.expression s.last s.upcoming) = outcome.map (fun r => (r, after.upcoming)) ∧
      (∀ r, outcome = .ok r → s.cursor < after.cursor) ∧ Progress s after calls := by
  have hMatches : Matches s ⟨s, []⟩ (run limits s) (result (Parser.expression s.last s.upcoming)) :=
    matches_expression hWildcard hVersion limits.depth ⟨s, []⟩ hDepth
  have hShorter : ∀ r us, result (Parser.expression s.last s.upcoming) = .ok (r, us) →
      us.length < s.upcoming.length := by
    intro r us hOk
    obtain ⟨hShorter, -⟩ := result_eq_ok_iff.1 hOk
    exact hShorter
  generalize run limits s = reached at hMatches
  generalize result (Parser.expression s.last s.upcoming) = y at hMatches hShorter
  cases hMatches with
  | fault hLeads =>
      exact ⟨.error _, _, _, rfl, rfl, (fun _ hOk => nomatch hOk), progress_of_leads hLeads⟩
  | @ok r v hLeads =>
      have hFewer := hShorter r _ rfl
      have hBefore := s.length_upcoming
      have hAfter := v.stream.length_upcoming
      have hSum := hLeads.moves.length_rest
      dsimp only at hSum
      exact ⟨.ok r, v.stream, v.calls, rfl, rfl, fun _ _ => by omega, progress_of_leads hLeads⟩

/-- As many expressions may be one inside another as there are tokens, the end included. -/
example :
    let s := TokenStream.ofTokens (List.replicate 3 ⟨.leftParen, some ['('], 0⟩)
    s.rest.length = 4 ∧ (run ⟨3, 3, 3⟩ s).1 = .error .limit ∧
      (run ⟨3, 3, 4⟩ s).1 = .error (.fault (.unexpected ⟨.endAt 1, [.numeric]⟩)) :=
  ⟨rfl, rfl, rfl⟩

/-- The loop of a wildcard range may make three rounds. -/
example :
    let number : Token := ⟨.numeric, some ['1'], 0⟩
    let dot : Token := ⟨.dot, some ['.'], 1⟩
    let s := TokenStream.ofTokens
      [number, dot, number, dot, number, dot, ⟨.wildcard, some ['*'], 2⟩]
    (run ⟨2, 3, 8⟩ s).1 = .error .limit ∧ (run ⟨3, 3, 8⟩ s).2.stream.cursor = 7 :=
  ⟨rfl, rfl⟩

/-- Inside a negation and behind a connective a parenthesis is opened, and nothing is in it. Three
calls are made, each for an expression that starts further on, and the end is where it is given
up. -/
theorem run_progress_unclosed :
    ∃ (s after : TokenStream) (calls : List Call), s.rest.length ≤ 6 ∧
      s.rest.map Token.kind =
        [.not, .leftParen, .numeric, .and, .leftParen, .endOfInput] ∧ s.cursor = 2 ∧
      run ⟨3, 3, 6⟩ s =
        (.error (.fault (.unexpected ⟨.endAt 11, [.numeric]⟩)), ⟨after, calls⟩) ∧
      after.next = .endAt 11 ∧ Progress s after calls ∧
      (calls.map fun c => (c.cause, c.caller.cursor, c.callee.cursor)) =
        [(.negation, 2, 4), (.connective, 4, 6), (.parenthesis, 6, 7)] := by
  let s : TokenStream :=
    { taken := [⟨.numeric, some ['1'], 0⟩, ⟨.or, some ['|'], 2⟩]
      rest := [⟨.not, some ['!'], 4⟩, ⟨.leftParen, some ['('], 5⟩, ⟨.numeric, some ['2'], 6⟩,
        ⟨.and, some ['&'], 8⟩, ⟨.leftParen, some ['('], 10⟩, .endAt 11]
      ends := rfl }
  obtain ⟨outcome, after, calls, hRun, -, -, hProgress⟩ :=
    run_progress ⟨3, 3, 6⟩ s (by decide) (by decide) (by decide)
  have hFault : (run ⟨3, 3, 6⟩ s).1 = .error (.fault (.unexpected ⟨.endAt 11, [.numeric]⟩)) := rfl
  have hNext : (run ⟨3, 3, 6⟩ s).2.stream.next = .endAt 11 := rfl
  have hCalls : ((run ⟨3, 3, 6⟩ s).2.calls.map
      fun c => (c.cause, c.caller.cursor, c.callee.cursor)) =
        [(.negation, 2, 4), (.connective, 4, 6), (.parenthesis, 6, 7)] := rfl
  rw [hRun] at hFault hNext hCalls
  exact ⟨s, after, calls, by decide, rfl, rfl, hRun.trans (Prod.ext hFault rfl), hNext, hProgress,
    hCalls⟩

end Versioning.Range.Descent
