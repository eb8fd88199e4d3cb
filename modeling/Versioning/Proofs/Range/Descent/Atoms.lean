import Versioning.Proofs.Range.Descent
import Versioning.Range.Atom

/-!
# Atoms in a descent

A descent is compared with the readers that take tokens from the front of a list. A part
of it that starts somewhere in a stream comes to what such a reader comes to on the tokens
before the end (`Matches`): the same value, with the same tokens left, or the same fault.
It never meets a limit, and on the way it only moves on (`Leads`). Both are kept by one
part after another (`Matches.bind`), so what is compared by hand is the steps: a token
that is accepted, a choice by the next token, a round of a loop.

A loop makes a round for each numeral, and the readers of lists count the numerals that are
still wanted. So as many rounds as there may be numerals are enough (`mirrors_further`,
`mirrors_dotted`).

## Main results

* `mirrors_accept` — accepting a token is taking it from the front of a list.
* `select?_upcoming` — looking ahead along a stream selects what looking ahead in a list does.
* `mirrors_atom` — a descent takes atoms as they are taken from a list.
-/

namespace Versioning.Range.Descent

variable {α β : Type} {origin s : TokenStream} {w v : Walker} {stop : Token} {limits : Limits}

/-! ## The way of a descent -/

/-- A call lies on the way from `origin` to `here`, and the expression that it is for has fewer
tokens before it than the one it is made from. -/
structure Call.LiesOn (c : Call) (origin here : TokenStream) : Prop where
  caller : origin.Moves c.caller
  callee : c.caller.Moves c.callee
  fewer : c.callee.rest.length < c.caller.rest.length
  here : c.callee.Moves here

theorem Call.LiesOn.widen {c : Call} {start here there : TokenStream} (h : c.LiesOn start here)
    (hFrom : origin.Moves start) (hTo : here.Moves there) : c.LiesOn origin there where
  caller := hFrom.trans h.caller
  callee := h.callee
  fewer := h.fewer
  here := h.here.trans hTo

/-- A part of a descent moves the stream on, and the calls made on the way since `origin` are
recorded behind those before it. -/
structure Leads (origin : TokenStream) (w v : Walker) : Prop where
  moves : w.stream.Moves v.stream
  calls : ∃ more, v.calls = w.calls ++ more ∧ ∀ c ∈ more, c.LiesOn origin v.stream

namespace Leads

theorem refl (origin : TokenStream) (w : Walker) : Leads origin w w :=
  ⟨.refl _, [], (List.append_nil _).symm, fun _ hMem => nomatch hMem⟩

theorem trans {u : Walker} (hFirst : Leads origin w v) (hThen : Leads origin v u) :
    Leads origin w u := by
  obtain ⟨hMoves, front, hFront, hLies⟩ := hFirst
  obtain ⟨hMoves', back, hBack, hLies'⟩ := hThen
  refine ⟨hMoves.trans hMoves', front ++ back, ?_, fun c hMem => ?_⟩
  · rw [hBack, hFront, List.append_assoc]
  · rcases List.mem_append.1 hMem with hMem | hMem
    · exact (hLies c hMem).widen (.refl _) hMoves'
    · exact hLies' c hMem

end Leads

/-- What a part of a descent comes to is what a reader of lists comes to: the same value with the
same tokens left before the end, or the same fault. The limits are not met. -/
inductive Matches (origin : TokenStream) (w : Walker) :
    Except Halt α × Walker → Except Error (α × List Token) → Prop where
  | ok {a : α} {v : Walker} (hLeads : Leads origin w v) :
      Matches origin w (.ok a, v) (.ok (a, v.stream.upcoming))
  | fault {e : Error} {v : Walker} (hLeads : Leads origin w v) :
      Matches origin w (.error (.fault e), v) (.error e)

/-- What is known of the way to where a part ends may be put in other terms. -/
theorem Matches.imp {origin' : TokenStream} {w' : Walker} {reached : Except Halt α × Walker}
    {y : Except Error (α × List Token)} (h : Matches origin w reached y)
    (hLeads : ∀ v, Leads origin w v → Leads origin' w' v) : Matches origin' w' reached y := by
  cases h with
  | ok hWay => exact .ok (hLeads _ hWay)
  | fault hWay => exact .fault (hLeads _ hWay)

theorem run_bind (x : Walk α) (f : α → Walk β) (w : Walker) :
    (x >>= f) w = match x w with
      | (.ok a, v) => f a v
      | (.error e, v) => (.error e, v) := by
  show (match x w with | (a, v) => ExceptT.bindCont f a v : Id _) = _
  obtain ⟨outcome, v⟩ := x w
  cases outcome <;> rfl

/-- **One part after another**: if both do what readers of lists do, then so do they together. The
second starts where the first has stopped. -/
theorem Matches.bind {x : Walk α} {f : α → Walk β} {y : Except Error (α × List Token)}
    {g : α × List Token → Except Error (β × List Token)} (hFirst : Matches origin w (x w) y)
    (hThen : ∀ a v, Leads origin w v → y = .ok (a, v.stream.upcoming) →
      Matches origin v (f a v) (g (a, v.stream.upcoming))) :
    Matches origin w ((x >>= f) w) (y >>= g) := by
  rw [run_bind]
  generalize x w = reached at hFirst
  cases hFirst with
  | fault hLeads => exact .fault hLeads
  | @ok a v hLeads => exact (hThen a v hLeads rfl).imp fun _ => hLeads.trans

/-- A part of a descent does what a reader of lists does, wherever it starts before the end
`stop`. -/
def Mirrors (stop : Token) (x : Walk α) (y : List Token → Except Error (α × List Token)) : Prop :=
  ∀ origin w, w.stream.last = stop → Matches origin w (x w) (y w.stream.upcoming)

namespace Mirrors

theorem pure (a : α) : Mirrors stop (pure a : Walk α) fun ts => .ok (a, ts) :=
  fun _ _ _ => .ok (.refl _ _)

theorem settle (x : Except Error α) :
    Mirrors stop (settle x) fun ts => x >>= fun a => .ok (a, ts) := by
  intro origin w _
  cases x with
  | ok a => exact .ok (.refl _ _)
  | error e => exact .fault (.refl _ _)

theorem bind {x : Walk α} {f : α → Walk β} {y : List Token → Except Error (α × List Token)}
    {g : α × List Token → Except Error (β × List Token)} (hFirst : Mirrors stop x y)
    (hThen : ∀ a, Mirrors stop (f a) fun ts => g (a, ts)) :
    Mirrors stop (x >>= f) fun ts => y ts >>= g := by
  intro origin w hStop
  refine (hFirst origin w hStop).bind fun a v hLeads _ => ?_
  exact hThen a origin v (hLeads.moves.last_eq.trans hStop)

end Mirrors

/-! ## Tokens -/

/-- A kind other than the end is that of the next token in the list if it is in the stream. -/
theorem nextIs_upcoming {kind : Kind} (hKind : kind ≠ .endOfInput) (s : TokenStream) :
    Shorthand.nextIs kind s.upcoming = decide (s.next.kind = kind) := by
  rw [s.next_eq]
  cases s.upcoming with
  | nil =>
      have hLast : s.last.kind ≠ kind := fun hSame => hKind (hSame.symm.trans s.kind_last)
      exact (decide_eq_false hLast).symm
  | cons t ts => rfl

/-- A choice by the kind of the next token. -/
theorem matches_ite {kind : Kind} (hKind : kind ≠ .endOfInput) {x x' : Walk α}
    {y y' : Except Error (α × List Token)} (hThen : Matches origin w (x w) y)
    (hElse : Matches origin w (x' w) y') :
    Matches origin w ((do if ← nextIs kind then x else x' : Walk α) w)
      (if Shorthand.nextIs kind w.stream.upcoming then y else y') := by
  show Matches origin w ((if decide (w.stream.next.kind = kind) = true then x else x') w) _
  rw [nextIs_upcoming hKind]
  by_cases hNext : w.stream.next.kind = kind
  · rw [if_pos (decide_eq_true hNext), if_pos (decide_eq_true hNext)]
    exact hThen
  · rw [if_neg (by simpa using hNext), if_neg (by simpa using hNext)]
    exact hElse

theorem Mirrors.ite {kind : Kind} (hKind : kind ≠ .endOfInput) {x x' : Walk α}
    {y y' : List Token → Except Error (α × List Token)} (hThen : Mirrors stop x y)
    (hElse : Mirrors stop x' y') :
    Mirrors stop (do if ← nextIs kind then x else x') fun ts =>
      if Shorthand.nextIs kind ts then y ts else y' ts :=
  fun origin w hStop => matches_ite hKind (hThen origin w hStop) (hElse origin w hStop)

theorem accept_of_mem {expected : List Kind}
    (hExpected : expected = [] ∨ w.stream.next.kind ∈ expected)
    (hMore : w.stream.next.kind ≠ .endOfInput) :
    accept expected w = (.ok w.stream.next, { w with stream := w.stream.advance hMore }) := by
  have hConsume : w.stream.consume expected = .ok (w.stream.next, w.stream.advance hMore) := by
    rw [TokenStream.consume_eq, if_neg fun hNot => hExpected.elim hNot.1 hNot.2, dif_neg hMore]
  show moveOn (w.stream.consume expected) w = _
  rw [hConsume]
  rfl

theorem accept_of_not_mem {expected : List Kind} (hSome : expected ≠ [])
    (hOther : w.stream.next.kind ∉ expected) :
    accept expected w = (.error (.fault (.unexpected ⟨w.stream.next, expected⟩)), w) := by
  have hConsume : w.stream.consume expected = .error ⟨w.stream.next, expected⟩ := by
    rw [TokenStream.consume_eq, if_pos ⟨hSome, hOther⟩]
  show moveOn (w.stream.consume expected) w = _
  rw [hConsume]
  rfl

theorem leads_advance (hMore : w.stream.next.kind ≠ .endOfInput) :
    Leads origin w { w with stream := w.stream.advance hMore } :=
  ⟨TokenStream.moves_advance hMore, [], (List.append_nil _).symm, fun _ hMem => nomatch hMem⟩

/-- Accepting a token of a kind is taking one, unless the kind is that of the end, which is never
taken. -/
theorem mirrors_accept {kind : Kind} (hKind : kind ≠ .endOfInput) :
    Mirrors stop (accept [kind]) (Atom.expect stop kind) := by
  rintro origin w rfl
  by_cases hNext : w.stream.next.kind = kind
  · have hMore : w.stream.next.kind ≠ .endOfInput := hNext ▸ hKind
    rw [accept_of_mem (.inr (List.mem_singleton.2 hNext)) hMore, w.stream.upcoming_eq_cons hMore,
      Atom.expect, if_pos hNext]
    exact .ok (leads_advance hMore)
  · have hExpect : Atom.expect w.stream.last kind w.stream.upcoming =
        .error (.unexpected ⟨w.stream.next, [kind]⟩) := by
      rw [w.stream.next_eq] at hNext ⊢
      cases hUpcoming : w.stream.upcoming with
      | nil => rfl
      | cons t ts =>
          rw [hUpcoming] at hNext
          exact if_neg hNext
    rw [accept_of_not_mem (List.cons_ne_nil _ _) (by simpa using hNext), hExpect]
    exact .fault (.refl _ _)

/-! ## Numerals -/

theorem mirrors_numeral : Mirrors stop numeral (Atom.numeral stop) := by
  refine (mirrors_accept (by decide)).bind fun t => ?_
  dsimp only
  cases Component.ofText? t.chars with
  | none => exact fun _ _ _ => .fault (.refl _ _)
  | some c => exact .pure _

/-- Another numeral is taken if a dot comes next. -/
theorem further_succ (n : Nat) (ts : List Token) :
    Atom.further stop (n + 1) ts =
      if Shorthand.nextIs .dot ts then do
        let (_, us) ← Atom.expect stop .dot ts
        let (x, us) ← Atom.numeral stop us
        let (xs, us) ← Atom.further stop n us
        return (x :: xs, us)
      else .ok ([], ts) := by
  cases ts with
  | nil => rfl
  | cons t ts =>
      by_cases hDot : t.kind = .dot
      · have hNext : Shorthand.nextIs .dot (t :: ts) = true := decide_eq_true hDot
        rw [Atom.further, if_pos hDot, if_pos hNext, Atom.expect, if_pos hDot]
        rfl
      · have hNext : ¬ Shorthand.nextIs .dot (t :: ts) = true := by
          simpa [Shorthand.nextIs] using hDot
        rw [Atom.further, if_neg hDot, if_neg hNext]

/-- **The loop of a version** makes a round for each numeral behind the first, so the limit is not
met if it allows as many as are still wanted. -/
theorem mirrors_further (n : Nat) {rounds count : Nat} (hCount : count + n = 4)
    (hRounds : n ≤ rounds) : Mirrors stop (further rounds count) (Atom.further stop n) := by
  induction n generalizing rounds count with
  | zero =>
      obtain rfl : count = 4 := hCount
      rw [further.eq_def]
      exact .pure []
  | succ n ih =>
      have hFew : count < 4 := by omega
      obtain ⟨rounds, rfl⟩ : ∃ m, rounds = m + 1 := ⟨rounds - 1, by omega⟩
      have hRound : Mirrors stop (do
          let _ ← accept [.dot]
          let x ← numeral
          return x :: (← further rounds (count + 1))) fun ts => do
        let (_, us) ← Atom.expect stop .dot ts
        let (x, us) ← Atom.numeral stop us
        let (xs, us) ← Atom.further stop n us
        return (x :: xs, us) :=
        (mirrors_accept (by decide)).bind fun _ => mirrors_numeral.bind fun x =>
          (ih (by omega) (by omega)).bind fun xs => .pure (x :: xs)
      rw [further, funext (further_succ n)]
      simp only [hFew, true_and]
      exact Mirrors.ite (by decide) hRound (.pure [])

theorem mirrors_numerals (hVersion : 3 ≤ limits.versionRounds) :
    Mirrors stop (numerals limits) (Atom.numerals stop 3) :=
  mirrors_numeral.bind fun x => (mirrors_further 3 rfl hVersion).bind fun xs =>
    .pure (Numerals.mk x xs)

theorem mirrors_operand (hVersion : 3 ≤ limits.versionRounds) :
    Mirrors stop (operand limits) (Atom.operand stop) :=
  (mirrors_numerals hVersion).bind fun ns => .pure ns.core

/-- **The loop of a wildcard range** makes a round for each numeral, the last that is wanted
included. -/
theorem mirrors_dotted (n : Nat) {rounds count : Nat} (hCount : count + n = 2)
    (hRounds : n < rounds) : Mirrors stop (dotted rounds count) (Atom.dotted stop n) := by
  induction n generalizing rounds count with
  | zero =>
      obtain ⟨rounds, rfl⟩ : ∃ m, rounds = m + 1 := ⟨rounds - 1, by omega⟩
      obtain rfl : count = 2 := hCount
      rw [dotted]
      exact mirrors_numeral.bind fun x => (mirrors_accept (by decide)).bind fun _ =>
        .pure (Numerals.mk x [])
  | succ n ih =>
      obtain ⟨rounds, rfl⟩ : ∃ m, rounds = m + 1 := ⟨rounds - 1, by omega⟩
      have hFew : ¬ count + 1 = 3 := by omega
      rw [dotted]
      simp only [hFew, false_or]
      refine mirrors_numeral.bind fun x => (mirrors_accept (by decide)).bind fun _ => ?_
      exact Mirrors.ite (by decide) (.pure (Numerals.mk x []))
        ((ih (by omega) (by omega)).bind fun xs => .pure (xs.cons x))

/-! ## Atoms -/

section Atoms

variable (hWildcard : 3 ≤ limits.wildcardRounds) (hVersion : 3 ≤ limits.versionRounds)

include hVersion in
theorem mirrors_tilde : Mirrors stop (tilde limits) (Atom.tilde stop) :=
  (mirrors_accept (by decide)).bind fun _ =>
    (mirrors_numerals hVersion).bind fun ns => .settle (bandAtLast ns)

include hVersion in
theorem mirrors_caret : Mirrors stop (caret limits) (Atom.caret stop) :=
  (mirrors_accept (by decide)).bind fun _ =>
    (mirrors_numerals hVersion).bind fun ns => .settle (bandAtFirstNonzero ns)

include hWildcard in
theorem mirrors_wildcard : Mirrors stop (wildcard limits) (Atom.wildcard stop) := by
  refine Mirrors.ite (by decide) ?_ ?_
  · exact (mirrors_accept (by decide)).bind fun _ => .pure _
  · exact (mirrors_dotted 2 rfl hWildcard).bind fun ns =>
      (mirrors_accept (by decide)).bind fun _ => .settle (bandAtLast ns)

include hVersion in
theorem mirrors_hyphen : Mirrors stop (hyphen limits) (Atom.hyphen stop) :=
  (mirrors_operand hVersion).bind fun lower => (mirrors_accept (by decide)).bind fun _ =>
    (mirrors_operand hVersion).bind fun upper =>
      .pure (Range.and (.comparison .ge lower) (.comparison .le upper))

theorem mirrors_second : Mirrors stop second (Atom.further stop 1) := by
  rw [funext (further_succ 0)]
  refine Mirrors.ite (by decide) ?_ (.pure [])
  exact (mirrors_accept (by decide)).bind fun _ => mirrors_numeral.bind fun y => .pure [y]

theorem mirrors_oneOrTwo : Mirrors stop oneOrTwo (Atom.numerals stop 1) :=
  mirrors_numeral.bind fun x => mirrors_second.bind fun xs => .pure (Numerals.mk x xs)

theorem mirrors_partialVersion : Mirrors stop partialVersion (Atom.partialVersion stop) :=
  mirrors_oneOrTwo.bind fun ns => .settle (bandAtLast ns)

/-- An operator is found at the front of the list if it is next in the stream; the end is none. -/
theorem operator_upcoming (s : TokenStream) :
    (s.upcoming.head?.bind fun t => Operator.ofKind? t.kind) = Operator.ofKind? s.next.kind := by
  rw [s.next_eq]
  cases s.upcoming with
  | nil =>
      show none = Operator.ofKind? s.last.kind
      rw [s.kind_last]
      rfl
  | cons t ts => rfl

include hVersion in
theorem mirrors_comparison : Mirrors stop (comparison limits) (Atom.comparison stop) := by
  intro origin w hStop
  show Matches origin w (comparing limits (Operator.ofKind? w.stream.next.kind) w) _
  rw [Atom.comparison, operator_upcoming]
  cases hOperator : Operator.ofKind? w.stream.next.kind with
  | none =>
      exact (mirrors_operand hVersion).bind (fun c => .pure (Range.comparison .eq c)) origin w hStop
  | some op =>
      have hMore : w.stream.next.kind ≠ .endOfInput := by
        intro hEnd
        rw [hEnd] at hOperator
        cases hOperator
      have hAccept : Matches origin w (accept [] w)
          (.ok (w.stream.next, w.stream.upcoming.tail)) := by
        rw [accept_of_mem (.inl rfl) hMore, ← w.stream.upcoming_advance hMore]
        exact .ok (leads_advance hMore)
      refine hAccept.bind (g := fun x => Atom.operand stop x.2 >>= fun y =>
        .ok (Range.comparison op y.1, y.2)) fun _ v hLeads _ => ?_
      exact (mirrors_operand hVersion).bind (fun c => .pure (Range.comparison op c)) origin v
        (hLeads.moves.last_eq.trans hStop)

/-! ## The choice of a form -/

theorem find?_inVersion {front : List Token} (hFront : ∀ u ∈ front, u.kind.inVersion = true) :
    (front.find? fun u => !u.kind.inVersion) = none := by
  refine List.find?_eq_none.2 fun u hMem => ?_
  rw [hFront u hMem]
  decide

/-- In a stream a token other than a number or a dot comes after those that come first, and at
the latest it is the end. What the lists are asked for is said of it. -/
theorem exists_versionEnd (s : TokenStream) :
    ∃ front t more, s.rest = front ++ t :: more ∧ (∀ u ∈ front, u.kind.inVersion = true) ∧
      t.kind.inVersion = false ∧ (s.upcoming.takeWhile fun u => u.kind.inVersion) = front ∧
      ∀ kind, kind ≠ .endOfInput →
        (Shorthand.kindAfterVersion? s.upcoming = some kind ↔ t.kind = kind) := by
  have hSplit := List.takeWhile_append_dropWhile (p := fun u : Token => u.kind.inVersion)
    (l := s.upcoming)
  generalize hFront : s.upcoming.takeWhile (fun u => u.kind.inVersion) = front at hSplit
  have hInVersion : ∀ u ∈ front, u.kind.inVersion = true := by
    intro u hMem
    rw [← hFront] at hMem
    exact List.all_eq_true.1 List.all_takeWhile u hMem
  have hNone := find?_inVersion hInVersion
  cases hBack : s.upcoming.dropWhile fun u => u.kind.inVersion with
  | nil =>
      rw [hBack, List.append_nil] at hSplit
      refine ⟨front, s.last, [], by rw [s.rest_eq, hSplit], hInVersion, ?_, rfl, fun kind hKind => ?_⟩
      · rw [s.kind_last]
        rfl
      · rw [Shorthand.kindAfterVersion?, ← hSplit, hNone, s.kind_last]
        exact iff_of_false (fun h => nomatch h) hKind.symm
  | cons t more =>
      have hOther : t.kind.inVersion = false := by
        have hHead := List.head?_dropWhile_not (fun u : Token => u.kind.inVersion) s.upcoming
        rw [hBack] at hHead
        exact hHead
      rw [hBack] at hSplit
      refine ⟨front, t, more ++ [s.last], ?_, hInVersion, hOther, rfl, fun kind _ => ?_⟩
      · rw [s.rest_eq, ← hSplit, List.append_assoc, List.cons_append]
      · rw [Shorthand.kindAfterVersion?, ← hSplit, List.find?_append, hNone, Option.none_or,
          List.find?_cons, hOther]
        exact Option.some_inj

/-- The bounded scan finds the token behind numbers and dots if these are fewer than the limit. -/
theorem find?_take_versionEnd {front more : List Token} {t : Token}
    (hFront : ∀ u ∈ front, u.kind.inVersion = true) (hOther : t.kind.inVersion = false)
    (limit : Nat) :
    (((front ++ t :: more).take limit).find? fun u => !u.kind.inVersion) =
      if front.length < limit then some t else none := by
  have hNone : ((front.take limit).find? fun u => !u.kind.inVersion) = none :=
    find?_inVersion fun u hMem => hFront u (List.mem_of_mem_take hMem)
  rw [List.take_append, List.find?_append, hNone, Option.none_or]
  split
  · rename_i hRoom
    obtain ⟨n, hMore⟩ : ∃ n, limit - front.length = n + 1 := ⟨limit - front.length - 1, by omega⟩
    rw [hMore, List.take_succ_cons, List.find?_cons, hOther]
    rfl
  · rename_i hFull
    rw [Nat.sub_eq_zero_of_le (Nat.le_of_not_lt hFull)]
    rfl

/-- The same form is selected from a stream and from the tokens before its end. -/
theorem select?_upcoming (s : TokenStream) : Shorthand.select? s.upcoming = select? s := by
  obtain ⟨front, t, more, hRest, hFront, hOther, hRun, hAfter⟩ := exists_versionEnd s
  have hEndsAt : ∀ kind, versionEndsAt kind s = decide (t.kind = kind) := by
    intro kind
    rw [versionEndsAt, hRest, List.find?_append, find?_inVersion hFront, Option.none_or,
      List.find?_cons, hOther]
    rfl
  have hEnds : s.versionEnds Shorthand.partialWindow [.wildcard, .hyphen] =
      (if front.length < Shorthand.partialWindow then some t else none).any
        fun u => decide (u.kind ∉ [Kind.wildcard, .hyphen]) := by
    rw [TokenStream.versionEnds, hRest, find?_take_versionEnd hFront hOther]
  unfold Shorthand.select? select?
  rw [nextIs_upcoming (by decide), nextIs_upcoming (by decide), nextIs_upcoming (by decide), hRun,
    hEndsAt, hEndsAt, hEnds]
  simp only [hAfter _ (show Kind.wildcard ≠ .endOfInput by decide),
    hAfter _ (show Kind.hyphen ≠ .endOfInput by decide), decide_eq_true_eq]
  by_cases hStar : t.kind = .wildcard
  · simp only [if_pos hStar]
  by_cases hHyphen : t.kind = .hyphen
  · simp only [if_pos hHyphen]
  -- What is excluded from a partial version has been dealt with.
  have hPartial : ((if front.length < Shorthand.partialWindow then some t else none).any
      fun u => decide (u.kind ∉ [Kind.wildcard, .hyphen])) =
        decide (front.length < Shorthand.partialWindow) := by
    by_cases hFew : front.length < Shorthand.partialWindow
    · simp [hFew, hStar, hHyphen]
    · simp [hFew]
  simp only [if_neg hStar, if_neg hHyphen, hPartial, decide_eq_true_eq]

include hWildcard hVersion in
theorem mirrors_read (form : Option Shorthand) :
    Mirrors stop (read limits form) (Atom.read stop form) := by
  match form with
  | some .tilde => exact mirrors_tilde hVersion
  | some .caret => exact mirrors_caret hVersion
  | some .wildcard => exact mirrors_wildcard hWildcard
  | some .hyphen => exact mirrors_hyphen hVersion
  | some .partialVersion => exact mirrors_partialVersion
  | none => exact mirrors_comparison hVersion

include hWildcard hVersion in
/-- An atom of the form that is selected is taken as from a list. -/
theorem mirrors_atom : Mirrors stop (atom limits) fun ts =>
    Atom.read stop (Shorthand.select? ts) ts := by
  intro origin w hStop
  show Matches origin w (read limits (select? w.stream) w) _
  rw [← select?_upcoming]
  exact mirrors_read hWildcard hVersion _ origin w hStop

end Atoms

end Versioning.Range.Descent
