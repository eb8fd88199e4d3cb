/-!
# Traced computations

A computation that may fail and that tells of its progress. What it told before
it failed stays told, so the trace belongs beside the outcome and not inside it.
-/

namespace Versioning

/-- What a computation told, in order, and how it ended. -/
@[ext] structure Traced (ω ε α : Type) where
  events : List ω
  outcome : Except ε α

namespace Traced

variable {ω ε α β : Type}

/-- An outcome of which nothing is told. -/
def silent (x : Except ε α) : Traced ω ε α := ⟨[], x⟩

/-- Tells of events before a computation goes on. -/
def telling (events : List ω) (x : Traced ω ε α) : Traced ω ε α :=
  ⟨events ++ x.events, x.outcome⟩

/-- Goes on with the value of a computation, unless it failed. -/
def andThen (x : Traced ω ε α) (f : α → Traced ω ε β) : Traced ω ε β :=
  match x.outcome with
  | .ok a => (f a).telling x.events
  | .error e => ⟨x.events, .error e⟩

/-- Changes the value of a computation. -/
def map (f : α → β) (x : Traced ω ε α) : Traced ω ε β := ⟨x.events, x.outcome.map f⟩

@[simp] theorem events_silent (x : Except ε α) : (silent x : Traced ω ε α).events = [] := rfl

@[simp] theorem outcome_silent (x : Except ε α) : (silent x : Traced ω ε α).outcome = x := rfl

@[simp] theorem events_telling (es : List ω) (x : Traced ω ε α) :
    (x.telling es).events = es ++ x.events := rfl

@[simp] theorem outcome_telling (es : List ω) (x : Traced ω ε α) :
    (x.telling es).outcome = x.outcome := rfl

@[simp] theorem events_map (f : α → β) (x : Traced ω ε α) : (x.map f).events = x.events := rfl

@[simp] theorem outcome_map (f : α → β) (x : Traced ω ε α) :
    (x.map f).outcome = x.outcome.map f := rfl

@[simp] theorem outcome_andThen (x : Traced ω ε α) (f : α → Traced ω ε β) :
    (x.andThen f).outcome = x.outcome >>= fun a => (f a).outcome := by
  unfold andThen
  cases x.outcome <;> rfl

theorem events_andThen (x : Traced ω ε α) (f : α → Traced ω ε β) :
    (x.andThen f).events = x.events ++ x.outcome.toOption.elim [] fun a => (f a).events := by
  unfold andThen
  cases x.outcome <;> simp [Except.toOption, telling]

/-- Nothing is added to what was told if nothing more is told. -/
theorem events_andThen_of_silent {x : Traced ω ε α} {f : α → Traced ω ε β}
    (hSilent : ∀ a, (f a).events = []) : (x.andThen f).events = x.events := by
  rw [events_andThen]
  cases x.outcome with
  | error e => exact List.append_nil _
  | ok a => exact (congrArg _ (hSilent a)).trans (List.append_nil _)

end Traced

end Versioning
