import ContentFilter.Failure

/-!
What a step does to the state it works on: it goes on with a new state, or it is halted and
leaves the state that it had reached. A halt keeps everything done before it.
-/

namespace ContentFilter

inductive Progress (State : Type) where
  | on (state : State)
  | halted (failure : Failure) (state : State)
  deriving DecidableEq, Repr

namespace Progress

variable {State Other : Type}

def state : Progress State → State
  | .on state => state
  | .halted _ state => state

def failure? : Progress State → Option Failure
  | .on _ => none
  | .halted failure _ => some failure

@[inline] def andThen (first : Progress State) (step : State → Progress State) : Progress State :=
  match first with
  | .on state => step state
  | .halted failure state => .halted failure state

@[inline] def map (place : State → Other) : Progress State → Progress Other
  | .on state => .on (place state)
  | .halted failure state => .halted failure (place state)

@[simp] theorem on_andThen (before : State) (step : State → Progress State) :
    (Progress.on before).andThen step = step before := rfl

@[simp] theorem halted_andThen (failure : Failure) (before : State)
    (step : State → Progress State) :
    (Progress.halted failure before).andThen step = .halted failure before := rfl

theorem andThen_assoc (first : Progress State) (second third : State → Progress State) :
    (first.andThen second).andThen third =
      first.andThen fun reached => (second reached).andThen third := by
  cases first <;> rfl

end Progress

end ContentFilter
