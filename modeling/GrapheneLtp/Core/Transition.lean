import Mathlib.Tactic

/-!
# Interleaved transition systems

Several actors share one state, and each step belongs to one of them.  Safety
is an invariant of the reachable states, and a list of actors can be replayed
from a state.
-/

namespace GrapheneLtp.Transition

variable {State Actor : Type*}

/-- The states that some finite interleaving leads to. -/
inductive Reachable (Initial : State → Prop)
    (Step : Actor → State → State → Prop) : State → Prop
  | initial {state : State} : Initial state → Reachable Initial Step state
  | step {actor : Actor} {state next : State} :
      Reachable Initial Step state → Step actor state next →
        Reachable Initial Step next

/-- A finite interleaving: every state it left, with the actor that took the
step from there, and the state it has come to. -/
inductive Trace (Initial : State → Prop)
    (Step : Actor → State → State → Prop) :
    List (State × Actor) → State → Prop
  | initial {state : State} : Initial state → Trace Initial Step [] state
  | step {past : List (State × Actor)} {actor : Actor} {state next : State} :
      Trace Initial Step past state → Step actor state next →
        Trace Initial Step (past ++ [(state, actor)]) next

/-- An infinite interleaving, with the actor of every step. -/
structure Run (Initial : State → Prop)
    (Step : Actor → State → State → Prop) where
  state : ℕ → State
  actor : ℕ → Actor
  initial : Initial (state 0)
  step : ∀ time, Step (actor time) (state time) (state (time + 1))

section Systems

variable {Initial : State → Prop} {Step : Actor → State → State → Prop}

/-- What holds initially and survives every step holds of every reachable
state. -/
theorem Reachable.invariant {Inv : State → Prop} (hinitial : ∀ state, Initial state → Inv state)
    (hstep : ∀ actor state next, Inv state → Step actor state next → Inv next)
    {state : State} (hreachable : Reachable Initial Step state) :
    Inv state := by
  induction hreachable with
  | initial hstate => exact hinitial _ hstate
  | step _ hnext ih => exact hstep _ _ _ ih hnext

theorem Trace.reachable {past : List (State × Actor)} {state : State}
    (htrace : Trace Initial Step past state) :
    Reachable Initial Step state := by
  induction htrace with
  | initial hstate => exact .initial hstate
  | step _ hnext ih => exact .step ih hnext

/-- The trace of the given actors' steps, where a step is computed. -/
def replay (step : State → Actor → Option State) (state : State) :
    List Actor → Option (List (State × Actor) × State)
  | [] => some ([], state)
  | actor :: rest =>
    match step state actor with
    | none => none
    | some next => (replay step next rest).map fun result =>
      ((state, actor) :: result.1, result.2)

theorem Trace.replay {step : State → Actor → Option State}
    (hstep : ∀ actor state next, step state actor = some next → Step actor state next)
    {past more : List (State × Actor)} {state final : State}
    {actors : List Actor} (htrace : Trace Initial Step past state)
    (hreplay : Transition.replay step state actors = some (more, final)) :
    Trace Initial Step (past ++ more) final := by
  induction actors generalizing past more state with
  | nil =>
    cases hreplay
    rwa [List.append_nil]
  | cons actor rest ih =>
    unfold Transition.replay at hreplay
    cases hnext : step state actor with
    | none => simp [hnext] at hreplay
    | some next =>
      simp only [hnext, Option.map_eq_some_iff] at hreplay
      obtain ⟨⟨later, reached⟩, hlater, hpair⟩ := hreplay
      cases hpair
      have hsnoc := ih (htrace.step (hstep actor state next hnext)) hlater
      rwa [List.append_assoc] at hsnoc

end Systems

end GrapheneLtp.Transition
