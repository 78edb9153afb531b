import Mathlib.Tactic

/-!
# Loops that read a stream

A loop whose body reads one item of a stream in every round and either goes
round again or returns.  At the end of the stream every read gives the end
again, so a body that does not return there never returns.
-/

namespace GrapheneLtp.ReadLoop

section Loops

variable {σ ρ : Type*}

/-- `for (;;)` over a body that goes on with a state or returns a value. -/
inductive Exits (body : σ → σ ⊕ ρ) : σ → ρ → Prop
  | done {state : σ} {value : ρ} (hdone : body state = .inr value) :
      Exits body state value
  | next {state after : σ} {value : ρ} (hnext : body state = .inl after)
      (hafter : Exits body after value) : Exits body state value

variable {body : σ → σ ⊕ ρ}

/-- A loop does not return from states that it never leaves. -/
theorem not_exits_of_invariant {invariant : σ → Prop} (hstep : ∀ state, invariant state →
      ∃ after, body state = .inl after ∧ invariant after)
    {state : σ} (hstate : invariant state) (value : ρ) :
    ¬Exits body state value := by
  intro hexits
  induction hexits with
  | done hdone =>
    obtain ⟨after, hnext, -⟩ := hstep _ hstate
    cases hdone.symm.trans hnext
  | next hother _ ih =>
    obtain ⟨after, hnext, hafter⟩ := hstep _ hstate
    cases hother.symm.trans hnext
    exact ih hafter

end Loops

section Streams

variable {α σ ρ : Type*}

/-- A read: the next item, or the end of the stream over and over. -/
def getc : List α → Option α × List α
  | [] => (none, [])
  | c :: rest => (some c, rest)

/-- The body of a loop that reads first. -/
def readBody (step : σ → Option α → σ ⊕ ρ) (state : σ × List α) : (σ × List α) ⊕ (ρ × List α) :=
  match step state.1 (getc state.2).1 with
  | .inl after => .inl (after, (getc state.2).2)
  | .inr value => .inr (value, (getc state.2).2)

/-- What the loop returns, and the stream it leaves. -/
def readLoop (step : σ → Option α → σ ⊕ ρ) : σ → List α → Option (ρ × List α)
  | _, [] => none
  | state, c :: rest =>
    match step state (some c) with
    | .inl after => readLoop step after rest
    | .inr value => some (value, rest)

variable {step : σ → Option α → σ ⊕ ρ}

/-- If no round returns at the end of the stream, then `readLoop` is the
loop: it has no value if and only if the loop does not return. -/
theorem exits_iff_readLoop (hend : ∀ state, ∃ after, step state none = .inl after)
    (state : σ) (stream : List α) (result : ρ × List α) :
    Exits (readBody step) (state, stream) result ↔ readLoop step state stream = some result := by
  induction stream generalizing state with
  | nil =>
    constructor
    · have hstep (state : σ × List α) (hnil : state.2 = []) :
          ∃ after, readBody step state = .inl after ∧ after.2 = [] := by
        obtain ⟨after, hafter⟩ := hend state.1
        refine ⟨(after, []), ?_, rfl⟩
        simp only [readBody, hnil, getc, hafter]
      intro hexits
      exact absurd hexits (not_exits_of_invariant hstep rfl result)
    · intro hnone
      cases hnone
  | cons c rest ih =>
    rw [readLoop]
    cases hstep : step state (some c) with
    | inl after =>
      have hbody : readBody step (state, c :: rest) = .inl (after, rest) := by
        simp only [readBody, getc, hstep]
      rw [← ih after]
      constructor
      · intro hexits
        cases hexits with
        | done hdone => cases hbody.symm.trans hdone
        | next hnext hafter =>
          cases hbody.symm.trans hnext
          exact hafter
      · exact Exits.next hbody
    | inr value =>
      have hbody : readBody step (state, c :: rest) = .inr (value, rest) := by
        simp only [readBody, getc, hstep]
      constructor
      · intro hexits
        cases hexits with
        | done hdone =>
          exact congrArg some (Sum.inr.inj (hbody.symm.trans hdone))
        | next hnext _ => cases hbody.symm.trans hnext
      · intro hsome
        cases hsome
        exact Exits.done hbody

/-- A loop that returns does not look at what comes later. -/
theorem readLoop_append {state : σ} {stream rest : List α} {value : ρ}
    (hloop : readLoop step state stream = some (value, rest)) (tail : List α) :
    readLoop step state (stream ++ tail) = some (value, rest ++ tail) := by
  induction stream generalizing state with
  | nil => cases hloop
  | cons c stream ih =>
    rw [readLoop] at hloop
    rw [List.cons_append, readLoop]
    cases hstep : step state (some c) with
    | inl after =>
      rw [hstep] at hloop
      exact ih hloop
    | inr returned =>
      rw [hstep] at hloop
      cases hloop
      rfl

/-- A loop that returns has read something. -/
theorem length_of_readLoop {state : σ} {stream rest : List α} {value : ρ}
    (hloop : readLoop step state stream = some (value, rest)) :
    rest.length < stream.length := by
  induction stream generalizing state with
  | nil => cases hloop
  | cons c stream ih =>
    rw [readLoop] at hloop
    split at hloop
    · exact (ih hloop).trans (Nat.lt_succ_self _)
    · cases hloop
      exact Nat.lt_succ_self _

end Streams

end GrapheneLtp.ReadLoop
