import Mathlib.Tactic
import GrapheneLtp.Core.Traced

/-!
# Loops that may return early

A computation that meets events on its way and may return before its end, as C
code does from within a loop.  `Keeps` says that every event was safe, whether the
computation returned early or not, and what holds if it came to its end.
-/

namespace GrapheneLtp.EarlyExit

variable {ε α β σ : Type} {safe : ε → Prop}

/-- All events are safe, and a computation that does not return early ends as it
should. -/
def Keeps (safe : ε → Prop) (computation : OptionT (Traced ε) α) (post : α → Prop) : Prop :=
  Traced.Completes safe computation.run fun result =>
    ∀ value, result = some value → post value

/-- The return. -/
def earlyReturn : OptionT (Traced ε) α := OptionT.mk (pure none)

/-- An event, and the result of getting past it. -/
def past (event : ε) (result : Option α) : OptionT (Traced ε) α :=
  OptionT.lift (Traced.past event result)

/-- `for (i = first; i < first + rounds; i++)`. -/
def forFrom (body : ℕ → σ → OptionT (Traced ε) σ) : ℕ → ℕ → σ → OptionT (Traced ε) σ
  | _, 0, state => pure state
  | first, rounds + 1, state =>
    body first state >>= forFrom body (first + 1) rounds

theorem Keeps.pure {post : α → Prop} {value : α} (hvalue : post value) :
    Keeps safe (Pure.pure value) post := by
  apply Traced.Completes.pure
  rintro other ⟨⟩
  exact hvalue

theorem Keeps.earlyReturn {post : α → Prop} :
    Keeps safe (earlyReturn : OptionT (Traced ε) α) post := by
  apply Traced.Completes.pure
  rintro other ⟨⟩

theorem Keeps.weaken {computation : OptionT (Traced ε) α}
    {post other : α → Prop} (hkeeps : Keeps safe computation post)
    (himp : ∀ value, post value → other value) : Keeps safe computation other :=
  Traced.Completes.weaken hkeeps fun _ hpost value hvalue =>
    himp value (hpost value hvalue)

theorem Keeps.bind {first : OptionT (Traced ε) α}
    {next : α → OptionT (Traced ε) β} {middle : α → Prop} {post : β → Prop}
    (hfirst : Keeps safe first middle)
    (hnext : ∀ value, middle value → Keeps safe (next value) post) :
    Keeps safe (first >>= next) post := by
  apply Traced.Completes.bind hfirst
  intro result hmiddle
  cases result with
  | none => exact Keeps.earlyReturn
  | some value => exact hnext value (hmiddle value rfl)

theorem Keeps.past {event : ε} {value : α} (hsafe : safe event) :
    Keeps safe (past event (some value)) fun result => result = value := by
  apply Traced.Completes.bind (Traced.Completes.past hsafe)
  rintro result rfl
  apply Traced.Completes.pure
  rintro other ⟨⟩
  rfl

/-- A test that may lead to a return. -/
theorem Keeps.check {condition : Prop} [Decidable condition]
    {rest : OptionT (Traced ε) α} {post : α → Prop}
    (hrest : ¬ condition → Keeps safe rest post) :
    Keeps safe (if condition then EarlyExit.earlyReturn else rest) post := by
  split
  · exact Keeps.earlyReturn
  · rename_i hcondition
    exact hrest hcondition

/-- The invariant of a loop that counts. -/
theorem Keeps.forFrom {body : ℕ → σ → OptionT (Traced ε) σ}
    (invariant : ℕ → σ → Prop) {first rounds : ℕ}
    (hbody : ∀ i state, i < first + rounds → invariant i state →
      Keeps safe (body i state) (invariant (i + 1)))
    {state : σ} (hstate : invariant first state) :
    Keeps safe (forFrom body first rounds state) (invariant (first + rounds)) := by
  induction rounds generalizing first state with
  | zero => exact Keeps.pure hstate
  | succ rounds ih =>
    apply Keeps.bind (hbody first state (by omega) hstate)
    intro next hnext
    have hrest := ih (fun i state hi => hbody i state (by omega)) hnext
    rwa [show first + (rounds + 1) = first + 1 + rounds by omega]

end GrapheneLtp.EarlyExit
