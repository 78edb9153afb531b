import Mathlib.Tactic

/-!
# Computations that can fail

What a sequence of two computations says about each of them, and rules for
computations that succeed with a result of which something holds.
-/

namespace GrapheneLtp.Fallible

variable {ε α β : Type} {first : Except ε α} {next : α → Except ε β} {result : β}

@[simp]
theorem ok_bind (x : α) : (Except.ok x >>= next) = next x := rfl

theorem bind_ok (hresult : first >>= next = .ok result) :
    ∃ x, first = .ok x ∧ next x = .ok result := by
  cases first with
  | error failure => cases hresult
  | ok x => exact ⟨x, rfl, hresult⟩

/-- The computation succeeds, and its result meets the condition. -/
def Succeeds (computation : Except ε α) (post : α → Prop) : Prop :=
  ∃ x, computation = .ok x ∧ post x

section Rules

variable {post : α → Prop} {final : β → Prop}

theorem Succeeds.ok {x : α} (hpost : post x) : Succeeds (.ok x : Except ε α) post := ⟨x, rfl, hpost⟩

theorem Succeeds.bind (hfirst : Succeeds first post)
    (hnext : ∀ x, post x → Succeeds (next x) final) :
    Succeeds (first >>= next) final := by
  obtain ⟨x, rfl, hx⟩ := hfirst
  exact hnext x hx

end Rules

end GrapheneLtp.Fallible
