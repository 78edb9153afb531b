import Mathlib.Tactic

/-!
# Computations that depend on conditions

A computation that meets events on its way and gets past an event only if it is
safe.  `Meets` says that a computation has a result exactly if all events it
met were safe, and what holds of the result.  `Completes` says that there is a
result and all events were safe.
-/

namespace GrapheneLtp

/-- The events met, and the result if there is one. -/
structure Traced (ε α : Type) where
  events : List ε
  result : Option α

namespace Traced

variable {ε α β : Type}

instance : Monad (Traced ε) where
  pure value := ⟨[], some value⟩
  bind first next :=
    match first.result with
    | none => ⟨first.events, none⟩
    | some value =>
      ⟨first.events ++ (next value).events, (next value).result⟩

@[simp]
theorem result_pure (value : α) : (pure value : Traced ε α).result = some value := rfl

@[simp]
theorem result_bind (first : Traced ε α) (next : α → Traced ε β) :
    (first >>= next).result = first.result.bind fun value =>
      (next value).result := by
  simp only [bind]
  cases first.result <;> rfl

/-- What comes next matters only at the result. -/
theorem bind_congr_result {first : Traced ε α} {left right : α → Traced ε β}
    (hnext : ∀ value, first.result = some value → left value = right value) :
    first >>= left = first >>= right := by
  cases hresult : first.result with
  | none => simp only [bind, hresult]
  | some value => simp only [bind, hresult, hnext value hresult]

/-- The events of two computations, of which the second one needs the first one's
result. -/
theorem forall_events_bind {Safe : ε → Prop} {first : Traced ε α} {next : α → Traced ε β} :
    (∀ event ∈ (first >>= next).events, Safe event) ↔ (∀ event ∈ first.events, Safe event) ∧
      ∀ value, first.result = some value → ∀ event ∈ (next value).events, Safe event := by
  simp only [bind]
  cases first.result with
  | none => simp
  | some value => simp [or_imp, forall_and]

section Meets

/-- There is a result exactly if every event was safe, and the result is as
it should be. -/
def Meets (safe : ε → Bool) (run : Traced ε α) (post : α → Prop) : Prop :=
  (run.result.isSome = true ↔ ∀ event ∈ run.events, safe event = true) ∧
    ∀ value, run.result = some value → post value

variable {safe : ε → Bool}

theorem Meets.pure {post : α → Prop} {value : α} (hvalue : post value) :
    Meets safe (Pure.pure value) post := by
  refine ⟨iff_of_true rfl (fun event hevent => ?_), ?_⟩
  · cases hevent
  · intro other hother
    cases hother
    exact hvalue

theorem Meets.weaken {run : Traced ε α} {post other : α → Prop}
    (hrun : Meets safe run post) (himp : ∀ value, post value → other value) :
    Meets safe run other :=
  ⟨hrun.1, fun value hvalue => himp value (hrun.2 value hvalue)⟩

/-- One computation after another. -/
theorem Meets.bind {first : Traced ε α} {next : α → Traced ε β}
    {middle : α → Prop} {post : β → Prop} (hfirst : Meets safe first middle)
    (hnext : ∀ value, middle value → Meets safe (next value) post) :
    Meets safe (first >>= next) post := by
  obtain ⟨hsound, hmiddle⟩ := hfirst
  cases hresult : first.result with
  | none =>
    have hrun : first >>= next = ⟨first.events, none⟩ := by
      simp only [Bind.bind, hresult]
    rw [hrun]
    rw [hresult] at hsound
    exact ⟨hsound, fun value hvalue => by cases hvalue⟩
  | some value =>
    have hrun : first >>= next = ⟨first.events ++ (next value).events, (next value).result⟩ := by
      simp only [Bind.bind, hresult]
    obtain ⟨hafter, hpost⟩ := hnext value (hmiddle value hresult)
    have hsafe := hsound.mp (by rw [hresult]; rfl)
    rw [hrun]
    refine ⟨?_, hpost⟩
    rw [hafter]
    simp only [List.mem_append]
    constructor
    · rintro hlater event (hevent | hevent)
      · exact hsafe event hevent
      · exact hlater event hevent
    · exact fun hall event hevent => hall event (.inr hevent)

theorem Meets.ite {condition : Prop} [Decidable condition]
    {left right : Traced ε α} {post : α → Prop}
    (hleft : Meets safe left post) (hright : Meets safe right post) :
    Meets safe (if condition then left else right) post := by
  split
  · exact hleft
  · exact hright

/-- An event, and the result of getting past it. -/
def past (event : ε) (result : Option α) : Traced ε α := ⟨[event], result⟩

@[simp]
theorem result_past (event : ε) (result : Option α) : (past event result).result = result := rfl

theorem Meets.past {event : ε} {result : Option α} {post : α → Prop}
    (hsafe : result.isSome = true ↔ safe event = true)
    (hpost : ∀ value, result = some value → post value) :
    Meets safe (Traced.past event result) post :=
  ⟨by simpa [Traced.past] using hsafe, hpost⟩

end Meets

section Completes

/-- There is a result, it is as it should be, and all events were safe. -/
def Completes (safe : ε → Prop) (run : Traced ε α) (post : α → Prop) : Prop :=
  (∃ value, run.result = some value ∧ post value) ∧ ∀ event ∈ run.events, safe event

variable {safe : ε → Prop}

theorem Completes.pure {post : α → Prop} {value : α} (hvalue : post value) :
    Completes safe (Pure.pure value) post := by
  refine ⟨⟨value, rfl, hvalue⟩, fun event hevent => ?_⟩
  cases hevent

theorem Completes.weaken {run : Traced ε α} {post other : α → Prop} (hrun : Completes safe run post)
    (himp : ∀ value, post value → other value) : Completes safe run other := by
  obtain ⟨⟨value, hresult, hpost⟩, hsafe⟩ := hrun
  exact ⟨⟨value, hresult, himp value hpost⟩, hsafe⟩

theorem Completes.bind {first : Traced ε α} {next : α → Traced ε β}
    {middle : α → Prop} {post : β → Prop}
    (hfirst : Completes safe first middle)
    (hnext : ∀ value, middle value → Completes safe (next value) post) :
    Completes safe (first >>= next) post := by
  obtain ⟨⟨value, hresult, hmiddle⟩, hsafe⟩ := hfirst
  have hrun : first >>= next = ⟨first.events ++ (next value).events, (next value).result⟩ := by
    simp only [Bind.bind, hresult]
  obtain ⟨hvalue, hlater⟩ := hnext value hmiddle
  rw [hrun]
  refine ⟨hvalue, fun event hevent => ?_⟩
  rcases List.mem_append.mp hevent with hevent | hevent
  · exact hsafe event hevent
  · exact hlater event hevent

theorem Completes.past {event : ε} {value : α} (hsafe : safe event) :
    Completes safe (Traced.past event (some value)) fun result =>
      result = value := by
  refine ⟨⟨value, rfl, rfl⟩, fun other hother => ?_⟩
  rwa [List.mem_singleton.mp hother]

end Completes

end Traced

end GrapheneLtp
