import Mathlib.Tactic
import Mathlib.SetTheory.Cardinal.Finite

/-!
# Components of a family of sets

Sets that meet belong to one component.  A family is merged by uniting two sets
that meet, one pair after the other; once no two meet any more, what is left are
the unions of the components, one for each.
-/

namespace GrapheneLtp.Components

variable {ι α : Type*} {sets current later : ι → α → Prop} {active activeLater : ι → Prop}

/-- Two sets of a family have an element in common. -/
def Meet (sets : ι → α → Prop) (i j : ι) : Prop := ∃ x, sets i x ∧ sets j x

abbrev Component (sets : ι → α → Prop) := Quot (Meet sets)

/-- The elements of the sets of a component. -/
def Component.union (component : Component sets) (x : α) : Prop :=
  ∃ i, Quot.mk (Meet sets) i = component ∧ sets i x

/-- A family on the way.  Every set has gone into an active one of its component. -/
structure Merging (sets current : ι → α → Prop) (active : ι → Prop) (into : ι → ι) : Prop where
  active_into : ∀ i, active (into i)
  into_active : ∀ k, active k → into k = k
  current_iff : ∀ k, active k → ∀ x, current k x ↔ ∃ i, into i = k ∧ sets i x
  same : ∀ i, Quot.mk (Meet sets) (into i) = Quot.mk (Meet sets) i

theorem Merging.initial (sets : ι → α → Prop) : Merging sets sets (fun _ => True) id where
  active_into _ := trivial
  into_active _ _ := rfl
  current_iff k _ _ := ⟨fun hx => ⟨k, rfl, hx⟩, fun ⟨_, hi, hx⟩ => hi ▸ hx⟩
  same _ := rfl

variable {into : ι → ι}

/-- Active sets that meet belong to one component. -/
theorem Merging.same_of_meet (hmerging : Merging sets current active into) {i j : ι}
    (hi : active i) (hj : active j) (hmeet : Meet current i j) :
    Quot.mk (Meet sets) i = Quot.mk (Meet sets) j := by
  obtain ⟨x, hxi, hxj⟩ := hmeet
  obtain ⟨first, rfl, hfirst⟩ := (hmerging.current_iff i hi x).mp hxi
  obtain ⟨second, rfl, hsecond⟩ := (hmerging.current_iff j hj x).mp hxj
  calc Quot.mk (Meet sets) (into first) = Quot.mk (Meet sets) first := hmerging.same first
    _ = Quot.mk (Meet sets) second := Quot.sound ⟨x, hfirst, hsecond⟩
    _ = Quot.mk (Meet sets) (into second) := (hmerging.same second).symm

/-- One set takes in another one that it meets. -/
theorem Merging.merge [DecidableEq ι] (hmerging : Merging sets current active into) {i j : ι}
    (hi : active i) (hj : active j) (hne : i ≠ j) (hmeet : Meet current i j)
    (hactive : ∀ k, activeLater k ↔ active k ∧ k ≠ j)
    (hunion : ∀ x, later i x ↔ current i x ∨ current j x)
    (hother : ∀ k, k ≠ i → ∀ x, later k x ↔ current k x) :
    Merging sets later activeLater fun k => if into k = j then i else into k where
  active_into k := by
    rw [hactive]
    split
    · exact ⟨hi, hne⟩
    · exact ⟨hmerging.active_into k, ‹_›⟩
  into_active k hk := by
    obtain ⟨hk, hkj⟩ := (hactive k).mp hk
    rw [hmerging.into_active k hk, if_neg hkj]
  current_iff k hk x := by
    obtain ⟨hk, hkj⟩ := (hactive k).mp hk
    obtain rfl | hki := eq_or_ne k i
    · rw [hunion, hmerging.current_iff k hi, hmerging.current_iff j hj]
      constructor
      · rintro (⟨s, hs, hx⟩ | ⟨s, hs, hx⟩)
        · exact ⟨s, by rw [if_neg (hs.trans_ne hne), hs], hx⟩
        · exact ⟨s, if_pos hs, hx⟩
      · rintro ⟨s, hs, hx⟩
        by_cases hsj : into s = j
        · exact .inr ⟨s, hsj, hx⟩
        · exact .inl ⟨s, by rwa [if_neg hsj] at hs, hx⟩
    · rw [hother k hki, hmerging.current_iff k hk]
      refine exists_congr fun s => and_congr_left fun _ => ⟨fun hs => ?_, fun hs => ?_⟩
      · rw [if_neg (hs.trans_ne hkj), hs]
      · by_cases hsj : into s = j
        · exact absurd (hs.symm.trans (if_pos hsj)) hki
        · rwa [if_neg hsj] at hs
  same k := by
    split
    · rename_i hkj
      rw [hmerging.same_of_meet hi hj hmeet, ← hkj, hmerging.same]
    · exact hmerging.same k

section Merged

variable (hmerging : Merging sets current active into)
  (hdisjoint : ∀ i j, active i → active j → Meet current i j → i = j)

include hmerging hdisjoint

/-- Sets of one component have gone into one set. -/
theorem Merging.into_eq_iff {i j : ι} :
    into i = into j ↔ Quot.mk (Meet sets) i = Quot.mk (Meet sets) j := by
  constructor
  · intro hinto
    rw [← hmerging.same i, hinto, hmerging.same]
  · intro hsame
    have hlift (a b : ι) (hmeet : Meet sets a b) : into a = into b := by
      obtain ⟨x, ha, hb⟩ := hmeet
      have hcurrent {s : ι} (hs : sets s x) : current (into s) x :=
        (hmerging.current_iff _ (hmerging.active_into s) x).mpr ⟨s, rfl, hs⟩
      exact hdisjoint _ _ (hmerging.active_into a) (hmerging.active_into b)
        ⟨x, hcurrent ha, hcurrent hb⟩
    exact congrArg (Quot.lift into hlift) hsame

/-- An active set is the union of its component. -/
theorem Merging.current_iff_union {k : ι} (hk : active k) (x : α) :
    current k x ↔ Component.union (Quot.mk (Meet sets) k) x := by
  rw [hmerging.current_iff k hk]
  refine exists_congr fun i => and_congr_left fun _ => ?_
  rw [← hmerging.into_eq_iff hdisjoint, hmerging.into_active k hk]

/-- There are as many active sets as components. -/
theorem Merging.card_eq : Nat.card {k // active k} = Nat.card (Component sets) := by
  refine Nat.card_congr (Equiv.ofBijective (fun k => Quot.mk (Meet sets) k.1) ⟨?_, ?_⟩)
  · intro a b hsame
    have hinto := (hmerging.into_eq_iff hdisjoint).mpr hsame
    rw [hmerging.into_active a.1 a.2, hmerging.into_active b.1 b.2] at hinto
    exact Subtype.ext hinto
  · rintro ⟨i⟩
    exact ⟨⟨into i, hmerging.active_into i⟩, hmerging.same i⟩

end Merged

end GrapheneLtp.Components
