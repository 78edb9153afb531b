import Mathlib.Tactic

/-!
# Signed arithmetic of C

The values of the types `int` and `long long`, and operations whose result is
undefined when it is not one of them.
-/

namespace GrapheneLtp.CheckedInt

section AnyType

variable {Fits : ℤ → Prop} [DecidablePred Fits] {value result : ℤ}

/-- The result of an operation of a type with some values. -/
def inType (Fits : ℤ → Prop) [DecidablePred Fits] (value : ℤ) : Option ℤ :=
  if Fits value then some value else none

theorem inType_eq_some_iff : inType Fits value = some result ↔ Fits value ∧ value = result := by
  rw [inType, Option.ite_none_right_eq_some, Option.some_inj]

theorem inType_of_fits (hfits : Fits value) : inType Fits value = some value :=
  if_pos hfits

theorem inType_of_not_fits (hfits : ¬Fits value) : inType Fits value = none :=
  if_neg hfits

end AnyType

/-- The values of an `int`. -/
def FitsInt (value : ℤ) : Prop := -2 ^ 31 ≤ value ∧ value < 2 ^ 31

instance : DecidablePred FitsInt := fun _ => inferInstanceAs (Decidable (_ ∧ _))

/-- The values of a `long long`. -/
def FitsLong (value : ℤ) : Prop := -2 ^ 63 ≤ value ∧ value < 2 ^ 63

instance : DecidablePred FitsLong := fun _ => inferInstanceAs (Decidable (_ ∧ _))

/-- The result of an operation on ints. -/
def inInt : ℤ → Option ℤ := inType FitsInt

/-- The result of an operation of type `long long`. -/
def inLong : ℤ → Option ℤ := inType FitsLong

theorem inInt_eq_some_iff {value result : ℤ} :
    inInt value = some result ↔ FitsInt value ∧ value = result :=
  inType_eq_some_iff

theorem inLong_of_fits {value : ℤ} (hfits : FitsLong value) : inLong value = some value :=
  inType_of_fits hfits

theorem FitsLong.of_le {low high value : ℤ} (hlow : FitsLong low)
    (hhigh : FitsLong high) (hbounds : low ≤ value ∧ value ≤ high) :
    FitsLong value :=
  ⟨hlow.1.trans hbounds.1, hbounds.2.trans_lt hhigh.2⟩

/-- A value converted to an `int`. -/
def toInt (value : ℤ) : ℤ := Int.bmod value (2 ^ 32)

theorem toInt_of_fits {value : ℤ} (hfits : FitsInt value) : toInt value = value := by
  obtain ⟨hlow, hhigh⟩ := hfits
  rw [toInt, Int.bmod_eq_of_le (by omega) (by omega)]

end GrapheneLtp.CheckedInt
