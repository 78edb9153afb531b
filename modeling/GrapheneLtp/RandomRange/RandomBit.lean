import Mathlib.Data.Nat.Count
import GrapheneLtp.RandomRange.Range

/-!
# A random bit of a mask

A model of `random_bit` of `lib/random_range.c`.  The set bits of the mask are
counted, `random_range` chooses one of them by its number, and the mask is shifted
until that many set bits have left it.  A `long` is a word of 64 bits, and the shift
to the right keeps its sign.
-/

namespace GrapheneLtp.RandomRange

open CheckedInt Multiples

section Code

/-- The loop that counts the set bits, with the shifts that are left. -/
def countLoop (mask : BitVec 64) : (left : ℕ) → (bit : BitVec 64) → (nbits : ℕ) → ℕ
  | 0, _, nbits => nbits
  | left + 1, bit, nbits =>
    countLoop mask left (bit <<< 1) (if mask &&& bit ≠ 0#64 then nbits + 1 else nbits)

/-- The loop that looks for the bit that was chosen, and the number of its shifts.
There is no result when the fuel is used up. -/
def shiftLoop : (fuel : ℕ) → (mask : BitVec 64) → (bit : ℤ) → (nshift : ℕ) → Option ℕ
  | 0, _, _, _ => none
  | fuel + 1, mask, bit, nshift =>
    if bit = 0 then some nshift
    else shiftLoop fuel (mask.sshiftRight 1)
      (if mask &&& 1#64 ≠ 0#64 then bit - 1 else bit) (nshift + 1)

/-- The value of `random_range` for a caller that gives no `errp`. -/
def rangeValue : Except RangeError ℤ → ℤ
  | .error _ => -1
  | .ok value => value

/-- The function, for the number that `lrand48` returns. -/
def randomBit (fuel : ℕ) (mask : BitVec 64) (lrand48 : ℤ) : Option (BitVec 64) :=
  if mask = 0#64 then some 0#64
  else do
    let nbits := countLoop mask 64 1#64 0
    let outcome ← randomRange 1 nbits 1 lrand48
    let nshift ← shiftLoop fuel mask (rangeValue outcome) 0
    some (1#64 <<< (nshift - 1))

end Code

section Count

/-- The set bits of a mask. -/
def IsSet (mask : BitVec 64) (k : ℕ) : Prop := mask.getLsbD k = true

instance (mask : BitVec 64) : DecidablePred (IsSet mask) :=
  fun k => inferInstanceAs (Decidable (mask.getLsbD k = true))

variable (mask : BitVec 64)

theorem and_one_shifted_ne_zero (k : ℕ) : mask &&& 1#64 <<< k ≠ 0#64 ↔ IsSet mask k := by
  rw [IsSet, ← BitVec.twoPow_eq, BitVec.and_twoPow]
  cases hbit : mask.getLsbD k with
  | false => simp
  | true =>
    have hk : k < 64 := BitVec.lt_of_getLsbD hbit
    simp only [if_true, ne_eq, iff_true]
    intro hzero
    have hone := congrArg (fun word : BitVec 64 => word.getLsbD k) hzero
    simp [hk] at hone

/-- The loop adds the set bits among those that it has still to look at. -/
theorem countLoop_eq (left k nbits : ℕ) :
    countLoop mask left (1#64 <<< k) (Nat.count (IsSet mask) k + nbits) =
      Nat.count (IsSet mask) (k + left) + nbits := by
  induction left generalizing k with
  | zero => rfl
  | succ left ih =>
    have hnext : 1#64 <<< k <<< 1 = 1#64 <<< (k + 1) := (BitVec.shiftLeft_add 1#64 k 1).symm
    have hcount : (if mask &&& 1#64 <<< k ≠ 0#64 then Nat.count (IsSet mask) k + nbits + 1
        else Nat.count (IsSet mask) k + nbits) = Nat.count (IsSet mask) (k + 1) + nbits := by
      rw [Nat.count_succ, if_congr (and_one_shifted_ne_zero mask k) rfl rfl]
      split_ifs <;> omega
    rw [countLoop, hnext, hcount, ih, Nat.add_right_comm, Nat.add_assoc k left 1]

theorem countLoop_all : countLoop mask 64 1#64 0 = Nat.count (IsSet mask) 64 := by
  simpa using countLoop_eq mask 64 0 0

theorem count_pos (hmask : mask ≠ 0#64) : 0 < Nat.count (IsSet mask) 64 := by
  by_contra hzero
  apply hmask
  apply BitVec.eq_of_getLsbD_eq
  intro k hk
  have hclear := (Nat.count_iff_forall_not (p := IsSet mask)).mp (by omega) k hk
  simpa [IsSet] using hclear

theorem count_le : Nat.count (IsSet mask) 64 ≤ 64 := Nat.count_le _

end Count

section Shift

variable {mask : BitVec 64} {k : ℕ}

theorem and_one_ne_zero_iff (word : BitVec 64) : word &&& 1#64 ≠ 0#64 ↔ IsSet word 0 := by
  simpa using and_one_shifted_ne_zero word 0

/-- Below the sign bit an arithmetic shift only moves the bits. -/
theorem isSet_sshiftRight_zero (mask : BitVec 64) (hk : k < 64) :
    IsSet (mask.sshiftRight k) 0 ↔ IsSet mask k := by
  rw [IsSet, IsSet, BitVec.getLsbD_sshiftRight, Nat.add_zero, if_pos hk]
  simp

/-- What is left to count down when the loop has made some shifts, and where it ends:
by induction on the shifts before the chosen bit. -/
theorem shiftLoop_eq (hk : k < 64) (hset : IsSet mask k) (shifts : ℕ) :
    ∀ {j fuel : ℕ}, j + shifts = k → shifts + 2 ≤ fuel →
      shiftLoop fuel (mask.sshiftRight j)
        ((Nat.count (IsSet mask) k : ℤ) + 1 - Nat.count (IsSet mask) j) j = some (k + 1) := by
  induction shifts with
  | zero =>
    rintro j (_ | _ | fuel) rfl hfuel
    · omega
    · omega
    · have hone : (Nat.count (IsSet mask) (j + 0) : ℤ) + 1 - Nat.count (IsSet mask) j = 1 := by
        rw [Nat.add_zero]
        ring
      have hbit := (and_one_ne_zero_iff _).mpr ((isSet_sshiftRight_zero mask hk).mpr hset)
      rw [hone, shiftLoop, if_neg one_ne_zero, Nat.add_zero] at *
      rw [if_pos hbit, sub_self, shiftLoop, if_pos rfl]
  | succ shifts ih =>
    rintro j (_ | fuel) hj hfuel
    · omega
    · have hle : Nat.count (IsSet mask) j ≤ Nat.count (IsSet mask) k :=
        Nat.count_monotone _ (by omega)
      have hbit := (and_one_ne_zero_iff (mask.sshiftRight j)).trans
        (isSet_sshiftRight_zero mask (show j < 64 by omega))
      have hstep : (if mask.sshiftRight j &&& 1#64 ≠ 0#64 then
            (Nat.count (IsSet mask) k : ℤ) + 1 - Nat.count (IsSet mask) j - 1
          else (Nat.count (IsSet mask) k : ℤ) + 1 - Nat.count (IsSet mask) j) =
          (Nat.count (IsSet mask) k : ℤ) + 1 - Nat.count (IsSet mask) (j + 1) := by
        rw [Nat.count_succ, if_congr hbit rfl rfl]
        split_ifs <;> push_cast <;> ring
      rw [shiftLoop, if_neg (by omega), hstep, ← BitVec.sshiftRight_add]
      exact ih (by omega) (by omega)

/-- The loop finds the set bit with the number that it is given. -/
theorem shiftLoop_finds (hk : k < 64) (hset : IsSet mask k) {fuel : ℕ} (hfuel : 65 ≤ fuel) :
    shiftLoop fuel mask ((Nat.count (IsSet mask) k : ℤ) + 1) 0 = some (k + 1) := by
  have hloop := shiftLoop_eq hk hset k (Nat.zero_add k) (show k + 2 ≤ fuel by omega)
  simpa using hloop

/-- Every number below the count is the number of a set bit. -/
theorem exists_isSet_of_lt_count {number n : ℕ} (hnumber : number < Nat.count (IsSet mask) n) :
    ∃ k < n, IsSet mask k ∧ Nat.count (IsSet mask) k = number := by
  induction n with
  | zero => simp at hnumber
  | succ n ih =>
    rcases Nat.lt_or_ge number (Nat.count (IsSet mask) n) with hbefore | hhere
    · obtain ⟨k, hk, hset, hcount⟩ := ih hbefore
      exact ⟨k, by omega, hset, hcount⟩
    · rw [Nat.count_succ] at hnumber
      split_ifs at hnumber with hset
      · exact ⟨n, by omega, hset, by omega⟩
      · omega

end Shift

section Main

variable {mask : BitVec 64}

/-- The range of the numbers of set bits is one for which `random_range` is right. -/
theorem meets_one {nbits : ℕ} (hpos : 0 < nbits) (hle : nbits ≤ 64) : Meets 1 nbits 1 := by
  have hnext (value : ℤ) : nextMultiple 1 value = value := by simp [nextMultiple]
  have hlast (value : ℤ) : lastMultiple 1 value = value := by simp [lastMultiple]
  have hinf : (1 : ℤ) ⊓ nbits = 1 := inf_eq_left.mpr (by exact_mod_cast hpos)
  have hsup : (1 : ℤ) ⊔ nbits = nbits := sup_eq_right.mpr (by exact_mod_cast hpos)
  have hargs : Arguments 1 nbits 1 := by
    refine ⟨by decide, ⟨by omega, by omega⟩, by decide, le_rfl, ?_, ?_⟩
    · rw [hnext, hinf]
      decide
    · rw [hlast, hsup]
      exact ⟨by omega, by omega⟩
  refine hargs.meets_of_reliable (.inr ⟨?_, ?_, ?_, ?_⟩)
  · exact .inr (one_dvd _)
  · exact .inr (one_dvd _)
  · rw [hnext, hlast, hinf, hsup]
    omega
  · rw [hnext, hlast, hinf, hsup]
    omega

/-- The function when `random_range` has chosen the number of a set bit. -/
theorem randomBit_of_range {fuel k : ℕ} {lrand48 : ℤ} (hfuel : 65 ≤ fuel) (hk : k < 64)
    (hset : IsSet mask k) (hrange : randomRange 1 (Nat.count (IsSet mask) 64 : ℕ) 1 lrand48 =
      some (.ok ((Nat.count (IsSet mask) k : ℤ) + 1))) :
    randomBit fuel mask lrand48 = some (BitVec.twoPow 64 k) := by
  have hmask : mask ≠ 0#64 := by
    rintro rfl
    simp [IsSet] at hset
  simp only [randomBit, if_neg hmask, countLoop_all, hrange, Option.bind_eq_bind,
    Option.bind_some, rangeValue, shiftLoop_finds hk hset hfuel, Nat.add_sub_cancel,
    BitVec.twoPow_eq]

/-- Whatever `lrand48` returns, the function ends with one bit of the mask, and it can
end with each of them. -/
theorem randomBit_selects (hmask : mask ≠ 0#64) {fuel : ℕ} (hfuel : 65 ≤ fuel) :
    (∀ lrand48, IsDraw lrand48 → ∃ k < 64, mask.getLsbD k = true ∧
      randomBit fuel mask lrand48 = some (BitVec.twoPow 64 k)) ∧
    ∀ k, mask.getLsbD k = true → ∃ lrand48, IsDraw lrand48 ∧
      randomBit fuel mask lrand48 = some (BitVec.twoPow 64 k) := by
  have hpos := count_pos mask hmask
  have hmeets := meets_one hpos (count_le mask)
  have hinf : (1 : ℤ) ⊓ (Nat.count (IsSet mask) 64 : ℕ) = 1 :=
    inf_eq_left.mpr (by exact_mod_cast hpos)
  have hsup : (1 : ℤ) ⊔ (Nat.count (IsSet mask) 64 : ℕ) = Nat.count (IsSet mask) 64 :=
    sup_eq_right.mpr (by exact_mod_cast hpos)
  constructor
  · intro lrand48 hdraw
    obtain ⟨outcome, houtcome, herror, hvalue⟩ := hmeets.outcome lrand48 hdraw
    cases outcome with
    | error error =>
      have hnone := herror.mp ⟨error, rfl⟩
      exact absurd ⟨1, one_dvd _, hinf.le, by rw [hsup]; omega⟩ hnone
    | ok number =>
      obtain ⟨-, hlow, hhigh⟩ := hvalue number rfl
      rw [hinf] at hlow
      rw [hsup] at hhigh
      obtain ⟨k, hk, hset, hcount⟩ :=
        @exists_isSet_of_lt_count mask (number.toNat - 1) 64 (by omega)
      refine ⟨k, hk, hset, randomBit_of_range hfuel hk hset ?_⟩
      rw [houtcome, hcount]
      congr 2
      omega
  · intro k hset
    have hk : k < 64 := BitVec.lt_of_getLsbD hset
    have hlt : Nat.count (IsSet mask) k < Nat.count (IsSet mask) 64 :=
      Nat.count_strict_mono (p := IsSet mask) hset hk
    obtain ⟨lrand48, hdraw, hrange⟩ := hmeets.reached (by
      refine (Finset.card_filter_le _ _).trans ?_
      rw [hinf, hsup, Int.card_Icc]
      have hle := count_le mask
      omega) (Nat.count (IsSet mask) k + 1)
      ⟨one_dvd _, by rw [hinf]; omega, by rw [hsup]; omega⟩
    exact ⟨lrand48, hdraw, randomBit_of_range hfuel hk hset hrange⟩

/-- A mask with the sign bit. -/
theorem randomBit_selects_sign :
    (∀ lrand48, IsDraw lrand48 → ∃ k < 64, (0x8000000000000001#64).getLsbD k = true ∧
      randomBit 65 0x8000000000000001#64 lrand48 = some (BitVec.twoPow 64 k)) ∧
    ∀ k, (0x8000000000000001#64).getLsbD k = true → ∃ lrand48, IsDraw lrand48 ∧
      randomBit 65 0x8000000000000001#64 lrand48 = some (BitVec.twoPow 64 k) :=
  randomBit_selects (by decide) le_rfl

end Main

end GrapheneLtp.RandomRange
