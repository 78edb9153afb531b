import Mathlib.Tactic

/-!
# Multiples in an interval

The least multiple of a positive number from some number on, the greatest one up
to it, and the remainder of C, which has the sign of the dividend.
-/

namespace GrapheneLtp.Multiples

/-- The least multiple from `value` on. -/
def nextMultiple (mult value : ℤ) : ℤ := value + (-value) % mult

/-- The greatest multiple up to `value`. -/
def lastMultiple (mult value : ℤ) : ℤ := value - value % mult

section Bounds

variable {mult : ℤ} (value : ℤ)

theorem dvd_lastMultiple (mult value : ℤ) : mult ∣ lastMultiple mult value := Int.dvd_self_sub_emod

theorem nextMultiple_eq_neg (mult value : ℤ) :
    nextMultiple mult value = -lastMultiple mult (-value) := by
  rw [nextMultiple, lastMultiple]
  ring

theorem dvd_nextMultiple (mult value : ℤ) : mult ∣ nextMultiple mult value := by
  rw [nextMultiple_eq_neg, dvd_neg]
  exact dvd_lastMultiple mult (-value)

theorem lastMultiple_le (hmult : 0 < mult) : lastMultiple mult value ≤ value :=
  sub_le_self value (Int.emod_nonneg value hmult.ne')

theorem le_nextMultiple (hmult : 0 < mult) : value ≤ nextMultiple mult value :=
  le_add_of_nonneg_right (Int.emod_nonneg (-value) hmult.ne')

theorem nextMultiple_lt (hmult : 0 < mult) : nextMultiple mult value < value + mult :=
  add_lt_add_right (Int.emod_lt_of_pos (-value) hmult) value

theorem lt_lastMultiple_add (hmult : 0 < mult) : value < lastMultiple mult value + mult := by
  have hlt := Int.emod_lt_of_pos value hmult
  rw [lastMultiple]
  linarith

variable {value} {multiple : ℤ}

/-- Two multiples that are less than one step apart. -/
theorem le_of_lt_add (hmult : 0 < mult) {first second : ℤ} (hfirst : mult ∣ first)
    (hsecond : mult ∣ second) (hlt : first < second + mult) : first ≤ second := by
  obtain ⟨low, rfl⟩ := hfirst
  obtain ⟨high, rfl⟩ := hsecond
  have hstep : mult * low < mult * (high + 1) := by linarith
  have hquotients : low < high + 1 := lt_of_mul_lt_mul_left hstep hmult.le
  exact mul_le_mul_of_nonneg_left (Int.lt_add_one_iff.mp hquotients) hmult.le

theorem le_lastMultiple (hmult : 0 < mult) (hdvd : mult ∣ multiple)
    (hle : multiple ≤ value) : multiple ≤ lastMultiple mult value :=
  le_of_lt_add hmult hdvd (dvd_lastMultiple mult value)
    (hle.trans_lt (lt_lastMultiple_add value hmult))

theorem nextMultiple_le (hmult : 0 < mult) (hdvd : mult ∣ multiple)
    (hle : value ≤ multiple) : nextMultiple mult value ≤ multiple :=
  le_of_lt_add hmult (dvd_nextMultiple mult value) hdvd
    ((nextMultiple_lt value hmult).trans_le (add_le_add_left hle mult))

/-- There is a multiple in an interval when the first one from below is not behind
the last one from above. -/
theorem exists_multiple_iff {low high : ℤ} (hmult : 0 < mult) :
    (∃ multiple, mult ∣ multiple ∧ low ≤ multiple ∧ multiple ≤ high) ↔
      nextMultiple mult low ≤ lastMultiple mult high := by
  constructor
  · rintro ⟨multiple, hdvd, hlow, hhigh⟩
    exact (nextMultiple_le hmult hdvd hlow).trans (le_lastMultiple hmult hdvd hhigh)
  · intro hle
    exact ⟨nextMultiple mult low, dvd_nextMultiple mult low,
      le_nextMultiple low hmult, hle.trans (lastMultiple_le high hmult)⟩

/-- The multiples in an interval are no more than the steps that cover it. -/
theorem card_multiples_le {low high : ℤ} (hmult : 0 < mult) {count : ℕ}
    (hcover : high < nextMultiple mult low + count * mult) :
    ((Finset.Icc low high).filter (mult ∣ ·)).card ≤ count := by
  have hsteps : (Finset.Icc low high).filter (mult ∣ ·) ⊆ (Finset.range count).image fun step : ℕ =>
        nextMultiple mult low + step * mult := by
    intro multiple hmem
    obtain ⟨hinterval, hdvd⟩ := Finset.mem_filter.mp hmem
    obtain ⟨hlow, hhigh⟩ := Finset.mem_Icc.mp hinterval
    have hnext := nextMultiple_le hmult hdvd hlow
    obtain ⟨step, hstep⟩ := dvd_sub hdvd (dvd_nextMultiple mult low)
    have hnonneg : 0 ≤ step := nonneg_of_mul_nonneg_right (by linarith) hmult
    have hlt : step < count :=
      lt_of_mul_lt_mul_left (by linarith : mult * step < mult * count) hmult.le
    refine Finset.mem_image.mpr ⟨step.toNat, ?_, ?_⟩
    · rw [Finset.mem_range]
      omega
    · rw [Int.toNat_of_nonneg hnonneg]
      linarith
  calc ((Finset.Icc low high).filter (mult ∣ ·)).card
      ≤ ((Finset.range count).image fun step : ℕ =>
          nextMultiple mult low + step * mult).card := Finset.card_le_card hsteps
    _ ≤ (Finset.range count).card := Finset.card_image_le
    _ = count := Finset.card_range count

end Bounds

section Remainder

variable {mult value : ℤ}

/-- A number whose remainder in C is the distance from the multiple below. -/
def Rounds (mult value : ℤ) : Prop := 0 ≤ value ∨ mult ∣ value

instance (mult value : ℤ) : Decidable (Rounds mult value) := inferInstanceAs (Decidable (_ ∨ _))

theorem tmod_of_rounds (hrounds : Rounds mult value) : value.tmod mult = value % mult := by
  rw [Rounds] at hrounds
  rw [Int.tmod_eq_emod, if_pos hrounds]
  exact Int.sub_zero _

theorem tmod_of_not_rounds (hmult : 0 < mult) (hrounds : ¬Rounds mult value) :
    value.tmod mult = value % mult - mult := by
  rw [Rounds] at hrounds
  rw [Int.tmod_eq_emod, if_neg hrounds, Int.natAbs_of_nonneg hmult.le]

/-- The two multiples around a number that is none. -/
theorem nextMultiple_eq_add (hmult : 0 < mult) (hdvd : ¬mult ∣ value) :
    nextMultiple mult value = lastMultiple mult value + mult := by
  rw [nextMultiple, lastMultiple, Int.neg_emod, if_neg hdvd, Int.natAbs_of_nonneg hmult.le]
  ring

theorem nextMultiple_of_dvd (hdvd : mult ∣ value) : nextMultiple mult value = value := by
  rw [nextMultiple, Int.emod_eq_zero_of_dvd (dvd_neg.mpr hdvd), Int.add_zero]

end Remainder

end GrapheneLtp.Multiples
