import GrapheneLtp.Core.CheckedInt

/-!
# stride_bounds

The extent of a strided request is a closed formula.  It is compared with the
bytes that the segments of the request touch, one by one.
-/

namespace GrapheneLtp.StrideBounds

open CheckedInt

/-- The returned count of bytes, and what is stored through the two pointers. -/
structure Bounds where
  nbytes : ℤ
  minByte : ℤ
  maxByte : ℤ
  deriving DecidableEq, Repr

/-- A stride of zero stands for contiguous segments. -/
def effective (stride bytes_per_stride : ℤ) : ℤ :=
  if stride = 0 then bytes_per_stride else stride

/-- Illegal counts give `some none`, the return value -1 with nothing stored; an
overflow gives `none`. -/
def strideBounds (offset stride nstrides bytes_per_stride : ℤ) : Option (Option Bounds) :=
  if nstrides < 0 ∨ bytes_per_stride < 0 then some none
  else do
    let stride := effective stride bytes_per_stride
    let step ← inInt |stride|
    let steps ← inInt (nstrides - 1)
    let span ← inInt (step * steps)
    let nbytes ← inInt (span + bytes_per_stride)
    if stride < 0 then do
      let past ← inInt (offset + bytes_per_stride)
      let max_byte ← inInt (past - 1)
      let below ← inInt (max_byte - nbytes)
      let min_byte ← inInt (below + 1)
      return some ⟨nbytes, min_byte, max_byte⟩
    else do
      let past ← inInt (offset + nbytes)
      let max_byte ← inInt (past - 1)
      return some ⟨nbytes, offset, max_byte⟩

/-- The bytes of the segments of a request. -/
def touched (offset stride nstrides bytes_per_stride : ℤ) : Set ℤ :=
  {byte | ∃ k, 0 ≤ k ∧ k < nstrides ∧
    offset + k * effective stride bytes_per_stride ≤ byte ∧
    byte < offset + k * effective stride bytes_per_stride + bytes_per_stride}

/-- The bounds are those of a set of bytes. -/
structure Bound (bytes : Set ℤ) (bounds : Bounds) : Prop where
  of_empty : bytes = ∅ → bounds.nbytes = 0
  isLeast : bytes.Nonempty → IsLeast bytes bounds.minByte
  isGreatest : bytes.Nonempty → IsGreatest bytes bounds.maxByte
  extent : bytes.Nonempty → bounds.nbytes = bounds.maxByte - bounds.minByte + 1

variable {offset stride nstrides bytes_per_stride : ℤ} {bounds : Bounds}

/-- The first byte of the lowest segment, for legal counts. -/
def lowest (offset s nstrides : ℤ) : ℤ :=
  if s < 0 then offset + s * (nstrides - 1) else offset

/-- Without overflow, the formula of the code. -/
theorem strideBounds_eq
    (hbounds : strideBounds offset stride nstrides bytes_per_stride = some (some bounds)) :
    bounds.nbytes = |effective stride bytes_per_stride| * (nstrides - 1) + bytes_per_stride ∧
      bounds.minByte = lowest offset (effective stride bytes_per_stride) nstrides ∧
      bounds.maxByte = bounds.minByte + bounds.nbytes - 1 := by
  simp only [strideBounds, Option.bind_eq_bind, Option.pure_def] at hbounds
  split at hbounds
  · cases hbounds
  · simp only [Option.bind_eq_some_iff, inInt_eq_some_iff] at hbounds
    obtain ⟨_, ⟨-, rfl⟩, _, ⟨-, rfl⟩, _, ⟨-, rfl⟩, _, ⟨-, rfl⟩, hbounds⟩ := hbounds
    split at hbounds
    · rename_i hnegative
      simp only [Option.bind_eq_some_iff, inInt_eq_some_iff] at hbounds
      obtain ⟨_, ⟨-, rfl⟩, _, ⟨-, rfl⟩, _, ⟨-, rfl⟩, _, ⟨-, rfl⟩, hbounds⟩ := hbounds
      cases hbounds
      refine ⟨rfl, ?_, ?_⟩
      · rw [lowest, if_pos hnegative, abs_of_neg hnegative]
        ring
      · ring
    · rename_i hforward
      simp only [Option.bind_eq_some_iff, inInt_eq_some_iff] at hbounds
      obtain ⟨_, ⟨-, rfl⟩, _, ⟨-, rfl⟩, hbounds⟩ := hbounds
      cases hbounds
      exact ⟨rfl, (if_neg hforward).symm, rfl⟩

theorem touched_nonempty_iff : (touched offset stride nstrides bytes_per_stride).Nonempty ↔
    0 < nstrides ∧ 0 < bytes_per_stride := by
  constructor
  · rintro ⟨byte, k, hk, hlast, hlow, hhigh⟩
    exact ⟨by omega, by omega⟩
  · rintro ⟨hcount, hbytes⟩
    exact ⟨offset, 0, le_rfl, hcount, by omega, by omega⟩

theorem touched_eq_empty (hempty : ¬(0 < nstrides ∧ 0 < bytes_per_stride)) :
    touched offset stride nstrides bytes_per_stride = ∅ := by
  rwa [← Set.not_nonempty_iff_eq_empty, touched_nonempty_iff]

section Extremes

variable (hcount : 0 < nstrides) (hbytes : 0 < bytes_per_stride)

include hcount hbytes

theorem isLeast_touched : IsLeast (touched offset stride nstrides bytes_per_stride)
    (lowest offset (effective stride bytes_per_stride) nstrides) := by
  simp only [touched, lowest]
  generalize effective stride bytes_per_stride = s
  split
  · rename_i hnegative
    refine ⟨⟨nstrides - 1, by omega, by omega, by linarith [mul_comm s (nstrides - 1)],
      by linarith [mul_comm s (nstrides - 1)]⟩, ?_⟩
    rintro byte ⟨k, hk, hlast, hlow, -⟩
    have hstep : (nstrides - 1) * s ≤ k * s :=
      mul_le_mul_of_nonpos_right (by omega) hnegative.le
    linarith [mul_comm s (nstrides - 1)]
  · rename_i hforward
    refine ⟨⟨0, le_rfl, hcount, by omega, by omega⟩, ?_⟩
    rintro byte ⟨k, hk, hlast, hlow, -⟩
    have hstep : 0 ≤ k * s := mul_nonneg hk (by omega)
    omega

theorem isGreatest_touched : IsGreatest (touched offset stride nstrides bytes_per_stride)
    (lowest offset (effective stride bytes_per_stride) nstrides +
      (|effective stride bytes_per_stride| * (nstrides - 1) + bytes_per_stride) - 1) := by
  simp only [touched, lowest]
  generalize effective stride bytes_per_stride = s
  split
  · rename_i hnegative
    rw [abs_of_neg hnegative]
    refine ⟨⟨0, le_rfl, hcount, by linarith, by linarith⟩, ?_⟩
    rintro byte ⟨k, hk, hlast, -, hhigh⟩
    have hstep : k * s ≤ 0 := mul_nonpos_of_nonneg_of_nonpos hk hnegative.le
    linarith
  · rename_i hforward
    rw [abs_of_nonneg (not_lt.mp hforward)]
    refine ⟨⟨nstrides - 1, by omega, by omega, by linarith [mul_comm s (nstrides - 1)],
      by linarith [mul_comm s (nstrides - 1)]⟩, ?_⟩
    rintro byte ⟨k, hk, hlast, -, hhigh⟩
    have hstep : k * s ≤ (nstrides - 1) * s :=
      mul_le_mul_of_nonneg_right (by omega) (not_lt.mp hforward)
    linarith [mul_comm s (nstrides - 1)]

end Extremes

/-- The count is right of an empty request only when the formula happens to vanish. -/
theorem nbytes_eq_zero_iff (hcount : 0 ≤ nstrides) (hbytes : 0 ≤ bytes_per_stride)
    (hempty : ¬(0 < nstrides ∧ 0 < bytes_per_stride)) :
    |effective stride bytes_per_stride| * (nstrides - 1) + bytes_per_stride = 0 ↔
      stride = 0 ∨ nstrides = 0 ∧ |stride| = bytes_per_stride ∨ nstrides = 1 := by
  rcases eq_or_ne stride 0 with rfl | hstride
  · rcases hcount.eq_or_lt with rfl | hpos
    · simp [effective, abs_of_nonneg hbytes]
    · obtain rfl : bytes_per_stride = 0 := by omega
      simp [effective]
  · rw [effective, if_neg hstride]
    rcases hcount.eq_or_lt with rfl | hpos
    · simp only [hstride, false_or, true_and]
      omega
    · obtain rfl : bytes_per_stride = 0 := by omega
      simp only [add_zero, mul_eq_zero, abs_eq_zero, hstride, false_or, hpos.ne', false_and]
      omega

/-- The bounds are those of the bytes touched if and only if there are such bytes, or
the formula vanishes without them. -/
theorem strideBounds_bound_iff
    (hbounds : strideBounds offset stride nstrides bytes_per_stride = some (some bounds))
    (hcount : 0 ≤ nstrides) (hbytes : 0 ≤ bytes_per_stride) :
    Bound (touched offset stride nstrides bytes_per_stride) bounds ↔
      (0 < nstrides ∧ 0 < bytes_per_stride) ∨ stride = 0 ∨
        nstrides = 0 ∧ |stride| = bytes_per_stride ∨ nstrides = 1 := by
  obtain ⟨hnbytes, hmin, hmax⟩ := strideBounds_eq hbounds
  by_cases hlegal : 0 < nstrides ∧ 0 < bytes_per_stride
  · have hnonempty := (@touched_nonempty_iff offset stride _ _).mpr hlegal
    refine iff_of_true ⟨fun hempty => absurd hempty hnonempty.ne_empty, fun _ => ?_, fun _ => ?_,
      fun _ => by omega⟩ (.inl hlegal)
    · rw [hmin]
      exact isLeast_touched hlegal.1 hlegal.2
    · rw [hmax, hmin, hnbytes]
      exact isGreatest_touched hlegal.1 hlegal.2
  · rw [or_iff_right hlegal, ← nbytes_eq_zero_iff hcount hbytes hlegal, ← hnbytes,
      touched_eq_empty hlegal]
    exact ⟨fun hbound => hbound.of_empty rfl, fun hzero => ⟨fun _ => hzero,
      fun hsome => absurd hsome Set.not_nonempty_empty,
      fun hsome => absurd hsome Set.not_nonempty_empty,
      fun hsome => absurd hsome Set.not_nonempty_empty⟩⟩

theorem strideBounds_bound_iff_backwards :
    Bound (touched 100 (-10) 3 4) ⟨24, 80, 103⟩ :=
  (strideBounds_bound_iff (by decide) (by decide) (by decide)).mpr (.inl (by decide))

/-- A request of no strides, and one of strides of no bytes, have a count of bytes that
is not zero. -/
theorem strideBounds_empty_request :
    strideBounds 0 10 0 4 = some (some ⟨-6, 0, -7⟩) ∧ ¬Bound (touched 0 10 0 4) ⟨-6, 0, -7⟩ ∧
      strideBounds 0 10 3 0 = some (some ⟨20, 0, 19⟩) ∧ ¬Bound (touched 0 10 3 0) ⟨20, 0, 19⟩ := by
  refine ⟨by decide, fun hbound => ?_, by decide, fun hbound => ?_⟩
  · exact absurd (hbound.of_empty (touched_eq_empty (by decide))) (by decide)
  · exact absurd (hbound.of_empty (touched_eq_empty (by decide))) (by decide)

end GrapheneLtp.StrideBounds
