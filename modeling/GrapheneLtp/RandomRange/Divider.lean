import GrapheneLtp.RandomRange.Range

/-!
# Random multiples of 64 bits

A model of `random_rangell` and `divider` of `lib/random_range.c`.  A range that
reaches beyond 31 bits is halved until a half has at most that many, with one bit of
the random number to select the half, and the whole random number is then added to
where the half starts.  Near the end of the type this sum overflows.  The bit is found with
`1 << cnt`, a shift of an int, which is undefined from the sign bit on.
-/

namespace GrapheneLtp.RandomRange

open CheckedInt Multiples

/-- The greatest number that `lrand48` returns. -/
def drawMax : ℤ := 2147483647

/-- How the recursion ends: it is stopped by the check of its depth, or it has found a
number. -/
inductive Division where
  | runAway
  | found (number : ℤ)
deriving DecidableEq, Repr

/-- The value that `divider` returns. -/
def Division.value : Division → ℤ
  | runAway => -1
  | found number => number

/-- The value of `1 << cnt`, which is undefined when it is not an `int`. -/
def shiftOne (cnt : ℕ) : Option ℤ := inInt (2 ^ cnt)

/-- The value of `rand & (1 << cnt)` as a condition. -/
def selectsUpper (cnt : ℕ) (rand : ℤ) : Option Bool :=
  (shiftOne cnt).map fun bit => BitVec.ofInt 64 rand &&& BitVec.ofInt 64 bit != 0#64

/-- The recursion with the number of levels that are left.  The level `cnt` of the
code is 32 at the last of them. -/
def divider (lrand48 : ℤ) : ℕ → ℤ → ℤ → ℤ → Option Division
  | 0, _, _, _ => some .runAway
  | left + 1, min, max, rand =>
    let cnt := 32 - left
    let rand := if cnt = 0 ∨ rand < -1 then lrand48 else rand
    do
      let diff ← inLong (max - min)
      if diff ≤ drawMax then (inLong (min + rand)).map .found
      else do
        let half := diff.tdiv 2
        let med ← inLong (min + half)
        let upper ← selectsUpper cnt rand
        if half ≤ drawMax then
          if upper then (inLong (med + rand)).map .found
          else (inLong (min + rand)).map .found
        else if upper then divider lrand48 left med max rand
        else divider lrand48 left min med rand

/-- The number of levels before the check of the depth stops the recursion. -/
def levels : ℕ := 33

/-- The function of 64 bits, for the number that `lrand48` returns. -/
def randomRangell (min max mult lrand48 : ℤ) : Option (Except RangeError ℤ) := do
  match ← spread FitsLong min max mult with
  | .error error => some (.error error)
  | .ok multiples =>
    if multiples.max ≤ drawMax then (select multiples mult lrand48).map .ok
    else do
      let division ← divider lrand48 levels multiples.min multiples.max (-1)
      (select multiples mult division.value).map .ok

/-- The length of the part that is left when the upper half is selected each time. -/
def span (length : ℕ) : ℕ :=
  if length < 2 ^ 31 then length
  else if length / 2 < 2 ^ 31 then length - length / 2
  else span (length - length / 2)
termination_by length
decreasing_by omega

theorem span_le (length : ℕ) : span length ≤ length := by
  induction length using span.induct with
  | case1 length hshort => rw [span, if_pos hshort]
  | case2 length hlong hhalf =>
    rw [span, if_neg hlong, if_pos hhalf]
    exact Nat.sub_le _ _
  | case3 length hlong hhalf ih =>
    rw [span, if_neg hlong, if_neg hhalf]
    exact ih.trans (Nat.sub_le _ _)

theorem selectsUpper_of_lt {cnt : ℕ} (hcnt : cnt < 31) (rand : ℤ) :
    ∃ upper, selectsUpper cnt rand = some upper ∧ (rand = drawMax → upper = true) := by
  have hfits : ∀ cnt < 31, FitsInt (2 ^ cnt) := by decide
  have hbits : ∀ cnt < 31, (BitVec.ofInt 64 drawMax &&&
      BitVec.ofInt 64 (2 ^ cnt) != 0#64) = true := by decide
  refine ⟨_, ?_, fun hrand => hrand ▸ hbits cnt hcnt⟩
  rw [selectsUpper, shiftOne, inInt, inType_of_fits (hfits cnt hcnt), Option.map_some]

theorem selectsUpper_31 (rand : ℤ) : selectsUpper 31 rand = none := by
  have hsign : ¬FitsInt (2 ^ 31) := fun hfits => lt_irrefl _ hfits.2
  rw [selectsUpper, shiftOne, inInt, inType_of_not_fits hsign, Option.map_none]

section Runs

variable {lrand48 min rand : ℤ} {left length : ℕ}
  (hrand : (if 32 - left = 0 ∨ rand < -1 then lrand48 else rand) = lrand48)
  (hmin : 0 ≤ min) (hmax : min + length < 2 ^ 63)

include hrand hmin hmax

/-- One level on a range of nonnegative numbers, where the ends and the middle are
without overflow. -/
theorem divider_succ : divider lrand48 (left + 1) min (min + length) rand =
      if length < 2 ^ 31 then (inLong (min + lrand48)).map .found
      else (selectsUpper (32 - left) lrand48).bind fun upper =>
        if length / 2 < 2 ^ 31 then
          if upper then (inLong (min + (length / 2 : ℕ) + lrand48)).map .found
          else (inLong (min + lrand48)).map .found
        else if upper then
          divider lrand48 left (min + (length / 2 : ℕ))
            (min + (length / 2 : ℕ) + (length - length / 2 : ℕ)) lrand48
        else divider lrand48 left min (min + (length / 2 : ℕ)) lrand48 := by
  have hdiff : FitsLong (min + length - min) := ⟨by omega, by omega⟩
  have hhalf : ((min + length - min).tdiv 2) = (length / 2 : ℕ) := by
    rw [add_sub_cancel_left, Int.tdiv_eq_ediv_of_nonneg (Int.natCast_nonneg length)]
    omega
  have hmed : FitsLong (min + (length / 2 : ℕ)) := ⟨by omega, by omega⟩
  have hupper : min + (length : ℤ) = min + (length / 2 : ℕ) + (length - length / 2 : ℕ) := by omega
  have hshort (count : ℕ) : (count : ℤ) ≤ drawMax ↔ count < 2 ^ 31 := by
    rw [drawMax]
    omega
  rw [divider, hrand, inLong_of_fits hdiff, Option.bind_eq_bind, Option.bind_some, hhalf,
    add_sub_cancel_left]
  by_cases hlong : length < 2 ^ 31
  · rw [if_pos ((hshort length).mpr hlong), if_pos hlong]
  · rw [if_neg (mt (hshort length).mp hlong), if_neg hlong]
    dsimp only
    rw [inLong_of_fits hmed, Option.bind_some, Option.bind_eq_bind]
    simp only [hshort, ← hupper]

end Runs

section Runs

variable {lrand48 : ℤ}

/-- The random number is added to a start that leaves the span below the upper end,
and to the highest such start when the number has all bits. -/
def Starts (lrand48 min : ℤ) (length : ℕ) (division : Option Division) : Prop :=
  ∃ start : ℕ, start + span length ≤ length ∧
    (lrand48 = drawMax → start + span length = length) ∧
    division = (inLong (min + start + lrand48)).map .found

/-- The longest range for which no bit from the sign bit on is asked for, when so many levels
more than three are left. -/
def longest (left : ℕ) : ℕ := (2 ^ 32 - 1) * 2 ^ left

theorem longest_succ (left : ℕ) : longest (left + 1) = 2 * longest left := by
  rw [longest, longest]
  ring

theorem divider_starts_of_half {left length : ℕ} {min rand : ℤ}
    (hrand : (if 32 - (left + 2) = 0 ∨ rand < -1 then lrand48 else rand) = lrand48)
    (hmin : 0 ≤ min) (hmax : min + length < 2 ^ 63) (hhalf : length / 2 < 2 ^ 31) :
    Starts lrand48 min length (divider lrand48 (left + 3) min (min + length) rand) := by
  rw [divider_succ hrand hmin hmax]
  by_cases hshort : length < 2 ^ 31
  · have hspan : span length = length := by rw [span, if_pos hshort]
    refine ⟨0, by omega, fun _ => by omega, ?_⟩
    rw [if_pos hshort, Nat.cast_zero, add_zero]
  · have hspan : span length = length - length / 2 := by
      rw [span, if_neg hshort, if_pos hhalf]
    obtain ⟨upper, hupper, hall⟩ := selectsUpper_of_lt (show 32 - (left + 2) < 31 by omega) lrand48
    rw [if_neg hshort, hupper, Option.bind_some, if_pos hhalf]
    cases upper with
    | true =>
      refine ⟨length / 2, by omega, fun _ => by omega, ?_⟩
      rw [if_pos rfl]
    | false =>
      refine ⟨0, by omega, fun hdraw => absurd (hall hdraw) Bool.false_ne_true, ?_⟩
      rw [if_neg Bool.false_ne_true, Nat.cast_zero, add_zero]

/-- The recursion ends before the levels of defined shifts are used up. -/
theorem divider_starts {left length : ℕ} {min rand : ℤ}
    (hrand : (if 32 - (left + 2) = 0 ∨ rand < -1 then lrand48 else rand) = lrand48)
    (hmin : 0 ≤ min) (hmax : min + length < 2 ^ 63) (hlength : length ≤ longest left) :
    Starts lrand48 min length (divider lrand48 (left + 3) min (min + length) rand) := by
  induction left generalizing min length rand with
  | zero =>
    rw [longest] at hlength
    exact divider_starts_of_half hrand hmin hmax (by omega)
  | succ left ih =>
    by_cases hhalf : length / 2 < 2 ^ 31
    · exact divider_starts_of_half hrand hmin hmax hhalf
    have hshort : ¬length < 2 ^ 31 := by omega
    have hspan : span length = span (length - length / 2) := by
      rw [span, if_neg hshort, if_neg hhalf]
    have hspanle := span_le (length - length / 2)
    rw [longest_succ] at hlength
    obtain ⟨upper, hupper, hall⟩ :=
      selectsUpper_of_lt (show 32 - (left + 1 + 2) < 31 by omega) lrand48
    rw [divider_succ hrand hmin hmax, if_neg hshort, hupper, Option.bind_some, if_neg hhalf]
    cases upper with
    | true =>
      rw [if_pos rfl]
      obtain ⟨start, hbelow, hhighest, hstart⟩ := @ih (length - length / 2)
        (min + (length / 2 : ℕ)) lrand48 (ite_self lrand48) (by omega) (by omega) (by omega)
      refine ⟨length / 2 + start, by omega, fun hdraw => ?_, ?_⟩
      · have hequal := hhighest hdraw
        omega
      · rw [hstart, Nat.cast_add, add_assoc min]
    | false =>
      rw [if_neg Bool.false_ne_true]
      obtain ⟨start, hbelow, -, hstart⟩ := @ih (length / 2) min lrand48
        (ite_self lrand48) hmin (by omega) (by omega)
      exact ⟨start, by omega, fun hdraw => absurd (hall hdraw) Bool.false_ne_true, hstart⟩

/-- A level at which the greatest random number selects the upper half. -/
theorem divider_drawMax {left length : ℕ} {min rand : ℤ}
    (hrand : (if 32 - (left + 2) = 0 ∨ rand < -1 then drawMax else rand) = drawMax)
    (hmin : 0 ≤ min) (hmax : min + length < 2 ^ 63) (hhalf : ¬length / 2 < 2 ^ 31) :
    divider drawMax (left + 3) min (min + length) rand =
      divider drawMax (left + 2) (min + (length / 2 : ℕ))
        (min + (length / 2 : ℕ) + (length - length / 2 : ℕ)) drawMax := by
  obtain ⟨upper, hupper, hall⟩ :=
    selectsUpper_of_lt (show 32 - (left + 2) < 31 by omega) drawMax
  rw [divider_succ hrand hmin hmax, if_neg (by omega), hupper, Option.bind_some, if_neg hhalf,
    if_pos (hall rfl)]

/-- On a longer range the greatest random number comes to the shift into the sign bit. -/
theorem divider_undefined {left length : ℕ} {min rand : ℤ}
    (hrand : (if 32 - (left + 2) = 0 ∨ rand < -1 then drawMax else rand) = drawMax)
    (hmin : 0 ≤ min) (hmax : min + length < 2 ^ 63) (hlength : longest left < length) :
    divider drawMax (left + 3) min (min + length) rand = none := by
  induction left generalizing min length rand with
  | zero =>
    rw [longest] at hlength
    rw [divider_drawMax hrand hmin hmax (by omega),
      divider_succ (ite_self drawMax) (by omega) (by omega), if_neg (by omega), selectsUpper_31,
      Option.bind_none]
  | succ left ih =>
    have hlong : 2 ^ 32 - 1 ≤ longest left := Nat.le_mul_of_pos_right _ (Nat.two_pow_pos left)
    rw [longest_succ] at hlength
    rw [divider_drawMax hrand hmin hmax (by omega)]
    exact ih (ite_self drawMax) (by omega) (by omega) (by omega)

end Runs

/-- Nonnegative arguments with room for one more multiple. -/
structure Arguments64 (min max mult : ℤ) : Prop where
  min_nonneg : 0 ≤ min
  le : min ≤ max
  mult_pos : 1 ≤ mult
  lt : max + mult < 2 ^ 63

/-- The function has no overflow, it returns a multiple in the range if there is one,
and the check of the depth does not stop the recursion. -/
structure Meets64 (min max mult lrand48 : ℤ) : Prop where
  outcome : ∃ outcome, randomRangell min max mult lrand48 = some outcome ∧
    ((∃ error, outcome = .error error) ↔
      ¬∃ multiple, Between min max mult multiple) ∧
    ∀ value, outcome = .ok value → Between min max mult value
  division : ∀ multiples, spread FitsLong min max mult = some (.ok multiples) →
    drawMax < multiples.max → ∃ number,
      divider lrand48 levels multiples.min multiples.max (-1) =
        some (.found number)

/-- When the recursion is used, the range is not so long that the sign bit is asked for, and
the sum of the greatest random number and the highest start is of the type. -/
def Reliable64 (min max mult : ℤ) : Prop :=
  let first := nextMultiple mult min
  let last := lastMultiple mult max
  first ≤ last → drawMax < last →
    last - first ≤ 2 ^ 62 - 2 ^ 30 ∧ last - span (last - first).toNat + drawMax < 2 ^ 63

/-- All multiples between two numbers. -/
def allMultiples (min max mult : ℤ) : Spread where
  min := nextMultiple mult min
  max := lastMultiple mult max
  nmults := (lastMultiple mult max - nextMultiple mult min) / mult + 1

theorem randomRangell_of_spread_error {min max mult lrand48 : ℤ}
    {error : RangeError}
    (hspread : spread FitsLong min max mult = some (.error error)) :
    randomRangell min max mult lrand48 = some (.error error) := by
  rw [randomRangell, hspread]
  rfl

theorem randomRangell_of_spread_ok {min max mult lrand48 : ℤ} {multiples : Spread}
    (hspread : spread FitsLong min max mult = some (.ok multiples)) :
    randomRangell min max mult lrand48 =
      if multiples.max ≤ drawMax then (select multiples mult lrand48).map .ok
      else (divider lrand48 levels multiples.min multiples.max (-1)).bind
        fun division => (select multiples mult division.value).map .ok := by
  rw [randomRangell, hspread]
  rfl

namespace Arguments64

variable {min max mult : ℤ} (hargs : Arguments64 min max mult)

include hargs

theorem pos : 0 < mult := hargs.mult_pos

theorem exists_between_iff : (∃ multiple, Between min max mult multiple) ↔
    nextMultiple mult min ≤ lastMultiple mult max := by
  have hiff := @exists_multiple_iff mult (min ⊓ max) (min ⊔ max) hargs.pos
  rw [inf_eq_left.mpr hargs.le, sup_eq_right.mpr hargs.le] at hiff
  simp only [Between, inf_eq_left.mpr hargs.le, sup_eq_right.mpr hargs.le, hiff]

theorem next_nonneg : 0 ≤ nextMultiple mult min :=
  hargs.min_nonneg.trans (le_nextMultiple min hargs.pos)

theorem last_le : lastMultiple mult max ≤ max := lastMultiple_le max hargs.pos

theorem last_nonneg : 0 ≤ lastMultiple mult max :=
  le_lastMultiple hargs.pos (dvd_zero mult) (hargs.min_nonneg.trans hargs.le)

theorem fits_of_le {value : ℤ} (hnonneg : 0 ≤ value)
    (hle : value ≤ lastMultiple mult max) : FitsLong value :=
  ⟨by linarith, by linarith [hargs.last_le, hargs.lt, hargs.pos]⟩

theorem spread_eq : spread FitsLong min max mult =
      if nextMultiple mult min > lastMultiple mult max then
        some (.error (.noMultiples min max mult))
      else some (.ok (allMultiples min max mult)) := by
  have hlow : Rounds mult min := .inl hargs.min_nonneg
  have hhigh : Rounds mult max := .inl (hargs.min_nonneg.trans hargs.le)
  have hpos := hargs.pos
  have hlt := hargs.lt
  have hbump : bump FitsLong (min ⊓ max) mult = some (nextMultiple mult min) := by
    have hbumped : bumped mult min = nextMultiple mult min := if_pos hlow
    rw [inf_eq_left.mpr hargs.le, ← hbumped]
    apply bump_of_fits hpos
    · have hnonneg := Int.emod_nonneg min hpos.ne'
      have hemod := Int.emod_lt_of_pos min hpos
      rw [tmod_of_rounds hlow]
      exact ⟨by linarith, by linarith [hargs.min_nonneg, hargs.le]⟩
    · rw [hbumped]
      exact ⟨by linarith [hargs.next_nonneg],
        by linarith [nextMultiple_lt min hpos, hargs.le]⟩
  have hreduce : reduce FitsLong (min ⊔ max) mult = some (lastMultiple mult max) := by
    have hreduced : reduced mult max = lastMultiple mult max := if_pos hhigh
    rw [sup_eq_right.mpr hargs.le, ← hreduced]
    apply reduce_of_fits hpos
    rw [hreduced]
    exact ⟨by linarith [hargs.last_nonneg], by linarith [hargs.last_le]⟩
  rw [spread_of_ends hargs.mult_pos hbump hreduce]
  split
  · rfl
  · next hle =>
      have hdiff : 0 ≤ lastMultiple mult max - nextMultiple mult min :=
        sub_nonneg.mpr (not_lt.mp hle)
      have hsteps := Int.ediv_le_self mult hdiff
      have hnonneg := Int.ediv_nonneg hdiff hpos.le
      rw [countMultiples_of_fits (not_lt.mp hle)
        ⟨by linarith, by linarith [hargs.last_le, hargs.next_nonneg]⟩
        ⟨by linarith, by linarith [hargs.last_le, hargs.next_nonneg, hargs.mult_pos]⟩]
      rfl

theorem between_of_ends {value : ℤ} (hdvd : mult ∣ value)
    (hfrom : nextMultiple mult min ≤ value) (hto : value ≤ lastMultiple mult max) :
    Between min max mult value := by
  refine ⟨hdvd, ?_, ?_⟩
  · exact inf_le_left.trans ((le_nextMultiple min hargs.pos).trans hfrom)
  · exact (hto.trans hargs.last_le).trans le_sup_right

section Multiples

variable (hle : nextMultiple mult min ≤ lastMultiple mult max)

include hle

theorem regular : (allMultiples min max mult).Regular mult where
  mult_pos := hargs.pos
  dvd_min := dvd_nextMultiple mult min
  dvd_max := dvd_lastMultiple mult max
  le := hle
  nmults_eq := rfl
  fits_min := hargs.fits_of_le hargs.next_nonneg hle
  fits_max := hargs.fits_of_le hargs.last_nonneg le_rfl
  fits_diff := hargs.fits_of_le (sub_nonneg.mpr hle) (sub_le_self _ hargs.next_nonneg)

theorem division_range :
    nextMultiple mult min + ((lastMultiple mult max - nextMultiple mult min).toNat : ℤ) =
      lastMultiple mult max ∧ lastMultiple mult max < 2 ^ 63 := by
  refine ⟨by omega, ?_⟩
  linarith [hargs.last_le, hargs.lt, hargs.pos]

theorem division_starts (hlength : lastMultiple mult max - nextMultiple mult min ≤ 2 ^ 62 - 2 ^ 30)
    (lrand48 : ℤ) :
    Starts lrand48 (nextMultiple mult min)
      (lastMultiple mult max - nextMultiple mult min).toNat
      (divider lrand48 levels (nextMultiple mult min) (lastMultiple mult max) (-1)) := by
  obtain ⟨hlast, hmax⟩ := hargs.division_range hle
  rw [← hlast] at hmax
  have hstarts := @divider_starts lrand48 30 _ (nextMultiple mult min) (-1) (if_pos (.inl rfl))
    hargs.next_nonneg hmax (by rw [longest]; omega)
  rw [hlast] at hstarts
  exact hstarts

theorem division_undefined
    (hlength : 2 ^ 62 - 2 ^ 30 < lastMultiple mult max - nextMultiple mult min) :
    divider drawMax levels (nextMultiple mult min) (lastMultiple mult max) (-1) = none := by
  obtain ⟨hlast, hmax⟩ := hargs.division_range hle
  rw [← hlast] at hmax
  have hundefined := @divider_undefined 30 _ (nextMultiple mult min) (-1) (if_pos (.inl rfl))
    hargs.next_nonneg hmax (by rw [longest]; omega)
  rw [hlast] at hundefined
  exact hundefined

/-- A number that `divider` finds without overflow. -/
theorem division_found (hreliable : Reliable64 min max mult)
    (hlarge : drawMax < lastMultiple mult max) {lrand48 : ℤ}
    (hdraw : IsDraw lrand48) :
    ∃ number, 0 ≤ number ∧ divider lrand48 levels (nextMultiple mult min)
      (lastMultiple mult max) (-1) = some (.found number) := by
  obtain ⟨hlength, hroom⟩ := hreliable hle hlarge
  obtain ⟨start, hbelow, -, hdivision⟩ := hargs.division_starts hle hlength lrand48
  have hnonneg := hargs.next_nonneg
  have hdrawMax : lrand48 ≤ drawMax := by
    have hlt := hdraw.2
    rw [drawMax]
    omega
  have hstart : nextMultiple mult min + start + lrand48 < 2 ^ 63 := by omega
  have hpositive : 0 ≤ nextMultiple mult min + start + lrand48 := by
    linarith [hdraw.1, Int.natCast_nonneg start]
  refine ⟨_, hpositive, ?_⟩
  rw [hdivision, inLong_of_fits ⟨by linarith, hstart⟩]
  rfl

end Multiples

/-- The random number that the multiple is selected with. -/
theorem randomRangell_eq (hreliable : Reliable64 min max mult)
    (hle : nextMultiple mult min ≤ lastMultiple mult max) {lrand48 : ℤ} (hdraw : IsDraw lrand48) :
    ∃ randnum, 0 ≤ randnum ∧ randomRangell min max mult lrand48 =
      (select (allMultiples min max mult) mult randnum).map .ok := by
  have hspread := hargs.spread_eq
  rw [if_neg (not_lt.mpr hle)] at hspread
  rw [randomRangell_of_spread_ok hspread]
  split
  · exact ⟨lrand48, hdraw.1, rfl⟩
  · next hlarge =>
      obtain ⟨number, hnumber, hdivision⟩ :=
        hargs.division_found hle hreliable (not_le.mp hlarge) hdraw
      refine ⟨number, hnumber, ?_⟩
      rw [allMultiples, hdivision]
      rfl

theorem outcome_of_reliable (hreliable : Reliable64 min max mult) {lrand48 : ℤ}
    (hdraw : IsDraw lrand48) :
    ∃ outcome, randomRangell min max mult lrand48 = some outcome ∧
      ((∃ error, outcome = .error error) ↔ ¬∃ multiple, Between min max mult multiple) ∧
      ∀ value, outcome = .ok value → Between min max mult value := by
  rcases le_or_gt (nextMultiple mult min) (lastMultiple mult max) with hle | hnone
  · obtain ⟨randnum, hrandnum, hresult⟩ := hargs.randomRangell_eq hreliable hle hdraw
    obtain ⟨value, hselect, hdvd, hfrom, hto⟩ := (hargs.regular hle).select_between hrandnum
    have hbetween := hargs.between_of_ends hdvd hfrom hto
    refine ⟨.ok value, ?_, ⟨?_, ?_⟩, ?_⟩
    · rw [hresult, hselect]
      rfl
    · rintro ⟨error, herror⟩
      cases herror
    · intro hempty
      exact absurd ⟨value, hbetween⟩ hempty
    · intro other hother
      cases hother
      exact hbetween
  · have hspread := hargs.spread_eq
    rw [if_pos hnone] at hspread
    refine ⟨_, randomRangell_of_spread_error hspread, ⟨fun _ => ?_, fun _ => ⟨_, rfl⟩⟩, ?_⟩
    · rw [hargs.exists_between_iff]
      exact not_le.mpr hnone
    · intro value hvalue
      cases hvalue

theorem meets_of_reliable (hreliable : Reliable64 min max mult) {lrand48 : ℤ}
    (hdraw : IsDraw lrand48) : Meets64 min max mult lrand48 := by
  refine ⟨hargs.outcome_of_reliable hreliable hdraw, ?_⟩
  intro multiples hspread hlarge
  rw [hargs.spread_eq] at hspread
  split at hspread
  · cases hspread
  · next hle =>
      cases hspread
      obtain ⟨number, -, hdivision⟩ := hargs.division_found (not_lt.mp hle) hreliable hlarge hdraw
      exact ⟨number, hdivision⟩

/-- The greatest random number selects the upper half each time.  All bits that it is asked
for must be below the sign bit, and its sum with the highest start must be of the type. -/
theorem reliable_of_meets (hmeets : ∀ lrand48, IsDraw lrand48 → Meets64 min max mult lrand48) :
    Reliable64 min max mult := by
  intro hle hlarge
  have hspread := hargs.spread_eq
  rw [if_neg (not_lt.mpr hle)] at hspread
  obtain ⟨number, hnumber⟩ := (hmeets drawMax (by decide)).division _ hspread hlarge
  have hlength : lastMultiple mult max - nextMultiple mult min ≤ 2 ^ 62 - 2 ^ 30 := by
    by_contra hlong
    rw [allMultiples, hargs.division_undefined hle (not_le.mp hlong)] at hnumber
    cases hnumber
  obtain ⟨start, -, hhighest, hdivision⟩ := hargs.division_starts hle hlength drawMax
  have hequal := hhighest rfl
  rw [allMultiples, hdivision, Option.map_eq_some_iff] at hnumber
  obtain ⟨sum, hsum, -⟩ := hnumber
  obtain ⟨⟨-, hlt⟩, -⟩ := inType_eq_some_iff.mp hsum
  exact ⟨hlength, by omega⟩

end Arguments64

/-- The function meets its description for every random number exactly when no shift comes to
the sign bit and the highest start has room for the greatest random number. -/
theorem randomRangell_meets_iff {min max mult : ℤ} (hargs : Arguments64 min max mult) :
    (∀ lrand48, IsDraw lrand48 → Meets64 min max mult lrand48) ↔ Reliable64 min max mult :=
  ⟨hargs.reliable_of_meets, fun hreliable _ hdraw => hargs.meets_of_reliable hreliable hdraw⟩

theorem randomRangell_meets_wide : Meets64 5 (2 ^ 40) 3 drawMax := by
  have hreliable : Reliable64 5 (2 ^ 40) 3 := by
    intro _ _
    have hlast : lastMultiple 3 (2 ^ 40) + drawMax < 2 ^ 63 := by decide
    refine ⟨by decide, ?_⟩
    have hspan := Int.natCast_nonneg (span (lastMultiple 3 (2 ^ 40) - nextMultiple 3 5).toNat)
    linarith
  exact (randomRangell_meets_iff
    ⟨by decide, by decide, by decide, by decide⟩).mpr hreliable _ (by decide)

/-- Eleven numbers at the end of the type: the random number is added to the least of
them, and the sum overflows. -/
theorem randomRangell_overflows : Arguments64 (2 ^ 63 - 12) (2 ^ 63 - 2) 1 ∧ IsDraw drawMax ∧
      randomRangell (2 ^ 63 - 12) (2 ^ 63 - 2) 1 drawMax = none := by
  refine ⟨⟨by decide, by decide, by decide, by decide⟩, by decide, ?_⟩
  have hspread : spread FitsLong (2 ^ 63 - 12) (2 ^ 63 - 2) 1 =
      some (.ok ⟨2 ^ 63 - 12, 2 ^ 63 - 2, 11⟩) := by decide
  rw [randomRangell_of_spread_ok hspread]
  rfl

end GrapheneLtp.RandomRange
