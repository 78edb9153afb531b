import GrapheneLtp.Core.CheckedInt
import GrapheneLtp.Core.Multiples

/-!
# Random multiples in a range

A model of `random_range` of `lib/random_range.c`.  The ends of the range are
rounded to multiples with the remainder of C, which is negative for a negative
end.  Such an end is moved one multiple too far up unless it is a multiple itself.
-/

namespace GrapheneLtp.RandomRange

open CheckedInt Multiples

/-- The errors that a caller finds through `errp`. -/
inductive RangeError where
  | multTooSmall
  | noMultiples (min max mult : ℤ)
deriving DecidableEq, Repr

/-- The text in `errbuf`. -/
def RangeError.message : RangeError → String
  | multTooSmall => "mult arg must be greater than 0"
  | noMultiples min max mult =>
    "no numbers in the range " ++ toString min ++ ":" ++ toString max ++
      " that are a multiple of " ++ toString mult

/-- The multiples that a number is selected from. -/
structure Spread where
  min : ℤ
  max : ℤ
  nmults : ℤ
deriving DecidableEq, Repr

section Rounding

variable (Fits : ℤ → Prop) [DecidablePred Fits]

/-- Bump to the next higher multiple. -/
def bump (min mult : ℤ) : Option ℤ :=
  let r := min.tmod mult
  if r = 0 then some min
  else do
    let distance ← inType Fits (mult - r)
    inType Fits (min + distance)

/-- Reduce to the next lower multiple. -/
def reduce (max mult : ℤ) : Option ℤ :=
  let r := max.tmod mult
  if r = 0 then some max else inType Fits (max - r)

/-- The number of multiples between two of them. -/
def countMultiples (min max mult : ℤ) : Option ℤ := do
  let diff ← inType Fits (max - min)
  inType Fits (diff.tdiv mult + 1)

/-- What `random_range` and `random_rangell` do before they take a random number,
with the type of their variables as a parameter.  There is no result when the
value of an expression is not one of the type. -/
def spread (min max mult : ℤ) : Option (Except RangeError Spread) :=
  if mult < 1 then some (.error .multTooSmall)
  else do
    let low ← bump Fits (if max < min then max else min) mult
    let high ← reduce Fits (if max < min then min else max) mult
    if low > high then some (.error (.noMultiples min max mult))
    else do
      let nmults ← countMultiples Fits low high mult
      some (.ok ⟨low, high, nmults⟩)

end Rounding

/-- The multiple that a random number selects. -/
def select (spread : Spread) (mult randnum : ℤ) : Option ℤ := do
  let offset ← inLong (randnum.tmod spread.nmults * mult)
  inLong (spread.min + offset)

/-- The function, for the number that `lrand48` returns.  An error stands for the
value -1 with `errp` set. -/
def randomRange (min max mult rand : ℤ) : Option (Except RangeError ℤ) := do
  match ← spread FitsInt min max mult with
  | .error error => some (.error error)
  | .ok multiples => (select multiples mult rand).map .ok

/-- The numbers that `lrand48` returns. -/
def IsDraw (rand : ℤ) : Prop := 0 ≤ rand ∧ rand < 2 ^ 31

instance (rand : ℤ) : Decidable (IsDraw rand) := inferInstanceAs (Decidable (_ ∧ _))

/-- A multiple between two numbers in either order. -/
def Between (min max mult multiple : ℤ) : Prop :=
  mult ∣ multiple ∧ min ⊓ max ≤ multiple ∧ multiple ≤ min ⊔ max

instance (min max mult multiple : ℤ) : Decidable (Between min max mult multiple) :=
  inferInstanceAs (Decidable (_ ∧ _))

section Rounding

variable {Fits : ℤ → Prop} [DecidablePred Fits] {mult value : ℤ}

/-- Where the remainder of C moves the lower end. -/
def bumped (mult value : ℤ) : ℤ :=
  if Rounds mult value then nextMultiple mult value
  else nextMultiple mult value + mult

/-- Where the remainder of C moves the upper end. -/
def reduced (mult value : ℤ) : ℤ :=
  if Rounds mult value then lastMultiple mult value
  else lastMultiple mult value + mult

theorem dvd_bumped (mult value : ℤ) : mult ∣ bumped mult value := by
  rw [bumped]
  split
  · exact dvd_nextMultiple mult value
  · exact dvd_add (dvd_nextMultiple mult value) dvd_rfl

theorem dvd_reduced (mult value : ℤ) : mult ∣ reduced mult value := by
  rw [reduced]
  split
  · exact dvd_lastMultiple mult value
  · exact dvd_add (dvd_lastMultiple mult value) dvd_rfl

theorem sub_tmod_eq (value : ℤ) (hmult : 0 < mult) :
    value - value.tmod mult = reduced mult value := by
  by_cases hrounds : Rounds mult value
  · rw [reduced, if_pos hrounds, tmod_of_rounds hrounds, lastMultiple]
  · rw [reduced, if_neg hrounds, tmod_of_not_rounds hmult hrounds, lastMultiple]
    ring

theorem add_sub_tmod_eq (hmult : 0 < mult) (hdvd : ¬mult ∣ value) :
    value + (mult - value.tmod mult) = bumped mult value := by
  have hnext := nextMultiple_eq_add hmult hdvd
  by_cases hrounds : Rounds mult value
  · rw [bumped, if_pos hrounds, hnext, tmod_of_rounds hrounds, lastMultiple]
    ring
  · rw [bumped, if_neg hrounds, hnext, tmod_of_not_rounds hmult hrounds, lastMultiple]
    ring

theorem bump_of_dvd (hdvd : mult ∣ value) : bump Fits value mult = some (bumped mult value) := by
  rw [bumped, if_pos (.inr hdvd), nextMultiple_of_dvd hdvd]
  exact if_pos (Int.tmod_eq_zero_of_dvd hdvd)

theorem bump_of_fits (hmult : 0 < mult) (hdistance : Fits (mult - value.tmod mult))
    (hfits : Fits (bumped mult value)) :
    bump Fits value mult = some (bumped mult value) := by
  by_cases hdvd : mult ∣ value
  · exact bump_of_dvd hdvd
  · rw [bump, if_neg (mt Int.dvd_of_tmod_eq_zero hdvd), inType_of_fits hdistance,
      Option.bind_eq_bind, Option.bind_some, add_sub_tmod_eq hmult hdvd,
      inType_of_fits hfits]

theorem bump_of_not_fits (hdvd : ¬mult ∣ value)
    (hdistance : ¬Fits (mult - value.tmod mult)) : bump Fits value mult = none := by
  rw [bump, if_neg (mt Int.dvd_of_tmod_eq_zero hdvd), inType_of_not_fits hdistance]
  rfl

theorem reduce_of_fits (hmult : 0 < mult) (hfits : Fits (reduced mult value)) :
    reduce Fits value mult = some (reduced mult value) := by
  rw [reduce, sub_tmod_eq value hmult, inType_of_fits hfits, ← sub_tmod_eq value hmult]
  split
  · next hzero => rw [hzero, Int.sub_zero]
  · rfl

end Rounding

section Spreads

variable {Fits : ℤ → Prop} [DecidablePred Fits] {min max mult low high : ℤ}

theorem spread_of_ends (hmult : 1 ≤ mult) (hlow : bump Fits (min ⊓ max) mult = some low)
    (hhigh : reduce Fits (min ⊔ max) mult = some high) :
    spread Fits min max mult =
      if low > high then some (.error (.noMultiples min max mult))
      else (countMultiples Fits low high mult).map fun nmults =>
        .ok ⟨low, high, nmults⟩ := by
  rw [spread, if_neg (not_lt.mpr hmult), ← min_def_lt, ← max_def_lt,
    min_comm max min, max_comm max min, hlow, hhigh]
  simp only [Option.bind_eq_bind, Option.bind_some]
  split
  · rfl
  · cases countMultiples Fits low high mult <;> rfl

theorem spread_of_bump_none (hmult : 1 ≤ mult) (hlow : bump Fits (min ⊓ max) mult = none) :
    spread Fits min max mult = none := by
  rw [spread, if_neg (not_lt.mpr hmult), ← min_def_lt, min_comm max min, hlow]
  rfl

/-- The number of steps between the ends, when its type has room for it. -/
theorem countMultiples_of_fits (hle : low ≤ high) (hdiff : Fits (high - low))
    (hcount : Fits ((high - low) / mult + 1)) :
    countMultiples Fits low high mult = some ((high - low) / mult + 1) := by
  rw [countMultiples, inType_of_fits hdiff, Option.bind_eq_bind, Option.bind_some,
    Int.tdiv_eq_ediv_of_nonneg (sub_nonneg.mpr hle), inType_of_fits hcount]

theorem countMultiples_eq_some {nmults : ℤ} (hle : low ≤ high)
    (hcount : countMultiples Fits low high mult = some nmults) :
    Fits (high - low) ∧ Fits nmults ∧ nmults = (high - low) / mult + 1 := by
  by_cases hdiff : Fits (high - low)
  · rw [countMultiples, inType_of_fits hdiff, Option.bind_eq_bind, Option.bind_some,
      Int.tdiv_eq_ediv_of_nonneg (sub_nonneg.mpr hle), inType,
      Option.ite_none_right_eq_some, Option.some_inj] at hcount
    obtain ⟨hfits, rfl⟩ := hcount
    exact ⟨hdiff, hfits, rfl⟩
  · rw [countMultiples, inType_of_not_fits hdiff] at hcount
    cases hcount

end Spreads

/-- The ends are multiples in order, and the number of multiples is right. -/
structure Spread.Regular (spread : Spread) (mult : ℤ) : Prop where
  mult_pos : 0 < mult
  dvd_min : mult ∣ spread.min
  dvd_max : mult ∣ spread.max
  le : spread.min ≤ spread.max
  nmults_eq : spread.nmults = (spread.max - spread.min) / mult + 1
  fits_min : FitsLong spread.min
  fits_max : FitsLong spread.max
  fits_diff : FitsLong (spread.max - spread.min)

namespace Spread.Regular

variable {spread : Spread} {mult : ℤ} (hregular : spread.Regular mult)

include hregular

theorem max_eq : spread.max = spread.min + (spread.nmults - 1) * mult := by
  have hdvd := dvd_sub hregular.dvd_max hregular.dvd_min
  rw [hregular.nmults_eq, add_sub_cancel_right, Int.ediv_mul_cancel hdvd]
  ring

theorem nmults_pos : 0 < spread.nmults := by
  have hsteps := Int.ediv_nonneg (sub_nonneg.mpr hregular.le) hregular.mult_pos.le
  rw [hregular.nmults_eq]
  linarith

/-- A number of steps below the count stays in the interval. -/
theorem step_le {step : ℤ} (hstep : step < spread.nmults) :
    step * mult ≤ spread.max - spread.min := by
  have hle : step * mult ≤ (spread.nmults - 1) * mult :=
    mul_le_mul_of_nonneg_right (by linarith) hregular.mult_pos.le
  linarith [hregular.max_eq]

theorem select_eq {randnum : ℤ} (hrandnum : 0 ≤ randnum) : select spread mult randnum =
      some (spread.min + randnum % spread.nmults * mult) := by
  have hnonneg := Int.emod_nonneg randnum hregular.nmults_pos.ne'
  have hstep := hregular.step_le (Int.emod_lt_of_pos randnum hregular.nmults_pos)
  have hoffset := mul_nonneg hnonneg hregular.mult_pos.le
  have hzero : FitsLong 0 := by decide
  have hfits : FitsLong (randnum % spread.nmults * mult) :=
    FitsLong.of_le hzero hregular.fits_diff ⟨hoffset, hstep⟩
  have hvalue : FitsLong (spread.min + randnum % spread.nmults * mult) :=
    FitsLong.of_le hregular.fits_min hregular.fits_max ⟨by linarith, by linarith⟩
  rw [select, Int.tmod_eq_emod_of_nonneg hrandnum, inLong_of_fits hfits,
    Option.bind_eq_bind, Option.bind_some, inLong_of_fits hvalue]

/-- What is selected is a multiple between the ends. -/
theorem select_between {randnum : ℤ} (hrandnum : 0 ≤ randnum) :
    ∃ value, select spread mult randnum = some value ∧ mult ∣ value ∧
      spread.min ≤ value ∧ value ≤ spread.max := by
  refine ⟨_, hregular.select_eq hrandnum, ?_, ?_, ?_⟩
  · exact dvd_add hregular.dvd_min (Dvd.intro_left _ rfl)
  · exact le_add_of_nonneg_right (mul_nonneg
      (Int.emod_nonneg randnum hregular.nmults_pos.ne') hregular.mult_pos.le)
  · linarith [hregular.step_le (Int.emod_lt_of_pos randnum hregular.nmults_pos)]

/-- Every multiple between the ends is selected by the number of its step. -/
theorem select_surjective {multiple : ℤ} (hdvd : mult ∣ multiple)
    (hlow : spread.min ≤ multiple) (hhigh : multiple ≤ spread.max) :
    ∃ step, 0 ≤ step ∧ step < spread.nmults ∧ select spread mult step = some multiple := by
  obtain ⟨step, hstep⟩ := dvd_sub hdvd hregular.dvd_min
  have hmult := hregular.mult_pos
  have hnonneg : 0 ≤ step := nonneg_of_mul_nonneg_right (by linarith) hmult
  have hlt : step < spread.nmults := by
    have hle : mult * step ≤ mult * (spread.nmults - 1) := by
      linarith [hregular.max_eq]
    linarith [le_of_mul_le_mul_left hle hmult]
  refine ⟨step, hnonneg, hlt, ?_⟩
  rw [hregular.select_eq hnonneg, Int.emod_eq_of_lt hnonneg hlt]
  congr 1
  linarith

end Spread.Regular

/-- Arguments of the type `int` whose next multiples are of that type. -/
structure Arguments (min max mult : ℤ) : Prop where
  fits_min : FitsInt min
  fits_max : FitsInt max
  fits_mult : FitsInt mult
  mult_pos : 1 ≤ mult
  fits_next : FitsInt (nextMultiple mult (min ⊓ max))
  fits_last : FitsInt (lastMultiple mult (min ⊔ max))

/-- What the comment of the function says about its result. -/
structure Meets (min max mult : ℤ) : Prop where
  outcome : ∀ rand, IsDraw rand → ∃ outcome,
    randomRange min max mult rand = some outcome ∧
      ((∃ error, outcome = .error error) ↔
        ¬∃ multiple, Between min max mult multiple) ∧
      ∀ value, outcome = .ok value → Between min max mult value
  reached : ((Finset.Icc (min ⊓ max) (min ⊔ max)).filter (mult ∣ ·)).card ≤ 2 ^ 31 →
    ∀ multiple, Between min max mult multiple →
      ∃ rand, IsDraw rand ∧ randomRange min max mult rand = some (.ok multiple)

/-- There is no multiple, and the distance that the lower end is moved by is an
`int`; or neither end is a negative number off the multiples, and the distance of
the outermost multiples and their number are ints. -/
def Reliable (min max mult : ℤ) : Prop :=
  let first := nextMultiple mult (min ⊓ max)
  let last := lastMultiple mult (min ⊔ max)
  (last < first ∧ FitsInt (mult - (min ⊓ max).tmod mult)) ∨
    (Rounds mult (min ⊓ max) ∧ Rounds mult (min ⊔ max) ∧
      last - first < 2 ^ 31 ∧ (last - first) / mult + 1 < 2 ^ 31)

instance (min max mult : ℤ) : Decidable (Reliable min max mult) :=
  inferInstanceAs (Decidable (_ ∨ _))

theorem randomRange_of_spread_ok {min max mult rand : ℤ} {multiples : Spread}
    (hspread : spread FitsInt min max mult = some (.ok multiples)) :
    randomRange min max mult rand = (select multiples mult rand).map .ok := by
  rw [randomRange, hspread]
  rfl

theorem randomRange_of_spread_error {min max mult rand : ℤ} {error : RangeError}
    (hspread : spread FitsInt min max mult = some (.error error)) :
    randomRange min max mult rand = some (.error error) := by
  rw [randomRange, hspread]
  rfl

theorem randomRange_eq_ok {min max mult rand value : ℤ}
    (hvalue : randomRange min max mult rand = some (.ok value)) :
    ∃ multiples, spread FitsInt min max mult = some (.ok multiples) ∧
      select multiples mult rand = some value := by
  rcases hspread : spread FitsInt min max mult with _ | error | multiples
  · rw [randomRange, hspread] at hvalue
    cases hvalue
  · rw [randomRange_of_spread_error hspread] at hvalue
    cases hvalue
  · rw [randomRange_of_spread_ok hspread, Option.map_eq_some_iff] at hvalue
    obtain ⟨selected, hselected, hequal⟩ := hvalue
    cases hequal
    exact ⟨multiples, rfl, hselected⟩

theorem spread_of_outcome {min max mult rand : ℤ} {outcome : Except RangeError ℤ}
    (houtcome : randomRange min max mult rand = some outcome) :
    ∃ found, spread FitsInt min max mult = some found := by
  cases hspread : spread FitsInt min max mult with
  | some found => exact ⟨found, rfl⟩
  | none =>
    rw [randomRange, hspread] at houtcome
    cases houtcome

namespace Arguments

variable {min max mult : ℤ} (hargs : Arguments min max mult)

include hargs

theorem pos : 0 < mult := hargs.mult_pos

theorem exists_between_iff : (∃ multiple, Between min max mult multiple) ↔
    nextMultiple mult (min ⊓ max) ≤ lastMultiple mult (min ⊔ max) :=
  exists_multiple_iff hargs.pos

theorem fits_inf : FitsInt (min ⊓ max) :=
  ⟨le_inf hargs.fits_min.1 hargs.fits_max.1, inf_le_left.trans_lt hargs.fits_min.2⟩

theorem fits_sup : FitsInt (min ⊔ max) :=
  ⟨le_sup_of_le_left hargs.fits_min.1, sup_lt_iff.mpr ⟨hargs.fits_min.2, hargs.fits_max.2⟩⟩

theorem fits_distance (hrounds : Rounds mult (min ⊓ max)) :
    FitsInt (mult - (min ⊓ max).tmod mult) := by
  have hnonneg := Int.emod_nonneg (min ⊓ max) hargs.pos.ne'
  have hlt := Int.emod_lt_of_pos (min ⊓ max) hargs.pos
  have hmult := hargs.fits_mult
  rw [tmod_of_rounds hrounds]
  constructor
  · linarith
  · linarith [hmult.2]

theorem fits_reduced : FitsInt (reduced mult (min ⊔ max)) := by
  rw [reduced]
  split
  · exact hargs.fits_last
  · next hrounds =>
      obtain ⟨hnegative, hdvd⟩ := not_or.mp hrounds
      have hnonpos := nextMultiple_le hargs.pos (dvd_zero mult) (not_le.mp hnegative).le
      rw [← nextMultiple_eq_add hargs.pos hdvd]
      have hle := le_nextMultiple (min ⊔ max) hargs.pos
      exact ⟨hargs.fits_sup.1.trans hle, hnonpos.trans_lt (by norm_num)⟩

theorem fits_bumped (hdistance : FitsInt (mult - (min ⊓ max).tmod mult)) :
    FitsInt (bumped mult (min ⊓ max)) := by
  by_cases hrounds : Rounds mult (min ⊓ max)
  · rw [bumped, if_pos hrounds]
    exact hargs.fits_next
  · obtain ⟨hnegative, hdvd⟩ := not_or.mp hrounds
    have hpositive : 0 < mult - (min ⊓ max).tmod mult := by
      rw [tmod_of_not_rounds hargs.pos hrounds]
      linarith [Int.emod_lt_of_pos (min ⊓ max) hargs.pos, hargs.pos]
    rw [← add_sub_tmod_eq hargs.pos hdvd]
    constructor
    · linarith [hargs.fits_inf.1]
    · linarith [hdistance.2]

theorem spread_eq (hdistance : FitsInt (mult - (min ⊓ max).tmod mult)) :
    spread FitsInt min max mult =
      if bumped mult (min ⊓ max) > reduced mult (min ⊔ max) then
        some (.error (.noMultiples min max mult))
      else (countMultiples FitsInt (bumped mult (min ⊓ max))
        (reduced mult (min ⊔ max)) mult).map fun nmults =>
          .ok ⟨bumped mult (min ⊓ max), reduced mult (min ⊔ max), nmults⟩ :=
  spread_of_ends hargs.mult_pos (bump_of_fits hargs.pos hdistance (hargs.fits_bumped hdistance))
    (reduce_of_fits hargs.pos hargs.fits_reduced)

/-- Without a multiple the lower end passes the upper one: negative ends off the
multiples are both moved too far. -/
theorem reduced_lt_bumped (hnone : lastMultiple mult (min ⊔ max) < nextMultiple mult (min ⊓ max)) :
    reduced mult (min ⊔ max) < bumped mult (min ⊓ max) := by
  by_cases hrounds : Rounds mult (min ⊓ max)
  · rcases hrounds with hnonneg | hdvd
    · have hsup : Rounds mult (min ⊔ max) := .inl (hnonneg.trans inf_le_sup)
      rw [reduced, if_pos hsup, bumped, if_pos (.inl hnonneg)]
      exact hnone
    · have hle := le_lastMultiple hargs.pos hdvd (inf_le_sup (a := min) (b := max))
      rw [nextMultiple_of_dvd hdvd] at hnone
      exact absurd hle (not_le.mpr hnone)
  · rw [bumped, if_neg hrounds, reduced]
    split
    · linarith [hargs.pos]
    · linarith

theorem meets_of_none (hnone : lastMultiple mult (min ⊔ max) < nextMultiple mult (min ⊓ max))
    (hdistance : FitsInt (mult - (min ⊓ max).tmod mult)) : Meets min max mult := by
  have hspread := hargs.spread_eq hdistance
  rw [if_pos (hargs.reduced_lt_bumped hnone)] at hspread
  have hempty : ¬∃ multiple, Between min max mult multiple := by
    rw [hargs.exists_between_iff]
    exact not_le.mpr hnone
  constructor
  · intro rand _
    refine ⟨_, randomRange_of_spread_error hspread, ⟨fun _ => hempty, fun _ => ⟨_, rfl⟩⟩, ?_⟩
    intro value hvalue
    cases hvalue
  · intro _ multiple hbetween
    exact absurd ⟨multiple, hbetween⟩ hempty

/-- The multiples that are selected from when both ends are rounded well. -/
theorem regular_of_fits {low high : ℤ} (hlow : FitsInt low) (hhigh : FitsInt high)
    (hdvdlow : mult ∣ low) (hdvdhigh : mult ∣ high) (hle : low ≤ high) :
    Spread.Regular ⟨low, high, (high - low) / mult + 1⟩ mult where
  mult_pos := hargs.pos
  dvd_min := hdvdlow
  dvd_max := hdvdhigh
  le := hle
  nmults_eq := rfl
  fits_min := ⟨by linarith [hlow.1], by linarith [hlow.2]⟩
  fits_max := ⟨by linarith [hhigh.1], by linarith [hhigh.2]⟩
  fits_diff := ⟨by linarith, by linarith [hlow.1, hhigh.2]⟩

theorem meets_of_rounds (hlow : Rounds mult (min ⊓ max)) (hhigh : Rounds mult (min ⊔ max))
    (hdiff : lastMultiple mult (min ⊔ max) - nextMultiple mult (min ⊓ max) < 2 ^ 31)
    (hcount : (lastMultiple mult (min ⊔ max) - nextMultiple mult (min ⊓ max)) / mult + 1 < 2 ^ 31)
    (hle : nextMultiple mult (min ⊓ max) ≤ lastMultiple mult (min ⊔ max)) :
    Meets min max mult := by
  have hregular := hargs.regular_of_fits hargs.fits_next hargs.fits_last
    (dvd_nextMultiple mult _) (dvd_lastMultiple mult _) hle
  have hpositive := hregular.nmults_pos
  have hspread := hargs.spread_eq (hargs.fits_distance hlow)
  rw [bumped, if_pos hlow, reduced, if_pos hhigh, if_neg (not_lt.mpr hle),
    countMultiples_of_fits hle ⟨by linarith, hdiff⟩ ⟨by linarith, hcount⟩] at hspread
  constructor
  · intro rand hrand
    obtain ⟨value, hvalue, hdvd, hfrom, hto⟩ := hregular.select_between hrand.1
    have hbetween : Between min max mult value := ⟨hdvd, (le_nextMultiple _ hargs.pos).trans hfrom,
        hto.trans (lastMultiple_le _ hargs.pos)⟩
    refine ⟨.ok value, ?_, ⟨?_, ?_⟩, ?_⟩
    · rw [randomRange_of_spread_ok hspread, hvalue]
      rfl
    · rintro ⟨error, herror⟩
      cases herror
    · intro hempty
      exact absurd ⟨value, hbetween⟩ hempty
    · intro other hother
      cases hother
      exact hbetween
  · rintro _ multiple ⟨hdvd, hfrom, hto⟩
    obtain ⟨step, hnonneg, hlt, hselect⟩ := hregular.select_surjective hdvd
      (nextMultiple_le hargs.pos hdvd hfrom) (le_lastMultiple hargs.pos hdvd hto)
    refine ⟨step, ⟨hnonneg, hlt.trans hcount⟩, ?_⟩
    rw [randomRange_of_spread_ok hspread, hselect]
    rfl

theorem meets_of_reliable (hreliable : Reliable min max mult) : Meets min max mult := by
  rcases hreliable with ⟨hnone, hdistance⟩ | ⟨hlow, hhigh, hdiff, hcount⟩
  · exact hargs.meets_of_none hnone hdistance
  · rcases le_or_gt (nextMultiple mult (min ⊓ max)) (lastMultiple mult (min ⊔ max))
      with hle | hnone
    · exact hargs.meets_of_rounds hlow hhigh hdiff hcount hle
    · exact hargs.meets_of_none hnone (hargs.fits_distance hlow)

/-- The lower end is only moved when the distance is an `int`. -/
theorem fits_distance_of_spread {outcome : Except RangeError Spread}
    (hspread : spread FitsInt min max mult = some outcome) :
    FitsInt (mult - (min ⊓ max).tmod mult) := by
  by_cases hrounds : Rounds mult (min ⊓ max)
  · exact hargs.fits_distance hrounds
  · by_contra hdistance
    have hdvd := (not_or.mp hrounds).2
    rw [spread_of_bump_none hargs.mult_pos (bump_of_not_fits hdvd hdistance)] at hspread
    cases hspread

/-- The multiples that the function selects from when it returns one. -/
theorem spread_of_ok {multiples : Spread}
    (hspread : spread FitsInt min max mult = some (.ok multiples)) :
    multiples.Regular mult ∧ multiples.min = bumped mult (min ⊓ max) ∧
      multiples.max = reduced mult (min ⊔ max) ∧
      FitsInt (multiples.max - multiples.min) ∧ FitsInt multiples.nmults := by
  have hdistance := hargs.fits_distance_of_spread hspread
  rw [hargs.spread_eq hdistance] at hspread
  split at hspread
  · cases hspread
  · next hle =>
      obtain ⟨nmults, hcount, hequal⟩ := Option.map_eq_some_iff.mp hspread
      cases hequal
      obtain ⟨hdiff, hfits, rfl⟩ := countMultiples_eq_some (not_lt.mp hle) hcount
      exact ⟨hargs.regular_of_fits (hargs.fits_bumped hdistance) hargs.fits_reduced
        (dvd_bumped mult _) (dvd_reduced mult _) (not_lt.mp hle), rfl, rfl, hdiff, hfits⟩

section Necessary

variable (hmeets : Meets min max mult) {multiples : Spread}
  (hspread : spread FitsInt min max mult = some (.ok multiples))

include hmeets hspread

/-- The first multiple would be skipped, and it is one that must be reached. -/
theorem rounds_inf (hle : nextMultiple mult (min ⊓ max) ≤ lastMultiple mult (min ⊔ max)) :
    Rounds mult (min ⊓ max) := by
  by_contra hrounds
  obtain ⟨hregular, hmin, hmax, hdiff, hnmults⟩ := hargs.spread_of_ok hspread
  rw [bumped, if_neg hrounds] at hmin
  have hpos := hargs.pos
  have hcover : min ⊔ max < nextMultiple mult (min ⊓ max) + (2 ^ 31 : ℕ) * mult := by
    have hhigh : lastMultiple mult (min ⊔ max) ≤ multiples.max := by
      rw [hmax, reduced]
      split <;> linarith
    have hsteps : (multiples.nmults + 1) * mult ≤ (2 ^ 31 : ℕ) * mult :=
      mul_le_mul_of_nonneg_right (by push_cast; linarith [hnmults.2]) hpos.le
    linarith [lt_lastMultiple_add (min ⊔ max) hpos, hregular.max_eq]
  obtain ⟨rand, hrand, hvalue⟩ := hmeets.reached (card_multiples_le hpos hcover)
    (nextMultiple mult (min ⊓ max))
    ⟨dvd_nextMultiple mult _, le_nextMultiple _ hpos, hle.trans (lastMultiple_le _ hpos)⟩
  obtain ⟨value, hselect, -, hfrom, -⟩ := hregular.select_between hrand.1
  rw [randomRange_of_spread_ok hspread, hselect] at hvalue
  cases hvalue
  linarith

/-- The multiple above the upper end would be returned. -/
theorem rounds_sup : Rounds mult (min ⊔ max) := by
  by_contra hrounds
  obtain ⟨hregular, hmin, hmax, hdiff, hnmults⟩ := hargs.spread_of_ok hspread
  rw [reduced, if_neg hrounds] at hmax
  obtain ⟨step, hnonneg, hlt, hselect⟩ :=
    hregular.select_surjective hregular.dvd_max hregular.le le_rfl
  obtain ⟨outcome, houtcome, -, hbetween⟩ := hmeets.outcome step ⟨hnonneg, hlt.trans hnmults.2⟩
  rw [randomRange_of_spread_ok hspread, hselect, Option.map_some, Option.some_inj] at houtcome
  have hto := (hbetween multiples.max houtcome.symm).2.2
  linarith [lt_lastMultiple_add (min ⊔ max) hargs.pos]

end Necessary

theorem reliable_of_meets (hmeets : Meets min max mult) : Reliable min max mult := by
  obtain ⟨outcome, houtcome, herror, -⟩ := hmeets.outcome 0 (by decide)
  obtain ⟨found, hfound⟩ := spread_of_outcome houtcome
  rcases le_or_gt (nextMultiple mult (min ⊓ max)) (lastMultiple mult (min ⊔ max))
    with hle | hnone
  · right
    cases outcome with
    | error error =>
      exact absurd (hargs.exists_between_iff.mpr hle) (herror.mp ⟨error, rfl⟩)
    | ok value =>
      obtain ⟨multiples, hspread, -⟩ := randomRange_eq_ok houtcome
      have hlow := hargs.rounds_inf hmeets hspread hle
      have hhigh := hargs.rounds_sup hmeets hspread
      obtain ⟨hregular, hmin, hmax, hdiff, hnmults⟩ := hargs.spread_of_ok hspread
      rw [bumped, if_pos hlow] at hmin
      rw [reduced, if_pos hhigh] at hmax
      rw [hregular.nmults_eq, hmin, hmax] at hnmults
      rw [hmin, hmax] at hdiff
      exact ⟨hlow, hhigh, hdiff.2, hnmults.2⟩
  · exact .inl ⟨hnone, hargs.fits_distance_of_spread hfound⟩

end Arguments

/-- The function selects among all multiples in the range, and among no others,
exactly when its arguments do not include a negative end off the multiples and no
intermediate result is too large. -/
theorem randomRange_meets_iff {min max mult : ℤ} (hargs : Arguments min max mult) :
    Meets min max mult ↔ Reliable min max mult :=
  ⟨hargs.reliable_of_meets, hargs.meets_of_reliable⟩

theorem randomRange_meets_mixed : Meets (-6) 7 3 := (randomRange_meets_iff
    ⟨by decide, by decide, by decide, by decide, by decide, by decide⟩).mpr (by decide)

/-- Between -8 and -5 there is the multiple -6 of 3.  Both ends are moved to -3, and
this is returned for every random number. -/
theorem randomRange_negative : Arguments (-8) (-5) 3 ∧ Between (-8) (-5) 3 (-6) ∧
      (∀ rand, IsDraw rand → randomRange (-8) (-5) 3 rand = some (.ok (-3))) ∧
      ¬Between (-8) (-5) 3 (-3) := by
  have hspread : spread FitsInt (-8) (-5) 3 = some (.ok ⟨-3, -3, 1⟩) := by decide
  refine ⟨⟨by decide, by decide, by decide, by decide, by decide, by decide⟩,
    by decide, ?_, by decide⟩
  intro rand hrand
  rw [randomRange_of_spread_ok hspread, select, Int.tmod_one]
  rfl

end GrapheneLtp.RandomRange
