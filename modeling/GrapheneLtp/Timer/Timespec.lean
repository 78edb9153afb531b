import Mathlib.Algebra.Order.Round
import Mathlib.Data.Rat.Floor
import GrapheneLtp.Core.CheckedInt

/-!
# Arithmetic of timespecs

The functions on `struct tst_ts` add and subtract seconds and nanoseconds each on
their own and then carry over or borrow one second.  Amounts in other units are
split by a division that rounds toward zero, so that both parts have the sign of
the amount.
-/

namespace GrapheneLtp.Timer

open CheckedInt

inductive TsType where
  | libcTimespec
  | kernOldTimespec
  | kernTimespec
  deriving DecidableEq, Repr

structure Timespec where
  tvSec : ℤ
  tvNsec : ℤ
  deriving DecidableEq, Repr

/-- A time with its type.  The fields of all types are those of a `long long`. -/
structure TstTs where
  type : TsType
  sec : ℤ
  nsec : ℤ
  deriving DecidableEq, Repr

def tstTsFromTimespec (ts : Timespec) : TstTs := ⟨.libcTimespec, ts.tvSec, ts.tvNsec⟩

def tstTsToTimespec (t : TstTs) : Timespec := ⟨t.sec, t.nsec⟩

/-- `tst_ts_set_sec` and `tst_ts_set_nsec` with the values of two sums. -/
def setTime (t : TstTs) (sec nsec : ℤ) : Option TstTs := do
  let sec ← inLong sec
  let nsec ← inLong nsec
  return { t with sec := sec, nsec := nsec }

def tstTsNormalize (t : TstTs) : Option TstTs := do
  let carried ←
    if t.nsec ≥ 1000000000 then setTime t (t.sec + 1) (t.nsec - 1000000000)
    else some t
  if t.nsec < 0 then setTime carried (t.sec - 1) (t.nsec + 1000000000)
  else some carried

/-! ## Conversions -/

/-- A time in another unit, rounded: `perSec` units are a second, and a unit is
`nsecs` nanoseconds, of which `half` are a half. -/
def toUnits (perSec nsecs half : ℤ) (t : TstTs) : Option ℤ := do
  let high ← inLong (t.sec * perSec)
  let low ← inLong (t.nsec + half)
  inLong (high + low.tdiv nsecs)

/-- A time from an amount in another unit. -/
def fromUnits (perSec nsecs : ℤ) (type : TsType) (amount : ℤ) : Option TstTs :=
  setTime ⟨type, 0, 0⟩ (amount.tdiv perSec) (amount.tmod perSec * nsecs)

def tstTsToUs (t : TstTs) : Option ℤ := toUnits 1000000 1000 500 t

def tstTsToMs (t : TstTs) : Option ℤ := toUnits 1000 1000000 500000 t

def tstTsFromUs (type : TsType) (us : ℤ) : Option TstTs := fromUnits 1000000 1000 type us

/-! ## Sums and differences -/

def tstTsLt (t1 t2 : TstTs) : Bool :=
  if t1.sec = t2.sec then t1.nsec < t2.nsec else t1.sec < t2.sec

def tstTimespecLt (ts1 ts2 : Timespec) : Bool :=
  tstTsLt (tstTsFromTimespec ts1) (tstTsFromTimespec ts2)

def tstTsAddUs (t : TstTs) (us : ℤ) : Option TstTs := do
  let res ← setTime ⟨t.type, 0, 0⟩ (t.sec + us.tdiv 1000000) (t.nsec + us.tmod 1000000 * 1000)
  tstTsNormalize res

def tstTsSubUs (t : TstTs) (us : ℤ) : Option TstTs := do
  let res ← setTime ⟨t.type, 0, 0⟩ (t.sec - us.tdiv 1000000) (t.nsec - us.tmod 1000000 * 1000)
  tstTsNormalize res

def tstTsAdd (t1 t2 : TstTs) : Option TstTs := do
  let res ← setTime ⟨t1.type, 0, 0⟩ (t1.sec + t2.sec) (t1.nsec + t2.nsec)
  tstTsNormalize res

def tstTsDiff (t1 t2 : TstTs) : Option TstTs := do
  let res ← setTime ⟨t1.type, 0, 0⟩ (t1.sec - t2.sec) (t1.nsec - t2.nsec)
  tstTsNormalize res

def tstTsAbsDiff (t1 t2 : TstTs) : Option TstTs :=
  if tstTsLt t1 t2 then tstTsDiff t2 t1 else tstTsDiff t1 t2

def tstTsDiffUs (t1 t2 : TstTs) : Option ℤ := (tstTsDiff t1 t2).bind tstTsToUs

def tstTsDiffMs (t1 t2 : TstTs) : Option ℤ := (tstTsDiff t1 t2).bind tstTsToMs

def tstTimespecAddUs (ts : Timespec) (us : ℤ) : Option Timespec :=
  (tstTsAddUs (tstTsFromTimespec ts) us).map tstTsToTimespec

def tstTimespecSubUs (ts : Timespec) (us : ℤ) : Option Timespec :=
  (tstTsSubUs (tstTsFromTimespec ts) us).map tstTsToTimespec

def tstTimespecAdd (ts1 ts2 : Timespec) : Option Timespec :=
  (tstTsAdd (tstTsFromTimespec ts1) (tstTsFromTimespec ts2)).map tstTsToTimespec

def tstTimespecDiff (ts1 ts2 : Timespec) : Option Timespec :=
  (tstTsDiff (tstTsFromTimespec ts1) (tstTsFromTimespec ts2)).map tstTsToTimespec

/-! ## Exact times -/

/-- The time in nanoseconds. -/
def TstTs.ns (t : TstTs) : ℤ := 1000000000 * t.sec + t.nsec

def TstTs.Normalized (t : TstTs) : Prop := 0 ≤ t.nsec ∧ t.nsec < 1000000000

def Timespec.ns (ts : Timespec) : ℤ := (tstTsFromTimespec ts).ns

def Timespec.Normalized (ts : Timespec) : Prop := (tstTsFromTimespec ts).Normalized

/-- The normalized time of a number of nanoseconds. -/
def exactTime (type : TsType) (ns : ℤ) : TstTs := ⟨type, ns / 1000000000, ns % 1000000000⟩

theorem exactTime_normalized (type : TsType) (ns : ℤ) : (exactTime type ns).Normalized := by
  simp only [TstTs.Normalized, exactTime]
  omega

theorem exactTime_ns (type : TsType) (ns : ℤ) : (exactTime type ns).ns = ns := by
  simp only [TstTs.ns, exactTime]
  omega

section Sums

variable {t t1 t2 : TstTs} {sec nsec : ℤ}

theorem setTime_eq (t : TstTs) (hsec : FitsLong sec) (hnsec : FitsLong nsec) :
    setTime t sec nsec = some ⟨t.type, sec, nsec⟩ := by
  rw [setTime, inLong_of_fits hsec, inLong_of_fits hnsec]
  rfl

/-- Of a time whose nanoseconds are off by less than a second, one carry or borrow
makes the normalized time. -/
theorem setTime_normalize (type : TsType) (hsec : FitsLong sec)
    (hnsec : -1000000000 ≤ nsec ∧ nsec < 2000000000)
    (hresult : FitsLong ((1000000000 * sec + nsec) / 1000000000)) :
    (setTime ⟨type, 0, 0⟩ sec nsec >>= tstTsNormalize) =
      some (exactTime type (1000000000 * sec + nsec)) := by
  have hfits (value : ℤ) (hvalue : -1000000000 ≤ value ∧ value < 2000000000) : FitsLong value := by
    rw [FitsLong]
    omega
  rw [setTime_eq _ hsec (hfits nsec hnsec), Option.bind_eq_bind, Option.bind_some,
    tstTsNormalize, exactTime]
  dsimp only
  rcases lt_or_ge nsec 0 with hnegative | hpositive
  · have hborrow : (1000000000 * sec + nsec) / 1000000000 = sec - 1 ∧
        (1000000000 * sec + nsec) % 1000000000 = nsec + 1000000000 := by
      omega
    rw [hborrow.1] at hresult
    rw [if_neg (by omega), Option.bind_eq_bind, Option.bind_some, if_pos hnegative,
      setTime_eq _ hresult (hfits _ (by omega)), hborrow.1, hborrow.2]
  rcases lt_or_ge nsec 1000000000 with hsmall | hlarge
  · have hsame : (1000000000 * sec + nsec) / 1000000000 = sec ∧
        (1000000000 * sec + nsec) % 1000000000 = nsec := by
      omega
    rw [if_neg (by omega), Option.bind_eq_bind, Option.bind_some, if_neg (by omega),
      hsame.1, hsame.2]
  · have hcarry : (1000000000 * sec + nsec) / 1000000000 = sec + 1 ∧
        (1000000000 * sec + nsec) % 1000000000 = nsec - 1000000000 := by
      omega
    rw [hcarry.1] at hresult
    rw [if_pos hlarge, setTime_eq _ hresult (hfits _ (by omega)),
      Option.bind_eq_bind, Option.bind_some, if_neg (by omega), hcarry.1, hcarry.2]

end Sums

/-! ## Rounding -/

section Units

variable {t : TstTs} {perSec nsecs half : ℤ}

/-- An exact time in another unit, rounded half up. -/
def rounded (nsecs ns : ℤ) : ℤ := round ((ns : ℚ) / nsecs)

theorem rounded_eq (hhalf : 0 < half) (ns : ℤ) :
    rounded (2 * half) ns = (ns + half) / (2 * half) := by
  obtain ⟨count, rfl⟩ := Int.eq_ofNat_of_zero_le hhalf.le
  have hcount : (count : ℚ) ≠ 0 := by
    exact_mod_cast hhalf.ne'
  have hsum : (ns : ℚ) / ((2 * (count : ℤ) : ℤ) : ℚ) + 1 / 2 =
      ((ns + count : ℤ) : ℚ) / ((2 * count : ℕ) : ℚ) := by
    push_cast
    field_simp
  rw [rounded, round_eq, hsum, Rat.floor_intCast_div_natCast]
  push_cast
  rfl

/-- A normalized time is rounded half up. -/
theorem toUnits_eq (ht : t.Normalized) (hhalf : 0 < half)
    (hunits : perSec * (2 * half) = 1000000000)
    (hproduct : FitsLong (t.sec * perSec))
    (hresult : FitsLong (rounded (2 * half) t.ns)) :
    toUnits perSec (2 * half) half t = some (rounded (2 * half) t.ns) := by
  obtain ⟨hlow, hhigh⟩ := ht
  have hsmall : half ≤ 1000000000 := by
    by_contra hlarge
    rcases lt_or_ge perSec 1 with hnone | hsome
    · have hnonpos : perSec * (2 * half) ≤ 0 := mul_nonpos_of_nonpos_of_nonneg (by omega) (by omega)
      omega
    · have hmore : 1 * (2 * half) ≤ perSec * (2 * half) :=
        mul_le_mul_of_nonneg_right hsome (by omega)
      omega
  have hadd : FitsLong (t.nsec + half) := by
    rw [FitsLong]
    omega
  have hexact : rounded (2 * half) t.ns = t.sec * perSec + (t.nsec + half).tdiv (2 * half) := by
    have hns : t.ns + half = t.nsec + half + t.sec * perSec * (2 * half) := by
      rw [TstTs.ns, mul_assoc, hunits]
      ring
    rw [rounded_eq hhalf, hns, Int.add_mul_ediv_right _ _ (by omega),
      Int.tdiv_eq_ediv_of_nonneg (by omega)]
    ring
  rw [toUnits, inLong_of_fits hproduct, inLong_of_fits hadd]
  rw [hexact] at hresult ⊢
  exact inLong_of_fits hresult

/-- An amount that is not negative comes back. -/
theorem fromUnits_toUnits (type : TsType) {amount : ℤ} (hamount : 0 ≤ amount)
    (hfits : FitsLong amount) (hhalf : 0 < half)
    (hperSec : 0 < perSec) (hunits : perSec * (2 * half) = 1000000000) :
    (fromUnits perSec (2 * half) type amount).bind
      (toUnits perSec (2 * half) half) = some amount := by
  have hdiv : amount.tdiv perSec = amount / perSec := Int.tdiv_eq_ediv_of_nonneg hamount
  have hmod : amount.tmod perSec = amount % perSec := Int.tmod_eq_emod_of_nonneg hamount
  have hquotient : 0 ≤ amount / perSec ∧ amount / perSec ≤ amount :=
    ⟨Int.ediv_nonneg hamount hperSec.le, Int.ediv_le_self _ hamount⟩
  have hrest := Int.emod_nonneg amount hperSec.ne'
  have hless := Int.emod_lt_of_pos amount hperSec
  have hnsec : 0 ≤ amount % perSec * (2 * half) ∧ amount % perSec * (2 * half) < 1000000000 := by
    constructor
    · positivity
    · rw [← hunits]
      exact mul_lt_mul_of_pos_right hless (by omega)
  have hns : (⟨type, amount / perSec, amount % perSec * (2 * half)⟩ : TstTs).ns =
      amount * (2 * half) := by
    have hsplit := Int.mul_ediv_add_emod amount perSec
    rw [TstTs.ns, ← hunits]
    calc perSec * (2 * half) * (amount / perSec) + amount % perSec * (2 * half)
        = (perSec * (amount / perSec) + amount % perSec) * (2 * half) := by ring
      _ = amount * (2 * half) := by rw [hsplit]
  have hround : rounded (2 * half) (amount * (2 * half)) = amount := by
    rw [rounded_eq hhalf, Int.add_comm, Int.add_mul_ediv_right _ _ (by omega),
      Int.ediv_eq_zero_of_lt hhalf.le (by omega), zero_add]
  have hproduct : FitsLong (amount / perSec * perSec) := by
    have hle := Int.ediv_mul_le amount hperSec.ne'
    have hnonneg : 0 ≤ amount / perSec * perSec := by
      positivity
    exact FitsLong.of_le (show FitsLong 0 by decide) hfits ⟨hnonneg, hle⟩
  rw [fromUnits, hdiv, hmod, setTime_eq, Option.bind_some, toUnits_eq, hns, hround]
  · exact hnsec
  · exact hhalf
  · exact hunits
  · exact hproduct
  · rw [hns, hround]
    exact hfits
  · exact FitsLong.of_le (show FitsLong 0 by decide) hfits hquotient
  · rw [FitsLong]
    omega

end Units

/-! ## All functions -/

section Times

variable {t t1 t2 : TstTs} {us : ℤ}

theorem tmod_range (us : ℤ) : us.tmod 1000000 + us.tdiv 1000000 * 1000000 = us ∧
      -1000000 < us.tmod 1000000 ∧ us.tmod 1000000 < 1000000 :=
  ⟨Int.tmod_add_tdiv_mul us 1000000, Int.lt_tmod_of_pos us (by decide),
    Int.tmod_lt_of_pos us (by decide)⟩

theorem tstTsAddUs_eq (ht : t.Normalized) (hsec : FitsLong (t.sec + us.tdiv 1000000))
    (hresult : FitsLong ((t.ns + 1000 * us) / 1000000000)) :
    tstTsAddUs t us = some (exactTime t.type (t.ns + 1000 * us)) := by
  obtain ⟨hsplit, hlow, hhigh⟩ := tmod_range us
  obtain ⟨hpositive, hsmall⟩ := ht
  have hns : 1000000000 * (t.sec + us.tdiv 1000000) +
      (t.nsec + us.tmod 1000000 * 1000) = t.ns + 1000 * us := by
    rw [TstTs.ns]
    omega
  rw [← hns] at hresult ⊢
  exact setTime_normalize t.type hsec (by omega) hresult

theorem tstTsSubUs_eq (ht : t.Normalized) (hsec : FitsLong (t.sec - us.tdiv 1000000))
    (hresult : FitsLong ((t.ns - 1000 * us) / 1000000000)) :
    tstTsSubUs t us = some (exactTime t.type (t.ns - 1000 * us)) := by
  obtain ⟨hsplit, hlow, hhigh⟩ := tmod_range us
  obtain ⟨hpositive, hsmall⟩ := ht
  have hns : 1000000000 * (t.sec - us.tdiv 1000000) +
      (t.nsec - us.tmod 1000000 * 1000) = t.ns - 1000 * us := by
    rw [TstTs.ns]
    omega
  rw [← hns] at hresult ⊢
  exact setTime_normalize t.type hsec (by omega) hresult

section Pairs

variable (h1 : t1.Normalized) (h2 : t2.Normalized)

include h1 h2

theorem tstTsAdd_eq (hsec : FitsLong (t1.sec + t2.sec))
    (hresult : FitsLong ((t1.ns + t2.ns) / 1000000000)) :
    tstTsAdd t1 t2 = some (exactTime t1.type (t1.ns + t2.ns)) := by
  rw [TstTs.Normalized] at h1 h2
  have hns : 1000000000 * (t1.sec + t2.sec) + (t1.nsec + t2.nsec) = t1.ns + t2.ns := by
    rw [TstTs.ns, TstTs.ns]
    omega
  rw [← hns] at hresult ⊢
  exact setTime_normalize t1.type hsec (by omega) hresult

theorem tstTsDiff_eq (hsec : FitsLong (t1.sec - t2.sec))
    (hresult : FitsLong ((t1.ns - t2.ns) / 1000000000)) :
    tstTsDiff t1 t2 = some (exactTime t1.type (t1.ns - t2.ns)) := by
  rw [TstTs.Normalized] at h1 h2
  have hns : 1000000000 * (t1.sec - t2.sec) + (t1.nsec - t2.nsec) = t1.ns - t2.ns := by
    rw [TstTs.ns, TstTs.ns]
    omega
  rw [← hns] at hresult ⊢
  exact setTime_normalize t1.type hsec (by omega) hresult

theorem tstTsLt_iff : tstTsLt t1 t2 = true ↔ t1.ns < t2.ns := by
  rw [TstTs.Normalized] at h1 h2
  rw [tstTsLt, TstTs.ns, TstTs.ns]
  split_ifs <;> rw [decide_eq_true_eq] <;> omega

theorem eq_of_ns_eq (htype : t1.type = t2.type) (hns : t1.ns = t2.ns) : t1 = t2 := by
  rw [TstTs.Normalized] at h1 h2
  rw [TstTs.ns, TstTs.ns] at hns
  obtain ⟨type, sec, nsec⟩ := t1
  obtain ⟨otherType, otherSec, otherNsec⟩ := t2
  simp only [TstTs.mk.injEq] at *
  exact ⟨htype, by omega, by omega⟩

/-- The order of the two times does not matter for the absolute difference. -/
theorem tstTsAbsDiff_comm (htype : t1.type = t2.type) :
    tstTsAbsDiff t1 t2 = tstTsAbsDiff t2 t1 := by
  have hless := tstTsLt_iff h1 h2
  have hgreater := tstTsLt_iff h2 h1
  rw [tstTsAbsDiff, tstTsAbsDiff]
  rcases lt_trichotomy t1.ns t2.ns with hlt | heq | hgt
  · rw [if_pos (hless.mpr hlt), if_neg (fun hboth => ?_)]
    exact lt_asymm hlt (hgreater.mp hboth)
  · rw [eq_of_ns_eq h1 h2 htype heq]
  · rw [if_pos (hgreater.mpr hgt), if_neg (fun hboth => ?_)]
    exact lt_asymm hgt (hless.mp hboth)

theorem tstTsAbsDiff_eq (hsec : FitsLong |t1.sec - t2.sec|) :
    ∃ type, tstTsAbsDiff t1 t2 = some (exactTime type |t1.ns - t2.ns|) := by
  have hless := tstTsLt_iff h1 h2
  rw [tstTsAbsDiff]
  by_cases hlt : t1.ns < t2.ns
  · have hseconds : t1.sec ≤ t2.sec ∧ 0 ≤ (t2.ns - t1.ns) / 1000000000 ∧
          (t2.ns - t1.ns) / 1000000000 ≤ t2.sec - t1.sec := by
      simp only [TstTs.Normalized, TstTs.ns] at *
      omega
    rw [abs_sub_comm, abs_of_nonneg (by omega)] at hsec
    rw [if_pos (hless.mpr hlt), abs_sub_comm, abs_of_nonneg (by omega)]
    exact ⟨_, tstTsDiff_eq h2 h1 hsec (FitsLong.of_le (show FitsLong 0 by decide) hsec hseconds.2)⟩
  · have hseconds : t2.sec ≤ t1.sec ∧ 0 ≤ (t1.ns - t2.ns) / 1000000000 ∧
          (t1.ns - t2.ns) / 1000000000 ≤ t1.sec - t2.sec := by
      simp only [TstTs.Normalized, TstTs.ns] at *
      omega
    rw [abs_of_nonneg (by omega)] at hsec
    rw [if_neg (fun htrue => hlt (hless.mp htrue)), abs_of_nonneg (by omega)]
    exact ⟨_, tstTsDiff_eq h1 h2 hsec (FitsLong.of_le (show FitsLong 0 by decide) hsec hseconds.2)⟩

end Pairs

end Times

/-- Without an overflow of the seconds the result is the normalized time of so many
nanoseconds. -/
def Gives (result : Option Timespec) (seconds ns : ℤ) : Prop :=
  FitsLong seconds → FitsLong (ns / 1000000000) →
    ∃ ts, result = some ts ∧ ts.Normalized ∧ ts.ns = ns

/-- The functions on timespecs are exact. -/
structure ExactTimespecs (ts1 ts2 : Timespec) (us : ℤ) : Prop where
  add_us : Gives (tstTimespecAddUs ts1 us) (ts1.tvSec + us.tdiv 1000000)
    (ts1.ns + 1000 * us)
  sub_us : Gives (tstTimespecSubUs ts1 us) (ts1.tvSec - us.tdiv 1000000)
    (ts1.ns - 1000 * us)
  add : Gives (tstTimespecAdd ts1 ts2) (ts1.tvSec + ts2.tvSec) (ts1.ns + ts2.ns)
  diff : Gives (tstTimespecDiff ts1 ts2) (ts1.tvSec - ts2.tvSec) (ts1.ns - ts2.ns)
  lt : tstTimespecLt ts1 ts2 = true ↔ ts1.ns < ts2.ns

/-- Without an overflow the difference is rounded half up. -/
def Rounds (result : Option ℤ) (perSec nsecs : ℤ) (t1 t2 : TstTs) : Prop :=
  FitsLong (t1.sec - t2.sec) → FitsLong ((t1.ns - t2.ns) / 1000000000) →
    FitsLong ((t1.ns - t2.ns) / 1000000000 * perSec) → FitsLong (rounded nsecs (t1.ns - t2.ns)) →
        result = some (rounded nsecs (t1.ns - t2.ns))

/-- The differences of times are exact. -/
structure ExactDifferences (t1 t2 : TstTs) : Prop where
  abs_comm : t1.type = t2.type → tstTsAbsDiff t1 t2 = tstTsAbsDiff t2 t1
  abs_diff : FitsLong |t1.sec - t2.sec| →
    ∃ t, tstTsAbsDiff t1 t2 = some t ∧ t.Normalized ∧ t.ns = |t1.ns - t2.ns|
  diff_us : Rounds (tstTsDiffUs t1 t2) 1000000 1000 t1 t2
  diff_ms : Rounds (tstTsDiffMs t1 t2) 1000 1000000 t1 t2

section Exact

variable {ts1 ts2 : Timespec} {t1 t2 : TstTs}

theorem gives_of_eq {result : Option TstTs} {seconds ns : ℤ} {type : TsType}
    (hresult : FitsLong seconds → FitsLong (ns / 1000000000) → result = some (exactTime type ns)) :
    Gives (result.map tstTsToTimespec) seconds ns := by
  intro hseconds hns
  rw [hresult hseconds hns]
  exact ⟨_, rfl, exactTime_normalized .libcTimespec ns,
    exactTime_ns .libcTimespec ns⟩

theorem exactTimespecs (h1 : ts1.Normalized) (h2 : ts2.Normalized) (us : ℤ) :
    ExactTimespecs ts1 ts2 us where
  add_us := gives_of_eq (tstTsAddUs_eq h1)
  sub_us := gives_of_eq (tstTsSubUs_eq h1)
  add := gives_of_eq (tstTsAdd_eq h1 h2)
  diff := gives_of_eq (tstTsDiff_eq h1 h2)
  lt := tstTsLt_iff h1 h2

theorem rounds_of_half {perSec half : ℤ} (h1 : t1.Normalized) (h2 : t2.Normalized)
    (hhalf : 0 < half) (hunits : perSec * (2 * half) = 1000000000) :
    Rounds ((tstTsDiff t1 t2).bind (toUnits perSec (2 * half) half)) perSec (2 * half) t1 t2 := by
  intro hseconds hns hproduct hresult
  have hexact := exactTime_ns t1.type (t1.ns - t2.ns)
  rw [tstTsDiff_eq h1 h2 hseconds hns, Option.bind_some,
    toUnits_eq (exactTime_normalized _ _) hhalf hunits hproduct, hexact]
  rw [hexact]
  exact hresult

theorem exactDifferences (h1 : t1.Normalized) (h2 : t2.Normalized) : ExactDifferences t1 t2 where
  abs_comm := tstTsAbsDiff_comm h1 h2
  abs_diff := by
    intro hsec
    obtain ⟨type, hdiff⟩ := tstTsAbsDiff_eq h1 h2 hsec
    exact ⟨_, hdiff, exactTime_normalized _ _, exactTime_ns _ _⟩
  diff_us := rounds_of_half h1 h2 (show (0 : ℤ) < 500 by decide) rfl
  diff_ms := rounds_of_half h1 h2 (show (0 : ℤ) < 500000 by decide) rfl

/-- The functions on normalized times are exact where nothing overflows, and a
number of microseconds that is not negative comes back from a conversion. -/
theorem tstTs_exact (hts1 : ts1.Normalized) (hts2 : ts2.Normalized)
    (ht1 : t1.Normalized) (ht2 : t2.Normalized) (us : ℤ) :
    ExactTimespecs ts1 ts2 us ∧ ExactDifferences t1 t2 ∧ (0 ≤ us → FitsLong us → ∀ type,
        (tstTsFromUs type us).bind tstTsToUs = some us) :=
  ⟨exactTimespecs hts1 hts2 us, exactDifferences ht1 ht2,
    fun hpositive hfits type => fromUnits_toUnits type hpositive hfits
      (show (0 : ℤ) < 500 by decide) (by decide) rfl⟩

end Exact

/-- A difference of -1.4999995 seconds is rounded up to -1499999 microseconds. -/
theorem tstTs_exact_negative : tstTimespecAddUs ⟨5, 0⟩ (-1) = some ⟨4, 999999000⟩ ∧
      tstTsDiffUs ⟨.kernTimespec, 1, 500⟩ ⟨.kernTimespec, 2, 500000000⟩ = some (-1499999) ∧
      ∃ ts, tstTimespecAddUs ⟨5, 0⟩ (-1) = some ts ∧ ts.Normalized ∧ ts.ns = 4999999000 := by
  have hexact := @tstTs_exact ⟨5, 0⟩ ⟨1, 2⟩ ⟨.kernTimespec, 1, 500⟩
    ⟨.kernTimespec, 2, 500000000⟩ ⟨by decide, by decide⟩ ⟨by decide, by decide⟩
    ⟨by decide, by decide⟩ ⟨by decide, by decide⟩ (-1)
  exact ⟨by decide +kernel, by decide +kernel, hexact.1.add_us (by decide) (by decide)⟩

end GrapheneLtp.Timer
