import GrapheneLtp.Core.Strtol

/-!
# File sizes of test options

`tst_parse_filesize` reads a number and a letter for its unit.  It looks at one
character behind the number only to find the unit: any other character there is
taken for none, and the product with the unit may be too large for its type.
-/

namespace GrapheneLtp.FileSize

open CheckedInt CString Strtol

inductive Errno where
  | einval
  | erange
  deriving DecidableEq, Repr

/-- The factor for the character behind the number. -/
def factor (c : Char) : ℤ :=
  if c = 'g' ∨ c = 'G' then 1024 * 1024 * 1024
  else if c = 'm' ∨ c = 'M' then 1024 * 1024
  else if c = 'k' ∨ c = 'K' then 1024
  else 1

/-- `tst_parse_filesize`: the error returned, none for 0, and the value that
`val` has thereafter. -/
def tstParseFilesize (str : Option (List Char)) (val min max : ℤ) : Option (Option Errno × ℤ) :=
  match str with
  | none => some (none, val)
  | some str =>
    match strtoll readAnyBase str with
    | none => some (some .einval, val)
    | some (rval, exact, rest) =>
      if rest.headD nul ≠ nul ∧ rest.tail.headD nul ≠ nul then
        some (some .einval, val)
      else if !exact then some (some .erange, val)
      else do
        let rval ← inLong (rval * factor (rest.headD nul))
        if rval > max ∨ rval < min then return (some .erange, val)
        else return (none, rval)

/-! ## What a file size is -/

/-- The unit that a letter stands for. -/
def letterUnit : Char → Option ℤ
  | 'k' | 'K' => some (2 ^ 10)
  | 'm' | 'M' => some (2 ^ 20)
  | 'g' | 'G' => some (2 ^ 30)
  | _ => none

/-- The unit that is written behind a number. -/
def unit : List Char → Option ℤ
  | [] => some 1
  | [c] => letterUnit c
  | _ => none

/-- An integer and a unit. -/
def IsFileSize (str : List Char) (size : ℤ) : Prop :=
  ∃ integer suffix value factor, str = integer ++ suffix ∧
    Signed AnyBase integer value ∧ unit suffix = some factor ∧ size = value * factor

/-- The string is a file size within the bounds. -/
def IsFileSizeIn (str : List Char) (min max size : ℤ) : Prop :=
  IsFileSize str size ∧ min ≤ size ∧ size ≤ max

/-- File sizes within the bounds, and no other strings, are accepted and
stored. -/
structure Parsed (str : List Char) (val min max : ℤ)
    (result : Option Errno × ℤ) : Prop where
  accepted_iff : result.1 = none ↔ ∃ size, IsFileSizeIn str min max size
  stored : ∀ size, IsFileSizeIn str min max size → result.2 = size
  unchanged : (¬∃ size, IsFileSizeIn str min max size) → result.2 = val

/-- A number within the bounds that is followed by a character other than a
unit. -/
def Overlooked (str : List Char) (min max : ℤ) : Prop :=
  ∃ value c, readInteger readAnyBase str = some (value, [c]) ∧
    letterUnit c = none ∧ min ≤ value ∧ value ≤ max

/-- A number whose product with the unit is too large. -/
def Overflows (str : List Char) : Prop :=
  ∃ value c factor, readInteger readAnyBase str = some (value, [c]) ∧
    letterUnit c = some factor ∧ FitsLong value ∧ ¬FitsLong (value * factor)

/-- The units of the code. -/
theorem factor_of_letterUnit {c : Char} {size : ℤ}
    (hunit : letterUnit c = some size) : factor c = size := by
  unfold letterUnit at hunit
  split at hunit <;> cases hunit <;> rfl

theorem factor_of_not_letterUnit {c : Char} (hunit : letterUnit c = none) : factor c = 1 := by
  unfold letterUnit at hunit
  split at hunit
  case h_7 hk hK hm hM hg hG =>
    rw [factor, if_neg (not_or.mpr ⟨hg, hG⟩), if_neg (not_or.mpr ⟨hm, hM⟩),
      if_neg (not_or.mpr ⟨hk, hK⟩)]
  all_goals cases hunit

/-- A letter for a unit ends a number. -/
theorem endsNumber_of_unit {suffix : List Char} {size : ℤ}
    (hunit : unit suffix = some size) : EndsNumber suffix := by
  unfold unit at hunit
  split at hunit
  · rintro c ⟨⟩
  · unfold letterUnit at hunit
    split at hunit <;> cases hunit <;> rintro _ ⟨⟩ <;> decide
  · cases hunit

/-- A file size is what is read and a unit behind it. -/
theorem isFileSize_iff {str : List Char} {size : ℤ} : IsFileSize str size ↔ ∃ value suffix factor,
      readInteger readAnyBase str = some (value, suffix) ∧
        unit suffix = some factor ∧ size = value * factor := by
  constructor
  · rintro ⟨integer, suffix, value, factor, rfl, hinteger, hunit, hsize⟩
    exact ⟨value, suffix, factor,
      reads_anyBase.readInteger hinteger (endsNumber_of_unit hunit), hunit, hsize⟩
  · rintro ⟨value, suffix, factor, hread, hunit, hsize⟩
    obtain ⟨integer, hstr, hinteger⟩ := reads_anyBase.readInteger_sound hread
    exact ⟨integer, suffix, value, factor, hstr, hinteger, hunit, hsize⟩

section Parsing

variable {str suffix : List Char} {val min max value size : ℤ}

theorem isFileSizeIn_of_read
    (hread : readInteger readAnyBase str = some (value, suffix)) {factor : ℤ}
    (hunit : unit suffix = some factor) :
    IsFileSizeIn str min max size ↔ size = value * factor ∧ min ≤ size ∧ size ≤ max := by
  rw [IsFileSizeIn, isFileSize_iff]
  refine and_congr_left fun _ => ?_
  constructor
  · rintro ⟨_, _, _, hother, hotherUnit, hsize⟩
    rw [hread] at hother
    cases hother
    rw [hunit] at hotherUnit
    cases hotherUnit
    exact hsize
  · intro hsize
    exact ⟨value, suffix, factor, hread, hunit, hsize⟩

theorem not_isFileSizeIn_of_unit (hread : readInteger readAnyBase str = some (value, suffix))
    (hunit : unit suffix = none) : ¬IsFileSizeIn str min max size := by
  rw [IsFileSizeIn, isFileSize_iff]
  rintro ⟨⟨_, _, _, hother, hotherUnit, -⟩, -⟩
  rw [hread] at hother
  cases hother
  rw [hunit] at hotherUnit
  cases hotherUnit

theorem not_isFileSizeIn_of_none (hread : readInteger readAnyBase str = none) :
    ¬IsFileSizeIn str min max size := by
  rw [IsFileSizeIn, isFileSize_iff]
  rintro ⟨⟨_, _, _, hother, -⟩, -⟩
  rw [hread] at hother
  cases hother

/-- A failure is right where there is no file size within the bounds. -/
theorem Parsed.of_error (hnone : ∀ size, ¬IsFileSizeIn str min max size)
    (error : Errno) : Parsed str val min max (some error, val) where
  accepted_iff := by simp [hnone]
  stored := fun size hsize => absurd hsize (hnone size)
  unchanged := fun _ => rfl

/-- What is done with a number that at most one character follows. -/
theorem tstParseFilesize_short (hread : readInteger readAnyBase str = some (value, suffix))
    (hshort : suffix.tail = []) :
    tstParseFilesize (some str) val min max =
      if FitsLong value then
        (inLong (value * factor (suffix.headD nul))).map fun rval =>
          if rval > max ∨ rval < min then (some .erange, val) else (none, rval)
      else some (some .erange, val) := by
  simp only [tstParseFilesize, strtoll, hread, Option.map_some, hshort]
  by_cases hfits : FitsLong value
  · simp only [hfits, if_true, decide_true, Bool.not_true, Bool.false_eq_true,
      if_false]
    rw [if_neg (fun hmore => hmore.2 rfl)]
    cases inLong (value * factor (suffix.headD nul)) with
    | none => rfl
    | some rval =>
      change (if _ then _ else _) = some (if _ then _ else _)
      rw [apply_ite some]
      rfl
  · simp only [hfits, if_false, decide_false, Bool.not_false, if_true]
    rw [if_neg (fun hmore => hmore.2 rfl)]

theorem tstParseFilesize_long (hread : readInteger readAnyBase str = some (value, suffix))
    {first second : Char} {others : List Char}
    (hsuffix : suffix = first :: second :: others) (hfirst : first ≠ nul)
    (hsecond : second ≠ nul) :
    tstParseFilesize (some str) val min max = some (some .einval, val) := by
  subst hsuffix
  simp only [tstParseFilesize, strtoll, hread, Option.map_some]
  exact if_pos ⟨hfirst, hsecond⟩

theorem unit_eq_factor {size : ℤ} (hunit : unit suffix = some size) :
    suffix.tail = [] ∧ factor (suffix.headD nul) = size ∧ 1 ≤ size := by
  unfold unit at hunit
  split at hunit
  · cases hunit
    exact ⟨rfl, rfl, le_rfl⟩
  · refine ⟨rfl, factor_of_letterUnit hunit, ?_⟩
    unfold letterUnit at hunit
    split at hunit <;> cases hunit <;> decide
  · cases hunit

theorem fitsLong_of_mul {factor : ℤ} (hfactor : 1 ≤ factor)
    (hfits : FitsLong (value * factor)) : FitsLong value := by
  obtain ⟨hlow, hhigh⟩ := hfits
  constructor
  · by_contra hless
    have hproduct : value * factor ≤ value * 1 := mul_le_mul_of_nonpos_left hfactor (by omega)
    omega
  · by_contra hmore
    have hproduct : value * 1 ≤ value * factor := mul_le_mul_of_nonneg_left hfactor (by omega)
    omega

end Parsing

/-- The string is parsed as it should be. -/
def Parses (str : List Char) (val min max : ℤ) : Prop :=
  ∃ result, tstParseFilesize (some str) val min max = some result ∧ Parsed str val min max result

section Results

variable {str suffix : List Char} {val min max value : ℤ}

/-- A number with a unit is parsed unless the product overflows. -/
theorem parses_iff_of_unit (hmin : FitsLong min) (hmax : FitsLong max)
    (hread : readInteger readAnyBase str = some (value, suffix)) {size : ℤ}
    (hunit : unit suffix = some size) :
    Parses str val min max ↔ (FitsLong value → FitsLong (value * size)) := by
  obtain ⟨hshort, hfactor, hpos⟩ := unit_eq_factor hunit
  rw [Parses, tstParseFilesize_short hread hshort, hfactor, inLong, inType]
  by_cases hvalue : FitsLong value
  · rw [if_pos hvalue, imp_iff_right hvalue]
    by_cases hproduct : FitsLong (value * size)
    · rw [if_pos hproduct, Option.map_some]
      refine iff_of_true ⟨_, rfl, ?_⟩ hproduct
      have hsizes (other : ℤ) :=
        @isFileSizeIn_of_read str suffix min max value other hread size hunit
      split
      · rename_i houtside
        apply Parsed.of_error
        intro other hother
        rw [hsizes] at hother
        omega
      · rename_i hinside
        have hsize : IsFileSizeIn str min max (value * size) := by
          rw [hsizes]
          omega
        refine ⟨iff_of_true rfl ⟨_, hsize⟩, fun other hother => ?_, fun hnone => ?_⟩
        · exact ((hsizes other).mp hother).1.symm
        · exact absurd ⟨_, hsize⟩ hnone
    · rw [if_neg hproduct]
      exact iff_of_false (by simp) hproduct
  · rw [if_neg hvalue]
    refine iff_of_true ⟨_, rfl, Parsed.of_error (fun other hother => ?_) _⟩
      fun hfits => absurd hfits hvalue
    obtain ⟨rfl, hbounds⟩ := (isFileSizeIn_of_read hread hunit).mp hother
    exact hvalue (fitsLong_of_mul hpos (FitsLong.of_le hmin hmax hbounds))

/-- A number with another character is parsed unless it is within the bounds. -/
theorem parses_iff_of_other (hmin : FitsLong min) (hmax : FitsLong max) {c : Char}
    (hread : readInteger readAnyBase str = some (value, [c]))
    (hunit : letterUnit c = none) :
    Parses str val min max ↔ ¬(min ≤ value ∧ value ≤ max) := by
  have hnone (size : ℤ) : ¬IsFileSizeIn str min max size := not_isFileSizeIn_of_unit hread hunit
  rw [Parses, tstParseFilesize_short hread rfl, List.headD_cons,
    factor_of_not_letterUnit hunit, mul_one, inLong, inType]
  by_cases hvalue : FitsLong value
  · rw [if_pos hvalue, if_pos hvalue, Option.map_some]
    by_cases hbounds : min ≤ value ∧ value ≤ max
    · rw [if_neg (by omega)]
      refine iff_of_false ?_ (not_not.mpr hbounds)
      rintro ⟨_, ⟨⟩, hparsed⟩
      obtain ⟨size, hsize⟩ := hparsed.accepted_iff.mp rfl
      exact hnone size hsize
    · rw [if_pos (by omega)]
      exact iff_of_true ⟨_, rfl, Parsed.of_error hnone _⟩ hbounds
  · rw [if_neg hvalue]
    exact iff_of_true ⟨_, rfl, Parsed.of_error hnone _⟩
      fun hbounds => hvalue (FitsLong.of_le hmin hmax hbounds)

/-- A string is parsed as it should be if and only if it is not a number within
the bounds with a character other than a unit behind it, nor a number whose
product with its unit overflows. -/
theorem tstParseFilesize_parses_iff (hstr : nul ∉ str) (hmin : FitsLong min) (hmax : FitsLong max) :
    Parses str val min max ↔ ¬Overlooked str min max ∧ ¬Overflows str := by
  cases hread : readInteger readAnyBase str with
  | none =>
    refine iff_of_true ⟨(some .einval, val), ?_,
      Parsed.of_error (fun size => not_isFileSizeIn_of_none hread) _⟩ ?_
    · simp only [tstParseFilesize, strtoll, hread, Option.map_none]
    · simp [Overlooked, Overflows, hread]
  | some result =>
    obtain ⟨value, suffix⟩ := result
    match suffix, hread with
    | [], hread =>
      rw [parses_iff_of_unit hmin hmax hread rfl, mul_one]
      refine iff_of_true id ?_
      simp [Overlooked, Overflows, hread]
    | [c], hread =>
      cases hunit : letterUnit c with
      | some size =>
        rw [parses_iff_of_unit hmin hmax hread hunit]
        simp [Overlooked, Overflows, hread, hunit]
      | none =>
        rw [parses_iff_of_other hmin hmax hread hunit]
        simp [Overlooked, Overflows, hread, hunit]
    | first :: second :: others, hread =>
      obtain ⟨number, rfl, -⟩ := reads_anyBase.readInteger_sound hread
      rw [List.mem_append, not_or, List.mem_cons, not_or, List.mem_cons, not_or] at hstr
      refine iff_of_true ⟨_, tstParseFilesize_long hread rfl
        (Ne.symm hstr.2.1) (Ne.symm hstr.2.2.1), Parsed.of_error
          (fun size => not_isFileSizeIn_of_unit hread rfl) _⟩ ?_
      simp [Overlooked, Overflows, hread]

end Results

theorem tstParseFilesize_parses_iff_hexadecimal :
    Parses " -0x10K".toList 7 (-2 ^ 63) (2 ^ 63 - 1) ∧
      tstParseFilesize (some " -0x10K".toList) 7 (-2 ^ 63) (2 ^ 63 - 1) =
        some (none, -16384) := by
  have hread : readInteger readAnyBase " -0x10K".toList = some (-16, ['K']) := by
    decide +kernel
  refine ⟨(tstParseFilesize_parses_iff (by decide +kernel) (by decide +kernel)
    (by decide +kernel)).mpr ?_, by decide +kernel⟩
  constructor
  · rintro ⟨value, c, hother, hunit, -⟩
    rw [hread] at hother
    cases hother
    cases hunit
  · rintro ⟨value, c, size, hother, hunit, -, hlarge⟩
    rw [hread] at hother
    cases hother
    cases hunit
    exact hlarge (by decide +kernel)

/-- A number with any other letter is accepted, and a product may overflow. -/
theorem tstParseFilesize_accepts_other :
    tstParseFilesize (some "10x".toList) 0 (-2 ^ 63) (2 ^ 63 - 1) =
        some (none, 10) ∧
      (¬∃ size, IsFileSizeIn "10x".toList (-2 ^ 63) (2 ^ 63 - 1) size) ∧
      tstParseFilesize (some "8589934592g".toList) 0 (-2 ^ 63) (2 ^ 63 - 1) =
        none := by
  refine ⟨by decide +kernel, ?_, by decide +kernel⟩
  rintro ⟨size, hsize⟩
  have hread : readInteger readAnyBase "10x".toList = some (10, ['x']) := by
    decide +kernel
  exact not_isFileSizeIn_of_unit hread rfl hsize

end GrapheneLtp.FileSize
