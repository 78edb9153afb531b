import GrapheneLtp.Core.Strtol

/-!
# Comparing kernel versions

`tst_kvcmp` packs the three numbers of a version into one int and compares the
ints; `tst_kvexcmp` compares up to five numbers one after the other.  The packing
leaves eight bits to each of the last two numbers: a larger one is carried over
into the number in front of it.
-/

namespace GrapheneLtp.Kvercmp

open CheckedInt CString Decimal Strtol

def intMax : ℕ := 2 ^ 31 - 1

/-- `parse_digit`: the number and the text behind it. -/
def parseDigit (str : List Char) : Option (ℕ × List Char) :=
  match strtoul str with
  | none => none
  | some (v, rest) => if v > intMax then none else some (v, rest)

/-- The three numbers of a kernel version. -/
structure Version where
  v1 : ℕ
  v2 : ℕ
  v3 : ℕ
  deriving DecidableEq, Repr

/-- `tst_parse_kver`: the value returned, 0 for a version that is accepted, and
the numbers that are stored. -/
def tstParseKver (str : List Char) : ℤ × Version :=
  match parseDigit str with
  | none => (1, ⟨0, 0, 0⟩)
  | some (v1, str) =>
    if str.headD nul ≠ '.' then (1, ⟨v1, 0, 0⟩)
    else match parseDigit str.tail with
      | none => (1, ⟨v1, 0, 0⟩)
      | some (v2, str) =>
        if str.headD nul = ' ' ∨ str.headD nul = nul ∨ str.headD nul = '-' then
          (0, ⟨v1, v2, 0⟩)
        else if str.headD nul ≠ '.' then (1, ⟨v1, v2, 0⟩)
        else match parseDigit str.tail with
          | none => (1, ⟨v1, v2, 0⟩)
          | some (v3, _) => (0, ⟨v1, v2, v3⟩)

/-- A shift of an int; an overflow is undefined. -/
def shiftLeft (value : ℤ) (count : ℕ) : Option ℤ :=
  if value < 0 then none else inInt (value * 2 ^ count)

/-- `(v1 << 16) + (v2 << 8) + v3` -/
def packed (v1 v2 v3 : ℤ) : Option ℤ := do
  let high ← shiftLeft v1 16
  let middle ← shiftLeft v2 8
  let both ← inInt (high + middle)
  inInt (both + v3)

/-- `tst_kvcmp`: the warning, if the version is not accepted, and the value
returned. -/
def tstKvcmp (curKver : List Char) (r1 r2 r3 : ℤ) : Option (List Char) × Option ℤ :=
  let parsed := tstParseKver curKver
  (if parsed.1 ≠ 0 then
      some ("Invalid kernel version ".toList ++ curKver ++
        ", expected %d.%d.%d".toList)
    else none,
    do
      let testver ← packed r1 r2 r3
      let currver ← packed parsed.2.v1 parsed.2.v2 parsed.2.v3
      inInt (currver - testver))

/-- The conversion `%d` of `sscanf`. -/
def scanInt (text : List Char) : Option (ℤ × List Char) :=
  (strtoll (readNatural 10) text).map fun (value, _, rest) =>
    ((BitVec.ofInt 32 value).toInt, rest)

/-- The numbers that `sscanf` stores, with the given characters between the
conversions. -/
def scanInts : List Char → List Char → List ℤ
  | [], text => ((scanInt text).map Prod.fst).toList
  | separator :: separators, text =>
    match scanInt text with
    | none => []
    | some (value, rest) =>
      value :: if rest.head? = some separator then
        scanInts separators rest.tail
      else []

/-- `sscanf` with `%d.%d.%d-%d.%d` into five numbers that are 0 before. -/
def scanVersion (text : List Char) : List ℤ :=
  let stored := scanInts ['.', '.', '-', '.'] text
  stored ++ List.replicate (5 - stored.length) 0

/-- The first difference that is not 0. -/
def firstDifference : List (ℤ × ℤ) → Option ℤ
  | [] => some 0
  | (c, t) :: rest => do
      let ret ← inInt (c - t)
      if ret ≠ 0 then return ret else firstDifference rest

def tstKvexcmp (tstExv curVer : List Char) : Option ℤ :=
  firstDifference ((scanVersion curVer).zip (scanVersion tstExv))

/-! ## Comparing as versions -/

namespace Version

/-- The lexicographic order. -/
def lex (left right : Version) : Ordering := (compare left.v1 right.v1).then
    ((compare left.v2 right.v2).then (compare left.v3 right.v3))

/-- The numbers are ints. -/
def IsInt (version : Version) : Prop :=
  version.v1 ≤ intMax ∧ version.v2 ≤ intMax ∧ version.v3 ≤ intMax

def text (version : Version) : List Char :=
  decimal version.v1 ++ '.' :: (decimal version.v2 ++ '.' :: decimal version.v3)

/-- The numbers in one. -/
def sum (version : Version) : ℕ := 65536 * version.v1 + 256 * version.v2 + version.v3

/-- The numbers fit into an int together. -/
def Fits (version : Version) : Prop := version.sum < 2 ^ 31

/-- The left version is the smaller one, but what its later numbers have in
excess makes up for that. -/
def Outweighs (left right : Version) : Prop :=
  left.v1 < right.v1 ∧ 65536 * (right.v1 - left.v1) + 256 * right.v2 + right.v3 ≤
        256 * left.v2 + left.v3 ∨
    left.v1 = right.v1 ∧ left.v2 < right.v2 ∧ 256 * (right.v2 - left.v2) + right.v3 ≤ left.v3

/-- Both versions can be packed, and their order is not lost thereby. -/
structure Comparable (left right : Version) : Prop where
  left_fits : left.Fits
  right_fits : right.Fits
  smaller : ¬left.Outweighs right
  larger : ¬right.Outweighs left

/-- Versions whose later numbers have eight bits are comparable. -/
theorem comparable_of_lt {left right : Version}
    (hleft : left.v1 < 2 ^ 15 ∧ left.v2 < 256 ∧ left.v3 < 256)
    (hright : right.v1 < 2 ^ 15 ∧ right.v2 < 256 ∧ right.v3 < 256) :
    left.Comparable right := by
  constructor <;> simp only [Fits, sum, Outweighs] <;> omega

section Order

variable {left right : Version}

theorem lex_eq_lt : left.lex right = .lt ↔ left.v1 < right.v1 ∨
    left.v1 = right.v1 ∧ (left.v2 < right.v2 ∨
      left.v2 = right.v2 ∧ left.v3 < right.v3) := by
  simp only [lex, Ordering.then_eq_lt, compare_lt_iff_lt, compare_eq_iff_eq]

theorem lex_eq_gt : left.lex right = .gt ↔ right.v1 < left.v1 ∨
    left.v1 = right.v1 ∧ (right.v2 < left.v2 ∨
      left.v2 = right.v2 ∧ right.v3 < left.v3) := by
  simp only [lex, Ordering.then_eq_gt, compare_gt_iff_gt, compare_eq_iff_eq]

theorem lex_eq_eq : left.lex right = .eq ↔
    left.v1 = right.v1 ∧ left.v2 = right.v2 ∧ left.v3 = right.v3 := by
  simp only [lex, Ordering.then_eq_eq, compare_eq_iff_eq]

theorem compare_sum : compare ((left.sum : ℤ) - right.sum) 0 = left.lex right ↔
      ¬left.Outweighs right ∧ ¬right.Outweighs left := by
  cases hlex : left.lex right with
  | lt =>
    rw [lex_eq_lt] at hlex
    rw [compare_lt_iff_lt, sum, sum]
    simp only [Outweighs]
    omega
  | eq =>
    rw [lex_eq_eq] at hlex
    rw [compare_eq_iff_eq, sum, sum]
    simp only [Outweighs]
    omega
  | gt =>
    rw [lex_eq_gt] at hlex
    rw [compare_gt_iff_gt, sum, sum]
    simp only [Outweighs]
    omega

end Order

end Version

/-! ## The packed comparison -/

theorem shiftLeft_natCast (value count : ℕ) :
    shiftLeft value count = inInt (2 ^ count * value) := by
  rw [shiftLeft, if_neg (by omega), mul_comm]

theorem packed_eq_some_iff (version : Version) (result : ℤ) :
    packed version.v1 version.v2 version.v3 = some result ↔
      version.Fits ∧ (version.sum : ℤ) = result := by
  simp only [packed, shiftLeft_natCast, Option.bind_eq_bind,
    Option.bind_eq_some_iff, inInt_eq_some_iff, FitsInt, Version.Fits,
    Version.sum]
  constructor
  · rintro ⟨high, ⟨-, rfl⟩, middle, ⟨-, rfl⟩, both, ⟨-, rfl⟩, hrange, rfl⟩
    push_cast
    omega
  · rintro ⟨hfits, rfl⟩
    refine ⟨_, ⟨?_, rfl⟩, _, ⟨?_, rfl⟩, _, ⟨?_, rfl⟩, ?_, ?_⟩ <;> push_cast <;>
      omega

theorem tstKvcmp_eq_some_iff (release : List Char) (required : Version) (result : ℤ) :
    (tstKvcmp release required.v1 required.v2 required.v3).2 = some result ↔
      (tstParseKver release).2.Fits ∧ required.Fits ∧
        ((tstParseKver release).2.sum : ℤ) - required.sum = result := by
  simp only [tstKvcmp, Option.bind_eq_bind, Option.bind_eq_some_iff,
    packed_eq_some_iff, inInt_eq_some_iff, FitsInt]
  constructor
  · rintro ⟨_, ⟨hrequired, rfl⟩, _, ⟨hrelease, rfl⟩, -, hresult⟩
    exact ⟨hrelease, hrequired, hresult⟩
  · rintro ⟨hrelease, hrequired, hresult⟩
    refine ⟨_, ⟨hrequired, rfl⟩, _, ⟨hrelease, rfl⟩, ?_, hresult⟩
    rw [Version.Fits] at hrelease hrequired
    omega

/-- The sign of the value returned. -/
def sign (value : Option ℤ) : Option Ordering := value.map fun value => compare value 0

/-- The sign of the packed comparison is right for comparable versions only. -/
theorem sign_tstKvcmp_iff (release : List Char) (required : Version) :
    sign (tstKvcmp release required.v1 required.v2 required.v3).2 =
        some ((tstParseKver release).2.lex required) ↔
      (tstParseKver release).2.Comparable required := by
  simp only [sign, Option.map_eq_some_iff, tstKvcmp_eq_some_iff]
  constructor
  · rintro ⟨_, ⟨hrelease, hrequired, rfl⟩, hsign⟩
    obtain ⟨hsmaller, hlarger⟩ := Version.compare_sum.mp hsign
    exact ⟨hrelease, hrequired, hsmaller, hlarger⟩
  · rintro ⟨hrelease, hrequired, hsmaller, hlarger⟩
    exact ⟨_, ⟨hrelease, hrequired, rfl⟩, Version.compare_sum.mpr ⟨hsmaller, hlarger⟩⟩

/-! ## The comparison of numbers -/

section Numbers

variable {digits rest : List Char} {value : ℕ}

/-- Nothing that is a digit stands in front. -/
def EndsDecimal (rest : List Char) : Prop := ∀ c ∈ rest.head?, isDigitOf 10 c = false

theorem endsDecimal_cons {c : Char} (hc : isDigitOf 10 c = false)
    (rest : List Char) : EndsDecimal (c :: rest) := by
  rintro _ ⟨⟩
  exact hc

theorem endsDecimal_nil : EndsDecimal [] := by
  rintro c ⟨⟩

theorem readInteger_digits (hdigits : Natural 10 digits value) (hrest : EndsDecimal rest) :
    readInteger (readNatural 10) (digits ++ rest) = some ((value : ℤ), rest) :=
  (reads_natural 10).readInteger
    (Signed.plain (fun _ hc => absurd hc List.not_mem_nil) hdigits) hrest

theorem parseDigit_digits (hdigits : Natural 10 digits value) (hrest : EndsDecimal rest) :
    parseDigit (digits ++ rest) =
      if value ≤ intMax then some (value, rest) else none := by
  rw [parseDigit, strtoul, readInteger_digits hdigits hrest]
  simp only [Option.map_some, Int.natAbs_natCast, gt_iff_lt, ← Nat.not_lt]
  by_cases hlarge : value < 2 ^ 64
  · have hmod : ((value : ℤ) % 2 ^ 64).toNat = value := by omega
    rw [if_pos hlarge, hmod, ite_not]
  · rw [if_neg hlarge, if_pos (by decide),
      if_neg (not_not.mpr (by rw [intMax]; omega))]

theorem scanInt_digits (hdigits : Natural 10 digits value)
    (hvalue : value ≤ intMax) (hrest : EndsDecimal rest) :
    scanInt (digits ++ rest) = some ((value : ℤ), rest) := by
  rw [intMax] at hvalue
  have hlong : FitsLong value := by
    rw [FitsLong]
    omega
  have hint : (BitVec.ofInt 32 (value : ℤ)).toInt = value := by
    rw [BitVec.toInt_ofInt, Int.bmod_eq_of_le] <;> omega
  rw [scanInt, strtoll, readInteger_digits hdigits hrest]
  simp only [Option.map_some, if_pos hlong, hint]

end Numbers

/-- Three numbers with dots between them. -/
def Dotted (text : List Char) (version : Version) : Prop := ∃ digits1 digits2 digits3,
    text = digits1 ++ '.' :: (digits2 ++ '.' :: digits3) ∧
      Natural 10 digits1 version.v1 ∧ Natural 10 digits2 version.v2 ∧ Natural 10 digits3 version.v3

theorem dotted_text (version : Version) : Dotted version.text version :=
  ⟨_, _, _, rfl, natural_decimal _, natural_decimal _, natural_decimal _⟩

section Dots

variable {text : List Char} {version : Version}

theorem Dotted.tstParseKver (hdotted : Dotted text version)
    (haccepted : (tstParseKver text).1 = 0) :
    (Kvercmp.tstParseKver text).2 = version ∧ version.IsInt := by
  obtain ⟨digits1, digits2, digits3, rfl, hfirst, hsecond, hthird⟩ := hdotted
  have hdot (rest : List Char) : EndsDecimal ('.' :: rest) := endsDecimal_cons rfl rest
  have hlast := parseDigit_digits hthird endsDecimal_nil
  rw [List.append_nil] at hlast
  rw [Kvercmp.tstParseKver, parseDigit_digits hfirst (hdot _)] at haccepted ⊢
  by_cases hv1 : version.v1 ≤ intMax
  · simp only [if_pos hv1, List.headD_cons, List.tail_cons, ne_eq,
      not_true_eq_false, if_false, parseDigit_digits hsecond (hdot _)] at haccepted ⊢
    by_cases hv2 : version.v2 ≤ intMax
    · simp only [if_pos hv2, List.headD_cons, List.tail_cons, hlast] at haccepted ⊢
      by_cases hv3 : version.v3 ≤ intMax
      · simp only [if_pos hv3]
        exact ⟨rfl, hv1, hv2, hv3⟩
      · simp [if_neg hv3, nul] at haccepted
    · simp [if_neg hv2] at haccepted
  · simp [if_neg hv1] at haccepted

theorem Dotted.scanVersion (hdotted : Dotted text version) (hint : version.IsInt) :
    Kvercmp.scanVersion text = [(version.v1 : ℤ), version.v2, version.v3, 0, 0] := by
  obtain ⟨digits1, digits2, digits3, rfl, hfirst, hsecond, hthird⟩ := hdotted
  have hdot (rest : List Char) : EndsDecimal ('.' :: rest) := endsDecimal_cons rfl rest
  have hlast := scanInt_digits hthird hint.2.2 endsDecimal_nil
  rw [List.append_nil] at hlast
  simp [Kvercmp.scanVersion, scanInts, scanInt_digits hfirst hint.1 (hdot _),
    scanInt_digits hsecond hint.2.1 (hdot _), hlast]

theorem sign_firstDifference_cons {c t : ℕ} (hc : c ≤ intMax) (ht : t ≤ intMax)
    {rest : List (ℤ × ℤ)} {order : Ordering}
    (hrest : sign (firstDifference rest) = some order) :
    sign (firstDifference (((c : ℤ), (t : ℤ)) :: rest)) = some ((compare c t).then order) := by
  rw [intMax] at hc ht
  have hrange : inInt ((c : ℤ) - t) = some ((c : ℤ) - t) := by
    rw [inInt, inType_of_fits]
    rw [FitsInt]
    omega
  rw [firstDifference, hrange]
  simp only [Option.bind_eq_bind, Option.bind_some]
  rcases Nat.lt_trichotomy c t with hless | hequal | hgreater
  · have hsign : compare ((c : ℤ) - t) 0 = .lt := by
      rw [compare_lt_iff_lt]
      omega
    rw [if_pos (by omega), compare_lt_iff_lt.mpr hless, ← hsign]
    simp [sign, hsign]
  · rw [if_neg (by omega), hrest, compare_eq_iff_eq.mpr hequal]
    rfl
  · have hsign : compare ((c : ℤ) - t) 0 = .gt := by
      rw [compare_gt_iff_gt]
      omega
    rw [if_pos (by omega), compare_gt_iff_gt.mpr hgreater]
    simp [sign, hsign]

/-- The comparison of numbers is always right. -/
theorem Dotted.sign_tstKvexcmp {required : Version}
    (hdotted : Dotted text version) (hint : version.IsInt)
    (hrequired : required.IsInt) :
    sign (tstKvexcmp required.text text) = some (version.lex required) := by
  obtain ⟨h1, h2, h3⟩ := hint
  obtain ⟨hr1, hr2, hr3⟩ := id hrequired
  have hzeros : sign (firstDifference [(0, 0), (0, 0)]) = some .eq := rfl
  rw [tstKvexcmp, hdotted.scanVersion ⟨h1, h2, h3⟩, (dotted_text required).scanVersion hrequired]
  have hthird := sign_firstDifference_cons h3 hr3 hzeros
  rw [Ordering.then_eq] at hthird
  exact sign_firstDifference_cons h1 hr1 (sign_firstDifference_cons h2 hr2 hthird)

end Dots

/-! ## Both comparisons -/

/-- The sign of the packed comparison is that of the lexicographic one, and for
three numbers with dots it is that of the comparison of numbers. -/
structure Compares (release : List Char) (required : Version) : Prop where
  lexicographic :
    sign (tstKvcmp release required.v1 required.v2 required.v3).2 =
      some ((tstParseKver release).2.lex required)
  numbers : ∀ version, Dotted release version →
    sign (tstKvcmp release required.v1 required.v2 required.v3).2 =
      sign (tstKvexcmp required.text release)

/-- A release that is accepted is compared correctly with a required version if
and only if the two are comparable. -/
theorem tstKvcmp_compares_iff {release : List Char} {required : Version}
    (haccepted : (tstParseKver release).1 = 0) (hrequired : required.IsInt) :
    Compares release required ↔ (tstParseKver release).2.Comparable required := by
  rw [← sign_tstKvcmp_iff]
  constructor
  · exact Compares.lexicographic
  · intro hlexicographic
    refine ⟨hlexicographic, fun version hdotted => ?_⟩
    obtain ⟨hversion, hint⟩ := hdotted.tstParseKver haccepted
    rw [hlexicographic, hdotted.sign_tstKvexcmp hint hrequired, hversion]

theorem tstKvcmp_compares_iff_small :
    (tstParseKver "4.8.1".toList).1 = 0 ∧
      Compares "4.8.1".toList ⟨4, 19, 255⟩ :=
  ⟨by decide +kernel, (tstKvcmp_compares_iff (by decide +kernel)
      ⟨by decide, by decide, by decide⟩).mpr
      (Version.comparable_of_lt (by decide +kernel) (by decide +kernel))⟩

/-- Release 4.9.256 is taken for 4.10.0. -/
theorem tstKvcmp_sublevel :
    (tstKvcmp "4.9.256".toList 4 10 0).2 = some 0 ∧
      (tstParseKver "4.9.256".toList).2.lex ⟨4, 10, 0⟩ = .lt ∧
      tstKvexcmp "4.10.0".toList "4.9.256".toList = some (-1) := by
  decide +kernel

end GrapheneLtp.Kvercmp
