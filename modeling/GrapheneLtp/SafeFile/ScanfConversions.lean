import Mathlib.Data.BitVec
import Mathlib.Tactic

/-!
# Counting the conversions of a format

A model of `tst_count_scanf_conversions` of `lib/safe_file_ops.c`, which walks over a
format of `scanf` with a flag for the character behind a `%`.  It is compared with the
directives of the format.  A `%` inside a scanset is taken for a conversion, and `%n`
is counted although `sscanf` does not count it.
-/

namespace GrapheneLtp.ScanfConversions

section Code

/-- The count and the flag after one character of the format. -/
def countStep (state : BitVec 32 × Bool) (c : Char) : BitVec 32 × Bool :=
  let (cnt, flag) := state
  if c = '%' then if flag then (cnt - 1, false) else (cnt + 1, true)
  else if c = '*' then if flag then (cnt - 1, false) else (cnt, flag)
  else (cnt, false)

/-- The function, on the characters before the NUL.  The `unsigned int` is returned as
an `int`. -/
def tstCountScanfConversions (fmt : List Char) : ℤ := (fmt.foldl countStep (0, false)).1.toInt

end Code

section Format

/-- The length modifiers. -/
inductive Modifier where
  | absent
  | hh
  | h
  | l
  | ll
  | q
  | j
  | z
  | t
  | L
deriving DecidableEq, Repr

def Modifier.text : Modifier → List Char
  | absent => []
  | hh => ['h', 'h']
  | h => ['h']
  | l => ['l']
  | ll => ['l', 'l']
  | q => ['q']
  | j => ['j']
  | z => ['z']
  | t => ['t']
  | L => ['L']

/-- A scanset between its brackets.  A closing bracket belongs to it only as its first
character. -/
structure Scanset where
  negated : Bool
  first : Char
  rest : List Char
  first_ne : negated = false → first ≠ '^'
  rest_open : ']' ∉ rest

/-- The characters behind the opening bracket and the `^`. -/
def Scanset.chars (set : Scanset) : List Char := set.first :: set.rest

/-- The conversions that are one character. -/
def specifiers : List Char :=
  ['d', 'i', 'o', 'u', 'x', 'X', 'a', 'A', 'e', 'E', 'f', 'F', 'g', 'G', 's', 'c', 'S', 'C', 'p',
    'n']

inductive Specifier where
  | plain (c : Char) (hc : c ∈ specifiers)
  | scanset (set : Scanset)

def Specifier.text : Specifier → List Char
  | plain c _ => [c]
  | scanset set => '[' :: (if set.negated then ['^'] else []) ++ set.chars ++ [']']

structure Conversion where
  suppressed : Bool
  width : List Char
  modifier : Modifier
  specifier : Specifier
  width_digits : ∀ c ∈ width, c.isDigit = true

def Conversion.text (conversion : Conversion) : List Char :=
  '%' :: (if conversion.suppressed then ['*'] else []) ++ conversion.width ++
    conversion.modifier.text ++ conversion.specifier.text

/-- A directive of a format: a character that stands for itself or for white space, a
`%%`, or a conversion. -/
inductive Directive where
  | ordinary (c : Char) (hc : c ≠ '%')
  | percent
  | conversion (item : Conversion)

def Directive.text : Directive → List Char
  | ordinary c _ => [c]
  | percent => ['%', '%']
  | .conversion item => item.text

/-- The format of some directives. -/
def render (format : List Directive) : List Char := format.flatMap Directive.text

/-- A conversion whose result is stored and counted. -/
def Conversion.counted (conversion : Conversion) : Bool :=
  !conversion.suppressed && match conversion.specifier with
    | .plain c _ => c != 'n'
    | .scanset _ => true

def Directive.assigned : Directive → ℕ
  | .conversion item => if item.counted then 1 else 0
  | _ => 0

/-- What `sscanf` returns for the format when everything matches. -/
def assigned (format : List Directive) : ℕ := (format.map Directive.assigned).sum

/-- The `%` of a scanset that no `%` or `*` follows at once. -/
def lonePercents : List Char → ℕ
  | [] => 0
  | '%' :: '%' :: later => lonePercents later
  | '%' :: '*' :: later => lonePercents later
  | '%' :: rest => lonePercents rest + 1
  | _ :: rest => lonePercents rest

/-- The conversions that the function counts but `sscanf` does not: an `%n` that is not
suppressed, and the lone `%` of a scanset. -/
def Conversion.excess (conversion : Conversion) : ℕ :=
  match conversion.specifier with
  | .plain c _ => if c = 'n' ∧ conversion.suppressed = false then 1 else 0
  | .scanset set => lonePercents set.chars

def Directive.excess : Directive → ℕ
  | .conversion item => item.excess
  | _ => 0

def excess (format : List Directive) : ℕ := (format.map Directive.excess).sum

end Format

section Steps

variable (cnt : BitVec 32) (flag : Bool)

/-- A character that only clears the flag. -/
theorem countStep_other {c : Char} (hpercent : c ≠ '%') (hstar : c ≠ '*') :
    countStep (cnt, flag) c = (cnt, false) := by
  simp [countStep, hpercent, hstar]

theorem foldl_other {text : List Char} (hne : text ≠ [])
    (hother : ∀ c ∈ text, c ≠ '%' ∧ c ≠ '*') :
    text.foldl countStep (cnt, flag) = (cnt, false) := by
  induction text generalizing flag with
  | nil => exact absurd rfl hne
  | cons c text ih =>
    obtain ⟨hpercent, hstar⟩ := hother c List.mem_cons_self
    rw [List.foldl_cons, countStep_other cnt flag hpercent hstar]
    rcases text with _ | ⟨next, text⟩
    · rfl
    · exact ih false (List.cons_ne_nil _ _) fun d hd => hother d (List.mem_cons_of_mem _ hd)

/-- A scanset is read like a format of its own: each lone `%` is counted. -/
theorem foldl_chars (chars : List Char) : ∃ after,
    chars.foldl countStep (cnt, false) = (cnt + BitVec.ofNat 32 (lonePercents chars), after) := by
  fun_induction lonePercents chars generalizing cnt with
  | case1 => exact ⟨false, by simp⟩
  | case2 later ih =>
    obtain ⟨after, hfold⟩ := ih cnt
    exact ⟨after, by simpa [countStep] using hfold⟩
  | case3 later ih =>
    obtain ⟨after, hfold⟩ := ih cnt
    exact ⟨after, by simpa [countStep] using hfold⟩
  | case4 rest hpercent hstar ih =>
    obtain ⟨after, hfold⟩ := ih (cnt + 1)
    have hcount : cnt + BitVec.ofNat 32 (lonePercents rest + 1) =
        cnt + 1 + BitVec.ofNat 32 (lonePercents rest) := by
      rw [BitVec.ofNat_add, BitVec.add_comm (BitVec.ofNat 32 (lonePercents rest)),
        BitVec.add_assoc]
      rfl
    rw [hcount]
    rcases rest with _ | ⟨c, rest⟩
    · exact ⟨true, by simp [countStep, lonePercents]⟩
    · have hc : c ≠ '%' := fun h => hpercent rest (by rw [h])
      have hc' : c ≠ '*' := fun h => hstar rest (by rw [h])
      refine ⟨after, ?_⟩
      rw [List.foldl_cons, countStep_other _ _ hc hc'] at hfold
      rw [← hfold, List.foldl_cons, List.foldl_cons]
      have hfirst : countStep (cnt, false) '%' = (cnt + 1, true) := rfl
      rw [hfirst, countStep_other _ _ hc hc']
  | case5 c rest _ _ hc ih =>
    by_cases hstar : c = '*'
    · obtain ⟨after, hfold⟩ := ih cnt
      exact ⟨after, by simpa [countStep, hstar] using hfold⟩
    · obtain ⟨after, hfold⟩ := ih cnt
      exact ⟨after, by rwa [List.foldl_cons, countStep_other _ _ hc hstar]⟩

theorem foldl_scanset (set : Scanset) :
    (Specifier.scanset set).text.foldl countStep (cnt, flag) =
      (cnt + BitVec.ofNat 32 (lonePercents set.chars), false) := by
  have hopen : ('[' :: (if set.negated then ['^'] else [])).foldl countStep (cnt, flag) =
      (cnt, false) := by
    refine foldl_other cnt flag (List.cons_ne_nil _ _) ?_
    cases set.negated <;> decide
  obtain ⟨after, hchars⟩ := foldl_chars cnt set.chars
  rw [Specifier.text, List.foldl_append, List.foldl_append, hopen, hchars]
  rfl

theorem modifier_other (modifier : Modifier) : ∀ c ∈ modifier.text, c ≠ '%' ∧ c ≠ '*' := by
  cases modifier <;> decide

theorem specifiers_other : ∀ c ∈ specifiers, c ≠ '%' ∧ c ≠ '*' := by decide

theorem digit_other {c : Char} (hc : c.isDigit = true) : c ≠ '%' ∧ c ≠ '*' := by
  constructor
  · rintro rfl
    exact absurd hc (by decide)
  · rintro rfl
    exact absurd hc (by decide)

/-- The characters between the `%` and the specifier leave the count as it is. -/
theorem foldl_options (conversion : Conversion) (flag : Bool) : ∃ after,
    (conversion.width ++ conversion.modifier.text).foldl countStep (cnt, flag) = (cnt, after) := by
  by_cases hempty : conversion.width ++ conversion.modifier.text = []
  · exact ⟨flag, by rw [hempty]; rfl⟩
  · refine ⟨false, foldl_other cnt flag hempty fun c hc => ?_⟩
    rcases List.mem_append.mp hc with hwidth | hmodifier
    · exact digit_other (conversion.width_digits c hwidth)
    · exact modifier_other _ c hmodifier

/-- The specifier counts for nothing, but for the `%` of a scanset. -/
theorem foldl_specifier (specifier : Specifier) :
    specifier.text.foldl countStep (cnt, flag) = (cnt + BitVec.ofNat 32 (match specifier with
      | .plain _ _ => 0
      | .scanset set => lonePercents set.chars), false) := by
  cases specifier with
  | plain c hc =>
    obtain ⟨hpercent, hstar⟩ := specifiers_other c hc
    rw [Specifier.text, List.foldl_cons, countStep_other cnt flag hpercent hstar]
    simp
  | scanset set => exact foldl_scanset cnt flag set

end Steps

section Main

/-- A conversion is counted unless it is suppressed, and so are the lone `%` in it. -/
theorem foldl_conversion (cnt : BitVec 32) (conversion : Conversion) :
    conversion.text.foldl countStep (cnt, false) = (cnt + BitVec.ofNat 32
      ((if conversion.counted then 1 else 0) + conversion.excess), false) := by
  have hstart : ∃ after, ('%' :: (if conversion.suppressed then ['*'] else [])).foldl countStep
      (cnt, false) = (cnt + BitVec.ofNat 32 (if conversion.suppressed then 0 else 1), after) := by
    cases conversion.suppressed with
    | false => exact ⟨true, rfl⟩
    | true => exact ⟨false, by simp [countStep]⟩
  obtain ⟨started, hstart⟩ := hstart
  obtain ⟨after, hoptions⟩ := foldl_options
    (cnt + BitVec.ofNat 32 (if conversion.suppressed then 0 else 1)) conversion started
  rw [Conversion.text, List.append_assoc ('%' :: _), List.foldl_append, List.foldl_append, hstart,
    hoptions, foldl_specifier, BitVec.add_assoc, ← BitVec.ofNat_add]
  congr 3
  rw [Conversion.counted, Conversion.excess]
  cases conversion.specifier with
  | plain c hc => cases conversion.suppressed <;> by_cases hn : c = 'n' <;> simp [hn]
  | scanset set => cases conversion.suppressed <;> simp

theorem foldl_directive (cnt : BitVec 32) (directive : Directive) :
    directive.text.foldl countStep (cnt, false) =
      (cnt + BitVec.ofNat 32 (directive.assigned + directive.excess), false) := by
  cases directive with
  | ordinary c hc =>
    by_cases hstar : c = '*'
    · simp [Directive.text, Directive.assigned, Directive.excess, countStep, hstar]
    · rw [Directive.text, List.foldl_cons, countStep_other cnt false hc hstar]
      simp [Directive.assigned, Directive.excess]
  | percent =>
    simp [Directive.text, Directive.assigned, Directive.excess, countStep]
  | conversion conversion => exact foldl_conversion cnt conversion

/-- The count after a whole format, by induction on its directives. -/
theorem foldl_render (format : List Directive) (cnt : BitVec 32) :
    (render format).foldl countStep (cnt, false) =
      (cnt + BitVec.ofNat 32 (assigned format + excess format), false) := by
  induction format generalizing cnt with
  | nil => simp [render, assigned, excess]
  | cons directive format ih =>
    have hsum : assigned (directive :: format) + excess (directive :: format) =
        directive.assigned + directive.excess + (assigned format + excess format) := by
      simp only [assigned, excess, List.map_cons, List.sum_cons]
      omega
    have hfold : (render (directive :: format)).foldl countStep (cnt, false) =
        (render format).foldl countStep (directive.text.foldl countStep (cnt, false)) := by
      rw [render, List.flatMap_cons, List.foldl_append]
      rfl
    rw [hfold, foldl_directive, ih, hsum, BitVec.add_assoc, ← BitVec.ofNat_add]

theorem tstCountScanfConversions_render (format : List Directive) :
    tstCountScanfConversions (render format) =
      (BitVec.ofNat 32 (assigned format + excess format)).toInt := by
  rw [tstCountScanfConversions, foldl_render]
  simp

/-- The count is right when it fits an `int` and there is nothing in excess, or so much
that the count comes around. -/
theorem tstCountScanfConversions_eq_iff (format : List Directive) :
    tstCountScanfConversions (render format) = assigned format ↔
      assigned format < 2 ^ 31 ∧ 2 ^ 32 ∣ excess format := by
  rw [tstCountScanfConversions_render, BitVec.toInt_ofNat']
  constructor
  · intro heq
    have hlow := Int.bmod_lt (x := (assigned format + excess format : ℕ)) (m := 2 ^ 32) (by decide)
    rw [heq] at hlow
    refine ⟨by omega, ?_⟩
    have hmod := Int.bmod_emod (x := (assigned format + excess format : ℕ)) (m := 2 ^ 32)
    rw [heq] at hmod
    push_cast at hmod
    omega
  · rintro ⟨hfits, hdvd⟩
    rw [Int.bmod_def]
    push_cast
    split_ifs <;> omega

/-- The set of one percent sign. -/
def percentSet : Scanset := ⟨false, '%', [], fun _ => by decide, by decide⟩

/-- The format `%[%]` has one conversion, and two are counted. -/
theorem tstCountScanfConversions_percentSet :
    render [.conversion ⟨false, [], .absent, .scanset percentSet, by simp⟩] = ['%', '[', '%', ']'] ∧
      assigned [.conversion ⟨false, [], .absent, .scanset percentSet, by simp⟩] = 1 ∧
      tstCountScanfConversions ['%', '[', '%', ']'] = 2 :=
  ⟨rfl, rfl, by decide⟩

end Main

end GrapheneLtp.ScanfConversions
