import Mathlib.Tactic
import GrapheneLtp.Core.Decimal
import GrapheneLtp.Core.PyText

/-!
# Matches of regular expressions

Rules for the matcher of `PyText`: how far a run of a character class goes, how
a text is cut into matches, and that a printed number is read back.
-/

namespace GrapheneLtp.PyText

open GrapheneLtp.Decimal

section Runs

variable {p : Char → Bool} {rest : List Char → Option (List Char)}
  {items : List Item} {result : List Char}

/-- A run is as long as possible. -/
theorem greedy_append {front tail : List Char}
    (hfront : ∀ c ∈ front, p c = true) (htail : greedy p rest tail = some result) :
    greedy p rest (front ++ tail) = some result := by
  induction front with
  | nil => exact htail
  | cons c front ih =>
    have hmore : greedy p rest (front ++ tail) = some result :=
      ih fun other hother => hfront other (List.mem_cons_of_mem c hother)
    rw [List.cons_append, greedy, if_pos (hfront c List.mem_cons_self), hmore, Option.some_or]

theorem greedy_stop {stop : Char} {tail : List Char} (hstop : p stop = false) :
    greedy p rest (stop :: tail) = rest (stop :: tail) := by
  rw [greedy, if_neg (by simp [hstop])]

/-- There is no run when nothing can follow it at any place. -/
theorem greedy_none {front tail : List Char} {stop : Char}
    (hstop : p stop = false) (hrest : rest (stop :: tail) = none)
    (hfront : ∀ c ∈ front, ∀ more, rest (c :: more) = none) :
    greedy p rest (front ++ stop :: tail) = none := by
  induction front with
  | nil => rw [List.nil_append, greedy_stop hstop, hrest]
  | cons c front ih =>
    have hmore := ih fun other hother =>
      hfront other (List.mem_cons_of_mem c hother)
    rw [List.cons_append, greedy, hmore, hfront c List.mem_cons_self (front ++ stop :: tail)]
    split <;> rfl

theorem matchAt_literal (text tail : List Char) :
    matchAt (literal text ++ items) (text ++ tail) = matchAt items tail := by
  induction text with
  | nil => rfl
  | cons c text ih =>
    simpa only [literal, List.map_cons, List.cons_append, matchAt,
      beq_self_eq_true, if_true] using ih

theorem prefix_of_matchAt_literal {text tail : List Char}
    (hmatch : matchAt (literal text ++ items) tail ≠ none) : text <+: tail := by
  induction text generalizing tail with
  | nil => exact List.nil_prefix
  | cons c text ih =>
    cases tail with
    | nil => exact absurd rfl hmatch
    | cons other tail =>
      simp only [literal, List.map_cons, List.cons_append, matchAt] at hmatch
      split at hmatch
      · rename_i hsame
        rw [beq_iff_eq.mp hsame, List.cons_prefix_cons]
        exact ⟨rfl, ih hmatch⟩
      · exact absurd rfl hmatch

/-- A run of at least one character ends at the first other one. -/
theorem matchAt_plus {digits tail : List Char} {stop : Char}
    (hdigits : ∀ c ∈ digits, p c = true) (hne : digits ≠ [])
    (hstop : p stop = false)
    (htail : matchAt items (stop :: tail) = some result) :
    matchAt (.plus p :: items) (digits ++ stop :: tail) = some result := by
  obtain ⟨digit, digits, rfl⟩ := List.exists_cons_of_ne_nil hne
  rw [List.cons_append, matchAt, if_pos (hdigits digit List.mem_cons_self)]
  apply greedy_append
  · exact fun c hc => hdigits c (List.mem_cons_of_mem digit hc)
  · rw [greedy_stop hstop, htail]

end Runs

section Findall

variable {items : List Item} {tail : List Char}

theorem findallFrom_skip (front tail : List Char) :
    findallFrom items (front ++ tail) front.length = findallFrom items tail 0 := by
  induction front with
  | nil => rfl
  | cons c front ih => exact ih

/-- A part of the text in which no match begins. -/
theorem findallFrom_quiet {front : List Char} (hquiet : ∀ suffix, suffix ≠ [] → suffix <:+ front →
      matchAt items (suffix ++ tail) = none) :
    findallFrom items (front ++ tail) 0 = findallFrom items tail 0 := by
  induction front with
  | nil => rfl
  | cons c front ih =>
    have hnone := hquiet (c :: front) (List.cons_ne_nil c front) (List.suffix_refl _)
    rw [List.cons_append] at hnone ⊢
    rw [findallFrom, hnone]
    exact ih fun suffix hne hsuffix =>
      hquiet suffix hne (hsuffix.trans (List.suffix_cons c front))

/-- A match at the beginning. -/
theorem findallFrom_match {found : List Char} (hne : found ≠ [])
    (hmatch : matchAt items (found ++ tail) = some tail) :
    findallFrom items (found ++ tail) 0 = found :: findallFrom items tail 0 := by
  obtain ⟨c, found, rfl⟩ := List.exists_cons_of_ne_nil hne
  have hlength : (c :: (found ++ tail)).length - tail.length = found.length + 1 := by
    rw [List.length_cons, List.length_append]
    omega
  rw [List.cons_append] at hmatch ⊢
  rw [findallFrom, hmatch]
  simp only [hlength, Nat.add_sub_cancel, findallFrom_skip]
  rw [List.take_succ_cons, List.take_left]

variable {p : Char → Bool}

theorem findallFrom_plus_quiet {front : List Char} (hfront : ∀ c ∈ front, p c = false) :
    findallFrom [.plus p] (front ++ tail) 0 = findallFrom [.plus p] tail 0 := by
  apply findallFrom_quiet
  intro suffix hne hsuffix
  obtain ⟨c, suffix, rfl⟩ := List.exists_cons_of_ne_nil hne
  rw [List.cons_append, matchAt,
    if_neg (by simp [hfront c (hsuffix.mem List.mem_cons_self)])]

theorem findallFrom_plus_run {run : List Char} {stop : Char}
    (hrun : ∀ c ∈ run, p c = true) (hne : run ≠ []) (hstop : p stop = false) :
    findallFrom [.plus p] (run ++ stop :: tail) 0 = run :: findallFrom [.plus p] (stop :: tail) 0 :=
  findallFrom_match hne (matchAt_plus hrun hne hstop rfl)

end Findall

section Numbers

variable {py : Interpreter}

/-- What the documentation says about every interpreter: the decimal digits in
ASCII are the usual ones, and the limit of `int` is not below 640. -/
structure Interpreter.Standard (py : Interpreter) : Prop where
  ascii : ∀ c : Char, c.toNat < 128 → c.isDigit = false → py.decimal c = none
  limit : ∀ limit ∈ py.intMaxStrDigits, 640 ≤ limit

theorem digitClass_of_isDigit {c : Char} (hc : c.isDigit = true) : digitClass py c = true := by
  rw [digitClass, py.decimal_ascii c hc]
  rfl

theorem digitClass_eq_false (hpy : py.Standard) {c : Char}
    (hascii : c.toNat < 128) (hc : c.isDigit = false) :
    digitClass py c = false := by
  rw [digitClass, hpy.ascii c hascii hc]
  rfl

theorem mapM_decimal {digits : List Char} (hdigits : ∀ c ∈ digits, c.isDigit = true) :
    digits.mapM py.decimal = some (digits.map fun c => c.toNat - '0'.toNat) := by
  induction digits with
  | nil => rfl
  | cons c digits ih =>
    rw [List.mapM_cons, py.decimal_ascii c (hdigits c List.mem_cons_self),
      ih fun other hother => hdigits other (List.mem_cons_of_mem c hother)]
    rfl

/-- Numbers of ordinary size are read back. -/
theorem int_decimal (hpy : py.Standard) {value : ℕ} (hlength : (decimal value).length ≤ 640) :
    int py (decimal value) = .ok value := by
  have hshort : (py.intMaxStrDigits.any fun limit =>
      (decimal value).length > limit) = false := by
    rw [Option.any_eq_false]
    intro limit hlimit
    have hatLeast := hpy.limit limit hlimit
    rw [decide_eq_false_iff_not]
    omega
  have hdigits := @mapM_decimal py (decimal value) fun c hc =>
    isDigit_of_mem_decimal hc
  have hfold : ((decimal value).map fun c => c.toNat - '0'.toNat).foldl
      (fun value digit => 10 * value + digit) 0 = value := by
    rw [List.foldl_map]
    exact digitsValue_decimal value
  simp only [int, hshort, hdigits, Bool.false_eq_true, if_false, hfold]

end Numbers

end GrapheneLtp.PyText
