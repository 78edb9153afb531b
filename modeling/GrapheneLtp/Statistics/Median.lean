import GrapheneLtp.Core.CheckedInt
import GrapheneLtp.Core.Decimal
import GrapheneLtp.Core.Qsort

/-!
# tst_get_median

The numbers are compared by a subtraction of ints, and the two middle ones are
added as ints.  Both may overflow, and then nothing is known of the result.
-/

namespace GrapheneLtp.Median

open CString Decimal CheckedInt Qsort

def cmp (a b : ℤ) : Option ℤ := inInt (a - b)

/-- What the program prints, and its exit status. -/
structure Outcome where
  stdout : List Char
  stderr : List Char
  status : ℕ
  deriving DecidableEq, Repr

/-- The middle element of an array, or the mean of the two middle ones. -/
def middle (arr : List ℤ) : Option ℤ :=
  let size2 := arr.length / 2
  if arr.length % 2 = 1 then arr[size2]?
  else do
    let low ← arr[size2 - 1]?
    let high ← arr[size2]?
    let sum ← inInt (low + high)
    return sum.tdiv 2

/-- An argument as the program reads it.  What `atoi` makes of a number that is
no int is undefined. -/
def readArg (arg : List Char) : Option ℤ := inInt (atoi (arg ++ [nul]))

def main (qsort : (ℤ → ℤ → Option ℤ) → List ℤ → Option (List ℤ)) (args : List (List Char)) :
    Option Outcome :=
  match args with
  | [] => some ⟨[], "Please provide a numeric list\n".toList, 1⟩
  | [arg] => (readArg arg).map fun value => ⟨signedDecimal value, [], 0⟩
  | args => do
    let numbers ← args.mapM readArg
    let arr ← qsort cmp numbers
    let value ← middle arr
    return ⟨signedDecimal value, [], 0⟩

/-- The numbers in order. -/
def ordered (values : List ℤ) : List ℤ := values.insertionSort (· ≤ ·)

/-- The two middle numbers together, for a list of even length. -/
def middleSum (values : List ℤ) : ℤ :=
  (ordered values).getD (values.length / 2 - 1) 0 + (ordered values).getD (values.length / 2) 0

def median (values : List ℤ) : ℤ :=
  if values.length % 2 = 1 then (ordered values).getD (values.length / 2) 0
  else (middleSum values).tdiv 2

/-! ## Reading and sorting -/

section Sorting

variable {values : List ℤ}

theorem readArg_signedDecimal {value : ℤ} (hvalue : FitsInt value) :
    readArg (signedDecimal value) = some value := by
  rw [readArg, atoi_signedDecimal value [] rfl]
  exact if_pos hvalue

theorem mapM_readArg (hvalues : ∀ value ∈ values, FitsInt value) :
    (values.map signedDecimal).mapM readArg = some values := by
  induction values with
  | nil => rfl
  | cons value values ih =>
      rw [List.map_cons, List.mapM_cons, readArg_signedDecimal (hvalues _ List.mem_cons_self),
        ih fun other hother => hvalues other (List.mem_cons_of_mem _ hother)]
      rfl

theorem length_ordered (values : List ℤ) : (ordered values).length = values.length :=
  (values.perm_insertionSort _).length_eq

theorem totalOn_cmp_iff : TotalOn cmp values ↔
    ∀ a ∈ values, ∀ b ∈ values, FitsInt (a - b) := by
  constructor
  · intro htotal a ha b hb
    by_contra hwide
    have hdefined := htotal.defined a ha b hb
    rw [cmp, inInt, inType_of_not_fits hwide] at hdefined
    cases hdefined
  · intro hfits
    exact @totalOn_of_sign _ _ _ id fun a ha b hb =>
      ⟨a - b, if_pos (hfits a ha b hb), rfl⟩

/-- Sorted by the comparison, the numbers are in order. -/
theorem sorted_eq_ordered {sorted : List ℤ} (hperm : sorted.Perm values)
    (hsorted : sorted.Pairwise (Before cmp)) : sorted = ordered values := by
  have hle : sorted.Pairwise (· ≤ ·) := by
    refine hsorted.imp fun {a b} hbefore => ?_
    obtain ⟨result, hresult, hcmp⟩ := hbefore
    obtain ⟨-, rfl⟩ := inInt_eq_some_iff.mp hcmp
    omega
  have hordered : (ordered values).Pairwise (· ≤ ·) := values.pairwise_insertionSort _
  exact (hperm.trans (values.perm_insertionSort _).symm).eq_of_pairwise' hle hordered

theorem middle_ordered (hne : values ≠ []) : middle (ordered values) =
    if values.length % 2 = 1 then some (median values)
    else (inInt (middleSum values)).map (·.tdiv 2) := by
  have hpos := List.length_pos_of_ne_nil hne
  have hget {index : ℕ} (hindex : index < values.length) :
      (ordered values)[index]? = some ((ordered values).getD index 0) := by
    rw [List.getD_eq_getElem?_getD, List.getElem?_eq_getElem (length_ordered values ▸ hindex)]
    rfl
  simp only [middle, length_ordered]
  split
  · rename_i hodd
    rw [hget (by omega), median, if_pos hodd]
  · rw [hget (by omega), hget (by omega)]
    simp only [Option.bind_eq_bind, Option.bind_some, middleSum]
    cases inInt _ <;> rfl

end Sorting

/-- For two or more numbers, the program sorts and takes the middle. -/
theorem main_map {qsort : (ℤ → ℤ → Option ℤ) → List ℤ → Option (List ℤ)} {values : List ℤ}
    (hlength : 2 ≤ values.length) (hvalues : ∀ value ∈ values, FitsInt value) :
    main qsort (values.map signedDecimal) =
      ((qsort cmp values).bind middle).map fun value => ⟨signedDecimal value, [], 0⟩ := by
  obtain ⟨first, second, rest, rfl⟩ : ∃ first second rest, values = first :: second :: rest := by
    match values, hlength with
    | first :: second :: rest, _ => exact ⟨first, second, rest, rfl⟩
  have hread := mapM_readArg hvalues
  simp only [List.map_cons] at hread
  simp only [main, List.map_cons, hread, Option.bind_eq_bind, Option.bind_some]
  cases qsort cmp (first :: second :: rest) with
  | none => rfl
  | some arr =>
      simp only [Option.bind_some]
      cases middle arr <;> rfl

/-- The median is printed, whatever `qsort` does apart from its promise, if and only
if no difference of two numbers and no sum of the two middle ones overflows. -/
theorem main_median_iff {values : List ℤ} (hne : values ≠ [])
    (hvalues : ∀ value ∈ values, FitsInt value) :
    (∀ qsort, Sorts qsort → main qsort (values.map signedDecimal) =
        some ⟨signedDecimal (median values), [], 0⟩) ↔
      (∀ a ∈ values, ∀ b ∈ values, FitsInt (a - b)) ∧
        (values.length % 2 = 0 → FitsInt (middleSum values)) := by
  rcases Nat.lt_or_ge values.length 2 with hshort | hlength
  · -- A single number is printed as it is.
    obtain ⟨value, rfl⟩ : ∃ value, values = [value] := by
      have hpos := List.length_pos_of_ne_nil hne
      exact List.length_eq_one_iff.mp (by omega)
    have hmedian : median [value] = value := by simp [median, ordered]
    refine iff_of_true (fun qsort _ => ?_) ⟨?_, ?_⟩
    · simp [main, hmedian, readArg_signedDecimal (hvalues value List.mem_cons_self)]
    · simp [FitsInt]
    · simp
  · have hsome {result : Option ℤ} : result.map (fun value =>
        (⟨signedDecimal value, [], 0⟩ : Outcome)) = some ⟨signedDecimal (median values), [], 0⟩ →
        result.isSome := by
      cases result with
      | none => simp
      | some value => simp
    constructor
    · intro hprints
      have hfits : ∀ a ∈ values, ∀ b ∈ values, FitsInt (a - b) := by
        rw [← totalOn_cmp_iff]
        by_contra hpartial
        obtain ⟨qsort, hsorts, hrefuses⟩ := exists_sorts_refusing (α := ℤ)
        have hnone := hprints qsort hsorts
        rw [main_map hlength hvalues, hrefuses cmp values hpartial] at hnone
        cases hnone
      refine ⟨hfits, fun heven => ?_⟩
      obtain ⟨qsort, hsorts, -⟩ := exists_sorts_refusing (α := ℤ)
      obtain ⟨sorted, hsort, hperm, hsorted⟩ := hsorts cmp values (totalOn_cmp_iff.mpr hfits)
      have hprinted := hprints qsort hsorts
      rw [main_map hlength hvalues, hsort, sorted_eq_ordered hperm hsorted, Option.bind_some,
        middle_ordered hne, if_neg (by omega)] at hprinted
      by_contra hwide
      rw [inInt, inType_of_not_fits hwide] at hprinted
      cases hprinted
    · rintro ⟨hfits, hsum⟩ qsort hsorts
      obtain ⟨sorted, hsort, hperm, hsorted⟩ := hsorts cmp values (totalOn_cmp_iff.mpr hfits)
      rw [main_map hlength hvalues, hsort, sorted_eq_ordered hperm hsorted, Option.bind_some,
        middle_ordered hne]
      split
      · rfl
      · rename_i heven
        rw [inInt, inType_of_fits (hsum (by omega)), median, if_neg heven]
        rfl

theorem main_median_iff_four : ∃ qsort, Sorts qsort ∧
    main qsort ([7, -3, 4, 5].map signedDecimal) = some ⟨['4'], [], 0⟩ := by
  obtain ⟨qsort, hsorts, -⟩ := exists_sorts_refusing (α := ℤ)
  exact ⟨qsort, hsorts, (main_median_iff (List.cons_ne_nil _ _) (by decide)).mpr
    ⟨by decide, fun _ => by decide⟩ qsort hsorts⟩

/-- The sum of two large numbers overflows, and so does the difference of a large and
a negative one. -/
theorem main_median_overflows :
    (∀ qsort, Sorts qsort → main qsort ([2147483647, 2147483647].map signedDecimal) = none) ∧
      ∃ qsort, Sorts qsort ∧ main qsort ([2147483647, -1, 0].map signedDecimal) = none := by
  constructor
  · intro qsort hsorts
    obtain ⟨sorted, hsort, hperm, -⟩ := hsorts cmp [2147483647, 2147483647]
      (totalOn_cmp_iff.mpr (by decide))
    obtain rfl : sorted = List.replicate 2 2147483647 := List.perm_replicate.mp hperm
    rw [main_map (by decide) (by decide), hsort]
    rfl
  · obtain ⟨qsort, hsorts, hrefuses⟩ := exists_sorts_refusing (α := ℤ)
    refine ⟨qsort, hsorts, ?_⟩
    rw [main_map (by decide) (by decide), hrefuses]
    · rfl
    · rw [totalOn_cmp_iff]
      decide

end GrapheneLtp.Median
