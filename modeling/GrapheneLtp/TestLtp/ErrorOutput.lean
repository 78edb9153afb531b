import GrapheneLtp.Core.PySplitting
import GrapheneLtp.TestLtp.Output

/-!
# The check of the error output

The error output of a test is split at `error:`, and every part must contain one
of the known messages or be empty.  The text in front of the first `error:` is one
of the parts.
-/

namespace GrapheneLtp.ErrorOutput

open GrapheneLtp.PyText GrapheneLtp.PySplitting GrapheneLtp.TestLtp

def errorMark : List Char := "error:".toList

/-- The text contains one of the known messages. -/
def Known (text : List Char) : Prop := ∃ known ∈ knownErrors, known <:+: text

theorem errorMark_ne_nil : errorMark ≠ [] := by
  decide

theorem errorMark_borderless : Borderless errorMark := by
  intro before border hsplit hbefore hborder hstart
  have hlengths := congrArg List.length hsplit
  have hpositive := List.length_pos_iff.mpr hbefore
  have hsome := List.length_pos_iff.mpr hborder
  rw [List.length_append] at hlengths
  have hdrop : border = errorMark.drop before.length := by
    rw [hsplit, List.drop_left]
  have hshifts : ∀ shift < 6, 0 < shift → ¬errorMark.drop shift <+: errorMark := by
    decide +kernel
  rw [hdrop] at hstart
  refine hshifts before.length ?_ hpositive hstart
  change 6 = _ at hlengths
  omega

/-- The check of one part. -/
theorem part_valid_iff (part : List Char) :
    (part == [] || knownErrors.any fun known => isIn known part) = true ↔
      part = [] ∨ Known part := by
  simp [Known, isIn]

theorem checkSystemErrorOutputValid_parts (stderr : List Char) :
    checkSystemErrorOutputValid stderr = true ↔
      ("error".toList <:+: stderr →
        (∀ part, Initial errorMark stderr part → part = [] ∨ Known part) ∧
          ∀ part, Follows errorMark stderr part → part = [] ∨ Known part) := by
  have hparts : (splitOn errorMark stderr).all (fun part =>
      part == [] || knownErrors.any fun known => isIn known part) = true ↔
        (∀ part, Initial errorMark stderr part → part = [] ∨ Known part) ∧
          ∀ part, Follows errorMark stderr part → part = [] ∨ Known part := by
    simp only [List.all_eq_true, part_valid_iff,
      mem_splitOn_iff errorMark_ne_nil errorMark_borderless, or_imp, forall_and]
  rw [← hparts, checkSystemErrorOutputValid, isIn]
  split
  · rename_i herror
    rw [decide_eq_true_eq] at herror
    exact (imp_iff_right herror).symm
  · rename_i hnone
    rw [decide_eq_true_eq] at hnone
    exact iff_of_true rfl fun herror => absurd herror hnone

/-- A text with a segment behind `error:` speaks of an error. -/
theorem error_of_follows {stderr part : List Char}
    (hpart : Follows errorMark stderr part) : "error".toList <:+: stderr := by
  obtain ⟨before, rest, rfl, -⟩ := hpart
  exact ⟨before, ':' :: rest, by rw [List.append_assoc]; rfl⟩

/-- Where the text before the first `error:` is empty or has a known message, the
output is valid if and only if every segment behind an `error:` is empty or has a
known message. -/
theorem checkSystemErrorOutputValid_iff {stderr first : List Char}
    (hfirst : Initial errorMark stderr first)
    (hbefore : "error".toList <:+: stderr → first = [] ∨ Known first) :
    checkSystemErrorOutputValid stderr = true ↔
      ∀ part, Follows errorMark stderr part → part = [] ∨ Known part := by
  rw [checkSystemErrorOutputValid_parts]
  constructor
  · intro hvalid part hpart
    exact (hvalid (error_of_follows hpart)).2 part hpart
  · intro hsegments herror
    refine ⟨fun part hpart => ?_, hsegments⟩
    rw [hpart.unique hfirst]
    exact hbefore herror

theorem follows_iff_mem_tail (stderr part : List Char) :
    Follows errorMark stderr part ↔ part ∈ (splitOn errorMark stderr).tail :=
  (mem_tail_splitOn_iff errorMark_ne_nil errorMark_borderless stderr part).symm

/-- Two known messages, the second one after an empty segment. -/
def knownOutput : List Char :=
  "error: Detected deprecated syntax\nerror:error: [P1:T1:] exit".toList

theorem checkSystemErrorOutputValid_iff_known : checkSystemErrorOutputValid knownOutput = true := by
  have hfirst : Initial errorMark knownOutput [] := by
    refine ⟨knownOutput, rfl, .inr (by decide +kernel), ?_⟩
    intro before tail hsplit htail
    exact absurd (List.append_eq_nil_iff.mp hsplit.symm).2 htail
  refine (checkSystemErrorOutputValid_iff hfirst fun _ => .inl rfl).mpr ?_
  have hvalid : ∀ part ∈ (splitOn errorMark knownOutput).tail,
      (part == [] || knownErrors.any fun known => isIn known part) = true := by
    decide +kernel
  intro part hpart
  rw [← part_valid_iff]
  exact hvalid part ((follows_iff_mem_tail _ _).mp hpart)

/-- Text in front of a known message. -/
def warnedOutput : List Char :=
  "warning\nerror: Detected deprecated syntax".toList

/-- An empty segment is accepted, and text in front of the first `error:` is
not. -/
theorem checkSystemErrorOutputValid_other : (checkSystemErrorOutputValid errorMark = true ∧
        Follows errorMark errorMark [] ∧ ¬Known []) ∧
      checkSystemErrorOutputValid warnedOutput = false ∧
        ∀ part, Follows errorMark warnedOutput part → Known part := by
  refine ⟨⟨by decide +kernel, ?_, ?_⟩, by decide +kernel, ?_⟩
  · refine ⟨[], [], rfl, [], rfl, .inl rfl, fun before tail hsplit htail => ?_⟩
    exact absurd (List.append_eq_nil_iff.mp hsplit.symm).2 htail
  · rintro ⟨known, hknown, hpart⟩
    rw [List.infix_nil.mp hpart] at hknown
    exact absurd hknown (by decide +kernel)
  · intro part hpart
    have hsegments : (splitOn errorMark warnedOutput).tail =
        [" Detected deprecated syntax".toList] := by
      decide +kernel
    rw [follows_iff_mem_tail, hsegments, List.mem_singleton] at hpart
    rw [hpart]
    exact ⟨"Detected deprecated syntax".toList, by decide +kernel,
      by decide +kernel⟩

end GrapheneLtp.ErrorOutput
