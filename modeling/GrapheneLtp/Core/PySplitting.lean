import GrapheneLtp.Core.PyText

/-!
# Splitting at a separator

What `split` with a separator gives: the text before the first separator and the
segments that follow the separators.  Separators that cannot overlap themselves
are all found.
-/

namespace GrapheneLtp.PySplitting

open PyText

variable {sep : List Char}

/-- No separator begins in the front part of a text. -/
def Clear (sep front rest : List Char) : Prop :=
  ∀ before tail, front = before ++ tail → tail ≠ [] → ¬sep <+: tail ++ rest

/-- The text up to the first separator or the end. -/
def Initial (sep text segment : List Char) : Prop :=
  ∃ rest, text = segment ++ rest ∧ (rest = [] ∨ sep <+: rest) ∧ Clear sep segment rest

/-- A separator in the text and the segment that follows it. -/
def Follows (sep text segment : List Char) : Prop :=
  ∃ before rest, text = before ++ (sep ++ rest) ∧ Initial sep rest segment

/-- No part at the end of the separator stands at its beginning. -/
def Borderless (sep : List Char) : Prop :=
  ∀ before border, sep = before ++ border → before ≠ [] → border ≠ [] → ¬border <+: sep

theorem Clear.of_cons {c : Char} {front rest : List Char}
    (hclear : Clear sep (c :: front) rest) : Clear sep front rest := by
  rintro before tail rfl htail
  exact hclear (c :: before) tail rfl htail

theorem Clear.head {c : Char} {front rest : List Char} (hclear : Clear sep (c :: front) rest) :
    sep.isPrefixOf (c :: (front ++ rest)) = false := by
  rw [Bool.eq_false_iff, ne_eq, List.isPrefixOf_iff_prefix]
  exact hclear [] (c :: front) rfl (List.cons_ne_nil _ _)

theorem Clear.cons {c : Char} {front rest : List Char}
    (hhead : ¬sep <+: c :: (front ++ rest)) (hclear : Clear sep front rest) :
    Clear sep (c :: front) rest := by
  intro before tail hsplit htail
  cases before with
  | nil =>
    rw [List.nil_append] at hsplit
    subst hsplit
    exact hhead
  | cons other before =>
    rw [List.cons_append] at hsplit
    exact hclear before tail (List.cons.inj hsplit).2 htail

/-- A text has a first separator, or none. -/
theorem exists_initial (sep text : List Char) : ∃ segment, Initial sep text segment := by
  induction text with
  | nil =>
    refine ⟨[], [], rfl, .inl rfl, fun before tail hsplit htail => ?_⟩
    exact absurd (List.append_eq_nil_iff.mp hsplit.symm).2 htail
  | cons c text ih =>
    by_cases hhead : sep <+: c :: text
    · refine ⟨[], c :: text, rfl, .inr hhead, fun before tail hsplit htail => ?_⟩
      exact absurd (List.append_eq_nil_iff.mp hsplit.symm).2 htail
    · obtain ⟨segment, rest, rfl, hrest, hclear⟩ := ih
      exact ⟨c :: segment, rest, rfl, hrest, hclear.cons hhead⟩

theorem splitOnFrom_skip (skipped rest part : List Char) :
    splitOnFrom sep (skipped ++ rest) skipped.length part =
      splitOnFrom sep rest 0 part := by
  induction skipped with
  | nil => rfl
  | cons c skipped ih =>
    rw [List.cons_append, List.length_cons, splitOnFrom]
    exact ih

theorem splitOnFrom_clear {front rest : List Char} (hclear : Clear sep front rest)
    (part : List Char) :
    splitOnFrom sep (front ++ rest) 0 part =
      splitOnFrom sep rest 0 (front.reverse ++ part) := by
  induction front generalizing part with
  | nil => rfl
  | cons c front ih =>
    rw [List.cons_append, splitOnFrom, if_neg, ih hclear.of_cons,
      List.reverse_cons, List.append_assoc, List.singleton_append]
    rw [hclear.head]
    exact Bool.false_ne_true

/-- A text without separators is one part. -/
theorem splitOn_clear {text : List Char} (hclear : Clear sep text []) :
    splitOn sep text = [text] := by
  have hsplit := splitOnFrom_clear hclear []
  rw [List.append_nil, List.append_nil] at hsplit
  rw [splitOn, hsplit, splitOnFrom, List.reverse_reverse]

/-- The first part ends at the first separator. -/
theorem splitOn_first (hsep : sep ≠ []) {front rest : List Char}
    (hclear : Clear sep front (sep ++ rest)) :
    splitOn sep (front ++ (sep ++ rest)) = front :: splitOn sep rest := by
  obtain ⟨c, others, rfl⟩ := List.exists_cons_of_ne_nil hsep
  have hstart : (c :: others).isPrefixOf (c :: (others ++ rest)) = true :=
    List.isPrefixOf_iff_prefix.mpr (List.prefix_append _ _)
  rw [splitOn, splitOnFrom_clear hclear, List.append_nil, List.cons_append,
    splitOnFrom, if_pos hstart, List.reverse_reverse, List.length_cons,
    Nat.add_sub_cancel, splitOnFrom_skip, splitOn]

/-- The separators of a text behind the first one are those of the rest. -/
theorem follows_iff (hborder : Borderless sep) {front rest segment : List Char}
    (hclear : Clear sep front (sep ++ rest)) :
    Follows sep (front ++ (sep ++ rest)) segment ↔
      Initial sep rest segment ∨ Follows sep rest segment := by
  constructor
  · rintro ⟨before, behind, hsplit, hinitial⟩
    rcases List.append_eq_append_iff.mp hsplit with
      ⟨more, rfl, hmore⟩ | ⟨tail, rfl, htail⟩
    · rcases List.append_eq_append_iff.mp hmore with
        ⟨gap, rfl, rfl⟩ | ⟨border, hsepSplit, hbehind⟩
      · exact .inr ⟨gap, behind, rfl, hinitial⟩
      · by_cases hnone : more = []
        · subst hnone
          rw [List.nil_append] at hsepSplit
          subst hsepSplit
          rw [List.append_cancel_left hbehind] at hinitial
          exact .inl hinitial
        by_cases hwhole : border = []
        · subst hwhole
          exact .inr ⟨[], behind, hbehind.symm, hinitial⟩
        -- the two separators would overlap
        have hlength : border.length ≤ sep.length := by
          rw [hsepSplit, List.length_append]
          exact Nat.le_add_left _ _
        have hstart : border <+: sep ++ behind := ⟨rest, hbehind.symm⟩
        exact absurd (List.prefix_of_prefix_length_le hstart
          (List.prefix_append _ _) hlength) (hborder more border hsepSplit hnone hwhole)
    · by_cases hnone : tail = []
      · subst hnone
        rw [List.nil_append] at htail
        rw [List.append_cancel_left htail] at hinitial
        exact .inl hinitial
      · exact absurd ⟨behind, htail⟩ (hclear before tail rfl hnone)
  · rintro (hinitial | ⟨before, behind, rfl, hinitial⟩)
    · exact ⟨front, rest, rfl, hinitial⟩
    · refine ⟨front ++ (sep ++ before), behind, ?_, hinitial⟩
      simp only [List.append_assoc]

theorem not_follows_of_clear (hsep : sep ≠ []) {text segment : List Char}
    (hclear : Clear sep text []) : ¬Follows sep text segment := by
  rintro ⟨before, rest, rfl, -⟩
  refine hclear before (sep ++ rest) rfl ?_ ?_
  · intro hnil
    exact hsep (List.append_eq_nil_iff.mp hnil).1
  · rw [List.append_nil]
    exact List.prefix_append _ _

theorem Initial.unique {text segment other : List Char}
    (hsegment : Initial sep text segment) (hother : Initial sep text other) :
    segment = other := by
  obtain ⟨rest, rfl, hrest, hclear⟩ := hsegment
  obtain ⟨otherRest, hsplit, hotherRest, hotherClear⟩ := hother
  rcases List.append_eq_append_iff.mp hsplit with
    ⟨more, rfl, rfl⟩ | ⟨more, rfl, rfl⟩
  · by_cases hmore : more = []
    · rw [hmore, List.append_nil]
    · rcases hrest with hnil | hstart
      · exact absurd (List.append_eq_nil_iff.mp hnil).1 hmore
      · exact absurd hstart (hotherClear segment more rfl hmore)
  · by_cases hmore : more = []
    · rw [hmore, List.append_nil]
    · rcases hotherRest with hnil | hstart
      · exact absurd (List.append_eq_nil_iff.mp hnil).1 hmore
      · exact absurd hstart (hclear other more rfl hmore)

theorem initial_iff {text first : List Char} (hfirst : Initial sep text first)
    (segment : List Char) : Initial sep text segment ↔ segment = first := by
  constructor
  · exact fun hsegment => hsegment.unique hfirst
  · rintro rfl
    exact hfirst

/-- The parts of a text: the first one, and those that follow a separator. -/
theorem mem_splitOn_iff (hsep : sep ≠ []) (hborder : Borderless sep) (text segment : List Char) :
    segment ∈ splitOn sep text ↔ Initial sep text segment ∨ Follows sep text segment := by
  induction hlength : text.length using Nat.strong_induction_on generalizing text with
  | _ length ih =>
    obtain ⟨first, hfirst⟩ := exists_initial sep text
    rw [initial_iff hfirst]
    obtain ⟨rest, rfl, rfl | ⟨behind, rfl⟩, hclear⟩ := hfirst
    · rw [List.append_nil, splitOn_clear hclear, List.mem_singleton,
        or_iff_left (not_follows_of_clear hsep hclear)]
    · have hshorter : behind.length < length := by
        have hpositive := List.length_pos_iff.mpr hsep
        rw [← hlength, List.length_append, List.length_append]
        omega
      rw [splitOn_first hsep hclear, List.mem_cons, follows_iff hborder hclear,
        ih _ hshorter behind rfl]

/-- The parts behind the first one are those that follow a separator. -/
theorem mem_tail_splitOn_iff (hsep : sep ≠ []) (hborder : Borderless sep)
    (text segment : List Char) :
    segment ∈ (splitOn sep text).tail ↔ Follows sep text segment := by
  obtain ⟨first, rest, rfl, rfl | ⟨behind, rfl⟩, hclear⟩ := exists_initial sep text
  · rw [List.append_nil, splitOn_clear hclear, List.tail_cons]
    exact iff_of_false List.not_mem_nil (not_follows_of_clear hsep hclear)
  · rw [splitOn_first hsep hclear, List.tail_cons, follows_iff hborder hclear,
      mem_splitOn_iff hsep hborder]

end GrapheneLtp.PySplitting
