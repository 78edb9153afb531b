import Mathlib.Tactic

/-!
# The first matching entry of a table

A table is searched from the front for the first entry with some property, and
that entry alone is changed.
-/

namespace GrapheneLtp.FirstMatch

variable {α : Type*}

/-- The first entry that is `found`, and the table with that entry changed. -/
def replaceFirst (found : α → Bool) (change : α → α) : List α → Option (α × List α)
  | [] => none
  | entry :: rest =>
    if found entry then some (entry, change entry :: rest)
    else (replaceFirst found change rest).map fun result =>
      (result.1, entry :: result.2)

variable {found : α → Bool} {change : α → α} {table changed : List α} {entry : α}

theorem replaceFirst_eq_none :
    replaceFirst found change table = none ↔ ∀ entry ∈ table, found entry = false := by
  induction table with
  | nil => simp [replaceFirst]
  | cons head rest ih =>
    by_cases hhead : found head = true
    · simp [replaceFirst, hhead]
    · simp [replaceFirst, hhead, ih]

/-- The entries before the changed one are not `found`, and they and the
entries after it stay. -/
theorem replaceFirst_eq_some (hresult : replaceFirst found change table = some (entry, changed)) :
    ∃ before after, table = before ++ entry :: after ∧
      changed = before ++ change entry :: after ∧ found entry = true ∧
        ∀ other ∈ before, found other = false := by
  induction table generalizing changed with
  | nil => simp [replaceFirst] at hresult
  | cons head rest ih =>
    by_cases hhead : found head = true
    · simp only [replaceFirst, hhead, if_true, Option.some.injEq, Prod.mk.injEq] at hresult
      obtain ⟨rfl, rfl⟩ := hresult
      exact ⟨[], rest, rfl, rfl, hhead, by simp⟩
    · rw [replaceFirst, if_neg hhead, Option.map_eq_some_iff] at hresult
      obtain ⟨⟨_, _⟩, hrest, hpair⟩ := hresult
      cases hpair
      obtain ⟨before, after, htable, hchanged, hfound, hbefore⟩ := ih hrest
      refine ⟨head :: before, after, congrArg _ htable,
        congrArg (head :: ·) hchanged, hfound, ?_⟩
      intro other hother
      rcases List.mem_cons.mp hother with rfl | htail
      · exact Bool.eq_false_of_not_eq_true hhead
      · exact hbefore other htail

theorem find?_of_replaceFirst (hresult : replaceFirst found change table = some (entry, changed)) :
    table.find? found = some entry := by
  obtain ⟨before, after, rfl, -, hfound, hbefore⟩ :=
    replaceFirst_eq_some hresult
  rw [List.find?_append, List.find?_eq_none.mpr (by simpa using hbefore),
    List.find?_cons_of_pos hfound, Option.none_or]

end GrapheneLtp.FirstMatch
