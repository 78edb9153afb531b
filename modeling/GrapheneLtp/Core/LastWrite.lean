import Mathlib.Tactic

/-!
# Writes one after the other

After a list of writes every key has the value of its last write, and a key
without one has the value it had.
-/

namespace GrapheneLtp.LastWrite

variable {κ ν : Type*} [DecidableEq κ]

/-- The store after these writes. -/
def applyWrites (writes : List (κ × ν)) (store : κ → ν) : κ → ν :=
  writes.foldl (fun store write => Function.update store write.1 write.2) store

/-- The value of the last write to a key. -/
def lastWrite (writes : List (κ × ν)) (key : κ) : Option ν :=
  (writes.reverse.find? fun write => decide (write.1 = key)).map Prod.snd

theorem applyWrites_apply (writes : List (κ × ν)) (store : κ → ν) (key : κ) :
    applyWrites writes store key = (lastWrite writes key).getD (store key) := by
  induction writes using List.reverseRecOn with
  | nil => rfl
  | append_singleton writes write ih =>
    unfold applyWrites lastWrite at ih ⊢
    rw [List.foldl_concat, List.reverse_concat, List.find?_cons]
    by_cases hkey : write.1 = key
    · subst hkey
      simp
    · rw [Function.update_of_ne (Ne.symm hkey), ih, decide_eq_false hkey]

/-- Writing the same once more changes nothing. -/
theorem applyWrites_applyWrites (writes : List (κ × ν)) (store : κ → ν) :
    applyWrites writes (applyWrites writes store) = applyWrites writes store := by
  funext key
  rw [applyWrites_apply, applyWrites_apply writes store key]
  cases lastWrite writes key with
  | none => rfl
  | some value => rfl

theorem applyWrites_of_not_mem {writes : List (κ × ν)} {key : κ}
    (hkey : ∀ write ∈ writes, write.1 ≠ key) (store : κ → ν) :
    applyWrites writes store key = store key := by
  have hnone : lastWrite writes key = none := by
    rw [lastWrite, List.find?_eq_none.mpr]
    · rfl
    · intro write hwrite
      have hne := hkey write (List.mem_reverse.mp hwrite)
      simpa using hne
  rw [applyWrites_apply, hnone, Option.getD_none]

/-- A write that no other to the same key follows stays. -/
theorem applyWrites_append_cons {back : List (κ × ν)} {key : κ}
    (hback : ∀ write ∈ back, write.1 ≠ key) (front : List (κ × ν)) (value : ν)
    (store : κ → ν) :
    applyWrites (front ++ (key, value) :: back) store key = value := by
  have hsplit : applyWrites (front ++ (key, value) :: back) store =
      applyWrites back (Function.update (applyWrites front store) key value) := by
    rw [applyWrites, List.foldl_append]
    rfl
  rw [hsplit, applyWrites_of_not_mem hback, Function.update_self]

/-- Values that are written to places one after the other stand there. -/
theorem applyWrites_zipIdx {values : List ν} {first i : ℕ} (hi : i < values.length)
    (store : ℕ → ν) :
    applyWrites ((values.zipIdx first).map Prod.swap) store (first + i) = values[i] := by
  induction values generalizing first i store with
  | nil => exact absurd hi (Nat.not_lt_zero i)
  | cons value values ih =>
    have hstep : applyWrites (((value :: values).zipIdx first).map Prod.swap) store =
        applyWrites ((values.zipIdx (first + 1)).map Prod.swap)
          (Function.update store first value) := rfl
    rw [hstep]
    cases i with
    | zero =>
      rw [applyWrites_of_not_mem, Nat.add_zero, Function.update_self, List.getElem_cons_zero]
      intro write hwrite
      obtain ⟨numbered, hnumbered, rfl⟩ := List.mem_map.mp hwrite
      have hlater := List.le_snd_of_mem_zipIdx hnumbered
      simp only [Prod.fst_swap]
      omega
    | succ i =>
      have hplace : first + (i + 1) = first + 1 + i := by omega
      rw [hplace, ih (by simpa using hi), List.getElem_cons_succ]

end GrapheneLtp.LastWrite
