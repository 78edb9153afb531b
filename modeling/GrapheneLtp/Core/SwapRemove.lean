import Mathlib.Tactic

/-!
# Removing an element by moving the last one

An array whose order does not matter loses an element in constant time: the
last one takes its place.  Up to the order this removes the first element that
is looked for, and no other.
-/

namespace GrapheneLtp.SwapRemove

variable {α κ : Type*}

/-- The first element with a property goes, and the last one takes its
place. -/
def removeFirst (p : α → Bool) (items : List α) : List α :=
  match items.findIdx? p, items.getLast? with
  | some index, some last => (items.set index last).dropLast
  | _, _ => items

section Removal

variable {p keep : α → Bool} {items : List α}

theorem removeFirst_of_none (hnone : ∀ item ∈ items, p item = false) :
    removeFirst p items = items := by
  have hfind : items.findIdx? p = none := List.findIdx?_eq_none_iff.mpr hnone
  simp only [removeFirst, hfind]

theorem removeFirst_append (front : List α) (item : α) (back : List α)
    (hfront : ∀ other ∈ front, p other = false) (hitem : p item = true) :
    (removeFirst p (front ++ item :: back)).Perm (front ++ back) := by
  have hfind : (front ++ item :: back).findIdx? p = some front.length := by
    have hnone : front.findIdx? p = none := List.findIdx?_eq_none_iff.mpr hfront
    simp [List.findIdx?_append, hnone, List.findIdx?_cons, hitem]
  cases List.eq_nil_or_concat back with
  | inl hnil =>
    subst hnil
    simp [removeFirst, hfind]
  | inr hconcat =>
    obtain ⟨middle, last, rfl⟩ := hconcat
    rw [List.concat_eq_append] at hfind ⊢
    have hlast : (front ++ item :: (middle ++ [last])).getLast? = some last := by
      rw [← List.cons_append, ← List.append_assoc, List.getLast?_concat]
    have hset : (front ++ item :: (middle ++ [last])).set front.length last =
        (front ++ last :: middle) ++ [last] := by
      simp
    simp only [removeFirst, hfind, hlast]
    rw [hset, List.dropLast_concat]
    exact List.Perm.append_left front (List.perm_append_singleton last middle).symm

/-- The element that goes is the first one with the property. -/
theorem removeFirst_perm (p : α → Bool) (items : List α) :
    (removeFirst p items).Perm (items.eraseP p) := by
  by_cases hany : ∃ item ∈ items, p item = true
  · obtain ⟨item, hitem, hp⟩ := hany
    obtain ⟨first, front, back, hfront, hfirst, rfl, herase⟩ := List.exists_of_eraseP hitem hp
    rw [herase]
    exact removeFirst_append front first back
      (fun other hother => by simpa using hfront other hother) hfirst
  · have hnone : ∀ item ∈ items, p item = false := fun item hitem =>
      Bool.eq_false_iff.mpr fun hp => hany ⟨item, hitem, hp⟩
    rw [removeFirst_of_none hnone, List.eraseP_of_forall_not
      (fun item hitem => by simp [hnone item hitem])]

/-- The elements without the property stay. -/
theorem filter_eraseP (hkeep : ∀ item, keep item = true → p item = false) :
    (items.eraseP p).filter keep = items.filter keep := by
  induction items with
  | nil => rfl
  | cons item rest ih =>
    cases hp : p item with
    | true =>
      have hdropped : ¬keep item = true := fun h => by simp [hkeep item h] at hp
      rw [List.eraseP_cons_of_pos hp, List.filter_cons_of_neg hdropped]
    | false =>
      rw [List.eraseP_cons_of_neg (by simp [hp]), List.filter_cons, List.filter_cons, ih]

theorem filter_removeFirst (hkeep : ∀ item, keep item = true → p item = false) :
    ((removeFirst p items).filter keep).Perm (items.filter keep) :=
  ((removeFirst_perm p items).filter keep).trans (List.Perm.of_eq (filter_eraseP hkeep))

/-- Of the elements with the property all but the first one stay. -/
theorem filter_eraseP_self : (items.eraseP p).filter p = (items.filter p).tail := by
  induction items with
  | nil => rfl
  | cons item rest ih =>
    cases hp : p item with
    | true => rw [List.eraseP_cons_of_pos hp, List.filter_cons_of_pos hp, List.tail_cons]
    | false =>
      have hnot : ¬p item = true := by simp [hp]
      rw [List.eraseP_cons_of_neg hnot, List.filter_cons_of_neg hnot,
        List.filter_cons_of_neg hnot, ih]

theorem filter_removeFirst_self : ((removeFirst p items).filter p).Perm (items.filter p).tail :=
  ((removeFirst_perm p items).filter p).trans (List.Perm.of_eq filter_eraseP_self)

theorem countP_removeFirst : (removeFirst p items).countP p = items.countP p - 1 := by
  rw [List.countP_eq_length_filter, List.countP_eq_length_filter,
    filter_removeFirst_self.length_eq, List.length_tail]

end Removal

section Keys

variable [DecidableEq κ] (key : α → κ)

/-- One element with each of these keys goes. -/
def removeKeys (keys : List κ) (items : List α) : List α :=
  keys.foldl (fun items k => removeFirst (fun item => decide (key item = k)) items) items

variable {key} {keys : List κ} {items : List α}

theorem filter_removeKeys {keep : α → Bool} (hkeep : ∀ item, keep item = true → key item ∉ keys) :
    ((removeKeys key keys items).filter keep).Perm (items.filter keep) := by
  induction keys generalizing items with
  | nil => exact List.Perm.refl _
  | cons k keys ih =>
    have hfirst : ∀ item, keep item = true → decide (key item = k) = false :=
      fun item hitem => decide_eq_false fun heq =>
        hkeep item hitem (heq ▸ List.mem_cons_self)
    have hrest : ∀ item, keep item = true → key item ∉ keys :=
      fun item hitem hmem => hkeep item hitem (List.mem_cons_of_mem k hmem)
    exact (ih hrest).trans (filter_removeFirst hfirst)

theorem countP_removeKeys (k : κ) :
    (removeKeys key keys items).countP (fun item => decide (key item = k)) =
      items.countP (fun item => decide (key item = k)) - keys.count k := by
  induction keys generalizing items with
  | nil => rfl
  | cons other keys ih =>
    rw [removeKeys, List.foldl_cons, ← removeKeys, ih]
    by_cases heq : other = k
    · subst heq
      rw [countP_removeFirst, List.count_cons_self]
      omega
    · have hkeep : ∀ item, decide (key item = k) = true →
          decide (key item = other) = false := by
        intro item hitem
        rw [of_decide_eq_true hitem]
        exact decide_eq_false (Ne.symm heq)
      rw [List.count_cons_of_ne heq, List.countP_eq_length_filter,
        (filter_removeFirst hkeep).length_eq, ← List.countP_eq_length_filter]

/-- With each key removed once, a key is gone if it was there at most once. -/
theorem not_mem_removeKeys_iff (hnodup : keys.Nodup) {k : κ} (hk : k ∈ keys) :
    (∀ item ∈ removeKeys key keys items, key item ≠ k) ↔
      items.countP (fun item => decide (key item = k)) ≤ 1 := by
  have hcount : (removeKeys key keys items).countP (fun item => decide (key item = k)) =
      items.countP (fun item => decide (key item = k)) - keys.count k :=
    countP_removeKeys k
  rw [List.count_eq_one_of_mem hnodup hk] at hcount
  rw [← Nat.sub_eq_zero_iff_le, ← hcount, List.countP_eq_zero]
  simp

end Keys

end GrapheneLtp.SwapRemove
