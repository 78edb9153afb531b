import Mathlib.Tactic

/-!
# The contract of qsort

`qsort` sorts whenever the results of its comparison are those of a total
preorder on the items.  A comparison that has no result, or results that do not
fit together, leaves open what it does.
-/

namespace GrapheneLtp.Qsort

variable {α : Type*} {cmp : α → α → Option ℤ} {items sorted : List α}

/-- The first item may stand before the second one. -/
def Before (cmp : α → α → Option ℤ) (a b : α) : Prop := ∃ result ≤ 0, cmp a b = some result

/-- The comparison has a result for all items, an exchange turns its sign around,
and it is transitive. -/
structure TotalOn (cmp : α → α → Option ℤ) (items : List α) : Prop where
  defined : ∀ a ∈ items, ∀ b ∈ items, (cmp a b).isSome
  turned : ∀ a ∈ items, ∀ b ∈ items, ∀ left right : ℤ, cmp a b = some left →
    cmp b a = some right → left.sign = -right.sign
  trans : ∀ a ∈ items, ∀ b ∈ items, ∀ c ∈ items, Before cmp a b → Before cmp b c →
    Before cmp a c

/-- What every `qsort` promises. -/
def Sorts (qsort : (α → α → Option ℤ) → List α → Option (List α)) : Prop :=
  ∀ cmp items, TotalOn cmp items →
    ∃ sorted, qsort cmp items = some sorted ∧ sorted.Perm items ∧ sorted.Pairwise (Before cmp)

theorem TotalOn.before_or (htotal : TotalOn cmp items) {a b : α} (ha : a ∈ items)
    (hb : b ∈ items) : Before cmp a b ∨ Before cmp b a := by
  obtain ⟨left, hleft⟩ := Option.isSome_iff_exists.mp (htotal.defined a ha b hb)
  obtain ⟨right, hright⟩ := Option.isSome_iff_exists.mp (htotal.defined b hb a ha)
  have hturned := htotal.turned a ha b hb left right hleft hright
  rcases le_or_gt left 0 with hle | hgt
  · exact .inl ⟨left, hle, hleft⟩
  · rw [Int.sign_eq_one_of_pos hgt] at hturned
    have hnegative : right < 0 := Int.sign_eq_neg_one_iff_neg.mp (by omega)
    exact .inr ⟨right, hnegative.le, hright⟩

theorem TotalOn.exists_sorted (htotal : TotalOn cmp items) :
    ∃ sorted : List α, sorted.Perm items ∧ sorted.Pairwise (Before cmp) := by
  classical
  -- The order is one on the items only, so it is their subtype that is sorted.
  let le (a b : {item // item ∈ items}) : Bool := decide (Before cmp a.1 b.1)
  have hpairwise := @List.pairwise_mergeSort _ le
    (fun a b c hab hbc => decide_eq_true (htotal.trans _ a.2 _ b.2 _ c.2
      (of_decide_eq_true hab) (of_decide_eq_true hbc)))
    (fun a b => by simpa [le] using htotal.before_or a.2 b.2) items.attach
  refine ⟨(items.attach.mergeSort le).map Subtype.val, ?_, ?_⟩
  · have hperm := (List.mergeSort_perm items.attach le).map Subtype.val
    rwa [List.attach_map_subtype_val] at hperm
  · rw [List.pairwise_map]
    exact hpairwise.imp of_decide_eq_true

/-- Some item may stand after all the others. -/
theorem TotalOn.exists_last (htotal : TotalOn cmp items) (hne : items ≠ []) :
    ∃ last ∈ items, ∀ item ∈ items, Before cmp item last := by
  obtain ⟨sorted, hperm, hpairwise⟩ := htotal.exists_sorted
  obtain rfl | ⟨init, last, rfl⟩ := List.eq_nil_or_concat sorted
  · exact absurd hperm.nil_eq.symm hne
  · have hlast : last ∈ items := hperm.mem_iff.mp (by simp)
    refine ⟨last, hlast, fun item hitem => ?_⟩
    rw [← hperm.mem_iff, List.concat_eq_append, List.mem_append, List.mem_singleton] at hitem
    rcases hitem with hitem | rfl
    · rw [List.concat_eq_append, List.pairwise_append] at hpairwise
      exact hpairwise.2.2 item hitem last List.mem_cons_self
    · exact (htotal.before_or hlast hlast).elim id id

/-- A `qsort` that gives up unless the comparison is a total preorder keeps the
promise. -/
theorem exists_sorts_refusing : ∃ qsort : (α → α → Option ℤ) → List α → Option (List α),
    Sorts qsort ∧ ∀ cmp items, ¬TotalOn cmp items → qsort cmp items = none := by
  classical
  refine ⟨fun cmp items => if htotal : TotalOn cmp items then
    some htotal.exists_sorted.choose else none, fun cmp items htotal => ?_,
    fun cmp items hnot => ?_⟩
  · exact ⟨_, dif_pos htotal, htotal.exists_sorted.choose_spec⟩
  · exact dif_neg hnot

/-- A comparison with the signs of a subtraction is a total preorder. -/
theorem totalOn_of_sign {key : α → ℤ} (hsign : ∀ a ∈ items, ∀ b ∈ items,
      ∃ result : ℤ, cmp a b = some result ∧ result.sign = (key a - key b).sign) :
    TotalOn cmp items := by
  have hbefore {a b : α} (ha : a ∈ items) (hb : b ∈ items) : Before cmp a b ↔ key a ≤ key b := by
    obtain ⟨result, hresult, hsame⟩ := hsign a ha b hb
    have hle : result ≤ 0 ↔ key a ≤ key b := by
      rw [← Int.sign_nonpos_iff, hsame, Int.sign_nonpos_iff, sub_nonpos]
    simp [Before, hresult, hle]
  refine ⟨fun a ha b hb => ?_, fun a ha b hb left right hleft hright => ?_,
    fun a ha b hb c hc hab hbc => ?_⟩
  · obtain ⟨result, hresult, -⟩ := hsign a ha b hb
    simp [hresult]
  · obtain ⟨result, hresult, hsame⟩ := hsign a ha b hb
    obtain ⟨other, hother, hturned⟩ := hsign b hb a ha
    obtain rfl := Option.some.inj (hresult.symm.trans hleft)
    obtain rfl := Option.some.inj (hother.symm.trans hright)
    rw [hsame, hturned, ← Int.sign_neg, neg_sub]
  · exact (hbefore ha hc).mpr (((hbefore ha hb).mp hab).trans ((hbefore hb hc).mp hbc))

end GrapheneLtp.Qsort
