import Mathlib.Tactic

/-!
# One pass over a table of implications

A table says which keys a key brings with it.  One pass adds what is missing,
row by row.  Where no row brings the key of a row in front of it, one pass is
enough: what it leaves is closed under the implications.
-/

namespace GrapheneLtp.Implications

variable {κ σ : Type*}

/-- What a row of the table says. -/
def Implies (table : List (κ × List κ)) (flag implied : κ) : Prop :=
  ∃ row ∈ table, row.1 = flag ∧ implied ∈ row.2

/-- No row brings the key of a row in front of it. -/
def InOrder (table : List (κ × List κ)) : Prop :=
  table.Pairwise fun earlier later => earlier.1 ∉ later.2

instance [DecidableEq κ] (table : List (κ × List κ)) : Decidable (InOrder table) :=
  inferInstanceAs (Decidable (table.Pairwise _))

section Pass

variable (has : σ → κ → Bool) (add : σ → κ → σ)

def addMissing (store : σ) (key : κ) : σ :=
  if has store key then store else add store key

/-- One row of the table. -/
def addRow (store : σ) (row : κ × List κ) : σ :=
  if has store row.1 then row.2.foldl (addMissing has add) store else store

/-- The whole table. -/
def addImplied (table : List (κ × List κ)) (store : σ) : σ := table.foldl (addRow has add) store

end Pass

section Frame

variable {has : σ → κ → Bool} {add : σ → κ → σ}

/-- What every added key of the table keeps, the pass keeps. -/
theorem addImplied_induction {table : List (κ × List κ)} {P : σ → Prop}
    (hadd : ∀ store, ∀ row ∈ table, ∀ key ∈ row.2, P store → P (add store key))
    {store : σ} (hstore : P store) : P (addImplied has add table store) := by
  refine List.foldlRecOn table (addRow has add) hstore ?_
  intro store hstore row hrow
  unfold addRow
  split_ifs
  · refine List.foldlRecOn row.2 (addMissing has add) hstore ?_
    intro store hstore key hkey
    unfold addMissing
    split_ifs
    · exact hstore
    · exact hadd store row hrow key hkey hstore
  · exact hstore

end Frame

section Closure

variable {has : σ → κ → Bool} {add : σ → κ → σ} (hadd : ∀ store key other,
    has (add store key) other = true ↔ has store other = true ∨ other = key)

include hadd

theorem has_addMissing (store : σ) (key other : κ) :
    has (addMissing has add store key) other = true ↔ has store other = true ∨ other = key := by
  unfold addMissing
  split_ifs with hkey
  · refine ⟨Or.inl, ?_⟩
    rintro (hother | rfl)
    · exact hother
    · exact hkey
  · exact hadd store key other

theorem has_foldl_addMissing (keys : List κ) (store : σ) (other : κ) :
    has (keys.foldl (addMissing has add) store) other = true ↔
      has store other = true ∨ other ∈ keys := by
  induction keys generalizing store with
  | nil => simp
  | cons key keys ih =>
    rw [List.foldl_cons, ih, has_addMissing hadd, List.mem_cons, or_assoc]

theorem has_addRow (store : σ) (row : κ × List κ) (other : κ) :
    has (addRow has add store row) other = true ↔
      has store other = true ∨ (has store row.1 = true ∧ other ∈ row.2) := by
  unfold addRow
  split_ifs with hrow
  · rw [has_foldl_addMissing hadd]
    simp [hrow]
  · simp [hrow]

theorem has_addImplied_of_has (table : List (κ × List κ)) {store : σ} {key : κ}
    (hkey : has store key = true) :
    has (addImplied has add table store) key = true :=
  addImplied_induction (P := fun store => has store key = true)
    (fun store _ _ other _ hstore => (hadd store other key).mpr (Or.inl hstore)) hkey

/-- A key that no row brings is there only if it was. -/
theorem has_of_has_addImplied {table : List (κ × List κ)} {store : σ} {key : κ}
    (hkey : ∀ row ∈ table, key ∉ row.2)
    (hhas : has (addImplied has add table store) key = true) :
    has store key = true := by
  have hkept : has (addImplied has add table store) key = true → has store key = true :=
    addImplied_induction (P := fun after => has after key = true → has store key = true)
      (fun after row hrow other hother hafter hhas => by
        rcases (hadd after other key).mp hhas with hbefore | rfl
        · exact hafter hbefore
        · exact absurd hother (hkey row hrow)) id
  exact hkept hhas

/-- One pass over a table in order closes the keys under its rows. -/
theorem addImplied_closed {table : List (κ × List κ)} (horder : InOrder table) (store : σ) :
    ∀ row ∈ table, has (addImplied has add table store) row.1 = true →
      ∀ key ∈ row.2, has (addImplied has add table store) key = true := by
  induction table generalizing store with
  | nil => simp
  | cons first table ih =>
    obtain ⟨hfirst, horder⟩ := List.pairwise_cons.mp horder
    intro row hrow hhas key hkey
    rcases List.mem_cons.mp hrow with rfl | hrow
    · -- The later rows do not bring this row's key, so it was there in time.
      have hthen : has (addRow has add store row) row.1 = true :=
        has_of_has_addImplied hadd hfirst hhas
      have hbefore : has store row.1 = true :=
        ((has_addRow hadd store row row.1).mp hthen).elim id And.left
      exact has_addImplied_of_has hadd table
        ((has_addRow hadd store row key).mpr (Or.inr ⟨hbefore, hkey⟩))
    · exact ih horder (addRow has add store first) row hrow hhas key hkey

/-- The same, along any chain of implications. -/
theorem has_of_transGen {table : List (κ × List κ)} (horder : InOrder table)
    {store : σ} {flag implied : κ}
    (hflag : has (addImplied has add table store) flag = true)
    (himplied : Relation.TransGen (Implies table) flag implied) :
    has (addImplied has add table store) implied = true := by
  induction himplied with
  | single hstep =>
    obtain ⟨row, hrow, rfl, hkey⟩ := hstep
    exact addImplied_closed hadd horder store row hrow hflag _ hkey
  | tail _ hstep ih =>
    obtain ⟨row, hrow, rfl, hkey⟩ := hstep
    exact addImplied_closed hadd horder store row hrow ih _ hkey

end Closure

section Bounded

variable {α : Type*} (size : σ → ℕ) (bound : ℕ)

/-- A step that gives up on what is too large does what one without the bound
does, as long as the end fits. -/
theorem foldl_eq_of_size_le {step bounded : σ → α → σ}
    (hmono : ∀ store item, size store ≤ size (step store item))
    (hstep : ∀ store item, size (step store item) ≤ bound → bounded store item = step store item)
    (items : List α) {store : σ}
    (hsize : size (items.foldl step store) ≤ bound) :
    items.foldl bounded store = items.foldl step store := by
  have hgrow : ∀ (items : List α) (store : σ),
      size store ≤ size (items.foldl step store) := fun items store =>
    List.foldlRecOn (motive := fun after => size store ≤ size after) items step
      (le_refl (size store))
      fun after hafter item _ => hafter.trans (hmono after item)
  induction items generalizing store with
  | nil => rfl
  | cons item items ih =>
    rw [List.foldl_cons] at hsize ⊢
    rw [List.foldl_cons, hstep store item ((hgrow items _).trans hsize), ih hsize]

variable {has : σ → κ → Bool} {add bounded : σ → κ → σ}

theorem size_le_addImplied (hmono : ∀ store key, size store ≤ size (add store key))
    (table : List (κ × List κ)) (store : σ) :
    size store ≤ size (addImplied has add table store) :=
  addImplied_induction (P := fun after => size store ≤ size after)
    (fun after _ _ key _ hafter => hafter.trans (hmono after key)) (le_refl _)

/-- The pass over a bounded store is the one over a store without a bound, if
what that one leaves fits. -/
theorem addImplied_eq_of_size_le (hmono : ∀ store key, size store ≤ size (add store key))
    (hbounded : ∀ store key, size (add store key) ≤ bound → bounded store key = add store key)
    (table : List (κ × List κ)) {store : σ}
    (hsize : size (addImplied has add table store) ≤ bound) :
    addImplied has bounded table store = addImplied has add table store := by
  have hmissing : ∀ store key, size store ≤ size (addMissing has add store key) := by
    intro store key
    unfold addMissing
    split_ifs
    · exact le_refl _
    · exact hmono store key
  have hmissing_eq : ∀ store key, size (addMissing has add store key) ≤ bound →
      addMissing has bounded store key = addMissing has add store key := by
    intro store key hfits
    unfold addMissing at hfits ⊢
    split_ifs at hfits ⊢
    · rfl
    · exact hbounded store key hfits
  refine foldl_eq_of_size_le size bound (fun store row => ?_)
    (fun store row hfits => ?_) table hsize
  · exact size_le_addImplied size hmono [row] store
  · unfold addRow at hfits ⊢
    split_ifs at hfits ⊢
    · exact foldl_eq_of_size_le size bound hmissing hmissing_eq row.2 hfits
    · rfl

end Bounded

end GrapheneLtp.Implications
