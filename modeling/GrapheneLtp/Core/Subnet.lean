import Mathlib

/-!
# Subnets

The addresses that agree with a given one in the leading bits, over any type of
addresses with bytes.
-/

namespace GrapheneLtp.Subnet

section Addresses

variable {A : Type*} (byte : A → ℕ → BitVec 8)

/-- The bits of an address, from the highest one of the first byte on. -/
def bit (address : A) (index : ℕ) : Bool := (byte address (index / 8)).getMsbD (index % 8)

/-- The addresses that share a number of leading bits with the given one. -/
def subnet (address : A) (bits : ℕ) : Set A :=
  {other | ∀ index < bits, bit byte other index = bit byte address index}

variable {byte} {address other : A} {bits more : ℕ}

/-- For whole bytes it is enough to compare the bytes. -/
theorem mem_subnet_bytes {count : ℕ} : other ∈ subnet byte address (8 * count) ↔
      ∀ index < count, byte other index = byte address index := by
  constructor
  · intro hother index hindex
    refine BitVec.eq_of_getMsbD_eq fun place hplace => ?_
    have hbit := hother (8 * index + place) (by omega)
    have hdiv : (8 * index + place) / 8 = index := by omega
    have hmod : (8 * index + place) % 8 = place := by omega
    simpa only [bit, hdiv, hmod] using hbit
  · intro hbytes index hindex
    rw [bit, bit, hbytes (index / 8) (by omega)]

/-- Networks whose leading bytes differ. -/
theorem disjoint_of_byte_ne {left right index : ℕ} (hleft : index < left)
    (hright : index < right) (hbyte : byte address index ≠ byte other index) :
    Disjoint (subnet byte address (8 * left)) (subnet byte other (8 * right)) := by
  rw [Set.disjoint_left]
  intro common hcommon hother
  have haddress := mem_subnet_bytes.mp hcommon index hleft
  exact hbyte (haddress.symm.trans (mem_subnet_bytes.mp hother index hright))

end Addresses

section Search

variable {A C : Type*} {byte : A → ℕ → BitVec 8} {network : C → A} {address : A} {size count : ℕ}

/-- A search for a network that takes the first one whose address is not in the
subnet of a given address.  It finds a disjoint network unless its first candidate
contains the given address, which differs from the candidate's own only behind the
bytes of the network. -/
theorem find_disjoint_iff {free : C → Bool} {default : C} {others : List C}
    (hzero : ∀ candidate index, size ≤ index → byte (network candidate) index = 0)
    (hfree : ∀ candidate, free candidate = true ↔
      network candidate ∉ subnet byte address (8 * count)) :
    (∀ candidate, (default :: others).find? free = some candidate →
        Disjoint (subnet byte (network candidate) (8 * size)) (subnet byte address (8 * count))) ↔
      ¬((∀ index < size, byte (network default) index = byte address index) ∧
        ∃ index < count, size ≤ index ∧ byte address index ≠ 0) := by
  have hdiffers (candidate : C) : free candidate = true ↔
      ∃ index < count, byte (network candidate) index ≠ byte address index := by
    rw [hfree, mem_subnet_bytes]
    simp only [not_forall, exists_prop]
  constructor
  · rintro hdisjoint ⟨hsame, index, hindex, hsize, hbyte⟩
    have hdefault : free default = true :=
      (hdiffers default).mpr ⟨index, hindex, (hzero default index hsize).trans_ne hbyte.symm⟩
    have hinside : address ∈ subnet byte (network default) (8 * size) :=
      mem_subnet_bytes.mpr fun place hplace => (hsame place hplace).symm
    exact Set.disjoint_left.mp (hdisjoint default (List.find?_cons_of_pos hdefault))
      hinside fun _ _ => rfl
  · intro hmissed candidate hfound
    obtain ⟨index, hindex, hbyte⟩ := (hdiffers candidate).mp (List.find?_some hfound)
    rcases lt_or_ge index size with hinside | hbehind
    · exact disjoint_of_byte_ne hinside hindex hbyte
    · -- The candidates end here, so the given address has more; then the first
      -- candidate is another network, and it is the one that was found.
      rw [hzero candidate index hbehind] at hbyte
      have hother : ∃ place < size, byte (network default) place ≠ byte address place := by
        by_contra hnone
        refine hmissed ⟨fun place hplace => ?_, index, hindex, hbehind, hbyte.symm⟩
        exact not_not.mp fun hne => hnone ⟨place, hplace, hne⟩
      obtain ⟨place, hplace, hne⟩ := hother
      have hcount : place < count := hplace.trans_le (hbehind.trans hindex.le)
      rw [List.find?_cons_of_pos ((hdiffers default).mpr ⟨place, hcount, hne⟩),
        Option.some_inj] at hfound
      subst hfound
      exact disjoint_of_byte_ne hplace hcount hne

end Search

end GrapheneLtp.Subnet
