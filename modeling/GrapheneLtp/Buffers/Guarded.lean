import Mathlib.Tactic

/-!
# Guarded buffers

`tst_buffers.c`: a buffer ends where an inaccessible page begins, and the bytes
of its mapping in front of it hold a canary.  The canary is a row of random
bytes that reads the same from both ends, so the byte in the middle of an odd
row is paired with none, and the number of pages is cut to 32 bits.
-/

namespace GrapheneLtp.Buffers

section Allocation

/-- `struct map`, without the link. -/
structure Map where
  addr : ℕ
  size : ℕ
  bufShift : ℕ
deriving DecidableEq, Repr

/-- What `tst_alloc` leaves: the entry of the list, the address of the page that
`mprotect` makes inaccessible, and the pointer that is returned. -/
structure Allocation where
  map : Map
  guard : ℕ
  ret : ℕ
deriving DecidableEq, Repr

/-- The pages of a buffer with its guard. -/
def neededPages (pageSize size : ℕ) : ℕ :=
  size / pageSize + (if size % pageSize ≠ 0 then 1 else 0) + 1

/-- `tst_alloc`.  `pages` is an `unsigned int`, the products are of type `size_t`,
and `SAFE_MMAP` ends the test if there is no mapping. -/
def tstAlloc (mmap : ℕ → Option ℕ) (pageSize size : ℕ) : Option Allocation := do
  let pages := neededPages pageSize size % 2 ^ 32
  let ret ← mmap (pageSize * pages % 2 ^ 64)
  let guard := ret + (pages + (2 ^ 32 - 1)) % 2 ^ 32 * pageSize % 2 ^ 64
  let bufShift := if size % pageSize ≠ 0 then pageSize - size % pageSize else 0
  some ⟨⟨ret, pages * pageSize % 2 ^ 64, bufShift⟩, guard, ret + bufShift⟩

end Allocation

section Canary

/-- The bytes of a mapping. -/
abbrev Bytes : Type := ℕ → BitVec 8

/-- One round of the loop of `setup_canary`. -/
def setCanary (bufShift : ℕ) (random : ℕ → BitVec 8) (buf : Bytes) (i : ℕ) : Bytes :=
  Function.update (Function.update buf (bufShift - i - 1) (random i)) i (random i)

/-- `setup_canary`, with the results of `random`. -/
def setupCanary (bufShift : ℕ) (random : ℕ → BitVec 8) (buf : Bytes) : Bytes :=
  (List.range (bufShift / 2)).foldl (setCanary bufShift random) buf

/-- `check_canary`: the offsets from the buffer that it reports. -/
def checkCanary (bufShift : ℕ) (buf : Bytes) : List ℤ :=
  ((List.range (bufShift / 2)).filter fun i =>
    decide (buf (bufShift - i - 1) ≠ buf i)).map fun i => -(i : ℤ) - 1

end Canary

section Pages

variable {mmap : ℕ → Option ℕ} {exponent size : ℕ} {allocation : Allocation}

/-- The pages are counted in 32 bits and their bytes in 64. -/
def Fits (pageSize size : ℕ) : Prop :=
  neededPages pageSize size < 2 ^ 32 ∧ neededPages pageSize size * pageSize < 2 ^ 64

instance (pageSize size : ℕ) : Decidable (Fits pageSize size) := inferInstanceAs (Decidable (_ ∧ _))

/-- The bytes in front of the buffer and the buffer fill their pages. -/
theorem shift_add_size {pageSize : ℕ} (hpage : 0 < pageSize) (size : ℕ) :
    (if size % pageSize ≠ 0 then pageSize - size % pageSize else 0) + size =
      (neededPages pageSize size - 1) * pageSize := by
  have hdiv := Nat.div_add_mod size pageSize
  have hmod := Nat.mod_lt size hpage
  unfold neededPages
  rw [Nat.add_sub_cancel, Nat.add_mul, Nat.mul_comm (size / pageSize)]
  split_ifs
  · omega
  · omega

/-- What `tst_alloc` returns, with the arithmetic done. -/
theorem tstAlloc_cases (hnone : mmap 0 = none)
    (hallocation : tstAlloc mmap (2 ^ exponent) size = some allocation) :
    ∃ pages addr, pages = neededPages (2 ^ exponent) size % 2 ^ 32 ∧ 1 ≤ pages ∧
      pages * 2 ^ exponent % 2 ^ 64 ≠ 0 ∧
      allocation.map.addr = addr ∧
      allocation.map.size = pages * 2 ^ exponent % 2 ^ 64 ∧
      allocation.map.bufShift =
        (if size % 2 ^ exponent ≠ 0 then 2 ^ exponent - size % 2 ^ exponent else 0) ∧
      allocation.guard = addr + (pages - 1) * 2 ^ exponent % 2 ^ 64 ∧
      allocation.ret = addr + allocation.map.bufShift := by
  obtain ⟨addr, hmmap, hresult⟩ := Option.bind_eq_some_iff.mp hallocation
  have hlength : neededPages (2 ^ exponent) size % 2 ^ 32 * 2 ^ exponent % 2 ^ 64 ≠ 0 := by
    intro hzero
    rw [Nat.mul_comm, hzero, hnone] at hmmap
    cases hmmap
  have hpages : 1 ≤ neededPages (2 ^ exponent) size % 2 ^ 32 := by
    by_contra hless
    have hzero : neededPages (2 ^ exponent) size % 2 ^ 32 = 0 := by omega
    rw [hzero, Nat.zero_mul] at hlength
    exact hlength rfl
  have hguard : (neededPages (2 ^ exponent) size % 2 ^ 32 + (2 ^ 32 - 1)) % 2 ^ 32 =
      neededPages (2 ^ exponent) size % 2 ^ 32 - 1 := by
    omega
  rw [hguard] at hresult
  cases hresult
  exact ⟨_, addr, rfl, hpages, hlength, rfl, rfl, rfl, rfl, rfl⟩

/-- Whole pages that end inside the 64-bit range leave room for one more, or end
with it. -/
theorem add_page_le {count : ℕ} (hexponent : exponent < 64)
    (hless : count * 2 ^ exponent < 2 ^ 64) :
    (count + 1) * 2 ^ exponent ≤ 2 ^ 64 := by
  have hsplit : 2 ^ 64 = 2 ^ (64 - exponent) * 2 ^ exponent := by
    rw [← Nat.pow_add, Nat.sub_add_cancel hexponent.le]
  rw [hsplit] at hless ⊢
  exact Nat.mul_le_mul_right _ (Nat.lt_of_mul_lt_mul_right hless)

/-- The buffer ends at its guard, which is the last page of the mapping, exactly
if the pages can be counted. -/
theorem tstAlloc_guard_iff (hnone : mmap 0 = none) (hexponent : exponent < 64)
    (hallocation : tstAlloc mmap (2 ^ exponent) size = some allocation) :
    (allocation.ret + size = allocation.guard ∧ allocation.guard + 2 ^ exponent =
          allocation.map.addr + allocation.map.size) ↔
      Fits (2 ^ exponent) size := by
  obtain ⟨pages, addr, hpages, hone, hlength, haddr, hsize, hshift, hguard, hret⟩ :=
    tstAlloc_cases hnone hallocation
  have hend : allocation.ret + size =
      addr + (neededPages (2 ^ exponent) size - 1) * 2 ^ exponent := by
    rw [hret, hshift, Nat.add_assoc, shift_add_size (Nat.two_pow_pos exponent)]
  have hneeded : 1 ≤ neededPages (2 ^ exponent) size := Nat.le_add_left 1 _
  constructor
  · rintro ⟨hmeets, -⟩
    have hoffset : (neededPages (2 ^ exponent) size - 1) * 2 ^ exponent =
        (pages - 1) * 2 ^ exponent % 2 ^ 64 := by
      rw [hend, hguard] at hmeets
      exact Nat.add_left_cancel hmeets
    -- The end is not past the pages that were mapped, so none was cut off.
    have hle : neededPages (2 ^ exponent) size - 1 ≤ pages - 1 :=
      Nat.le_of_mul_le_mul_right (hoffset.trans_le (Nat.mod_le _ _)) (Nat.two_pow_pos exponent)
    have hcount : neededPages (2 ^ exponent) size < 2 ^ 32 := by
      have hmod := Nat.mod_lt (neededPages (2 ^ exponent) size) (Nat.two_pow_pos 32)
      omega
    rw [Nat.mod_eq_of_lt hcount] at hpages
    have hless : (neededPages (2 ^ exponent) size - 1) * 2 ^ exponent < 2 ^ 64 :=
      hoffset.trans_lt (Nat.mod_lt _ (Nat.two_pow_pos 64))
    have hbytes := add_page_le hexponent hless
    rw [Nat.sub_add_cancel hneeded] at hbytes
    refine ⟨hcount, lt_of_le_of_ne hbytes fun heq => hlength ?_⟩
    rw [hpages, heq, Nat.mod_self]
  · rintro ⟨hcount, hbytes⟩
    rw [Nat.mod_eq_of_lt hcount] at hpages
    have hless : (pages - 1) * 2 ^ exponent < 2 ^ 64 :=
      lt_of_le_of_lt (Nat.mul_le_mul_right _ (Nat.sub_le _ _)) (hpages ▸ hbytes)
    have hlast : (pages - 1) * 2 ^ exponent + 2 ^ exponent = pages * 2 ^ exponent := by
      rw [← Nat.succ_mul, Nat.succ_eq_add_one, Nat.sub_add_cancel hone]
    rw [Nat.mod_eq_of_lt hless] at hguard
    rw [Nat.mod_eq_of_lt (hpages ▸ hbytes)] at hsize
    refine ⟨?_, ?_⟩
    · rw [hend, hguard, hpages]
    · rw [hguard, haddr, hsize, Nat.add_assoc, hlast]

end Pages

section Pairs

variable {bufShift : ℕ} (random : ℕ → BitVec 8) (buf : Bytes)

/-- After some rounds the outermost pairs hold the same byte at both ends. -/
theorem setCanary_rounds {rounds : ℕ} (hrounds : rounds ≤ bufShift / 2) : ∀ i < rounds,
      (List.range rounds).foldl (setCanary bufShift random) buf i = random i ∧
        (List.range rounds).foldl (setCanary bufShift random) buf (bufShift - i - 1) =
          random i := by
  induction rounds with
  | zero => exact fun i hi => absurd hi (Nat.not_lt_zero i)
  | succ rounds ih =>
    intro i hi
    rw [List.range_succ, List.foldl_concat, setCanary]
    by_cases heq : i = rounds
    · subst heq
      have hends : bufShift - i - 1 ≠ i := by omega
      exact ⟨Function.update_self _ _ _, by
        rw [Function.update_of_ne hends, Function.update_self]⟩
    · obtain ⟨hfirst, hlast⟩ := ih (Nat.le_of_succ_le hrounds) i (by omega)
      have hother : bufShift - i - 1 ≠ rounds := by omega
      have hmirror : i ≠ bufShift - rounds - 1 := by omega
      have hmirrors : bufShift - i - 1 ≠ bufShift - rounds - 1 := by omega
      rw [Function.update_of_ne heq, Function.update_of_ne hmirror,
        Function.update_of_ne hother, Function.update_of_ne hmirrors]
      exact ⟨hfirst, hlast⟩

theorem setupCanary_pair {i : ℕ} (hi : i < bufShift / 2) :
    setupCanary bufShift random buf (bufShift - i - 1) =
      setupCanary bufShift random buf i := by
  obtain ⟨hfirst, hlast⟩ := setCanary_rounds random buf (le_refl (bufShift / 2)) i hi
  exact hlast.trans hfirst.symm

theorem checkCanary_eq_nil_iff {buf : Bytes} : checkCanary bufShift buf = [] ↔
      ∀ i < bufShift / 2, buf (bufShift - i - 1) = buf i := by
  simp [checkCanary]

theorem checkCanary_setupCanary : checkCanary bufShift (setupCanary bufShift random buf) = [] :=
  checkCanary_eq_nil_iff.mpr fun _ hi => setupCanary_pair random buf hi

/-- A changed byte is reported exactly if it is one of a pair. -/
theorem checkCanary_update_iff {index : ℕ} (hindex : index < bufShift) {byte : BitVec 8}
    (hbyte : byte ≠ setupCanary bufShift random buf index) :
    checkCanary bufShift (Function.update (setupCanary bufShift random buf) index byte) ≠ [] ↔
      2 * index + 1 ≠ bufShift := by
  rw [Ne, checkCanary_eq_nil_iff, not_iff_not]
  constructor
  · intro hequal
    by_contra hpaired
    rcases Nat.lt_or_gt_of_ne hpaired with hless | hgreater
    · have hpair : index < bufShift / 2 := by omega
      have hmirror : bufShift - index - 1 ≠ index := by omega
      have hread := hequal index hpair
      rw [Function.update_self, Function.update_of_ne hmirror,
        setupCanary_pair random buf hpair] at hread
      exact hbyte hread.symm
    · have hpair : bufShift - index - 1 < bufShift / 2 := by omega
      have hback : bufShift - (bufShift - index - 1) - 1 = index := by omega
      have hmirror : bufShift - index - 1 ≠ index := by omega
      have hread := hequal (bufShift - index - 1) hpair
      have hsame := setupCanary_pair random buf hpair
      rw [hback] at hread hsame
      rw [Function.update_self, Function.update_of_ne hmirror, ← hsame] at hread
      exact hbyte hread
  · intro hmiddle i hi
    have hfirst : i ≠ index := by omega
    have hlast : bufShift - i - 1 ≠ index := by omega
    rw [Function.update_of_ne hfirst, Function.update_of_ne hlast,
      setupCanary_pair random buf hi]

end Pairs

section Guarding

/-- The end of every buffer is guarded exactly if its pages can be counted, a
changed byte in front of it is found exactly if it is not the one in the middle,
and an unchanged mapping is not reported. -/
theorem tstAlloc_guards_iff {mmap : ℕ → Option ℕ} (hnone : mmap 0 = none)
    {exponent size : ℕ} (hexponent : exponent < 64) {allocation : Allocation}
    (hallocation : tstAlloc mmap (2 ^ exponent) size = some allocation)
    (random : ℕ → BitVec 8) (buf : Bytes) :
    ((allocation.ret + size = allocation.guard ∧ allocation.guard + 2 ^ exponent =
          allocation.map.addr + allocation.map.size) ↔
      Fits (2 ^ exponent) size) ∧
    (∀ index < allocation.map.bufShift, ∀ byte,
      byte ≠ setupCanary allocation.map.bufShift random buf index →
        (checkCanary allocation.map.bufShift (Function.update
            (setupCanary allocation.map.bufShift random buf) index byte) ≠ [] ↔
          2 * index + 1 ≠ allocation.map.bufShift)) ∧
    checkCanary allocation.map.bufShift (setupCanary allocation.map.bufShift random buf) = [] :=
  ⟨tstAlloc_guard_iff hnone hexponent hallocation,
    fun _ hindex _ hbyte => checkCanary_update_iff random buf hindex hbyte,
    checkCanary_setupCanary random buf⟩

/-- A mapping at a fixed address, unless it is empty. -/
def mmapAt (addr length : ℕ) : Option ℕ :=
  if length = 0 then none else some addr

/-- A buffer of 4092 bytes has a guarded end and two pairs in front of it. -/
theorem tstAlloc_guards_even :
    ∃ allocation, tstAlloc (mmapAt 0x10000) (2 ^ 12) 4092 = some allocation ∧
      allocation.ret + 4092 = allocation.guard ∧
      checkCanary allocation.map.bufShift (Function.update
        (setupCanary allocation.map.bufShift (fun _ => 7#8) fun _ => 0#8) 1 9#8) ≠ [] :=
  have hallocation : tstAlloc (mmapAt 0x10000) (2 ^ 12) 4092 =
      some ⟨⟨0x10000, 0x2000, 4⟩, 0x11000, 0x10004⟩ := by decide
  have hguards := tstAlloc_guards_iff rfl (by decide) hallocation (fun _ => 7#8) fun _ => 0#8
  ⟨_, hallocation, (hguards.1.mpr (by decide)).1,
    (hguards.2.1 1 (by decide) 9#8 (by decide)).mpr (by decide)⟩

/-- The only byte in front of a buffer of 4095 bytes can change, and a buffer of
2^44 bytes gets one page, which is its guard. -/
theorem tstAlloc_unguarded :
    (∃ allocation, tstAlloc (mmapAt 0x10000) (2 ^ 12) 4095 = some allocation ∧
      0 < allocation.map.bufShift ∧
      checkCanary allocation.map.bufShift (Function.update
        (setupCanary allocation.map.bufShift (fun _ => 7#8) fun _ => 0#8) 0 9#8) = []) ∧
    ∃ allocation, tstAlloc (mmapAt 0x10000) (2 ^ 12) (2 ^ 44) = some allocation ∧
      allocation.ret + 2 ^ 44 ≠ allocation.guard :=
  ⟨⟨_, rfl, by decide, by decide⟩, ⟨_, rfl, by decide⟩⟩

end Guarding

end GrapheneLtp.Buffers
