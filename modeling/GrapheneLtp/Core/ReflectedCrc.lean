import Mathlib.Tactic

/-!
# Reflected cyclic redundancy checks

The register of a reflected check takes the bits of a message one by one, the
least significant bit of each byte first.  A step is linear, so the eight steps
of a byte are those of the lowest byte of the register, which a table can hold,
and a shift of the rest.
-/

namespace GrapheneLtp.ReflectedCrc

variable {width : ℕ} (poly : BitVec width)

/-- One bit of the message goes into the register. -/
def shiftBit (register : BitVec width) (bit : Bool) : BitVec width :=
  (register >>> 1) ^^^ (if register.getLsbD 0 ^^ bit then poly else BitVec.ofNat width 0)

def shiftBits (register : BitVec width) (bits : List Bool) : BitVec width :=
  bits.foldl (shiftBit poly) register

/-- The bits of a byte in the order in which they are sent. -/
def byteBits (byte : BitVec 8) : List Bool := (List.range 8).map byte.getLsbD

/-- The register after this many zeros. -/
def shiftZeros (count : ℕ) (register : BitVec width) : BitVec width :=
  shiftBits poly register (List.replicate count false)

theorem shiftBits_append (register : BitVec width) (front back : List Bool) :
    shiftBits poly register (front ++ back) = shiftBits poly (shiftBits poly register front) back :=
  List.foldl_append

theorem shiftZeros_succ (count : ℕ) (register : BitVec width) :
    shiftZeros poly (count + 1) register =
      shiftZeros poly count (shiftBit poly register false) := rfl

section Linearity

theorem shiftBit_xor (left right : BitVec width) (leftBit rightBit : Bool) :
    shiftBit poly (left ^^^ right) (leftBit ^^ rightBit) =
      shiftBit poly left leftBit ^^^ shiftBit poly right rightBit := by
  apply BitVec.eq_of_getLsbD_eq
  intro index _
  simp only [shiftBit, BitVec.ushiftRight_xor_distrib, BitVec.getLsbD_xor]
  cases left.getLsbD 0 <;> cases right.getLsbD 0 <;> cases leftBit <;>
    cases rightBit <;> simp [Bool.xor_comm, Bool.xor_left_comm]

theorem shiftZeros_xor (count : ℕ) (left right : BitVec width) :
    shiftZeros poly count (left ^^^ right) =
      shiftZeros poly count left ^^^ shiftZeros poly count right := by
  induction count generalizing left right with
  | zero => rfl
  | succ count ih =>
    rw [shiftZeros_succ, ← Bool.false_xor false, shiftBit_xor, ih]
    rfl

/-- Bits below a register's lowest one go out without a trace. -/
theorem shiftZeros_of_low_zero {count : ℕ} {register : BitVec width}
    (hlow : ∀ index < count, register.getLsbD index = false) :
    shiftZeros poly count register = register >>> count := by
  induction count generalizing register with
  | zero => simp [shiftZeros, shiftBits]
  | succ count ih =>
    have hstep : shiftBit poly register false = register >>> 1 := by
      simp [shiftBit, hlow 0 (Nat.succ_pos count)]
    have hnext : ∀ index < count, (register >>> 1).getLsbD index = false := by
      intro index hindex
      rw [BitVec.getLsbD_ushiftRight]
      exact hlow (1 + index) (by omega)
    rw [shiftZeros_succ, hstep, ih hnext, Nat.add_comm count 1, BitVec.shiftRight_add]

end Linearity

section Bytes

/-- A message can be put into the low bits of the register beforehand. -/
theorem shiftBits_range (count : ℕ) (bits : ℕ → Bool) (register message : BitVec width)
    (hmessage : ∀ index, message.getLsbD index = (decide (index < count) && bits index)) :
    shiftBits poly register ((List.range count).map bits) =
      shiftZeros poly count (register ^^^ message) := by
  induction count generalizing bits register message with
  | zero =>
    have hzero : message = BitVec.ofNat width 0 :=
      BitVec.eq_of_getLsbD_eq fun index _ => by simp [hmessage]
    simp [hzero, shiftZeros, shiftBits]
  | succ count ih =>
    -- The first bit acts on the register as the lowest bit of the message.
    have hfirst : shiftBit poly (register ^^^ message) false =
        shiftBit poly register (bits 0) ^^^ (message >>> 1) := by
      apply BitVec.eq_of_getLsbD_eq
      intro index _
      simp only [shiftBit, BitVec.ushiftRight_xor_distrib, BitVec.getLsbD_xor,
        hmessage 0, Nat.succ_pos, decide_true, Bool.true_and, Bool.xor_false]
      cases register.getLsbD 0 <;> cases bits 0 <;> simp [Bool.xor_comm]
    have hrest : ∀ index, (message >>> 1).getLsbD index =
        (decide (index < count) && bits (index + 1)) := by
      intro index
      rw [BitVec.getLsbD_ushiftRight, hmessage, Nat.add_comm]
      simp
    have hrange : (List.range (count + 1)).map bits =
        bits 0 :: (List.range count).map fun index => bits (index + 1) := by
      simp [List.range_succ_eq_map, Function.comp_def]
    calc shiftBits poly register ((List.range (count + 1)).map bits)
        = shiftBits poly (shiftBit poly register (bits 0))
            ((List.range count).map fun index => bits (index + 1)) := by
          rw [hrange]
          rfl
      _ = shiftZeros poly count
            (shiftBit poly register (bits 0) ^^^ (message >>> 1)) :=
          ih _ _ _ hrest
      _ = shiftZeros poly (count + 1) (register ^^^ message) := by
          rw [shiftZeros_succ, hfirst]

theorem shiftBits_byteBits (register : BitVec width) (byte : BitVec 8) (hwidth : 8 ≤ width) :
    shiftBits poly register (byteBits byte) =
      shiftZeros poly 8 (register ^^^ byte.setWidth width) := by
  refine shiftBits_range poly 8 byte.getLsbD register _ fun index => ?_
  rw [BitVec.getLsbD_setWidth]
  by_cases hindex : index < 8
  · simp [hindex, hindex.trans_le hwidth]
  · simp [hindex, BitVec.getLsbD_of_ge byte index (Nat.le_of_not_lt hindex)]

/-- The mask of the lowest byte. -/
theorem getLsbD_mask (hwidth : 8 ≤ width) (index : ℕ) :
    (BitVec.ofNat width 255).getLsbD index = decide (index < 8) := by
  have hmask : (BitVec.ofNat width 255).getLsbD index =
      (decide (index < width) && (2 ^ 8 - 1).testBit index) :=
    BitVec.getLsbD_ofNat width 255 index
  rw [hmask, Nat.testBit_two_pow_sub_one]
  by_cases hindex : index < 8
  · simp [hindex, hindex.trans_le hwidth]
  · simp [hindex]

/-- The step with a table: the table is read at the lowest byte, and the rest of
the register is shifted. -/
theorem shiftBits_byteBits_table (register : BitVec width) (byte : BitVec 8) (hwidth : 8 ≤ width) :
    shiftBits poly register (byteBits byte) =
      shiftZeros poly 8 ((register ^^^ byte.setWidth width) &&& BitVec.ofNat width 255) ^^^
        (register >>> 8) := by
  have hbyte : ∀ index, 8 ≤ index → (byte.setWidth width).getLsbD index = false := by
    intro index hindex
    rw [BitVec.getLsbD_setWidth, BitVec.getLsbD_of_ge byte index hindex, Bool.and_false]
  have hsplit : register ^^^ byte.setWidth width =
      ((register ^^^ byte.setWidth width) &&& BitVec.ofNat width 255) ^^^
        (register &&& ~~~(BitVec.ofNat width 255)) := by
    apply BitVec.eq_of_getLsbD_eq
    intro index hindex
    simp only [BitVec.getLsbD_xor, BitVec.getLsbD_and, BitVec.getLsbD_not,
      getLsbD_mask hwidth, hindex, decide_true, Bool.true_and]
    by_cases hlow : index < 8
    · simp [hlow]
    · simp [hlow, hbyte index (Nat.le_of_not_lt hlow)]
  have hlow : ∀ index < 8, (register &&& ~~~(BitVec.ofNat width 255)).getLsbD index = false := by
    intro index hindex
    simp [getLsbD_mask hwidth, hindex]
  have hhigh : (register &&& ~~~(BitVec.ofNat width 255)) >>> 8 = register >>> 8 := by
    apply BitVec.eq_of_getLsbD_eq
    intro index _
    simp only [BitVec.getLsbD_ushiftRight, BitVec.getLsbD_and, BitVec.getLsbD_not,
      getLsbD_mask hwidth]
    by_cases hinside : 8 + index < width
    · simp [hinside]
    · simp [BitVec.getLsbD_of_ge register (8 + index) (Nat.le_of_not_lt hinside)]
  calc shiftBits poly register (byteBits byte)
      = shiftZeros poly 8 (register ^^^ byte.setWidth width) :=
        shiftBits_byteBits poly register byte hwidth
    _ = shiftZeros poly 8 (((register ^^^ byte.setWidth width) &&& BitVec.ofNat width 255) ^^^
          (register &&& ~~~(BitVec.ofNat width 255))) := congrArg (shiftZeros poly 8) hsplit
    _ = shiftZeros poly 8 ((register ^^^ byte.setWidth width) &&& BitVec.ofNat width 255) ^^^
          (register >>> 8) := by
        rw [shiftZeros_xor, shiftZeros_of_low_zero poly hlow, hhigh]

end Bytes

end GrapheneLtp.ReflectedCrc
