import GrapheneLtp.Core.ReflectedCrc

/-!
# The CRC-32C of the library

`tst_checksum.c`: the checksum goes over the bytes with a table of 256 words.
The definition it is compared with takes the message bit by bit.
-/

namespace GrapheneLtp.Checksum

open ReflectedCrc

/-- `crc32c_table`. -/
def crc32cTable : List (BitVec 32) :=
  [0x00000000#32, 0xf26b8303#32, 0xe13b70f7#32, 0x1350f3f4#32, 0xc79a971f#32, 0x35f1141c#32,
    0x26a1e7e8#32, 0xd4ca64eb#32, 0x8ad958cf#32, 0x78b2dbcc#32, 0x6be22838#32, 0x9989ab3b#32,
    0x4d43cfd0#32, 0xbf284cd3#32, 0xac78bf27#32, 0x5e133c24#32, 0x105ec76f#32, 0xe235446c#32,
    0xf165b798#32, 0x030e349b#32, 0xd7c45070#32, 0x25afd373#32, 0x36ff2087#32, 0xc494a384#32,
    0x9a879fa0#32, 0x68ec1ca3#32, 0x7bbcef57#32, 0x89d76c54#32, 0x5d1d08bf#32, 0xaf768bbc#32,
    0xbc267848#32, 0x4e4dfb4b#32, 0x20bd8ede#32, 0xd2d60ddd#32, 0xc186fe29#32, 0x33ed7d2a#32,
    0xe72719c1#32, 0x154c9ac2#32, 0x061c6936#32, 0xf477ea35#32, 0xaa64d611#32, 0x580f5512#32,
    0x4b5fa6e6#32, 0xb93425e5#32, 0x6dfe410e#32, 0x9f95c20d#32, 0x8cc531f9#32, 0x7eaeb2fa#32,
    0x30e349b1#32, 0xc288cab2#32, 0xd1d83946#32, 0x23b3ba45#32, 0xf779deae#32, 0x05125dad#32,
    0x1642ae59#32, 0xe4292d5a#32, 0xba3a117e#32, 0x4851927d#32, 0x5b016189#32, 0xa96ae28a#32,
    0x7da08661#32, 0x8fcb0562#32, 0x9c9bf696#32, 0x6ef07595#32, 0x417b1dbc#32, 0xb3109ebf#32,
    0xa0406d4b#32, 0x522bee48#32, 0x86e18aa3#32, 0x748a09a0#32, 0x67dafa54#32, 0x95b17957#32,
    0xcba24573#32, 0x39c9c670#32, 0x2a993584#32, 0xd8f2b687#32, 0x0c38d26c#32, 0xfe53516f#32,
    0xed03a29b#32, 0x1f682198#32, 0x5125dad3#32, 0xa34e59d0#32, 0xb01eaa24#32, 0x42752927#32,
    0x96bf4dcc#32, 0x64d4cecf#32, 0x77843d3b#32, 0x85efbe38#32, 0xdbfc821c#32, 0x2997011f#32,
    0x3ac7f2eb#32, 0xc8ac71e8#32, 0x1c661503#32, 0xee0d9600#32, 0xfd5d65f4#32, 0x0f36e6f7#32,
    0x61c69362#32, 0x93ad1061#32, 0x80fde395#32, 0x72966096#32, 0xa65c047d#32, 0x5437877e#32,
    0x4767748a#32, 0xb50cf789#32, 0xeb1fcbad#32, 0x197448ae#32, 0x0a24bb5a#32, 0xf84f3859#32,
    0x2c855cb2#32, 0xdeeedfb1#32, 0xcdbe2c45#32, 0x3fd5af46#32, 0x7198540d#32, 0x83f3d70e#32,
    0x90a324fa#32, 0x62c8a7f9#32, 0xb602c312#32, 0x44694011#32, 0x5739b3e5#32, 0xa55230e6#32,
    0xfb410cc2#32, 0x092a8fc1#32, 0x1a7a7c35#32, 0xe811ff36#32, 0x3cdb9bdd#32, 0xceb018de#32,
    0xdde0eb2a#32, 0x2f8b6829#32, 0x82f63b78#32, 0x709db87b#32, 0x63cd4b8f#32, 0x91a6c88c#32,
    0x456cac67#32, 0xb7072f64#32, 0xa457dc90#32, 0x563c5f93#32, 0x082f63b7#32, 0xfa44e0b4#32,
    0xe9141340#32, 0x1b7f9043#32, 0xcfb5f4a8#32, 0x3dde77ab#32, 0x2e8e845f#32, 0xdce5075c#32,
    0x92a8fc17#32, 0x60c37f14#32, 0x73938ce0#32, 0x81f80fe3#32, 0x55326b08#32, 0xa759e80b#32,
    0xb4091bff#32, 0x466298fc#32, 0x1871a4d8#32, 0xea1a27db#32, 0xf94ad42f#32, 0x0b21572c#32,
    0xdfeb33c7#32, 0x2d80b0c4#32, 0x3ed04330#32, 0xccbbc033#32, 0xa24bb5a6#32, 0x502036a5#32,
    0x4370c551#32, 0xb11b4652#32, 0x65d122b9#32, 0x97baa1ba#32, 0x84ea524e#32, 0x7681d14d#32,
    0x2892ed69#32, 0xdaf96e6a#32, 0xc9a99d9e#32, 0x3bc21e9d#32, 0xef087a76#32, 0x1d63f975#32,
    0x0e330a81#32, 0xfc588982#32, 0xb21572c9#32, 0x407ef1ca#32, 0x532e023e#32, 0xa145813d#32,
    0x758fe5d6#32, 0x87e466d5#32, 0x94b49521#32, 0x66df1622#32, 0x38cc2a06#32, 0xcaa7a905#32,
    0xd9f75af1#32, 0x2b9cd9f2#32, 0xff56bd19#32, 0x0d3d3e1a#32, 0x1e6dcdee#32, 0xec064eed#32,
    0xc38d26c4#32, 0x31e6a5c7#32, 0x22b65633#32, 0xd0ddd530#32, 0x0417b1db#32, 0xf67c32d8#32,
    0xe52cc12c#32, 0x1747422f#32, 0x49547e0b#32, 0xbb3ffd08#32, 0xa86f0efc#32, 0x5a048dff#32,
    0x8ecee914#32, 0x7ca56a17#32, 0x6ff599e3#32, 0x9d9e1ae0#32, 0xd3d3e1ab#32, 0x21b862a8#32,
    0x32e8915c#32, 0xc083125f#32, 0x144976b4#32, 0xe622f5b7#32, 0xf5720643#32, 0x07198540#32,
    0x590ab964#32, 0xab613a67#32, 0xb831c993#32, 0x4a5a4a90#32, 0x9e902e7b#32, 0x6cfbad78#32,
    0x7fab5e8c#32, 0x8dc0dd8f#32, 0xe330a81a#32, 0x115b2b19#32, 0x020bd8ed#32, 0xf0605bee#32,
    0x24aa3f05#32, 0xd6c1bc06#32, 0xc5914ff2#32, 0x37faccf1#32, 0x69e9f0d5#32, 0x9b8273d6#32,
    0x88d28022#32, 0x7ab90321#32, 0xae7367ca#32, 0x5c18e4c9#32, 0x4f48173d#32, 0xbd23943e#32,
    0xf36e6f75#32, 0x0105ec76#32, 0x12551f82#32, 0xe03e9c81#32, 0x34f4f86a#32, 0xc69f7b69#32,
    0xd5cf889d#32, 0x27a40b9e#32, 0x79b737ba#32, 0x8bdcb4b9#32, 0x988c474d#32, 0x6ae7c44e#32,
    0xbe2da0a5#32, 0x4c4623a6#32, 0x5f16d052#32, 0xad7d5351#32]

/-- The body of the loop of `tst_crc32c`. -/
def crc32cStep (crc : BitVec 32) (byte : BitVec 8) : BitVec 32 :=
  crc32cTable.getD ((crc ^^^ byte.setWidth 32) &&& 0xff#32).toNat 0#32 ^^^ (crc >>> 8)

/-- The loop of `tst_crc32c`. -/
def crc32cLoop (crc : BitVec 32) (buf : List (BitVec 8)) : BitVec 32 := buf.foldl crc32cStep crc

/-- `tst_crc32c` on a buffer with these bytes. -/
def tstCrc32c (buf : List (BitVec 8)) : BitVec 32 := ~~~crc32cLoop 0xffffffff#32 buf

section Definition

/-- The reflected polynomial of CRC-32C. -/
def castagnoli : BitVec 32 := 0x82F63B78#32

/-- CRC-32C bit by bit: the register starts with ones, takes the bits of the
message, and is inverted at the end. -/
def crc32c (message : List (BitVec 8)) : BitVec 32 :=
  shiftBits castagnoli 0xFFFFFFFF#32 (message.flatMap byteBits) ^^^ 0xFFFFFFFF#32

end Definition

section Table

/-- Every entry of the table is what eight steps make of its index. -/
theorem crc32cTable_entries : ∀ index < 256, crc32cTable.getD index 0#32 =
      shiftZeros castagnoli 8 (BitVec.ofNat 32 index) := by
  decide +kernel

theorem lowest_lt (crc : BitVec 32) : (crc &&& 0xff#32).toNat < 256 := by
  rw [BitVec.toNat_and]
  exact Nat.lt_succ_of_le Nat.and_le_right

theorem crc32cTable_lowest (crc : BitVec 32) : crc32cTable.getD (crc &&& 0xff#32).toNat 0#32 =
      shiftZeros castagnoli 8 (crc &&& 0xff#32) := by
  rw [crc32cTable_entries _ (lowest_lt crc), BitVec.ofNat_toNat, BitVec.setWidth_eq]

end Table

section Refinement

/-- A step with the table is the eight steps of the byte's bits. -/
theorem crc32cStep_eq (crc : BitVec 32) (byte : BitVec 8) :
    crc32cStep crc byte = shiftBits castagnoli crc (byteBits byte) := by
  rw [shiftBits_byteBits_table castagnoli crc byte (by decide), crc32cStep, crc32cTable_lowest]

theorem crc32cLoop_eq (crc : BitVec 32) (buf : List (BitVec 8)) :
    crc32cLoop crc buf = shiftBits castagnoli crc (buf.flatMap byteBits) := by
  induction buf generalizing crc with
  | nil => rfl
  | cons byte buf ih =>
    rw [List.flatMap_cons, shiftBits_append, ← crc32cStep_eq, ← ih]
    rfl

theorem crc32cLoop_append (crc : BitVec 32) (front back : List (BitVec 8)) :
    crc32cLoop crc (front ++ back) = crc32cLoop (crc32cLoop crc front) back :=
  List.foldl_append

/-- The checksum is CRC-32C, and that of two parts goes on from the state after
the first one, which the checksum of the first one tells. -/
theorem tstCrc32c_eq_crc32c : (∀ buf, tstCrc32c buf = crc32c buf) ∧
      ∀ front back, tstCrc32c (front ++ back) =
          ~~~crc32cLoop (crc32cLoop 0xffffffff#32 front) back ∧
        crc32cLoop 0xffffffff#32 front = ~~~tstCrc32c front := by
  refine ⟨fun buf => ?_, fun front back => ⟨?_, ?_⟩⟩
  · rw [tstCrc32c, crc32c, crc32cLoop_eq]
    exact (BitVec.xor_allOnes).symm
  · rw [tstCrc32c, crc32cLoop_append]
  · rw [tstCrc32c, BitVec.not_not]

/-- The check value of CRC-32C: the digits from 1 to 9. -/
example : tstCrc32c ((List.range 9).map fun digit => BitVec.ofNat 8 (0x31 + digit)) =
    0xe3069283#32 := by
  decide +kernel

end Refinement

end GrapheneLtp.Checksum
