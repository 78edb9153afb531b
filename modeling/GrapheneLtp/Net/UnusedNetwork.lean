import GrapheneLtp.Core.Hexadecimal
import GrapheneLtp.Core.Subnet
import GrapheneLtp.Net.Ipv4Network

/-!
# Unused networks

`tst_net_vars.c` looks for a network that the tests can use besides the one of the
local address.  A candidate is taken if its own address is not in the local subnet.
When the local subnet is the smaller of the two, it can still be a part of the
candidate.
-/

namespace GrapheneLtp.NetVars

open Decimal Hexadecimal Subnet

section Ipv4

/-- The octets from the first one on. -/
def Ipv4.byte (ip : Ipv4) (index : ℕ) : BitVec 8 := ip.octets.getD index 0

/-- `prefix2mask`. -/
def prefix2mask (bigEndian : Bool) (bits : ℕ) : BitVec 32 :=
  if bits ≠ 0 then htonl bigEndian (~~~((1#32 <<< (32 - bits)) - 1))
  else htonl bigEndian 0

/-- `is_in_subnet_ipv4`, on the numbers in `s_addr`. -/
def isInSubnetIpv4 (network mask ip : BitVec 32) : Bool := ip &&& mask == network &&& mask

/-- The candidates for `DEFAULT_IPV4_UNUSED_PART1` and `DEFAULT_IPV4_UNUSED_PART2`:
themselves, with a random second octet, and with a random first one.  The octets of
the address are taken from the number in `s_addr`. -/
def ipv4Candidates (bigEndian : Bool) (ip : Ipv4) (rand : ℕ → ℕ) : List (BitVec 8 × BitVec 8) :=
  let sAddr := ip.sAddr bigEndian
  let second := rand 0 % 128 + if (sAddr >>> 8 &&& 0xff).toNat < 128 then 128 else 0
  let first := rand 1 % 128 + if (sAddr &&& 0xff).toNat < 128 then 128 else 0
  [(10, 23), (10, .ofNat 8 second), (.ofNat 8 first, 23)]

/-- The address that `tst_get_in_addr` reads from two octets and two zeros. -/
def net16 (octets : BitVec 8 × BitVec 8) : Ipv4 := ⟨octets.1, octets.2, 0, 0⟩

/-- `get_ipv4_net16_unused`. -/
def getIpv4Net16Unused (bigEndian : Bool) (ip : Ipv4) (bits : ℕ) (rand : ℕ → ℕ) :
    Option (List Char) :=
  let mask := prefix2mask bigEndian bits
  let free (octets : BitVec 8 × BitVec 8) : Bool :=
    !isInSubnetIpv4 (ip.sAddr bigEndian) mask ((net16 octets).sAddr bigEndian)
  ((ipv4Candidates bigEndian ip rand).find? free).map fun octets =>
    dotted [octets.1, octets.2]

end Ipv4

section Ipv6

/-- The bytes of `struct in6_addr`. -/
structure Ipv6 where
  s6Addr : Fin 16 → BitVec 8
deriving DecidableEq

/-- The bytes from the first one on. -/
def Ipv6.byte (ip : Ipv6) (index : ℕ) : BitVec 8 :=
  if hindex : index < 16 then ip.s6Addr ⟨index, hindex⟩ else 0

/-- Four bytes as an `int` in memory. -/
def Ipv6.word (bigEndian : Bool) (ip : Ipv6) (index : ℕ) : BitVec 32 :=
  Ipv4.sAddr bigEndian ⟨ip.byte (4 * index), ip.byte (4 * index + 1),
    ip.byte (4 * index + 2), ip.byte (4 * index + 3)⟩

/-- `is_in_subnet_ipv6`. -/
def isInSubnetIpv6 (bigEndian : Bool) (network mask ip6 : Ipv6) : Bool :=
  (List.range 4).all fun i =>
    ip6.word bigEndian i &&& mask.word bigEndian i ==
      network.word bigEndian i &&& mask.word bigEndian i

/-- The mask.  At byte `j` the loop has come down to `i`. -/
def ipv6Mask (bits : ℕ) : Ipv6 where
  s6Addr j :=
    let i := bits - 8 * j
    if i = 0 then 0 else if 8 ≤ i then 0xff else 0xff <<< (8 - i)

/-- The candidates for `DEFAULT_IPV6_UNUSED_PART1` and `DEFAULT_IPV6_UNUSED_PART2`:
themselves, with a random low byte in the first group, and with a random high
byte. -/
def ipv6Candidates (ip6 : Ipv6) (rand : ℕ → ℕ) : List (BitVec 16 × BitVec 16) :=
  let low := rand 0 % 128 + if (ip6.byte 1).toNat < 128 then 128 else 0
  let high := 256 * (rand 1 % 128) + if 256 * (ip6.byte 0).toNat < 128 then 128 else 0
  [(.ofNat 16 (256 * 0xfd), 0x23), (.ofNat 16 (256 * 0xfd + low), 0x23), (.ofNat 16 high, 0x23)]

/-- The address that `tst_get_in6_addr` reads from two groups and `::`. -/
def net32 (groups : BitVec 16 × BitVec 16) : Ipv6 where
  s6Addr j := [groups.1.extractLsb' 8 8, groups.1.extractLsb' 0 8,
    groups.2.extractLsb' 8 8, groups.2.extractLsb' 0 8].getD j 0

/-- The text of two groups. -/
def groupsText (groups : BitVec 16 × BitVec 16) : List Char :=
  hex groups.1.toNat ++ ':' :: hex groups.2.toNat

/-- `get_ipv6_net32_unused`. -/
def getIpv6Net32Unused (bigEndian : Bool) (ip6 : Ipv6) (bits : ℕ) (rand : ℕ → ℕ) :
    Option (List Char) :=
  if 128 < bits then none
  else
    let free (groups : BitVec 16 × BitVec 16) : Bool :=
      !isInSubnetIpv6 bigEndian ip6 (ipv6Mask bits) (net32 groups)
    ((ipv6Candidates ip6 rand).find? free).map groupsText

end Ipv6

section Masks

variable {bigEndian : Bool}

/-- Four octets in a number are told apart. -/
theorem append_octets_inj {first second third fourth : BitVec 8}
    {first' second' third' fourth' : BitVec 8} :
    first ++ second ++ third ++ fourth = first' ++ second' ++ third' ++ fourth' ↔
      first = first' ∧ second = second' ∧ third = third' ∧ fourth = fourth' := by
  constructor
  · intro hequal
    obtain ⟨hfirst, hsecond, hthird, hfourth⟩ := extract_octets first second third fourth
    obtain ⟨hfirst', hsecond', hthird', hfourth'⟩ :=
      extract_octets first' second' third' fourth'
    rw [hequal] at hfirst hsecond hthird hfourth
    exact ⟨hfirst.symm.trans hfirst', hsecond.symm.trans hsecond',
      hthird.symm.trans hthird', hfourth.symm.trans hfourth'⟩
  · rintro ⟨rfl, rfl, rfl, rfl⟩
    rfl

theorem and_octets (first second third fourth : BitVec 8)
    (first' second' third' fourth' : BitVec 8) :
    (first ++ second ++ third ++ fourth : BitVec 32) &&&
        (first' ++ second' ++ third' ++ fourth' : BitVec 32) =
      (first &&& first') ++ (second &&& second') ++ (third &&& third') ++ (fourth &&& fourth') := by
  have happend : (first ++ second ++ third ++ fourth) &&& (first' ++ second' ++ third' ++ fourth') =
      (first &&& first') ++ (second &&& second') ++ (third &&& third') ++ (fourth &&& fourth') := by
    rw [BitVec.and_append, BitVec.and_append, BitVec.and_append]
  exact happend

/-- Numbers that are made of octets have the same part under a mask when the octets
do. -/
theorem sAddr_and_eq_iff (left right mask : Ipv4) :
    left.sAddr bigEndian &&& mask.sAddr bigEndian =
        right.sAddr bigEndian &&& mask.sAddr bigEndian ↔
      ∀ index < 4, left.byte index &&& mask.byte index =
        right.byte index &&& mask.byte index := by
  have hbytes : (∀ index < 4, left.byte index &&& mask.byte index =
      right.byte index &&& mask.byte index) ↔
      left.first &&& mask.first = right.first &&& mask.first ∧
        left.second &&& mask.second = right.second &&& mask.second ∧
        left.third &&& mask.third = right.third &&& mask.third ∧
        left.fourth &&& mask.fourth = right.fourth &&& mask.fourth := by
    constructor
    · intro hequal
      exact ⟨hequal 0 (by decide), hequal 1 (by decide), hequal 2 (by decide), hequal 3 (by decide)⟩
    · rintro ⟨hfirst, hsecond, hthird, hfourth⟩ index hindex
      interval_cases index
      exacts [hfirst, hsecond, hthird, hfourth]
  rw [hbytes]
  cases bigEndian with
  | true =>
    simp only [Ipv4.sAddr, if_true, and_octets]
    exact append_octets_inj
  | false =>
    simp only [Ipv4.sAddr, Bool.false_eq_true, if_false, and_octets]
    rw [append_octets_inj]
    constructor <;> rintro ⟨hfirst, hsecond, hthird, hfourth⟩ <;>
      exact ⟨hfourth, hthird, hsecond, hfirst⟩

/-- The octets of a mask for whole octets. -/
def maskByte (count index : ℕ) : BitVec 8 := if index < count then 0xff else 0

theorem and_maskByte_iff {left right : BitVec 8} {count index : ℕ} :
    left &&& maskByte count index = right &&& maskByte count index ↔
      (index < count → left = right) := by
  by_cases hindex : index < count
  · have hmask : maskByte count index = BitVec.allOnes 8 := if_pos hindex
    rw [hmask, BitVec.and_allOnes, BitVec.and_allOnes]
    exact ⟨fun hequal _ => hequal, fun hequal => hequal hindex⟩
  · have hmask : maskByte count index = 0 := if_neg hindex
    simp [hmask, hindex]

/-- The octets of the mask that `prefix2mask` returns. -/
theorem prefix2mask_eq {count : ℕ} (hcount : count = 1 ∨ count = 2 ∨ count = 3) :
    prefix2mask bigEndian (8 * count) = Ipv4.sAddr bigEndian
      ⟨maskByte count 0, maskByte count 1, maskByte count 2, maskByte count 3⟩ := by
  rcases hcount with rfl | rfl | rfl <;> cases bigEndian <;> decide

theorem isInSubnetIpv4_iff {count : ℕ} (hcount : count = 1 ∨ count = 2 ∨ count = 3)
    (ip other : Ipv4) :
    isInSubnetIpv4 (ip.sAddr bigEndian) (prefix2mask bigEndian (8 * count))
        (other.sAddr bigEndian) = true ↔
      other ∈ subnet Ipv4.byte ip (8 * count) := by
  rw [isInSubnetIpv4, beq_iff_eq, prefix2mask_eq hcount, sAddr_and_eq_iff, mem_subnet_bytes]
  have hmask (index : ℕ) (hindex : index < 4) : Ipv4.byte
      ⟨maskByte count 0, maskByte count 1, maskByte count 2, maskByte count 3⟩ index =
        maskByte count index := by
    interval_cases index <;> rfl
  constructor
  · intro hbytes index hindex
    have hbyte := hbytes index (by omega)
    rw [hmask index (by omega), and_maskByte_iff] at hbyte
    exact hbyte hindex
  · intro hbytes index hindex
    rw [hmask index hindex, and_maskByte_iff]
    exact hbytes index

theorem ipv6Mask_byte {count index : ℕ} (hindex : index < 16) :
    (ipv6Mask (8 * count)).byte index = maskByte count index := by
  rw [Ipv6.byte, dif_pos hindex, ipv6Mask, maskByte]
  rcases lt_or_ge index count with hinside | hbehind
  · have hleft : 8 ≤ 8 * count - 8 * index := by omega
    have hpositive : 8 * count - 8 * index ≠ 0 := by omega
    simp only [hpositive, hleft, hinside, if_true, if_false]
  · have hzero : 8 * count - 8 * index = 0 := by omega
    simp only [hzero, not_lt.mpr hbehind, if_true, if_false]

theorem word_byte (ip : Ipv6) (word : ℕ) {place : ℕ} (hplace : place < 4) :
    Ipv4.byte ⟨ip.byte (4 * word), ip.byte (4 * word + 1), ip.byte (4 * word + 2),
      ip.byte (4 * word + 3)⟩ place = ip.byte (4 * word + place) := by
  interval_cases place <;> rfl

theorem isInSubnetIpv6_iff {count : ℕ} (hcount : count ≤ 16) (ip other : Ipv6) :
    isInSubnetIpv6 bigEndian ip (ipv6Mask (8 * count)) other = true ↔
      other ∈ subnet Ipv6.byte ip (8 * count) := by
  have hbytes : isInSubnetIpv6 bigEndian ip (ipv6Mask (8 * count)) other = true ↔
      ∀ index < 16, other.byte index &&& maskByte count index =
        ip.byte index &&& maskByte count index := by
    simp only [isInSubnetIpv6, List.all_eq_true, List.mem_range, beq_iff_eq, Ipv6.word,
      sAddr_and_eq_iff]
    constructor
    · intro hwords index hindex
      have hbyte := hwords (index / 4) (by omega) (index % 4) (by omega)
      rwa [word_byte _ _ (by omega), word_byte _ _ (by omega), word_byte _ _ (by omega),
        Nat.div_add_mod, ipv6Mask_byte hindex] at hbyte
    · intro hequal word hword place hplace
      rw [word_byte _ _ hplace, word_byte _ _ hplace, word_byte _ _ hplace,
        ipv6Mask_byte (by omega)]
      exact hequal _ (by omega)
  rw [hbytes, mem_subnet_bytes]
  constructor
  · intro hequal index hindex
    exact and_maskByte_iff.mp (hequal index (by omega)) hindex
  · intro hequal index _
    exact and_maskByte_iff.mpr (hequal index)

end Masks

section Disjoint

variable (bigEndian : Bool) (rand : ℕ → ℕ)

/-- The network that is returned for an IPv4 address is disjoint from its subnet. -/
def Unused16 (ip : Ipv4) (bits : ℕ) : Prop :=
  ∀ first second, getIpv4Net16Unused bigEndian ip bits rand = some (dotted [first, second]) →
    Disjoint (subnet Ipv4.byte ⟨first, second, 0, 0⟩ 16) (subnet Ipv4.byte ip bits)

/-- The network that is returned for an IPv6 address is disjoint from its subnet. -/
def Unused32 (ip6 : Ipv6) (bits : ℕ) : Prop :=
  ∀ first second, getIpv6Net32Unused bigEndian ip6 bits rand = some (groupsText (first, second)) →
    Disjoint (subnet Ipv6.byte (net32 (first, second)) 32) (subnet Ipv6.byte ip6 bits)

/-- The address is in the network 10.23, but not in its first subnet of 24 bits. -/
def Inside16 (ip : Ipv4) (bits : ℕ) : Prop :=
  bits = 24 ∧ ip.first = 10 ∧ ip.second = 23 ∧ ip.third ≠ 0

instance (ip : Ipv4) (bits : ℕ) : Decidable (Inside16 ip bits) :=
  inferInstanceAs (Decidable (_ ∧ _))

/-- The address is in the network fd00:23, but not in its first subnet of that
size. -/
def Inside32 (ip6 : Ipv6) (bits : ℕ) : Prop :=
  bits ≤ 128 ∧ (ip6.byte 0 = 0xfd ∧ ip6.byte 1 = 0 ∧ ip6.byte 2 = 0 ∧ ip6.byte 3 = 0x23) ∧
    ∃ index < bits / 8, 4 ≤ index ∧ ip6.byte index ≠ 0

instance (ip6 : Ipv6) (bits : ℕ) : Decidable (Inside32 ip6 bits) :=
  inferInstanceAs (Decidable (_ ∧ _))

theorem getD_of_length_le {bytes : List (BitVec 8)} {index : ℕ}
    (hindex : bytes.length ≤ index) : bytes.getD index 0 = 0 := by
  rw [List.getD_eq_getElem?_getD, List.getElem?_eq_none hindex]
  rfl

theorem net16_zero (octets : BitVec 8 × BitVec 8) {index : ℕ} (hindex : 2 ≤ index) :
    (net16 octets).byte index = 0 := by
  obtain ⟨place, rfl⟩ := Nat.exists_eq_add_of_le hindex
  match place with
  | 0 => rfl
  | 1 => rfl
  | place + 2 => exact getD_of_length_le (show 4 ≤ 2 + (place + 2) by omega)

theorem net32_zero (groups : BitVec 16 × BitVec 16) {index : ℕ} (hindex : 4 ≤ index) :
    (net32 groups).byte index = 0 := by
  rw [Ipv6.byte]
  split
  · exact getD_of_length_le hindex
  · rfl

theorem groupsText_injective : Function.Injective groupsText := by
  rintro ⟨first, second⟩ ⟨first', second'⟩ htext
  obtain ⟨hfirst, hrest⟩ := hex_append_inj htext
  exact Prod.ext (BitVec.eq_of_toNat_eq hfirst) (BitVec.eq_of_toNat_eq (hex_injective hrest))

variable {rand bigEndian}

theorem unused16_iff {ip : Ipv4} {count : ℕ} (hcount : count = 1 ∨ count = 2 ∨ count = 3) :
    Unused16 bigEndian rand ip (8 * count) ↔ ¬Inside16 ip (8 * count) := by
  have hsearch := @find_disjoint_iff Ipv4 (BitVec 8 × BitVec 8) Ipv4.byte net16 ip 2 count
    (fun octets => !isInSubnetIpv4 (ip.sAddr bigEndian) (prefix2mask bigEndian (8 * count))
      ((net16 octets).sAddr bigEndian))
    (10, 23) ((ipv4Candidates bigEndian ip rand).drop 1)
    (fun octets index => net16_zero octets)
    (fun octets => by
      rw [Bool.not_eq_true', ← Bool.not_eq_true, isInSubnetIpv4_iff hcount])
  have hinside : Inside16 ip (8 * count) ↔
      (∀ index < 2, (net16 (10, 23)).byte index = ip.byte index) ∧
        ∃ index < count, 2 ≤ index ∧ ip.byte index ≠ 0 := by
    constructor
    · rintro ⟨hbits, hfirst, hsecond, hthird⟩
      refine ⟨fun index hindex => ?_, 2, by omega, le_rfl, hthird⟩
      interval_cases index
      exacts [hfirst.symm, hsecond.symm]
    · rintro ⟨hsame, index, hindex, hfrom, hbyte⟩
      have hindex2 : index = 2 := by omega
      subst hindex2
      exact ⟨by omega, (hsame 0 (by decide)).symm, (hsame 1 (by decide)).symm, hbyte⟩
  rw [hinside, ← hsearch]
  constructor
  · rintro hunused ⟨first, second⟩ hfound
    refine hunused first second ?_
    exact congrArg (Option.map fun octets : BitVec 8 × BitVec 8 =>
      dotted [octets.1, octets.2]) hfound
  · intro hdisjoint first second htext
    obtain ⟨⟨first', second'⟩, hfound, hdotted⟩ := Option.map_eq_some_iff.mp htext
    have hlength : [first', second'].length = [first, second].length := rfl
    cases dotted_inj hlength hdotted
    exact hdisjoint (first, second) hfound

theorem unused32_iff {ip6 : Ipv6} {count : ℕ} :
    Unused32 bigEndian rand ip6 (8 * count) ↔ ¬Inside32 ip6 (8 * count) := by
  by_cases hlarge : 128 < 8 * count
  · constructor
    · intro _ hinside
      exact absurd hinside.1 (not_le.mpr hlarge)
    · intro _ first second htext
      rw [getIpv6Net32Unused, if_pos hlarge] at htext
      cases htext
  have hcount : count ≤ 16 := by omega
  have hsearch := @find_disjoint_iff Ipv6 (BitVec 16 × BitVec 16) Ipv6.byte net32 ip6 4 count
    (fun groups => !isInSubnetIpv6 bigEndian ip6 (ipv6Mask (8 * count)) (net32 groups))
    (.ofNat 16 (256 * 0xfd), 0x23) ((ipv6Candidates ip6 rand).drop 1)
    (fun groups index => net32_zero groups)
    (fun groups => by
      rw [Bool.not_eq_true', ← Bool.not_eq_true, isInSubnetIpv6_iff hcount])
  have hinside : Inside32 ip6 (8 * count) ↔
      (∀ index < 4, (net32 (.ofNat 16 (256 * 0xfd), 0x23)).byte index = ip6.byte index) ∧
        ∃ index < count, 4 ≤ index ∧ ip6.byte index ≠ 0 := by
    rw [Inside32, Nat.mul_div_cancel_left count (by decide)]
    constructor
    · rintro ⟨-, ⟨hzeroth, hfirst, hsecond, hthird⟩, hbehind⟩
      refine ⟨fun index hindex => ?_, hbehind⟩
      interval_cases index
      exacts [hzeroth.symm, hfirst.symm, hsecond.symm, hthird.symm]
    · rintro ⟨hsame, hbehind⟩
      exact ⟨not_lt.mp hlarge, ⟨(hsame 0 (by decide)).symm, (hsame 1 (by decide)).symm,
        (hsame 2 (by decide)).symm, (hsame 3 (by decide)).symm⟩, hbehind⟩
  rw [hinside, ← hsearch]
  constructor
  · rintro hunused ⟨first, second⟩ hfound
    refine hunused first second ?_
    rw [getIpv6Net32Unused, if_neg hlarge]
    exact congrArg (Option.map groupsText) hfound
  · intro hdisjoint first second htext
    rw [getIpv6Net32Unused, if_neg hlarge] at htext
    obtain ⟨⟨first', second'⟩, hfound, hgroups⟩ := Option.map_eq_some_iff.mp htext
    cases groupsText_injective hgroups
    exact hdisjoint (first, second) hfound

/-- The returned networks are disjoint from the local subnet exactly when the local
address is not in the default network behind its first part. -/
theorem unused_networks_disjoint_iff : (∀ ip bits, bits ∈ [8, 16, 24] →
      (Unused16 bigEndian rand ip bits ↔ ¬Inside16 ip bits)) ∧
    ∀ ip6 bits, 16 ∣ bits → (Unused32 bigEndian rand ip6 bits ↔ ¬Inside32 ip6 bits) := by
  constructor
  · intro ip bits hbits
    have hcount : ∃ count, (count = 1 ∨ count = 2 ∨ count = 3) ∧ bits = 8 * count := by
      refine ⟨bits / 8, ?_⟩
      simp only [List.mem_cons, List.not_mem_nil, or_false] at hbits
      omega
    obtain ⟨count, hcount, rfl⟩ := hcount
    exact unused16_iff hcount
  · rintro ip6 bits ⟨groups, rfl⟩
    rw [show 16 * groups = 8 * (2 * groups) by ring]
    exact unused32_iff

/-- A private address, and one in the first part of the default network. -/
theorem unused_networks_disjoint_start : Unused16 false id ⟨192, 168, 1, 10⟩ 24 ∧
      Unused32 false id (net32 (0xfd00, 0x23)) 64 := by
  obtain ⟨hipv4, hipv6⟩ := @unused_networks_disjoint_iff false id
  exact ⟨(hipv4 ⟨192, 168, 1, 10⟩ 24 (by decide)).mpr (by decide),
    (hipv6 (net32 (0xfd00, 0x23)) 64 (by decide)).mpr (by decide)⟩

/-- The local subnets 10.23.5.0/24 and fd00:23:1::/48 are parts of the networks that
are returned as unused. -/
theorem unused_networks_overlap :
    getIpv4Net16Unused false ⟨10, 23, 5, 1⟩ 24 id = some "10.23".toList ∧
      (⟨10, 23, 5, 1⟩ : Ipv4) ∈ subnet Ipv4.byte ⟨10, 23, 0, 0⟩ 16 ∧
      getIpv6Net32Unused false ⟨![0xfd, 0, 0, 0x23, 0, 1, 0, 0, 0, 0, 0, 0, 0, 0, 0, 1]⟩ 48 id =
          some "fd00:23".toList ∧
      (⟨![0xfd, 0, 0, 0x23, 0, 1, 0, 0, 0, 0, 0, 0, 0, 0, 0, 1]⟩ : Ipv6) ∈
        subnet Ipv6.byte (net32 (0xfd00, 0x23)) 32 := by
  refine ⟨by decide +kernel, ?_, by decide +kernel, ?_⟩
  · exact mem_subnet_bytes.mpr (by decide : ∀ index < 2, _)
  · exact mem_subnet_bytes.mpr (by decide : ∀ index < 4, _)

end Disjoint

end GrapheneLtp.NetVars
