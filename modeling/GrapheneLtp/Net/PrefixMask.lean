import GrapheneLtp.Core.Strtol
import GrapheneLtp.Net.UnusedNetwork

/-!
# Prefixes given as masks

`tst_net.c` takes a prefix from a text such as `10.0.0.1/255.255.255.0`.  The bits of the
mask are counted from the lowest one up, and the count ends with the highest one that is
set: that the bits above it are zero is not noticed.
-/

namespace GrapheneLtp.NetVars

open CString Decimal Strtol CheckedInt

section Code

/-- `inet_pton` for an IPv4 address: the octets that are read, and the one that is being
read once it has a digit. -/
def inetPtonLoop : List Char → List ℕ → Option ℕ → Option (List ℕ)
  | [], octets, some current => if octets.length = 3 then some (octets ++ [current]) else none
  | [], _, none => none
  | c :: rest, octets, current =>
    if c.isDigit then
      let value := current.getD 0 * 10 + (c.toNat - '0'.toNat)
      if current = some 0 ∨ 255 < value ∨ current = none ∧ octets.length = 4 then none
      else inetPtonLoop rest octets (some value)
    else
      match current with
      | some value =>
        if c = '.' ∧ octets.length < 3 then inetPtonLoop rest (octets ++ [value]) none else none
      | none => none

def inetPton (text : List Char) : Option Ipv4 :=
  match inetPtonLoop text [] none with
  | some [first, second, third, fourth] =>
    some ⟨.ofNat 8 first, .ofNat 8 second, .ofNat 8 third, .ofNat 8 fourth⟩
  | _ => none

/-- The loop of `tst_bit_count`.  After 32 rounds there is no bit left. -/
def bitCountLoop : ℕ → ℕ → Bool → ℤ → ℤ
  | 0, _, _, c => c
  | rounds + 1, i, seenOne, c =>
    if i = 0 then c
    else if i % 2 = 1 then bitCountLoop rounds (i / 2) true (c + 1)
    else if seenOne then -1
    else bitCountLoop rounds (i / 2) false c

/-- `tst_bit_count`. -/
def tstBitCount (i : BitVec 32) : ℤ := bitCountLoop 32 i.toNat false 0

/-- `tst_mask2prefix`. -/
def tstMask2prefix (bigEndian : Bool) (mask : Ipv4) : ℤ :=
  tstBitCount (htonl bigEndian (mask.sAddr bigEndian))

/-- `tst_ipv4_mask_to_int`. -/
def tstIpv4MaskToInt (bigEndian : Bool) (text : List Char) : ℤ :=
  match inetPton text with
  | none => -1
  | some mask => tstMask2prefix bigEndian mask

/-- `tst_safe_atoi`, without the error number. -/
def tstSafeAtoi (text : List Char) : Option ℤ :=
  match strtoll readAnyBase text with
  | some (value, true, []) => inInt value
  | _ => none

/-- The return value, or the message that ends the program. -/
inductive Prefixed where
  | returned (value : ℤ)
  | broken (message : List Char)
  deriving DecidableEq, Repr

/-- The last check of `tst_get_prefix`. -/
def checkPrefix (isIpv6 : Bool) (text : List Char) (value : ℤ) : Prefixed :=
  if value < 0 ∨ (if isIpv6 then 128 else 32) < value then
    .broken ("bad ".toList ++ (if isIpv6 then "IPv6" else "IPv4").toList ++ " prefix: ".toList ++
      text)
  else .returned value

/-- `tst_get_prefix`. -/
def tstGetPrefix (bigEndian : Bool) (ipStr : List Char) (isIpv6 : Bool) : Prefixed :=
  if '/' ∉ ipStr then .returned (-1)
  else
    let text := (ipStr.dropWhile fun c => c != '/').tail
    if isIpv6 = false ∧ '.' ∈ text then
      checkPrefix isIpv6 text (tstIpv4MaskToInt bigEndian text)
    else
      match tstSafeAtoi text with
      | some value => checkPrefix isIpv6 text value
      | none => .broken ("conversion error: '".toList ++ text ++ "' is not integer".toList)

end Code

section Meaning

/-- The 32 bits of a mask. -/
def Ipv4.bits (mask : Ipv4) : BitVec 32 := mask.first ++ mask.second ++ mask.third ++ mask.fourth

/-- Exactly `count` one bits followed by zero bits. -/
def Ones (mask : Ipv4) (count : ℕ) : Prop :=
  count ≤ 32 ∧ mask.bits = BitVec.allOnes 32 <<< (32 - count)

/-- What the functions should do with a mask. -/
structure Masked (bigEndian : Bool) (address mask : Ipv4) : Prop where
  returned : ∀ count : ℕ,
    tstGetPrefix bigEndian (address.text ++ '/' :: mask.text) false = .returned count ↔
      Ones mask count
  rejected : (∀ count, ¬Ones mask count) →
    ∃ message, tstGetPrefix bigEndian (address.text ++ '/' :: mask.text) false = .broken message
  back : ∀ count : ℕ,
    tstGetPrefix bigEndian (address.text ++ '/' :: mask.text) false = .returned count →
      prefix2mask bigEndian count = mask.sAddr bigEndian

/-- The one bits of a number stand side by side. -/
def Run (i : ℕ) : Prop := ∃ low count : ℕ, i = 2 ^ low * (2 ^ count - 1)

end Meaning

section Counting

theorem half_pow_sub_one (count : ℕ) : (2 ^ (count + 1) - 1) / 2 = 2 ^ count - 1 := by
  have hpos : 0 < 2 ^ count := by positivity
  rw [pow_succ]
  omega

/-- The loop after a one bit: only ones may follow. -/
theorem bitCountLoop_seen {rounds i : ℕ} (hi : i < 2 ^ rounds) (c : ℤ) :
    (∃ count : ℕ, i = 2 ^ count - 1 ∧ bitCountLoop rounds i true c = c + count) ∨
      (∀ count : ℕ, i ≠ 2 ^ count - 1) ∧ bitCountLoop rounds i true c = -1 := by
  induction rounds generalizing i c with
  | zero =>
    obtain rfl : i = 0 := by simpa using hi
    exact .inl ⟨0, rfl, by simp [bitCountLoop]⟩
  | succ rounds ih =>
    rw [bitCountLoop]
    by_cases hzero : i = 0
    · exact .inl ⟨0, by simp [hzero], by simp [hzero]⟩
    rw [if_neg hzero]
    by_cases hodd : i % 2 = 1
    · rw [if_pos hodd]
      rcases @ih (i / 2) (by rw [pow_succ] at hi; omega) (c + 1) with
        ⟨count, hcount, hloop⟩ | ⟨hnone, hloop⟩
      · refine .inl ⟨count + 1, ?_, ?_⟩
        · have hpos : 0 < 2 ^ count := by positivity
          rw [pow_succ]
          omega
        · rw [hloop]
          push_cast
          ring
      · refine .inr ⟨?_, hloop⟩
        rintro count rfl
        cases count with
        | zero => exact hzero rfl
        | succ count => exact hnone count (half_pow_sub_one count)
    · rw [if_neg hodd, if_pos rfl]
      refine .inr ⟨?_, rfl⟩
      rintro count rfl
      cases count with
      | zero => exact hzero rfl
      | succ count =>
        have hpos : 0 < 2 ^ count := by positivity
        rw [pow_succ] at hodd
        omega

/-- The whole loop: the length of the run of ones, or -1. -/
theorem bitCountLoop_run {rounds i : ℕ} (hi : i < 2 ^ rounds) :
    (∃ low count : ℕ, i = 2 ^ low * (2 ^ count - 1) ∧
      bitCountLoop rounds i false 0 = (count : ℤ)) ∨
      ¬Run i ∧ bitCountLoop rounds i false 0 = -1 := by
  induction rounds generalizing i with
  | zero =>
    obtain rfl : i = 0 := by simpa using hi
    exact .inl ⟨0, 0, rfl, rfl⟩
  | succ rounds ih =>
    rw [bitCountLoop]
    by_cases hzero : i = 0
    · exact .inl ⟨0, 0, by simp [hzero], by simp [hzero]⟩
    rw [if_neg hzero]
    have hhalf : i / 2 < 2 ^ rounds := by
      rw [pow_succ] at hi
      omega
    by_cases hodd : i % 2 = 1
    · rw [if_pos hodd]
      rcases bitCountLoop_seen hhalf (0 + 1) with ⟨count, hcount, hloop⟩ | ⟨hnone, hloop⟩
      · refine .inl ⟨0, count + 1, ?_, ?_⟩
        · have hpos : 0 < 2 ^ count := by positivity
          rw [pow_zero, one_mul, pow_succ]
          omega
        · rw [hloop]
          push_cast
          ring
      · refine .inr ⟨?_, hloop⟩
        rintro ⟨low, count, rfl⟩
        cases low with
        | succ low =>
          rw [pow_succ, mul_right_comm, Nat.mul_mod_left] at hodd
          cases hodd
        | zero =>
          rw [pow_zero, one_mul] at hnone hzero
          cases count with
          | zero => exact hzero rfl
          | succ count => exact hnone count (half_pow_sub_one count)
    · rw [if_neg hodd, if_neg Bool.false_ne_true]
      rcases @ih (i / 2) hhalf with ⟨low, count, hrun, hloop⟩ | ⟨hnone, hloop⟩
      · refine .inl ⟨low + 1, count, ?_, hloop⟩
        rw [pow_succ, mul_right_comm, ← hrun]
        omega
      · refine .inr ⟨?_, hloop⟩
        rintro ⟨low, count, rfl⟩
        cases low with
        | zero =>
          cases count with
          | zero => exact hzero rfl
          | succ count =>
            have hpos : 0 < 2 ^ count := by positivity
            rw [pow_zero, one_mul, pow_succ] at hodd
            omega
        | succ low =>
          refine hnone ⟨low, count, ?_⟩
          rw [pow_succ, mul_right_comm, Nat.mul_div_cancel _ (by decide)]

/-- A run of ones has one place and one length. -/
theorem run_unique {low count low' count' : ℕ} (hcount : count ≠ 0)
    (hrun : 2 ^ low * (2 ^ count - 1) = 2 ^ low' * (2 ^ count' - 1)) :
    low = low' ∧ count = count' := by
  have hodd {n : ℕ} (hn : n ≠ 0) : (2 ^ n - 1) % 2 = 1 := by
    obtain ⟨n, rfl⟩ := Nat.exists_eq_succ_of_ne_zero hn
    have hpos : 0 < 2 ^ n := by positivity
    rw [Nat.succ_eq_add_one, pow_succ]
    omega
  have hcount' : count' ≠ 0 := by
    rintro rfl
    have hone := hodd hcount
    rw [pow_zero, Nat.sub_self, mul_zero, mul_eq_zero] at hrun
    rcases hrun with hpow | hones
    · exact absurd hpow (by positivity)
    · rw [hones] at hone
      cases hone
  -- The lower of the two places gives an odd number on its side and an even one on the other.
  have hplace {low low' count count' : ℕ} (hcount : count ≠ 0) (hlt : low < low')
      (hrun : 2 ^ low * (2 ^ count - 1) = 2 ^ low' * (2 ^ count' - 1)) : False := by
    obtain ⟨more, rfl⟩ := Nat.exists_eq_add_of_lt hlt
    have hone := hodd hcount
    rw [pow_succ, pow_add, mul_assoc, mul_assoc] at hrun
    have hcancel := Nat.eq_of_mul_eq_mul_left (show 0 < 2 ^ low by positivity) hrun
    rw [hcancel, mul_left_comm, Nat.mul_mod_right] at hone
    cases hone
  obtain rfl : low = low' := by
    rcases lt_trichotomy low low' with hlt | heq | hgt
    · exact (hplace hcount hlt hrun).elim
    · exact heq
    · exact (hplace hcount' hgt hrun.symm).elim
  have hcancel := Nat.eq_of_mul_eq_mul_left (show 0 < 2 ^ low by positivity) hrun
  refine ⟨rfl, Nat.pow_right_injective le_rfl ?_⟩
  have hpos : 0 < 2 ^ count := by positivity
  have hpos' : 0 < 2 ^ count' := by positivity
  change 2 ^ count = 2 ^ count'
  omega

end Counting

section Texts

theorem slash_not_mem_decimal (value : ℕ) : '/' ∉ decimal value := by
  intro hmem
  exact absurd (isDigit_of_mem_decimal hmem) (by decide)

/-- The text of an address, octet by octet. -/
theorem Ipv4.text_eq (ip : Ipv4) : ip.text = decimal ip.first.toNat ++ '.' ::
    (decimal ip.second.toNat ++ '.' :: (decimal ip.third.toNat ++ '.' ::
      decimal ip.fourth.toNat)) := by
  rw [Ipv4.text, Ipv4.octets, dotted_cons _ (by simp), dotted_cons _ (by simp),
    dotted_cons _ (by simp), dotted_singleton]

theorem slash_not_mem_text (ip : Ipv4) : '/' ∉ ip.text := by
  simp [Ipv4.text_eq, slash_not_mem_decimal]

/-- Digits behind a digit that is not zero, as long as the value fits. -/
theorem inetPtonLoop_digits {digits : List Char} (hdigits : ∀ c ∈ digits, c.isDigit = true)
    {value : ℕ} (hvalue : value ≠ 0) (hfits : Nat.ofDigitChars 10 digits value ≤ 255)
    (rest : List Char) (octets : List ℕ) :
    inetPtonLoop (digits ++ rest) octets (some value) =
      inetPtonLoop rest octets (some (Nat.ofDigitChars 10 digits value)) := by
  induction digits generalizing value with
  | nil => rfl
  | cons c digits ih =>
    obtain ⟨hc, hothers⟩ := List.forall_mem_cons.mp hdigits
    rw [Nat.ofDigitChars_cons] at hfits ⊢
    have hgrows (digits : List Char) (value : ℕ) : value ≤ Nat.ofDigitChars 10 digits value := by
      rw [Nat.ofDigitChars_eq_ofDigitChars_zero]
      have hpow : 0 < 10 ^ digits.length := by positivity
      nlinarith
    have hnext := (hgrows digits (10 * value + (c.toNat - '0'.toNat))).trans hfits
    have hvalue' : 10 * value + (c.toNat - '0'.toNat) ≠ 0 := by omega
    rw [List.cons_append, inetPtonLoop, if_pos hc]
    simp only [Option.getD_some, Option.some_inj, hvalue, reduceCtorEq, false_and,
      or_false, mul_comm value 10, not_lt.mpr hnext, if_false]
    exact ih hothers hvalue' hfits

/-- An octet in decimal is read. -/
theorem inetPtonLoop_decimal (octet : BitVec 8) {rest : List Char} {octets : List ℕ}
    (hoctets : octets.length ≠ 4) :
    inetPtonLoop (decimal octet.toNat ++ rest) octets none =
      inetPtonLoop rest octets (some octet.toNat) := by
  have hdigits : ∀ c ∈ decimal octet.toNat, c.isDigit = true :=
    fun c hc => isDigit_of_mem_decimal hc
  have hvalue := digitsValue_decimal octet.toNat
  have hlt : octet.toNat < 256 := octet.isLt
  obtain ⟨c, digits, hcons⟩ := List.exists_cons_of_ne_nil (decimal_ne_nil octet.toNat)
  rw [hcons] at hdigits hvalue ⊢
  obtain ⟨hc, hothers⟩ := List.forall_mem_cons.mp hdigits
  rw [digitsValue, Nat.ofDigitChars_cons, mul_zero, zero_add] at hvalue
  have hrange : 48 ≤ c.toNat ∧ c.toNat ≤ 57 := by
    simpa [Char.isDigit, UInt32.le_iff_toNat_le] using hc
  have hbase : '0'.toNat = 48 := rfl
  have hfirst : c.toNat - '0'.toNat ≤ 9 := by omega
  rw [List.cons_append, inetPtonLoop, if_pos hc]
  simp only [Option.getD_none, zero_mul, zero_add, reduceCtorEq, true_and, hoctets,
    or_false, not_lt.mpr (hfirst.trans (show 9 ≤ 255 by decide)), if_false]
  by_cases hzero : c.toNat - '0'.toNat = 0
  · -- A zero in front is the whole number.
    obtain rfl : c = '0' := by
      apply Char.ext
      apply UInt32.toNat_inj.mp
      change c.toNat = 48
      omega
    have hwhole := @decimal_of_head_zero octet.toNat (by rw [hcons]; rfl)
    rw [hwhole] at hcons
    obtain ⟨-, rfl⟩ := List.cons.inj hcons
    rw [Nat.ofDigitChars_nil] at hvalue
    rw [List.nil_append, hvalue]
  · rw [inetPtonLoop_digits hothers hzero (by omega), hvalue]

/-- `inet_pton` reads the text of an address. -/
theorem inetPton_text (ip : Ipv4) : inetPton ip.text = some ip := by
  have hdot (value : ℕ) (rest : List Char) {octets : List ℕ} (hoctets : octets.length < 3) :
      inetPtonLoop ('.' :: rest) octets (some value) =
        inetPtonLoop rest (octets ++ [value]) none := by
    have hdigit : ¬ '.'.isDigit = true := by decide
    rw [inetPtonLoop, if_neg hdigit]
    simp only [true_and, if_pos hoctets]
  have hlast (octet : BitVec 8) {octets : List ℕ} (hoctets : octets.length = 3) :
      inetPtonLoop (decimal octet.toNat) octets none = some (octets ++ [octet.toNat]) := by
    have hread := @inetPtonLoop_decimal octet [] octets (by omega)
    rw [List.append_nil] at hread
    rw [hread, inetPtonLoop, if_pos hoctets]
  have hloop : inetPtonLoop ip.text [] none =
      some [ip.first.toNat, ip.second.toNat, ip.third.toNat, ip.fourth.toNat] := by
    rw [Ipv4.text_eq, inetPtonLoop_decimal _ (by decide), hdot _ _ (by decide),
      inetPtonLoop_decimal _ (by simp), hdot _ _ (by simp), inetPtonLoop_decimal _ (by simp),
      hdot _ _ (by simp), hlast _ (by simp)]
    rfl
  rw [inetPton, hloop]
  simp

/-- The function looks at the bits of the mask only. -/
theorem tstGetPrefix_mask (bigEndian : Bool) (address mask : Ipv4) :
    tstGetPrefix bigEndian (address.text ++ '/' :: mask.text) false =
      checkPrefix false mask.text (tstBitCount mask.bits) := by
  have hslash : ¬ '/' ∉ address.text ++ '/' :: mask.text := by simp
  have htail : ((address.text ++ '/' :: mask.text).dropWhile fun c => c != '/').tail =
      mask.text := by
    rw [dropWhile_append_stop (fun c hc => ?_) (by simp), List.tail_cons]
    simpa using ne_of_mem_of_not_mem hc (slash_not_mem_text address)
  have hdot : '.' ∈ mask.text := by simp [Ipv4.text_eq]
  rw [tstGetPrefix, if_neg hslash]
  simp only [htail, hdot, and_self, if_true, tstIpv4MaskToInt, inetPton_text, tstMask2prefix,
    htonl_sAddr]
  rfl

end Texts

section Masks

variable {mask : Ipv4}

theorem ones_iff {count : ℕ} : Ones mask count ↔
    count ≤ 32 ∧ mask.bits.toNat = 2 ^ (32 - count) * (2 ^ count - 1) := by
  have hvalue : ∀ count ≤ 32, (BitVec.allOnes 32 <<< (32 - count)).toNat =
      2 ^ (32 - count) * (2 ^ count - 1) := by decide
  refine and_congr_right fun hcount => ?_
  rw [← BitVec.toNat_inj, hvalue count hcount]

/-- The shift formula gives the mask back. -/
theorem Ones.prefix2mask {count : ℕ} (hones : Ones mask count) (bigEndian : Bool) :
    NetVars.prefix2mask bigEndian count = mask.sAddr bigEndian := by
  have hformula : ∀ count ≤ 32, (if count ≠ 0 then ~~~((1#32 <<< (32 - count)) - 1) else 0) =
      BitVec.allOnes 32 <<< (32 - count) := by decide
  have hback : htonl bigEndian mask.bits = mask.sAddr bigEndian := by
    cases bigEndian with
    | true => rfl
    | false =>
      obtain ⟨hfirst, hsecond, hthird, hfourth⟩ :=
        extract_octets mask.first mask.second mask.third mask.fourth
      simp only [htonl, Ipv4.bits, Ipv4.sAddr, Bool.false_eq_true, if_false, hfirst, hsecond,
        hthird, hfourth]
  rw [← hback, hones.2, ← hformula count hones.1, NetVars.prefix2mask]
  split_ifs <;> rfl

/-- A count of bits that the loop returns is a prefix. -/
theorem count_le {i low count : ℕ} (hi : i < 2 ^ 32) (hrun : i = 2 ^ low * (2 ^ count - 1)) :
    count ≤ 32 := by
  by_contra hlarge
  have hpow : 2 ^ 33 ≤ 2 ^ count := Nat.pow_le_pow_right (by decide) (by omega)
  have hlow : 0 < 2 ^ low := by positivity
  have hle : 2 ^ count - 1 ≤ i := by
    rw [hrun]
    exact Nat.le_mul_of_pos_left _ hlow
  omega

/-- What the code does: it returns the length of a run of ones, wherever the run is. -/
theorem tstGetPrefix_run (bigEndian : Bool) (address mask : Ipv4) :
    (∃ low count : ℕ, mask.bits.toNat = 2 ^ low * (2 ^ count - 1) ∧
      tstGetPrefix bigEndian (address.text ++ '/' :: mask.text) false = .returned count) ∨
      ¬Run mask.bits.toNat ∧ ∃ message,
        tstGetPrefix bigEndian (address.text ++ '/' :: mask.text) false = .broken message := by
  have hbits : mask.bits.toNat < 2 ^ 32 := mask.bits.isLt
  rw [tstGetPrefix_mask, tstBitCount]
  rcases bitCountLoop_run hbits with ⟨low, count, hrun, hloop⟩ | ⟨hnone, hloop⟩
  · refine .inl ⟨low, count, hrun, ?_⟩
    have hcount := count_le hbits hrun
    rw [hloop, checkPrefix, if_neg]
    simp only [Bool.false_eq_true, if_false]
    omega
  · obtain ⟨message, hmessage⟩ : ∃ message, checkPrefix false mask.text (-1) = .broken message :=
      ⟨_, if_pos (.inl (by decide))⟩
    exact .inr ⟨hnone, message, by rw [hloop, hmessage]⟩

/-- A run of ones that begins with the highest bit. -/
theorem ones_of_msb {low count : ℕ} (hrun : mask.bits.toNat = 2 ^ low * (2 ^ count - 1))
    (hmsb : mask.bits.msb = true) : Ones mask count := by
  have hbits : mask.bits.toNat < 2 ^ 32 := mask.bits.isLt
  have hcount := count_le hbits hrun
  rw [BitVec.msb_eq_decide, decide_eq_true_iff] at hmsb
  refine ones_iff.mpr ⟨hcount, ?_⟩
  have hpos : count ≠ 0 := by
    rintro rfl
    rw [hrun, pow_zero, Nat.sub_self, mul_zero] at hmsb
    exact absurd hmsb (by decide)
  have hplace : low + count = 32 := by
    have hpow : 0 < 2 ^ low := by positivity
    have hbelow : mask.bits.toNat < 2 ^ (low + count) := by
      rw [hrun, pow_add]
      exact Nat.mul_lt_mul_of_pos_left (Nat.sub_lt (by positivity) Nat.one_pos) hpow
    have habove : 2 ^ (low + count - 1) ≤ mask.bits.toNat := by
      rw [hrun, Nat.add_sub_assoc (by omega), pow_add]
      refine Nat.mul_le_mul_left _ ?_
      obtain ⟨count, rfl⟩ := Nat.exists_eq_succ_of_ne_zero hpos
      have hones : 0 < 2 ^ count := by positivity
      rw [Nat.succ_sub_one, Nat.succ_eq_add_one, pow_succ]
      omega
    have hlarge : 31 < low + count :=
      (Nat.pow_lt_pow_iff_right (by decide : 1 < 2)).mp (lt_of_le_of_lt hmsb hbelow)
    have hsmall : low + count - 1 < 32 :=
      (Nat.pow_lt_pow_iff_right (by decide : 1 < 2)).mp (lt_of_le_of_lt habove hbits)
    omega
  rw [hrun]
  congr 2
  omega

/-- The counts that a mask stands for are those of its run. -/
theorem ones_unique {low count other : ℕ} (hrun : mask.bits.toNat = 2 ^ low * (2 ^ count - 1))
    (hones : Ones mask other) : other = count := by
  have hother := (ones_iff.mp hones).2
  rw [hrun] at hother
  by_cases hcount : count = 0
  · by_contra hne
    have hunique := run_unique (fun hzero => hne (hzero.trans hcount.symm)) hother.symm
    exact hne hunique.2
  · exact (run_unique hcount hother).2.symm

/-- For every address and every mask, the prefix is that of the mask and other masks are
rejected exactly if the mask is zero, has its highest bit set, or has ones that do not
stand side by side. -/
theorem tstGetPrefix_iff (bigEndian : Bool) (address mask : Ipv4) :
    Masked bigEndian address mask ↔
      mask.bits = 0 ∨ mask.bits.msb = true ∨ ¬Run mask.bits.toNat := by
  rcases tstGetPrefix_run bigEndian address mask with
    ⟨low, count, hrun, hreturned⟩ | ⟨hnone, message, hbroken⟩
  · constructor
    · intro hmasked
      have hones := (hmasked.returned count).mp hreturned
      by_cases hzero : count = 0
      · left
        rw [hones.2, hzero]
        decide
      · right
        left
        have hmsb : ∀ count ≤ 32, count ≠ 0 → (BitVec.allOnes 32 <<< (32 - count)).msb = true := by
          decide
        rw [hones.2]
        exact hmsb count hones.1 hzero
    · intro hcondition
      have hones : Ones mask count := by
        rcases hcondition with hzero | hmsb | hnone
        · have hcount : count = 0 := by
            rw [hzero] at hrun
            by_contra hne
            exact hne (run_unique hne (show 2 ^ low * (2 ^ count - 1) = 2 ^ 0 * (2 ^ 0 - 1) from
              hrun.symm)).2
          subst hcount
          exact ⟨by decide, by rw [hzero]; decide⟩
        · exact ones_of_msb hrun hmsb
        · exact absurd ⟨low, count, hrun⟩ hnone
      refine ⟨fun other => ?_, fun hnone => absurd hones (hnone count), fun other hother => ?_⟩
      · rw [hreturned]
        constructor
        · intro heq
          obtain rfl : count = other := by simpa using heq
          exact hones
        · intro hother
          rw [ones_unique hrun hother]
      · rw [hreturned] at hother
        obtain rfl : count = other := by simpa using hother
        exact hones.prefix2mask bigEndian
  · refine ⟨fun _ => .inr (.inr hnone), fun _ => ⟨fun other => ?_, fun _ => ⟨message, hbroken⟩,
      fun other hother => ?_⟩⟩
    · rw [hbroken]
      refine ⟨fun heq => by simp at heq, fun hones => ?_⟩
      exact absurd ⟨_, _, (ones_iff.mp hones).2⟩ hnone
    · rw [hbroken] at hother
      simp at hother

/-- The mask 0.0.255.0 is taken for the prefix 8. -/
theorem tstGetPrefix_low_run : ¬Masked false ⟨10, 0, 0, 1⟩ ⟨0, 0, 255, 0⟩ := by
  intro hmasked
  have hones := (hmasked.returned 8).mp (by rw [tstGetPrefix_mask]; decide)
  revert hones
  unfold Ones
  decide

end Masks

end GrapheneLtp.NetVars
