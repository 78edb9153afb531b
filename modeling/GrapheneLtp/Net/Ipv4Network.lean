import Mathlib.Tactic
import GrapheneLtp.Core.Decimal

/-!
# Network and host part of IPv4 addresses

`tst_net_vars.c` cuts an address at a prefix of whole octets and exports both
parts as text.  The network part is taken from the wrong octets unless the
prefix is 24.
-/

namespace GrapheneLtp.NetVars

open CString Decimal

section Addresses

/-- The octets of an address, in the order of `struct in_addr` in memory. -/
structure Ipv4 where
  first : BitVec 8
  second : BitVec 8
  third : BitVec 8
  fourth : BitVec 8
deriving DecidableEq, Repr

def Ipv4.octets (ip : Ipv4) : List (BitVec 8) := [ip.first, ip.second, ip.third, ip.fourth]

/-- Octets in decimal with dots between them. -/
def dotted (octets : List (BitVec 8)) : List Char :=
  List.intercalate ['.'] (octets.map fun octet => decimal octet.toNat)

/-- The text of an address, which `inet_pton` reads. -/
def Ipv4.text (ip : Ipv4) : List Char :=
  dotted ip.octets

/-- `s_addr`: the four octets as a number of the machine. -/
def Ipv4.sAddr (bigEndian : Bool) (ip : Ipv4) : BitVec 32 :=
  if bigEndian then ip.first ++ ip.second ++ ip.third ++ ip.fourth
  else ip.fourth ++ ip.third ++ ip.second ++ ip.first

/-- `htonl`. -/
def htonl (bigEndian : Bool) (value : BitVec 32) : BitVec 32 :=
  if bigEndian then value
  else value.extractLsb' 0 8 ++ value.extractLsb' 8 8 ++
    value.extractLsb' 16 8 ++ value.extractLsb' 24 8

end Addresses

section Code

/-- `MAX_IPV4_PREFIX`. -/
def maxIpv4Prefix : ℕ := 32

/-- `round_down_prefix` for an IPv4 or IPv6 prefix. -/
def roundDownPrefix (bits : ℕ) (isIpv6 : Bool) : ℕ :=
  let base := if isIpv6 then 16 else 8
  bits / base * base

/-- `(ip >> i) & 0xff` as an `unsigned char`. -/
def byteAt (ip : BitVec 32) (i : ℕ) : BitVec 8 := ((ip.sshiftRight i) &&& 0xff).setWidth 8

/-- The loop of `get_ipv4_network`, which counts `i` down in steps of 8. -/
def ipv4NetworkLoop (ip : BitVec 32) (bits : ℕ) : ℕ → List Char
  | 0 => []
  | steps + 1 =>
    let i := 8 * (steps + 1)
    (if i < bits then ['.'] else []) ++ decimal (byteAt ip i).toNat ++ ipv4NetworkLoop ip bits steps

/-- `get_ipv4_network`.  `buf` is what the buffer holds before it is written,
and what is returned if nothing is. -/
def getIpv4Network (bigEndian : Bool) (buf : List Char) (ip : BitVec 32)
    (bits : ℕ) : Option (List Char) :=
  if maxIpv4Prefix < bits then none
  else if bits = maxIpv4Prefix then some []
  else
    let rounded := bits &&& (maxIpv4Prefix - 8)
    let text := ipv4NetworkLoop (htonl bigEndian ip) rounded (rounded / 8)
    some (if text = [] then cString buf else text)

/-- `get_host_from_ip`.  There is no result if its assertion fails. -/
def getHostFromIp (ip net : Option (List Char)) : Option (Option (List Char)) :=
  match ip, net with
  | some ip, some net =>
    if strstr net ip ≠ some ip then some none
    else if net.length = ip.length then some (some [])
    else if 0 < net.length ∧ net.length < ip.length then
      let len := ip.length - net.length - 1
      if ip[net.length]? = some ':' ∨ ip[net.length]? = some '.' then
        some (some ((ip.drop (net.length + 1)).take len))
      else none
    else some (some ip)
  | _, _ => some none

/-- What `get_ipv4_info` exports for an address with a prefix: its network part
and its host part. -/
def ipv4Parts (bigEndian : Bool) (buf : List Char) (ip : Ipv4) (bits : ℕ) :
    Option (List Char) × Option (Option (List Char)) :=
  let network := getIpv4Network bigEndian buf (ip.sAddr bigEndian) (roundDownPrefix bits false)
  (network, getHostFromIp (some ip.text) network)

end Code

section Dotted

theorem dotted_cons (octet : BitVec 8) {rest : List (BitVec 8)} (hrest : rest ≠ []) :
    dotted (octet :: rest) = decimal octet.toNat ++ '.' :: dotted rest := by
  obtain ⟨next, others, rfl⟩ := List.exists_cons_of_ne_nil hrest
  simp [dotted, List.intercalate]

theorem dotted_singleton (octet : BitVec 8) :
    dotted [octet] = decimal octet.toNat := by
  simp [dotted, List.intercalate]

theorem dotted_append {front back : List (BitVec 8)} (hfront : front ≠ []) (hback : back ≠ []) :
    dotted (front ++ back) = dotted front ++ '.' :: dotted back := by
  induction front with
  | nil => exact absurd rfl hfront
  | cons octet rest ih =>
    by_cases hrest : rest = []
    · subst hrest
      rw [dotted_singleton]
      exact dotted_cons octet hback
    · rw [List.cons_append, dotted_cons octet hrest,
        dotted_cons octet (List.append_ne_nil_of_left_ne_nil hrest _),
        ih hrest, List.append_assoc, List.cons_append]

theorem dotted_inj {left right : List (BitVec 8)} (hlength : left.length = right.length)
    (heq : dotted left = dotted right) : left = right := by
  induction left generalizing right with
  | nil => exact (List.eq_nil_of_length_eq_zero hlength.symm).symm
  | cons octet rest ih =>
    cases right with
    | nil => cases hlength
    | cons other others =>
      rw [List.length_cons, List.length_cons, Nat.add_right_cancel_iff] at hlength
      by_cases hrest : rest = []
      · subst hrest
        obtain rfl := List.eq_nil_of_length_eq_zero hlength.symm
        rw [dotted_singleton, dotted_singleton] at heq
        rw [BitVec.eq_of_toNat_eq (decimal_injective heq)]
      · have hothers : others ≠ [] := by
          rintro rfl
          exact hrest (List.eq_nil_of_length_eq_zero hlength)
        rw [dotted_cons octet hrest, dotted_cons other hothers] at heq
        obtain ⟨hoctet, htail⟩ := decimal_append_inj rfl heq
        rw [BitVec.eq_of_toNat_eq hoctet, ih hlength htail]

/-- Dotted text starts with a digit. -/
theorem dotted_head {octets : List (BitVec 8)} (hoctets : octets ≠ []) :
    ∃ digit rest, dotted octets = digit :: rest ∧ digit.isDigit = true := by
  obtain ⟨octet, others, rfl⟩ := List.exists_cons_of_ne_nil hoctets
  obtain ⟨digit, digits, hdigits⟩ := List.exists_cons_of_ne_nil (decimal_ne_nil octet.toNat)
  have hdigit : digit.isDigit = true := isDigit_of_mem_decimal (hdigits ▸ List.mem_cons_self)
  by_cases hothers : others = []
  · subst hothers
    exact ⟨digit, digits, (dotted_singleton octet).trans hdigits, hdigit⟩
  · rw [dotted_cons octet hothers, hdigits]
    exact ⟨digit, _, rfl, hdigit⟩

end Dotted

section Network

theorem byteAt_eq (ip : BitVec 32) {i : ℕ} (hi : i ≤ 24) : byteAt ip i = ip.extractLsb' i 8 := by
  ext j hj
  have hmask : (0xff : BitVec 32).getLsbD j = true := by
    interval_cases j <;> rfl
  have hinside : i + j < 32 := by omega
  have hsmall : ¬32 ≤ j := by omega
  simp only [byteAt, BitVec.getElem_setWidth, BitVec.getLsbD_and,
    BitVec.getLsbD_sshiftRight, BitVec.getElem_extractLsb', hinside, if_true,
    hsmall, decide_false, Bool.not_false, Bool.true_and, hmask, Bool.and_true]

/-- The parts of four octets. -/
theorem extract_octets (first second third fourth : BitVec 8) :
    (first ++ second ++ third ++ fourth).extractLsb' 24 8 = first ∧
      (first ++ second ++ third ++ fourth).extractLsb' 16 8 = second ∧
      (first ++ second ++ third ++ fourth).extractLsb' 8 8 = third ∧
      (first ++ second ++ third ++ fourth).extractLsb' 0 8 = fourth := by
  refine ⟨?_, ?_, ?_, ?_⟩
  · rw [BitVec.extractLsb'_append_eq_of_le (by decide),
      BitVec.extractLsb'_append_eq_of_le (by decide),
      BitVec.extractLsb'_append_eq_left]
  · rw [BitVec.extractLsb'_append_eq_of_le (by decide),
      BitVec.extractLsb'_append_eq_of_le (by decide),
      BitVec.extractLsb'_append_eq_right]
  · rw [BitVec.extractLsb'_append_eq_of_le (by decide), BitVec.extractLsb'_append_eq_right]
  · rw [BitVec.extractLsb'_append_eq_right]

/-- In host order the first octet is the highest. -/
theorem htonl_sAddr (bigEndian : Bool) (ip : Ipv4) : htonl bigEndian (ip.sAddr bigEndian) =
      ip.first ++ ip.second ++ ip.third ++ ip.fourth := by
  cases bigEndian with
  | true => rfl
  | false =>
    obtain ⟨hfourth, hthird, hsecond, hfirst⟩ :=
      extract_octets ip.fourth ip.third ip.second ip.first
    simp only [htonl, Ipv4.sAddr, Bool.false_eq_true, if_false, hfirst, hsecond, hthird, hfourth]

/-- The octet that the loop prints at each count. -/
theorem byteAt_htonl (bigEndian : Bool) (ip : Ipv4) :
    byteAt (htonl bigEndian (ip.sAddr bigEndian)) 24 = ip.first ∧
      byteAt (htonl bigEndian (ip.sAddr bigEndian)) 16 = ip.second ∧
      byteAt (htonl bigEndian (ip.sAddr bigEndian)) 8 = ip.third := by
  obtain ⟨hfirst, hsecond, hthird, -⟩ :=
    extract_octets ip.first ip.second ip.third ip.fourth
  rw [htonl_sAddr, byteAt_eq _ le_rfl, byteAt_eq _ (by decide), byteAt_eq _ (by decide)]
  exact ⟨hfirst, hsecond, hthird⟩

/-- The octets before the last one from the prefix on, counted from the end. -/
def Ipv4.printed (ip : Ipv4) (count : ℕ) : List (BitVec 8) :=
  [ip.first, ip.second, ip.third].drop (3 - count)

/-- `get_ipv4_network` prints as many octets as it should, but always up to the
third. -/
theorem getIpv4Network_eq (bigEndian : Bool) (buf : List Char) (ip : Ipv4)
    {count : ℕ} (hcount : count = 1 ∨ count = 2 ∨ count = 3) :
    getIpv4Network bigEndian buf (ip.sAddr bigEndian) (8 * count) =
      some (dotted (ip.printed count)) := by
  obtain ⟨hfirst, hsecond, hthird⟩ := byteAt_htonl bigEndian ip
  have htext : ipv4NetworkLoop (htonl bigEndian (ip.sAddr bigEndian))
      (8 * count) count = dotted (ip.printed count) := by
    rcases hcount with rfl | rfl | rfl
    · simp [ipv4NetworkLoop, hthird, Ipv4.printed, dotted_singleton]
    · simp [ipv4NetworkLoop, hsecond, hthird, Ipv4.printed, dotted_singleton,
        dotted_cons]
    · simp [ipv4NetworkLoop, hfirst, hsecond, hthird, Ipv4.printed,
        dotted_singleton, dotted_cons]
  have hmask : (8 * count) &&& (maxIpv4Prefix - 8) = 8 * count ∧ 8 * count < maxIpv4Prefix := by
    rcases hcount with rfl | rfl | rfl <;> decide
  have hprinted : ip.printed count ≠ [] := by
    rcases hcount with rfl | rfl | rfl <;> exact List.cons_ne_nil _ _
  obtain ⟨digit, rest, hdotted, -⟩ := dotted_head hprinted
  have hnil : dotted (ip.printed count) ≠ [] := by
    rw [hdotted]
    exact List.cons_ne_nil _ _
  rw [getIpv4Network, if_neg (by omega), if_neg (by omega)]
  simp only [hmask.1, Nat.mul_div_cancel_left _ (show 0 < 8 by decide), htext, hnil, if_false]

end Network

section Host

/-- The host part is what follows the network part and a dot or a colon. -/
theorem getHostFromIp_of_append {first separator : Char} (rest host : List Char)
    (hfirst : first ≠ nul) (hseparator : separator = ':' ∨ separator = '.') :
    getHostFromIp (some (first :: rest ++ separator :: host)) (some (first :: rest)) =
      some (some host) := by
  have hlonger : (first :: rest ++ separator :: host).length =
      (first :: rest).length + 1 + host.length := by
    rw [List.length_append, List.length_cons (a := separator)]
    omega
  have hplace : (first :: rest ++ separator :: host)[(first :: rest).length]? = some separator := by
    rw [List.getElem?_append_right le_rfl, Nat.sub_self]
    rfl
  have hdrop : (first :: rest ++ separator :: host).drop ((first :: rest).length + 1) = host := by
    rw [List.drop_append, List.drop_of_length_le (by omega)]
    simp
  have hseparators : some separator = some ':' ∨ some separator = some '.' := by
    rwa [Option.some_inj, Option.some_inj]
  rw [getHostFromIp, if_neg (not_not.mpr (strstr_self hfirst)), if_neg (by omega),
    if_pos ⟨Nat.succ_pos _, by omega⟩]
  simp only [hplace, hseparators, if_true, hdrop, hlonger]
  rw [List.take_of_length_le (by omega)]

theorem getHostFromIp_append {front back : List (BitVec 8)}
    (hfront : front ≠ []) (hback : back ≠ []) :
    getHostFromIp (some (dotted (front ++ back))) (some (dotted front)) =
      some (some (dotted back)) := by
  obtain ⟨digit, rest, hdotted, hdigit⟩ := dotted_head hfront
  rw [dotted_append hfront hback, hdotted]
  exact getHostFromIp_of_append rest (dotted back) (isDigit_ne hdigit rfl) (.inr rfl)

/-- The network part is the text of the first octets, and with a dot and the
host part it spells the address. -/
def SpellsAddress (ip : Ipv4) (count : ℕ)
    (parts : Option (List Char) × Option (Option (List Char))) : Prop :=
  ∃ network host, parts = (some network, some (some host)) ∧
    network = dotted (ip.octets.take count) ∧
    network ++ '.' :: host = ip.text

/-- The parts spell the address exactly if the octets that are printed are the
first ones. -/
theorem spellsAddress_iff_printed (bigEndian : Bool) (buf : List Char) (ip : Ipv4) {bits count : ℕ}
    (hcount : count = 1 ∨ count = 2 ∨ count = 3)
    (hbits : roundDownPrefix bits false = 8 * count) :
    SpellsAddress ip count (ipv4Parts bigEndian buf ip bits) ↔
      ip.printed count = ip.octets.take count := by
  have hnetwork : (ipv4Parts bigEndian buf ip bits).1 = some (dotted (ip.printed count)) := by
    rw [← getIpv4Network_eq bigEndian buf ip hcount, ← hbits]
    rfl
  constructor
  · rintro ⟨network, host, hparts, htext, -⟩
    rw [hparts] at hnetwork
    apply dotted_inj
    · rcases hcount with rfl | rfl | rfl <;> rfl
    · exact (Option.some.inj hnetwork).symm.trans htext
  · intro hprinted
    have hfront : ip.octets.take count ≠ [] := by
      rcases hcount with rfl | rfl | rfl <;> exact List.cons_ne_nil _ _
    have hback : ip.octets.drop count ≠ [] := by
      rcases hcount with rfl | rfl | rfl <;> exact List.cons_ne_nil _ _
    have hip : ip.text =
        dotted (ip.octets.take count ++ ip.octets.drop count) := by
      rw [List.take_append_drop, Ipv4.text]
    rw [hprinted] at hnetwork
    have hhost : (ipv4Parts bigEndian buf ip bits).2 =
        some (some (dotted (ip.octets.drop count))) := by
      rw [← getHostFromIp_append hfront hback, ← hip, ← hnetwork]
      rfl
    refine ⟨_, _, Prod.ext hnetwork hhost, rfl, ?_⟩
    rw [hip, dotted_append hfront hback]

/-- The exported parts spell the address if and only if the prefix is 24 bits or
the octets that are printed happen to be the first ones. -/
theorem ipv4Parts_spells_iff (bigEndian : Bool) (buf : List Char) (ip : Ipv4)
    (bits : ℕ) (hbits : roundDownPrefix bits false ∈ [8, 16, 24]) :
    SpellsAddress ip (roundDownPrefix bits false / 8) (ipv4Parts bigEndian buf ip bits) ↔
      roundDownPrefix bits false = 24 ∨ roundDownPrefix bits false = 16 ∧ ip.first = ip.second ∧
          ip.second = ip.third ∨
        roundDownPrefix bits false = 8 ∧ ip.first = ip.third := by
  simp only [List.mem_cons, List.not_mem_nil, or_false] at hbits
  rcases hbits with hbits | hbits | hbits
  · rw [hbits, spellsAddress_iff_printed bigEndian buf ip (.inl rfl) hbits]
    simp [Ipv4.printed, Ipv4.octets, eq_comm]
  · rw [hbits, spellsAddress_iff_printed bigEndian buf ip (.inr (.inl rfl)) hbits]
    simp [Ipv4.printed, Ipv4.octets, eq_comm]
  · rw [hbits, spellsAddress_iff_printed bigEndian buf ip (.inr (.inr rfl)) hbits]
    simp [Ipv4.printed, Ipv4.octets]

/-- An address with a prefix of 28 bits, which is rounded to 24. -/
theorem ipv4Parts_spells_private : SpellsAddress ⟨192, 168, 1, 10⟩ (roundDownPrefix 28 false / 8)
      (ipv4Parts false [] ⟨192, 168, 1, 10⟩ 28) :=
  (ipv4Parts_spells_iff false [] ⟨192, 168, 1, 10⟩ 28 (by decide)).mpr (.inl rfl)

/-- With a prefix of 16 bits the second and the third octet are printed, and
there is no host part; with 8 bits the assertion may fail. -/
theorem ipv4Parts_wrong :
    ipv4Parts false [] ⟨10, 1, 2, 3⟩ 16 = (some "1.2".toList, some none) ∧
      ¬SpellsAddress ⟨10, 1, 2, 3⟩ (roundDownPrefix 16 false / 8)
        (ipv4Parts false [] ⟨10, 1, 2, 3⟩ 16) ∧
      ipv4Parts false [] ⟨10, 1, 1, 3⟩ 8 = (some "1".toList, none) := by
  have hparts : ipv4Parts false [] ⟨10, 1, 2, 3⟩ 16 =
      (some "1.2".toList, some none) := by
    decide +kernel
  refine ⟨hparts, ?_, by decide +kernel⟩
  rintro ⟨network, host, heq, -⟩
  rw [hparts] at heq
  cases heq

end Host

end GrapheneLtp.NetVars
