import GrapheneLtp.Net.Ipv4Network
import GrapheneLtp.Rtnetlink.Layout

/-!
# The prefix of an interface

`tst_net_iface_prefix.c` asks the kernel for all addresses and looks for the one it was
given.  It takes a single datagram of the answer, and the result of `recv` is kept as an
unsigned number, so that a failure looks like a very long answer.
-/

namespace GrapheneLtp.IfacePrefix

open Bytes NetlinkFormat NetlinkLayout
open Rtnetlink (nlmsgAlign)

section Code

/-- What the program asks the system: an address as text, and the name of an interface. -/
structure System where
  inetNtop : List UInt8 → List Char
  ifIndextoname : ℕ → List Char

/-- The variables `prefix` and `iface`. -/
structure Found where
  prefixLength : ℕ
  iface : List Char
  deriving DecidableEq, Repr

/-- A number of `width` bytes at an offset, if the bytes were received. -/
def field (memory : List UInt8) (offset width : ℕ) : Option ℕ :=
  (slice memory offset width).map leValue

/-- `IFA_ADDRESS`. -/
def ifaAddress : ℕ := 1

/-- The bytes of an address of the family. -/
def addressSize (isIpv6 : Bool) : ℕ := if isIpv6 then 16 else 4

variable (system : System) (ipStr : List Char) (isIpv6 : Bool)

/-- The body of the inner loop: what is found at an attribute of a message. -/
def matchAttribute (message rta : List UInt8) : Option (Option Found) := do
  let type ← field rta 2 2
  if type = ifaAddress then do
    let address ← slice rta 4 (addressSize isIpv6)
    let index ← field message 20 4
    if system.inetNtop address = ipStr then do
      let prefixLength ← field message 17 1
      some (some ⟨prefixLength, system.ifIndextoname index⟩)
    else some none
  else some none

/-- The loop over the attributes of a message.  Memory is given from a pointer on up to
the end of what was received; there is no result after a read behind it. -/
def attributeLoop (message : List UInt8) : ℕ → List UInt8 → ℤ → Option (Option Found)
  | 0, _, _ => none
  | fuel + 1, rta, attlen =>
    if 4 ≤ attlen then do
      let rtaLen ← field rta 0 2
      if 4 ≤ rtaLen ∧ (rtaLen : ℤ) ≤ attlen then do
        match ← matchAttribute system ipStr isIpv6 message rta with
        | some found => some (some found)
        | none =>
          attributeLoop message fuel (rta.drop (alignUp rtaLen)) (attlen - alignUp rtaLen)
      else some none
    else some none

/-- `IFA_PAYLOAD` as an `int`. -/
def ifaPayload (nlmsgLen : ℕ) : ℤ := (BitVec.ofNat 32 nlmsgLen - 24).toInt

/-- The loop over the messages.  `len` is an `unsigned int`. -/
def messageLoop : ℕ → List UInt8 → ℕ → Option (Option Found)
  | 0, _, _ => none
  | fuel + 1, message, len =>
    if 16 ≤ len then do
      let nlmsgLen ← field message 0 4
      if 16 ≤ nlmsgLen ∧ nlmsgLen ≤ len then do
        match ← attributeLoop system ipStr isIpv6 message message.length (message.drop 24)
            (ifaPayload nlmsgLen) with
        | some found => some (some found)
        | none =>
          messageLoop fuel (message.drop (nlmsgAlign nlmsgLen))
            ((len + 2 ^ 32 - nlmsgAlign nlmsgLen) % 2 ^ 32)
      else some none
    else some none

/-- `read_iface_prefix` with what the first `recv` gives, which may fail. -/
def readIfacePrefix (recv : Option (List UInt8)) : Option (ℤ × Option Found) :=
  let len := match recv with
    | some bytes => bytes.length
    | none => 2 ^ 32 - 1
  let received := recv.getD []
  (messageLoop system ipStr isIpv6 (received.length + 1) received len).map fun found =>
    (if found.isSome then 0 else -1, found)

end Code

section Answers

/-- An attribute with its type and data. -/
structure Attribute where
  type : UInt16
  data : List UInt8

def Attribute.bytes (attr : Attribute) : List UInt8 :=
  attrHeader (4 + attr.data.length) attr.type ++ attr.data

/-- A message of type `RTM_NEWADDR`. -/
structure NewAddress where
  flags : UInt16
  seq : UInt32
  pid : UInt32
  prefixLength : UInt8
  ifaFlags : UInt8
  scope : UInt8
  index : UInt32
  attributes : List Attribute

/-- `struct nlmsghdr`. -/
def headerBytes (length type : ℕ) (flags : UInt16) (seq pid : UInt32) : List UInt8 :=
  leBytes 4 length ++ leBytes 2 type ++ leBytes 2 flags.toNat ++ leBytes 4 seq.toNat ++
    leBytes 4 pid.toNat

def NewAddress.attributeBytes (message : NewAddress) : List UInt8 :=
  joinPadded (message.attributes.map Attribute.bytes)

def NewAddress.bytes (isIpv6 : Bool) (message : NewAddress) : List UInt8 :=
  headerBytes (24 + message.attributeBytes.length) 20 message.flags message.seq message.pid ++
    ([if isIpv6 then 10 else 2, message.prefixLength, message.ifaFlags, message.scope] ++
      leBytes 4 message.index.toNat ++ message.attributeBytes)

/-- The messages of an answer: addresses, and `NLMSG_DONE` with its status. -/
inductive Reply where
  | address (message : NewAddress)
  | done (flags : UInt16) (seq pid status : UInt32)

def Reply.bytes (isIpv6 : Bool) : Reply → List UInt8
  | .address message => message.bytes isIpv6
  | .done flags seq pid status => headerBytes 20 3 flags seq pid ++ leBytes 4 status.toNat

/-- The lengths fit in their fields, and an address has the size of its family. -/
def Reply.WellFormed (isIpv6 : Bool) : Reply → Prop
  | .address message => ∀ attr ∈ message.attributes, attr.data.length + 4 < 2 ^ 16 ∧
      (attr.type.toNat = ifaAddress → attr.data.length = addressSize isIpv6)
  | .done .. => True

/-- Messages in a datagram, each of them padded. -/
def datagramBytes (isIpv6 : Bool) (replies : List Reply) : List UInt8 :=
  replies.flatMap fun reply => padded (reply.bytes isIpv6)

/-- The datagrams of an answer: addresses up to one `NLMSG_DONE` at the very end. -/
structure Answer (isIpv6 : Bool) (datagrams : List (List Reply)) : Prop where
  wellFormed : ∀ replies ∈ datagrams, ∀ reply ∈ replies, reply.WellFormed isIpv6
  short : ∀ replies ∈ datagrams, (datagramBytes isIpv6 replies).length ≤ 16384
  ended : ∃ (messages : List NewAddress) (flags : UInt16) (seq pid status : UInt32),
    datagrams.flatten = messages.map Reply.address ++ [.done flags seq pid status]

end Answers

section Meaning

variable (system : System) (ipStr : List Char)

/-- What a message contributes: its prefix and interface if its address is the one that
is looked for. -/
def Reply.found : Reply → Option Found
  | .address message =>
    if ∃ attr ∈ message.attributes, attr.type.toNat = ifaAddress ∧
        system.inetNtop attr.data = ipStr then
      some ⟨message.prefixLength.toNat, system.ifIndextoname message.index.toNat⟩
    else none
  | .done .. => none

/-- The first message of an answer that is looked for. -/
def firstFound (replies : List Reply) : Option Found :=
  replies.findSome? fun reply => reply.found system ipStr

/-- What the function should do, for an answer or a failure of `recv`: a result without a
read of other bytes than those received. -/
def Right (isIpv6 : Bool) (answer : Option (List (List Reply))) : Prop :=
  match answer with
  | none => readIfacePrefix system ipStr isIpv6 none = some (-1, none)
  | some datagrams =>
    readIfacePrefix system ipStr isIpv6 (datagrams.head?.map (datagramBytes isIpv6)) =
      some (if (firstFound system ipStr datagrams.flatten).isSome then 0 else -1,
        firstFound system ipStr datagrams.flatten)

end Meaning

section Fields

theorem slice_front (front rest : List UInt8) {count : ℕ} (hcount : front.length = count) :
    slice (front ++ rest) 0 count = some front := by
  subst hcount
  exact slice_append [] front rest

theorem slice_behind (before rest : List UInt8) (offset count : ℕ) :
    slice (before ++ rest) (before.length + offset) count = slice rest offset count := by
  unfold slice
  rw [List.drop_append, List.length_append]
  have hdrop : before.drop (before.length + offset) = [] := List.drop_eq_nil_of_le (by omega)
  rw [hdrop, List.nil_append, Nat.add_sub_cancel_left]
  by_cases hfits : offset + count ≤ rest.length
  · rw [if_pos hfits, if_pos (by omega)]
  · rw [if_neg hfits, if_neg (by omega)]

theorem field_front {width value : ℕ} (hvalue : value < 256 ^ width) (rest : List UInt8) :
    field (leBytes width value ++ rest) 0 width = some value := by
  rw [field, slice_front _ _ (length_leBytes width value), Option.map_some,
    leValue_leBytes_of_lt hvalue]

theorem field_behind {before : List UInt8} {s : ℕ} (hbefore : before.length = s)
    (rest : List UInt8) (offset width : ℕ) :
    field (before ++ rest) (s + offset) width = field rest offset width := by
  subst hbefore
  rw [field, slice_behind, field]

end Fields

section Attributes

variable {system : System} {ipStr : List Char} {isIpv6 : Bool}

theorem length_attribute (attr : Attribute) :
    attr.bytes.length = 4 + attr.data.length := by
  rw [Attribute.bytes, List.length_append, length_attrHeader]

/-- The fields of an attribute in memory. -/
theorem attribute_fields (attr : Attribute) (hlength : attr.data.length + 4 < 2 ^ 16)
    (rest : List UInt8) :
    field (attr.bytes ++ rest) 0 2 = some (4 + attr.data.length) ∧
      field (attr.bytes ++ rest) 2 2 = some attr.type.toNat ∧
      slice (attr.bytes ++ rest) 4 attr.data.length = some attr.data := by
  have htype : attr.type.toNat < 256 ^ 2 := attr.type.toNat_lt
  rw [Attribute.bytes, attrHeader]
  refine ⟨?_, ?_, ?_⟩
  · rw [List.append_assoc, List.append_assoc, field_front (by norm_num; omega)]
  · rw [List.append_assoc, List.append_assoc,
      field_behind (s := 2) (length_leBytes 2 _) _ 0 2, field_front htype]
  · rw [List.append_assoc]
    have hbehind := slice_behind (leBytes 2 (4 + attr.data.length) ++
      leBytes 2 attr.type.toNat) (attr.data ++ rest) 0 attr.data.length
    rw [slice_front _ _ rfl] at hbehind
    simpa using hbehind

/-- One attribute: found if it is the address that is looked for. -/
theorem matchAttribute_eq {message : List UInt8} {index prefixLength : ℕ}
    (hindex : field message 20 4 = some index)
    (hprefixLength : field message 17 1 = some prefixLength) {attr : Attribute}
    (hlength : attr.data.length + 4 < 2 ^ 16)
    (hsize : attr.type.toNat = ifaAddress → attr.data.length = addressSize isIpv6)
    (rest : List UInt8) :
    matchAttribute system ipStr isIpv6 message (attr.bytes ++ rest) =
      some (if attr.type.toNat = ifaAddress ∧ system.inetNtop attr.data = ipStr then
        some ⟨prefixLength, system.ifIndextoname index⟩ else none) := by
  obtain ⟨-, htype, hdata⟩ := attribute_fields attr hlength rest
  by_cases haddress : attr.type.toNat = ifaAddress
  · rw [hsize haddress] at hdata
    by_cases hprints : system.inetNtop attr.data = ipStr
    · simp [matchAttribute, htype, haddress, hdata, hindex, hprefixLength, hprints]
    · simp [matchAttribute, htype, haddress, hdata, hindex, hprints]
  · simp [matchAttribute, htype, haddress]

theorem attributes_front (attr : Attribute) (others : List Attribute) (rest : List UInt8) :
    ∃ more, joinPadded ((attr :: others).map Attribute.bytes) ++ rest = attr.bytes ++ more := by
  by_cases hothers : others.map Attribute.bytes = []
  · exact ⟨rest, by rw [List.map_cons, hothers, joinPadded]⟩
  · exact ⟨List.replicate (alignUp attr.bytes.length - attr.bytes.length) 0 ++
      (joinPadded (others.map Attribute.bytes) ++ rest), by
        rw [List.map_cons, joinPadded_cons hothers, padded, List.append_assoc, List.append_assoc]⟩

/-- `RTA_NEXT` in front of another attribute. -/
theorem attributes_next (attr : Attribute) {others : List Attribute} (hothers : others ≠ [])
    (rest : List UInt8) :
    (joinPadded ((attr :: others).map Attribute.bytes) ++ rest).drop
        (alignUp attr.bytes.length) = joinPadded (others.map Attribute.bytes) ++ rest ∧
      ((joinPadded ((attr :: others).map Attribute.bytes)).length : ℤ) -
        alignUp attr.bytes.length = (joinPadded (others.map Attribute.bytes)).length := by
  have hmap : others.map Attribute.bytes ≠ [] := by simpa using hothers
  rw [List.map_cons, joinPadded_cons hmap]
  constructor
  · rw [List.append_assoc]
    exact List.drop_left' (length_padded attr.bytes)
  · rw [List.length_append, length_padded]
    push_cast
    ring

theorem attributeLoop_stop {message rta : List UInt8} {fuel : ℕ} {attlen : ℤ}
    (hfuel : 0 < fuel) (hattlen : attlen < 4) :
    attributeLoop system ipStr isIpv6 message fuel rta attlen = some none := by
  obtain ⟨fuel, rfl⟩ := Nat.exists_eq_add_of_le' hfuel
  rw [attributeLoop, if_neg (by omega)]

/-- The walk over the attributes of a message that lies in memory. -/
theorem attributeLoop_eq {message : List UInt8} {index prefixLength : ℕ}
    (hindex : field message 20 4 = some index)
    (hprefixLength : field message 17 1 = some prefixLength) (rest : List UInt8)
    (attrs : List Attribute) (hattrs : ∀ attr ∈ attrs, attr.data.length + 4 < 2 ^ 16 ∧
      (attr.type.toNat = ifaAddress → attr.data.length = addressSize isIpv6)) :
    ∀ fuel, attrs.length < fuel →
      attributeLoop system ipStr isIpv6 message fuel
        (joinPadded (attrs.map Attribute.bytes) ++ rest)
        (joinPadded (attrs.map Attribute.bytes)).length =
      some (if ∃ attr ∈ attrs, attr.type.toNat = ifaAddress ∧
        system.inetNtop attr.data = ipStr then
          some ⟨prefixLength, system.ifIndextoname index⟩ else none) := by
  induction attrs with
  | nil =>
    intro fuel hfuel
    rw [attributeLoop_stop (Nat.zero_lt_of_lt hfuel) (by simp [joinPadded])]
    simp
  | cons attr others ih =>
    intro fuel hfuel
    rw [List.length_cons] at hfuel
    obtain ⟨fuel, rfl⟩ := Nat.exists_eq_add_of_le' (Nat.one_le_of_lt hfuel)
    obtain ⟨hlength, hsize⟩ := hattrs attr List.mem_cons_self
    obtain ⟨more, hmemory⟩ := attributes_front attr others rest
    have hbytes := length_attribute attr
    have hinside : attr.bytes.length ≤
        (joinPadded ((attr :: others).map Attribute.bytes)).length :=
      length_le_joinPadded (by simp)
    obtain ⟨hrtaLen, -, -⟩ := attribute_fields attr hlength more
    have hfound := @matchAttribute_eq system ipStr _ _ _ _ hindex hprefixLength _
      hlength hsize more
    rw [← hmemory] at hrtaLen hfound
    rw [attributeLoop, if_pos (by omega), hrtaLen]
    simp only [Option.bind_eq_bind, Option.bind_some]
    rw [if_pos (by omega), hfound, Option.bind_some]
    by_cases hmatch : attr.type.toNat = ifaAddress ∧ system.inetNtop attr.data = ipStr
    · rw [if_pos hmatch, if_pos ⟨attr, List.mem_cons_self, hmatch⟩]
    · simp only [hmatch, if_false, List.mem_cons, exists_eq_or_imp, false_or, ← hbytes]
      by_cases hothers : others = []
      -- the padding of the last attribute may lie behind the end of the message
      · subst hothers
        have hpad := le_alignUp attr.bytes.length
        rw [attributeLoop_stop (by omega) (by simp only [List.map, joinPadded]; omega)]
        simp
      · obtain ⟨hnext, hleft⟩ := attributes_next attr hothers rest
        rw [hnext, hleft]
        exact ih (fun other hother => hattrs other (List.mem_cons_of_mem _ hother)) fuel
          (by omega)

end Attributes

section Messages

variable {system : System} {ipStr : List Char} {isIpv6 : Bool}

@[simp]
theorem length_headerBytes (length type : ℕ) (flags : UInt16) (seq pid : UInt32) :
    (headerBytes length type flags seq pid).length = 16 := by
  simp [headerBytes]

theorem length_newAddress (isIpv6 : Bool) (message : NewAddress) :
    (message.bytes isIpv6).length = 24 + message.attributeBytes.length := by
  simp [NewAddress.bytes]
  omega

/-- The length that a message begins with. -/
theorem header_field {length : ℕ} (hlength : length < 2 ^ 32) (type : ℕ) (flags : UInt16)
    (seq pid : UInt32) (rest : List UInt8) :
    field (headerBytes length type flags seq pid ++ rest) 0 4 = some length := by
  simp only [headerBytes, List.append_assoc]
  exact field_front (by norm_num; omega) _

theorem length_le_reply (isIpv6 : Bool) (reply : Reply) : 16 ≤ (reply.bytes isIpv6).length := by
  cases reply with
  | address message =>
    rw [Reply.bytes, length_newAddress]
    omega
  | done flags seq pid status => simp [Reply.bytes]

/-- The fields of an address message in memory. -/
theorem newAddress_fields (isIpv6 : Bool) (message : NewAddress) (rest : List UInt8) :
    field (message.bytes isIpv6 ++ rest) 20 4 = some message.index.toNat ∧
      field (message.bytes isIpv6 ++ rest) 17 1 = some message.prefixLength.toNat ∧
      (message.bytes isIpv6 ++ rest).drop 24 = message.attributeBytes ++ rest := by
  have hindex : message.index.toNat < 256 ^ 4 := message.index.toNat_lt
  refine ⟨?_, ?_, ?_⟩
  · rw [NewAddress.bytes, List.append_assoc, List.append_assoc, List.append_assoc,
      field_behind (s := 16) (length_headerBytes ..) _ 4 4,
      field_behind (s := 4) rfl _ 0 4, field_front hindex]
  · rw [NewAddress.bytes, List.append_assoc,
      field_behind (s := 16) (length_headerBytes ..) _ 1 1]
    simp [field, slice, leValue]
  · rw [NewAddress.bytes, List.append_assoc, List.drop_append, length_headerBytes,
      List.drop_eq_nil_of_le (by simp), List.nil_append, List.append_assoc,
      List.drop_left' (by simp)]

theorem length_attrs_le (message : NewAddress) :
    message.attributes.length ≤ message.attributeBytes.length := by
  have hle := @length_le_length_joinPadded (message.attributes.map Attribute.bytes) (by
    intro record hrecord
    obtain ⟨attr, -, rfl⟩ := List.mem_map.mp hrecord
    rw [length_attribute]
    omega)
  rwa [List.length_map] at hle

/-- The attributes of one message: those of an address, none of the end. -/
theorem attributeLoop_reply {reply : Reply} (hreply : reply.WellFormed isIpv6)
    (hlength : (reply.bytes isIpv6).length < 2 ^ 31) (rest : List UInt8) :
    attributeLoop system ipStr isIpv6 (reply.bytes isIpv6 ++ rest)
      (reply.bytes isIpv6 ++ rest).length ((reply.bytes isIpv6 ++ rest).drop 24)
      (ifaPayload (reply.bytes isIpv6).length) = some (reply.found system ipStr) := by
  cases reply with
  | address message =>
    rw [Reply.bytes] at hlength ⊢
    obtain ⟨hindex, hprefixLength, hdrop⟩ := newAddress_fields isIpv6 message rest
    have hbytes := length_newAddress isIpv6 message
    have hattrs := length_attrs_le message
    have hpayload : ifaPayload (message.bytes isIpv6).length = message.attributeBytes.length := by
      rw [ifaPayload, hbytes]
      have hsub : BitVec.ofNat 32 (24 + message.attributeBytes.length) - 24 =
          BitVec.ofNat 32 message.attributeBytes.length := by
        rw [BitVec.ofNat_add, BitVec.add_comm]
        exact BitVec.add_sub_cancel _ _
      rw [hsub, BitVec.toInt_ofNat']
      exact Int.bmod_eq_of_le (by omega) (by omega)
    rw [hdrop, hpayload]
    exact attributeLoop_eq hindex hprefixLength rest message.attributes hreply _ (by
      rw [List.length_append]; omega)
  | done flags seq pid status =>
    have hbytes : ((Reply.done flags seq pid status).bytes isIpv6).length = 20 := by
      simp [Reply.bytes]
    rw [hbytes, attributeLoop_stop (by rw [List.length_append]; omega) (by decide), Reply.found]

theorem messageLoop_stop {message : List UInt8} {fuel len : ℕ} (hfuel : 0 < fuel)
    (hlen : len < 16) : messageLoop system ipStr isIpv6 fuel message len = some none := by
  obtain ⟨fuel, rfl⟩ := Nat.exists_eq_add_of_le' hfuel
  rw [messageLoop, if_neg (by omega)]

theorem reply_field {reply : Reply} (hlength : (reply.bytes isIpv6).length < 2 ^ 31)
    (rest : List UInt8) :
    field (reply.bytes isIpv6 ++ rest) 0 4 = some (reply.bytes isIpv6).length := by
  cases reply with
  | address message =>
    rw [Reply.bytes] at hlength ⊢
    rw [length_newAddress] at hlength ⊢
    rw [NewAddress.bytes, List.append_assoc, header_field (by omega)]
  | done flags seq pid status =>
    simp only [Reply.bytes, List.length_append, length_headerBytes, length_leBytes]
    rw [List.append_assoc, header_field (by norm_num)]

/-- The walk over the messages of a datagram. -/
theorem messageLoop_eq (replies : List Reply)
    (hreplies : ∀ reply ∈ replies, reply.WellFormed isIpv6)
    (hshort : (datagramBytes isIpv6 replies).length < 2 ^ 31) :
    ∀ fuel, replies.length < fuel →
      messageLoop system ipStr isIpv6 fuel (datagramBytes isIpv6 replies)
        (datagramBytes isIpv6 replies).length = some (firstFound system ipStr replies) := by
  induction replies with
  | nil =>
    intro fuel hfuel
    rw [messageLoop_stop (Nat.zero_lt_of_lt hfuel) (by simp [datagramBytes])]
    rfl
  | cons reply others ih =>
    intro fuel hfuel
    rw [List.length_cons] at hfuel
    obtain ⟨fuel, rfl⟩ := Nat.exists_eq_add_of_le' (Nat.one_le_of_lt hfuel)
    have hpad := le_alignUp (reply.bytes isIpv6).length
    have hreply := length_le_reply isIpv6 reply
    have hbytes : datagramBytes isIpv6 (reply :: others) =
        padded (reply.bytes isIpv6) ++ datagramBytes isIpv6 others := rfl
    have hlength : (datagramBytes isIpv6 (reply :: others)).length =
        alignUp (reply.bytes isIpv6).length + (datagramBytes isIpv6 others).length := by
      rw [hbytes, List.length_append, length_padded]
    have hnext : (datagramBytes isIpv6 (reply :: others)).drop
        (alignUp (reply.bytes isIpv6).length) = datagramBytes isIpv6 others := by
      rw [hbytes]
      exact List.drop_left' (length_padded _)
    obtain ⟨more, hmemory⟩ : ∃ more, datagramBytes isIpv6 (reply :: others) =
        reply.bytes isIpv6 ++ more := ⟨_, by rw [hbytes, padded, List.append_assoc]⟩
    have hnlmsgLen := @reply_field isIpv6 reply (by omega) more
    have hattributes := @attributeLoop_reply system ipStr _ _
      (hreplies reply List.mem_cons_self) (by omega) more
    rw [← hmemory] at hnlmsgLen hattributes
    rw [messageLoop, if_pos (by omega), hnlmsgLen]
    simp only [Option.bind_eq_bind, Option.bind_some]
    rw [if_pos (by omega), hattributes, Option.bind_some, firstFound, List.findSome?_cons]
    cases hfound : reply.found system ipStr with
    | some found => rfl
    | none =>
      have halign : nlmsgAlign (reply.bytes isIpv6).length = alignUp (reply.bytes isIpv6).length :=
        nlmsgAlign_eq (by omega)
      have hleft : ((datagramBytes isIpv6 (reply :: others)).length + 2 ^ 32 -
          alignUp (reply.bytes isIpv6).length) % 2 ^ 32 =
            (datagramBytes isIpv6 others).length := by
        omega
      simp only [halign, hnext, hleft]
      exact ih (fun other hother => hreplies other (List.mem_cons_of_mem _ hother)) (by omega)
        fuel (by omega)

theorem length_replies_le (isIpv6 : Bool) (replies : List Reply) :
    replies.length ≤ (datagramBytes isIpv6 replies).length := by
  induction replies with
  | nil => exact le_rfl
  | cons reply others ih =>
    have hreply := length_le_reply isIpv6 reply
    have hpad := le_alignUp (reply.bytes isIpv6).length
    rw [datagramBytes] at ih ⊢
    rw [List.flatMap_cons, List.length_append, length_padded, List.length_cons]
    omega

/-- What the function makes of a datagram. -/
theorem readIfacePrefix_eq {replies : List Reply}
    (hreplies : ∀ reply ∈ replies, reply.WellFormed isIpv6)
    (hshort : (datagramBytes isIpv6 replies).length ≤ 16384) :
    readIfacePrefix system ipStr isIpv6 (some (datagramBytes isIpv6 replies)) =
      some (if (firstFound system ipStr replies).isSome then 0 else -1,
        firstFound system ipStr replies) := by
  have hfuel := length_replies_le isIpv6 replies
  simp only [readIfacePrefix, Option.getD_some]
  rw [messageLoop_eq replies hreplies (by omega) _ (by omega), Option.map_some]

end Messages

section Main

variable {system : System} {ipStr : List Char} {isIpv6 : Bool}

theorem firstFound_eq_none_iff {replies : List Reply} :
    firstFound system ipStr replies = none ↔
      ∀ reply ∈ replies, reply.found system ipStr = none := by
  rw [firstFound, List.findSome?_eq_none_iff]

theorem firstFound_append (first others : List Reply) :
    firstFound system ipStr (first ++ others) =
      (firstFound system ipStr first).or (firstFound system ipStr others) := by
  rw [firstFound, firstFound, firstFound, List.findSome?_append]

/-- A failed `recv` is taken for an answer of `2 ^ 32 - 1` bytes. -/
theorem readIfacePrefix_failed : readIfacePrefix system ipStr isIpv6 none = none := rfl

/-- What is found in the whole answer is found by the function exactly if it is in the
first datagram, or is nowhere. -/
theorem firstFound_first_iff (first others : List Reply) :
    firstFound system ipStr first = firstFound system ipStr (first ++ others) ↔
      (∃ reply ∈ first, reply.found system ipStr ≠ none) ∨
        ∀ reply ∈ first ++ others, reply.found system ipStr = none := by
  rw [firstFound_append, ← firstFound_eq_none_iff, firstFound_append]
  have hsome : (∃ reply ∈ first, reply.found system ipStr ≠ none) ↔
      firstFound system ipStr first ≠ none := by
    rw [ne_eq, firstFound_eq_none_iff]
    push Not
    rfl
  rw [hsome]
  cases firstFound system ipStr first with
  | some found => simp
  | none => simp [eq_comm]

/-- A host with the interfaces `lo` and `eth0`, whose addresses are IPv4 ones. -/
def host : System :=
  ⟨fun address => NetVars.dotted (address.map UInt8.toBitVec),
    fun index => if index = 1 then ['l', 'o'] else ['e', 't', 'h', '0']⟩

/-- `127.0.0.1/8` on `lo`. -/
def loopback : NewAddress := ⟨2, 0, 7, 8, 128, 254, 1, [⟨1, [127, 0, 0, 1]⟩]⟩

/-- `10.0.0.2/24` on `eth0`. -/
def ethernet : NewAddress := ⟨2, 0, 7, 24, 128, 0, 2, [⟨1, [10, 0, 0, 2]⟩]⟩

theorem answer_host : Answer false
    [[.address loopback, .address ethernet], [.done 2 0 7 0]] where
  wellFormed := by simp [Reply.WellFormed, loopback, ethernet, ifaAddress, addressSize]
  short := by decide +kernel
  ended := ⟨[loopback, ethernet], 2, 0, 7, 0, rfl⟩

end Main

end GrapheneLtp.IfacePrefix
