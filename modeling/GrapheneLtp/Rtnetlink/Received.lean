import GrapheneLtp.Core.Fallible
import GrapheneLtp.Rtnetlink.Receive

/-!
# The table of received messages

Whatever bytes have come, the walk over them stays inside the buffer, as a message
is only taken when it ends before the bytes do.  When they are messages one behind
the other, the walk goes from each of them to the next.
-/

namespace GrapheneLtp.NetlinkReceived

open GrapheneLtp.Bytes GrapheneLtp.Rtnetlink GrapheneLtp.NetlinkFormat GrapheneLtp.NetlinkLayout

section Walks

variable {data : List UInt8} {ptr : ℕ} {sizeLeft : Int32}

theorem headerAt_inside (hinside : ptr + 16 ≤ data.length) :
    headerAt data ptr = .ok (readHeader ((data.drop ptr).take 16)) := by
  rw [headerAt, slice, nlmsgHdrlen, if_pos hinside]

/-- The loop goes on over a message that is all there. -/
theorem messagesFrom_next {header : Nlmsghdr} (hheader : headerAt data ptr = .ok header)
    (hmin : 16 ≤ header.nlmsgLen.toNat)
    (hfits : (header.nlmsgLen.toNat : ℤ) ≤ sizeLeft.toInt) :
    messagesFrom data ptr sizeLeft = (messagesFrom data (ptr + alignUp header.nlmsgLen.toNat)
        (sizeLeft - Int32.ofNat (nlmsgAlign header.nlmsgLen.toNat))).map ((ptr, header) :: ·) := by
  have halign : nlmsgAlign header.nlmsgLen.toNat = alignUp header.nlmsgLen.toNat := by
    have hmax := sizeLeft.toInt_lt
    have hup := alignUp_lt header.nlmsgLen.toNat
    exact nlmsgAlign_eq (by omega)
  rw [messagesFrom, if_pos (by omega), hheader]
  dsimp only
  rw [if_pos ⟨hmin, hfits⟩, halign]

/-- A message that the loop comes to, and where it lies. -/
def Placed (data : List UInt8) (entry : ℕ × Nlmsghdr) : Prop :=
  headerAt data entry.1 = .ok entry.2 ∧ 16 ≤ entry.2.nlmsgLen.toNat ∧
    entry.1 + entry.2.nlmsgLen.toNat ≤ data.length

/-- Within the bytes the loop reads nothing else, and so does the second loop,
which visits the same offsets. -/
theorem messagesFrom_inside (hsize : (ptr : ℤ) + sizeLeft.toInt ≤ data.length) :
    ∃ msgs, messagesFrom data ptr sizeLeft = .ok msgs ∧ (∀ entry ∈ msgs, Placed data entry) ∧
      fillMessages data msgs.length ptr =
        .ok (msgs.map fun entry => (entry.1, messageAt entry.1 entry.2)) := by
  fun_induction messagesFrom data ptr sizeLeft with
  | case1 ptr sizeLeft hroom failure hheader =>
    rw [headerAt_inside (by omega)] at hheader
    cases hheader
  | case2 ptr sizeLeft hroom header hheader hok ih =>
    have hnext := toInt_next hok.2
    have hmax := sizeLeft.toInt_lt
    have hup := alignUp_lt header.nlmsgLen.toNat
    have halign : nlmsgAlign header.nlmsgLen.toNat =
        alignUp header.nlmsgLen.toNat := nlmsgAlign_eq (by omega)
    obtain ⟨msgs, hmsgs, hplaced, hfill⟩ := ih (by omega)
    refine ⟨(ptr, header) :: msgs, by rw [hmsgs]; rfl, ?_, ?_⟩
    · intro entry hentry
      rcases List.mem_cons.mp hentry with rfl | hrest
      · exact ⟨hheader, hok.1, by dsimp only; omega⟩
      · exact hplaced entry hrest
    · rw [List.length_cons, fillMessages, hheader]
      dsimp only
      rw [hfill]
      rfl
  | case3 ptr sizeLeft hroom header hheader hbad =>
    exact ⟨[], rfl, by simp, rfl⟩
  | case4 ptr sizeLeft hshort => exact ⟨[], rfl, by simp, rfl⟩

end Walks

/-- A netlink message with the padding behind it. -/
structure Packet where
  header : Nlmsghdr
  payload : List UInt8
  pad : List UInt8
  len_eq : header.nlmsgLen.toNat = 16 + payload.length
  pad_eq : 16 + payload.length + pad.length = alignUp (16 + payload.length)

def Packet.bytes (packet : Packet) : List UInt8 :=
  packet.header.bytes ++ packet.payload ++ packet.pad

/-- Messages one behind the other. -/
def packetsBytes (packets : List Packet) : List UInt8 := (packets.map Packet.bytes).flatten

/-- The table names the messages in their order, the first of them at the given
offset, and ends with an entry of zeros. -/
inductive Lists (buffer : List UInt8) :
    ℕ → List RtnlMessage → List Packet → Prop
  | nil (ptr : ℕ) : Lists buffer ptr [zeroMessage] []
  | cons {ptr : ℕ} {table : List RtnlMessage} {packet : Packet}
      {packets : List Packet} :
      slice buffer ptr 16 = some packet.header.bytes →
      slice buffer (ptr + 16) packet.payload.length = some packet.payload →
      Lists buffer (ptr + packet.bytes.length) table packets →
        Lists buffer ptr
          (⟨some ptr, if packet.header.nlmsgType = nlmsgError then
              some (ptr + 16) else none, some (ptr + 16),
            packet.payload.length⟩ :: table) (packet :: packets)

section Packets

variable {packet : Packet} {packets : List Packet} {before : List UInt8}

theorem Packet.length_bytes (packet : Packet) :
    packet.bytes.length = alignUp packet.header.nlmsgLen.toNat := by
  rw [packet.len_eq, ← packet.pad_eq, Packet.bytes, List.length_append,
    List.length_append, length_header]

theorem packetsBytes_cons :
    packetsBytes (packet :: packets) = packet.bytes ++ packetsBytes packets := rfl

/-- Where a packet lies its parts can be read. -/
theorem slice_packet (rest : List UInt8) :
    slice (before ++ (packet.bytes ++ rest)) before.length 16 = some packet.header.bytes ∧
      slice (before ++ (packet.bytes ++ rest)) (before.length + 16)
        packet.payload.length = some packet.payload := by
  have hheader := slice_append before packet.header.bytes (packet.payload ++ packet.pad ++ rest)
  have hpayload := slice_append (before ++ packet.header.bytes) packet.payload (packet.pad ++ rest)
  rw [length_header] at hheader
  rw [List.length_append, length_header] at hpayload
  simp only [Packet.bytes, List.append_assoc] at hheader hpayload ⊢
  exact ⟨hheader, hpayload⟩

theorem headerAt_packet (rest : List UInt8) :
    headerAt (before ++ (packet.bytes ++ rest)) before.length = .ok packet.header := by
  have hheader := readHeader_bytes packet.header []
  rw [List.append_nil] at hheader
  rw [headerAt, nlmsgHdrlen, (slice_packet rest).1]
  exact congrArg Except.ok hheader

/-- `NLMSG_PAYLOAD` of a length that covers the header. -/
theorem toNat_payload {len : UInt32} (hmin : 16 ≤ len.toNat) :
    (len - UInt32.ofNat (nlmsgSpace 0)).toNat = len.toNat - 16 := by
  have hspace : UInt32.ofNat (nlmsgSpace 0) = 16 := by decide
  have hle : (16 : UInt32) ≤ len := UInt32.le_iff_toNat_le.mpr hmin
  rw [hspace, UInt32.toNat_sub_of_le _ _ hle]
  rfl

theorem payloadSize_eq (packet : Packet) :
    (packet.header.nlmsgLen - UInt32.ofNat (nlmsgSpace 0)).toNat =
      packet.payload.length := by
  have hlen := packet.len_eq
  rw [toNat_payload (by omega), hlen, Nat.add_sub_cancel_left]

/-- The walk finds the messages, and the entries for them name them. -/
theorem messagesFrom_packets {sizeLeft : Int32}
    (hsize : sizeLeft.toInt = (packetsBytes packets).length) :
    ∃ msgs, messagesFrom (before ++ packetsBytes packets) before.length sizeLeft = .ok msgs ∧
      Lists (before ++ packetsBytes packets) before.length
        (msgs.map (fun entry => messageAt entry.1 entry.2) ++ [zeroMessage])
        packets := by
  induction packets generalizing before sizeLeft with
  | nil =>
    refine ⟨[], ?_, .nil _⟩
    have hzero : sizeLeft.toInt = 0 := hsize
    rw [messagesFrom, if_neg (by omega)]
  | cons packet packets ih =>
    have hlength := packet.length_bytes
    have hlen := packet.len_eq
    have hle := le_alignUp packet.header.nlmsgLen.toNat
    rw [packetsBytes_cons, List.length_append, hlength] at hsize
    have hnext : (sizeLeft - Int32.ofNat (nlmsgAlign packet.header.nlmsgLen.toNat)).toInt =
          (packetsBytes packets).length := by
      rw [toInt_next (by omega)]
      omega
    obtain ⟨msgs, hmsgs, hlists⟩ := @ih (before ++ packet.bytes) _ hnext
    rw [List.length_append, List.append_assoc, hlength] at hmsgs hlists
    rw [packetsBytes_cons]
    have hheader := @headerAt_packet packet before (packetsBytes packets)
    refine ⟨(before.length, packet.header) :: msgs, ?_, ?_⟩
    · rw [messagesFrom_next hheader (by omega) (by omega), hmsgs]
      rfl
    · obtain ⟨hslice, hpayload⟩ := @slice_packet packet before (packetsBytes packets)
      rw [← hlength] at hlists
      have hcons := Lists.cons hslice hpayload hlists
      rw [List.map_cons, List.cons_append, messageAt, payloadSize_eq]
      exact hcons

end Packets

/-- Every header and every payload of the table lies inside the buffer. -/
def Inside (reception : Reception) : Prop := ∀ entry ∈ reception.table, entry = zeroMessage ∨
    ∃ ptr, entry.header = some ptr ∧ entry.payload = some (ptr + 16) ∧
      ptr + 16 + entry.payloadSize ≤ reception.buffer.length

theorem recvPending_eq (datagrams : List (List UInt8)) :
    ∀ buffer, recvPending buffer datagrams = buffer ++ datagrams.flatten := by
  induction datagrams with
  | nil => exact fun buffer => (List.append_nil buffer).symm
  | cons datagram pending ih =>
    intro buffer
    rw [recvPending, ih, List.flatten_cons, List.append_assoc]

/-- The conversion to `int` does not enlarge a size. -/
theorem toInt_ofNat_le (size : ℕ) : (Int32.ofNat size).toInt ≤ size := by
  rw [Int32.toInt_ofNat', Int32.size]
  have hless := @Int.bmod_lt size 4294967296 (by decide)
  by_cases hsmall : (size : ℤ) < 2147483648
  · rw [Int.bmod_eq_of_le (by omega) (by omega)]
  · omega

theorem toInt_ofNat_eq {size : ℕ} (hsize : size < 2 ^ 31) : (Int32.ofNat size).toInt = size := by
  rw [Int32.toInt_ofNat', Int32.size]
  apply Int.bmod_eq_of_le <;> omega

theorem inside_messageAt {data : List UInt8} {entry : ℕ × Nlmsghdr} (hplaced : Placed data entry) :
    entry.1 + 16 + (messageAt entry.1 entry.2).payloadSize ≤ data.length := by
  obtain ⟨-, hmin, hend⟩ := hplaced
  rw [messageAt, toNat_payload hmin]
  dsimp only
  omega

/-- What the table is made of. -/
theorem recv_some {datagrams : List (List UInt8)} (hbytes : datagrams.flatten ≠ []) :
    ∃ msgs, messagesFrom datagrams.flatten 0 (Int32.ofNat datagrams.flatten.length) = .ok msgs ∧
      (∀ entry ∈ msgs, Placed datagrams.flatten entry) ∧
      recv datagrams = .ok (some ⟨datagrams.flatten, msgs.map Prod.fst, msgs.map Prod.fst,
        msgs.map (fun entry => messageAt entry.1 entry.2) ++ [zeroMessage]⟩) := by
  have hsize := toInt_ofNat_le datagrams.flatten.length
  obtain ⟨msgs, hmsgs, hplaced, hfill⟩ := @messagesFrom_inside datagrams.flatten 0
      (Int32.ofNat datagrams.flatten.length) (by omega)
  refine ⟨msgs, hmsgs, hplaced, ?_⟩
  have hlength : datagrams.flatten.length ≠ 0 :=
    fun hzero => hbytes (List.length_eq_zero_iff.mp hzero)
  rw [recv, recvPending_eq, List.nil_append, if_neg hlength, hmsgs,
    Fallible.ok_bind, hfill, Fallible.ok_bind, List.map_map, List.map_map]
  rfl

theorem packetsBytes_ne_nil {packets : List Packet} (hsome : packets ≠ []) :
    packetsBytes packets ≠ [] := by
  cases packets with
  | nil => exact absurd rfl hsome
  | cons packet packets =>
    apply List.ne_nil_of_length_pos
    have hlength := packet.length_bytes
    have hlen := packet.len_eq
    have hle := le_alignUp packet.header.nlmsgLen.toNat
    rw [packetsBytes_cons, List.length_append]
    omega

/-- `tst_rtnl_recv` ends for all bytes, with a null pointer only when there are
none.  Its loops visit the same offsets and the table stays inside the buffer;
and when the bytes are messages one behind the other, it lists these. -/
theorem recv_lists (datagrams : List (List UInt8)) : ∃ result, recv datagrams = .ok result ∧
      (result = none ↔ datagrams.flatten = []) ∧
      (∀ reception ∈ result, reception.buffer = datagrams.flatten ∧
        reception.counted = reception.filled ∧ Inside reception) ∧
      ∀ packets, packets ≠ [] → packetsBytes packets = datagrams.flatten →
        datagrams.flatten.length < 2 ^ 31 → ∃ reception ∈ result,
            Lists reception.buffer 0 reception.table packets := by
  by_cases hbytes : datagrams.flatten = []
  · refine ⟨none, ?_, iff_of_true rfl hbytes, by simp, ?_⟩
    · rw [recv, recvPending_eq, hbytes]
      rfl
    · intro packets hsome hpackets
      exact absurd (hpackets.trans hbytes) (packetsBytes_ne_nil hsome)
  · obtain ⟨msgs, hmsgs, hplaced, hrecv⟩ := recv_some hbytes
    refine ⟨_, hrecv, iff_of_false (Option.some_ne_none _) hbytes, ?_, ?_⟩
    · rintro _ ⟨⟩
      refine ⟨rfl, rfl, ?_⟩
      intro entry hentry
      rcases List.mem_append.mp hentry with hmessage | hlast
      · obtain ⟨⟨ptr, header⟩, hmem, rfl⟩ := List.mem_map.mp hmessage
        exact .inr ⟨ptr, rfl, rfl, inside_messageAt (hplaced _ hmem)⟩
      · exact .inl (List.mem_singleton.mp hlast)
    · intro packets _ hpackets hsmall
      refine ⟨_, rfl, ?_⟩
      have hsize := toInt_ofNat_eq hsmall
      rw [← hpackets] at hsize hmsgs ⊢
      obtain ⟨found, hfound, hlists⟩ := @messagesFrom_packets packets [] _ hsize
      rw [List.nil_append, List.length_nil] at hfound hlists
      rw [hmsgs] at hfound
      rw [Except.ok.inj hfound]
      exact hlists

/-- A reply without payload and one with two bytes of it. -/
def twoPackets : List Packet := [⟨⟨16, 20, 0, 7, 0⟩, [], [], rfl, rfl⟩,
    ⟨⟨18, 24, 0, 8, 0⟩, [0, 0], [9, 9], rfl, rfl⟩]

theorem recv_lists_twoPackets : ∃ reception, recv [packetsBytes twoPackets] = .ok (some reception) ∧
      Lists reception.buffer 0 reception.table twoPackets := by
  obtain ⟨result, hrecv, -, -, hlists⟩ := recv_lists [packetsBytes twoPackets]
  obtain ⟨reception, rfl, hreception⟩ := hlists twoPackets (by simp [twoPackets])
    (by simp) (by decide)
  exact ⟨reception, hrecv, hreception⟩

/-- When nothing has come, there is no table. -/
theorem recv_nothing : packetsBytes [] = ([] : List (List UInt8)).flatten ∧ recv [] = .ok none ∧
      ¬∃ reception, recv [] = .ok (some reception) ∧
        Lists reception.buffer 0 reception.table [] := by
  refine ⟨rfl, rfl, ?_⟩
  rintro ⟨reception, hrecv, -⟩
  cases hrecv

end GrapheneLtp.NetlinkReceived
