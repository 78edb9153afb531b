import GrapheneLtp.Rtnetlink.Layout

/-!
# Receiving netlink messages

The other half of the rtnetlink library: `tst_rtnl_recv` gathers all pending
datagrams in one buffer and makes a table of the messages in it.  Pointers into a
buffer are offsets, and an access outside of it is a wild one.  Memory can always
be had.
-/

namespace GrapheneLtp.Rtnetlink

open GrapheneLtp.Bytes GrapheneLtp.NetlinkFormat GrapheneLtp.NetlinkLayout

def nlmsgError : UInt16 := 2

/-- The header at an offset of a buffer. -/
def headerAt (data : List UInt8) (ptr : ℕ) : Except Failure Nlmsghdr :=
  match slice data ptr nlmsgHdrlen with
  | some bytes => .ok (readHeader bytes)
  | none => .error .wild

/-- What `NLMSG_NEXT` leaves of the size is exact, as the message is not longer
than the size. -/
theorem toInt_next {sizeLeft : Int32} {len : UInt32} (hlen : (len.toNat : ℤ) ≤ sizeLeft.toInt) :
    (sizeLeft - Int32.ofNat (nlmsgAlign len.toNat)).toInt = sizeLeft.toInt - alignUp len.toNat := by
  have hmax := sizeLeft.toInt_lt
  have hup := alignUp_lt len.toNat
  have hdvd := dvd_alignUp len.toNat
  have halign : nlmsgAlign len.toNat = alignUp len.toNat := nlmsgAlign_eq (by omega)
  rw [halign, Int32.toInt_sub, Int32.toInt_ofNat', Int32.size, Int.sub_bmod_bmod]
  apply Int.bmod_eq_of_le <;> omega

/-- The messages that the loop `for (; size_left > 0 && NLMSG_OK(ptr, size_left);
ptr = NLMSG_NEXT(ptr, size_left))` comes to, with their offsets. -/
def messagesFrom (data : List UInt8) (ptr : ℕ) (sizeLeft : Int32) :
    Except Failure (List (ℕ × Nlmsghdr)) :=
  if 0 < sizeLeft.toInt ∧ (16 : ℤ) ≤ sizeLeft.toInt then
    match headerAt data ptr with
    | .error failure => .error failure
    | .ok header =>
      if nlmsgHdrlen ≤ header.nlmsgLen.toNat ∧ (header.nlmsgLen.toNat : ℤ) ≤ sizeLeft.toInt then
        (messagesFrom data (ptr + nlmsgAlign header.nlmsgLen.toNat)
          (sizeLeft - Int32.ofNat (nlmsgAlign header.nlmsgLen.toNat))).map ((ptr, header) :: ·)
      else .ok []
  else .ok []
termination_by sizeLeft.toInt.toNat
decreasing_by
  rename_i hok
  have hlen : 16 ≤ header.nlmsgLen.toNat := hok.1
  have hle := le_alignUp header.nlmsgLen.toNat
  rw [toInt_next hok.2]
  omega

/-! ## tst_rtnl_recv -/

/-- `struct tst_rtnl_message`.  The pointers are offsets into the buffer. -/
structure RtnlMessage where
  header : Option ℕ
  err : Option ℕ
  payload : Option ℕ
  payloadSize : ℕ
  deriving DecidableEq, Repr

/-- The entry of zeros at the end of the table. -/
def zeroMessage : RtnlMessage := ⟨none, none, none, 0⟩

/-- The loop that reads the pending datagrams: `recv` tells the size of the next
one, and then the buffer grows by so much. -/
def recvPending (buffer : List UInt8) : List (List UInt8) → List UInt8
  | [] => buffer
  | datagram :: pending => recvPending (buffer ++ datagram) pending

/-- The entry for the message at an offset. -/
def messageAt (ptr : ℕ) (header : Nlmsghdr) : RtnlMessage :=
  { header := some ptr
    err := if header.nlmsgType = nlmsgError then some (ptr + nlmsgHdrlen)
      else none
    payload := some (ptr + nlmsgHdrlen)
    payloadSize := (header.nlmsgLen - UInt32.ofNat (nlmsgSpace 0)).toNat }

/-- The loop that fills the table, with the offsets that it visits. -/
def fillMessages (data : List UInt8) : ℕ → ℕ → Except Failure (List (ℕ × RtnlMessage))
  | 0, _ => .ok []
  | count + 1, ptr =>
    match headerAt data ptr with
    | .error failure => .error failure
    | .ok header =>
      (fillMessages data count (ptr + nlmsgAlign header.nlmsgLen.toNat)).map
        ((ptr, messageAt ptr header) :: ·)

/-- What `tst_rtnl_recv` returns, and the offsets that its two loops visit. -/
structure Reception where
  buffer : List UInt8
  counted : List ℕ
  filled : List ℕ
  table : List RtnlMessage
  deriving DecidableEq, Repr

/-- `tst_rtnl_recv` on the datagrams that are pending.  It returns a null pointer
when there are no bytes. -/
def recv (datagrams : List (List UInt8)) : Except Failure (Option Reception) :=
  let buffer := recvPending [] datagrams
  if buffer.length = 0 then .ok none
  else do
    let counted ← messagesFrom buffer 0 (Int32.ofNat buffer.length)
    let filled ← fillMessages buffer counted.length 0
    return some ⟨buffer, counted.map Prod.fst, filled.map Prod.fst,
      filled.map Prod.snd ++ [zeroMessage]⟩

end GrapheneLtp.Rtnetlink
