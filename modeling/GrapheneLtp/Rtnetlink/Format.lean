import GrapheneLtp.Rtnetlink.Builder

/-!
# The netlink message format

The bytes that a batch of messages stands for, and the walks with which
a receiver takes them apart again: `NLMSG_OK` and `NLMSG_NEXT` over the
messages, `RTA_OK` and `RTA_NEXT` over the attributes of one message or of one
nested attribute.
-/

namespace GrapheneLtp.NetlinkFormat

open GrapheneLtp.Bytes GrapheneLtp.Rtnetlink

/-- `struct rtattr`. -/
def attrHeader (length : ℕ) (type : UInt16) : List UInt8 := leBytes 2 length ++ leBytes 2 type.toNat

mutual

/-- An attribute: its header, its data, and behind the padded data the
attributes nested in it. -/
def attrBytes : Attr → List UInt8
  | .leaf type data => attrHeader (4 + data.length) type ++ data
  | .nested type data sublist =>
    attrHeader (4 + (joinPadded (data :: attrsBytes sublist)).length) type ++
      joinPadded (data :: attrsBytes sublist)

def attrsBytes : List Attr → List (List UInt8)
  | [] => []
  | attr :: list => attrBytes attr :: attrsBytes list

end

/-- A message as its caller sees it. -/
structure Message where
  header : Nlmsghdr
  payload : List UInt8
  attrs : List Attr

/-- What follows the header of a message. -/
def Message.body (message : Message) : List UInt8 :=
  joinPadded (message.payload :: attrsBytes message.attrs)

/-- The length of a message with its header. -/
def Message.size (message : Message) : ℕ := 16 + message.body.length

def Message.sent (message : Message) (multi : Bool) (seq pid : UInt32) :
    Nlmsghdr :=
  { message.header with
    nlmsgLen := UInt32.ofNat message.size
    nlmsgFlags := message.header.nlmsgFlags ||| if multi then nlmFMulti else 0
    nlmsgSeq := seq
    nlmsgPid := pid }

def Message.bytes (message : Message) (multi : Bool) (seq pid : UInt32) : List UInt8 :=
  (message.sent multi seq pid).bytes ++ message.body

/-- The messages of a batch, with consecutive sequence numbers. -/
def batchBytes (multi : Bool) (pid : UInt32) : UInt32 → List Message → List (List UInt8)
  | _, [] => []
  | seq, message :: messages =>
    message.bytes multi seq pid :: batchBytes multi pid (seq + 1) messages

/-- The walk with `NLMSG_OK` and `NLMSG_NEXT`: every message with its header. -/
def nlmsgWalk (bytes : List UInt8) : List (List UInt8) :=
  walk 16 (fun rest => leValue (rest.take 4)) bytes.length bytes

/-- The walk with `RTA_OK` and `RTA_NEXT`: every attribute with its header. -/
def rtaWalk (bytes : List UInt8) : List (List UInt8) :=
  walk 4 (fun rest => leValue (rest.take 2)) bytes.length bytes

/-- A message header read from memory. -/
def readHeader (bytes : List UInt8) : Nlmsghdr :=
  { nlmsgLen := UInt32.ofNat (leValue (bytes.take 4))
    nlmsgType := UInt16.ofNat (leValue ((bytes.drop 4).take 2))
    nlmsgFlags := UInt16.ofNat (leValue ((bytes.drop 6).take 2))
    nlmsgSeq := UInt32.ofNat (leValue ((bytes.drop 8).take 4))
    nlmsgPid := UInt32.ofNat (leValue ((bytes.drop 12).take 4)) }

def readType (record : List UInt8) : UInt16 := UInt16.ofNat (leValue ((record.drop 2).take 2))

/-- An attribute is found in a record of the walk: its type and value, and for
a nested one the attributes that the walk finds behind its padded data. -/
inductive ReadsAttr : Attr → List UInt8 → Prop
  | leaf (type : UInt16) (data record : List UInt8) :
      readType record = type → record.drop 4 = data →
        ReadsAttr (.leaf type data) record
  | nested (type : UInt16) (data : List UInt8) (sublist : List Attr)
      (record : List UInt8) :
      readType record = type → (record.drop 4).take data.length = data →
        List.Forall₂ ReadsAttr sublist
          (rtaWalk (record.drop (4 + alignUp data.length))) →
          ReadsAttr (.nested type data sublist) record

/-- A message is found in a record of the walk. -/
structure ReadsMessage (message : Message) (multi : Bool) (seq pid : UInt32)
    (record : List UInt8) : Prop where
  header : readHeader record = message.sent multi seq pid
  payload : (record.drop 16).take message.payload.length = message.payload
  attrs : List.Forall₂ ReadsAttr message.attrs
    (rtaWalk (record.drop (16 + alignUp message.payload.length)))

/-- The messages of a batch are found in the records of the walk, with
consecutive sequence numbers. -/
inductive ReadsBatch (multi : Bool) (pid : UInt32) :
    UInt32 → List Message → List (List UInt8) → Prop
  | nil (seq : UInt32) : ReadsBatch multi pid seq [] []
  | cons {seq : UInt32} {message : Message} {messages : List Message}
      {record : List UInt8} {records : List (List UInt8)} :
      ReadsMessage message multi seq pid record →
        ReadsBatch multi pid (seq + 1) messages records →
          ReadsBatch multi pid seq (message :: messages) (record :: records)

/-- Every attribute of the message is short enough for its length field. -/
def Message.Fits (message : Message) : Prop :=
  ∀ attr ∈ message.attrs, (attrBytes attr).length ≤ 65535

section Reading

theorem length_attrHeader (length : ℕ) (type : UInt16) : (attrHeader length type).length = 4 := by
  simp [attrHeader]

theorem length_header (header : Nlmsghdr) : header.bytes.length = 16 := by
  simp [Nlmsghdr.bytes]

theorem attrsBytes_eq (list : List Attr) : attrsBytes list = list.map attrBytes := by
  induction list with
  | nil => rfl
  | cons attr list ih => rw [attrsBytes, ih, List.map_cons]

theorem readHeader_bytes (header : Nlmsghdr) (rest : List UInt8) :
    readHeader (header.bytes ++ rest) = header := by
  simp [readHeader, Nlmsghdr.bytes, List.drop_append, leValue_leBytes, List.drop_eq_nil_of_le]

theorem readType_attrHeader (length : ℕ) (type : UInt16) (rest : List UInt8) :
    readType (attrHeader length type ++ rest) = type := by
  simp [readType, attrHeader, leValue_leBytes]

theorem length_le_attrBytes (attr : Attr) : 4 ≤ (attrBytes attr).length := by
  cases attr <;> simp [attrBytes, length_attrHeader]

/-- A nested attribute lies inside its parent. -/
theorem length_sublist_le {type : UInt16} {data : List UInt8}
    {sublist : List Attr} {attr : Attr} (hattr : attr ∈ sublist) :
    (attrBytes attr).length ≤ (attrBytes (.nested type data sublist)).length := by
  have hmem : attrBytes attr ∈ data :: attrsBytes sublist := by
    rw [attrsBytes_eq]
    exact List.mem_cons_of_mem _ (List.mem_map_of_mem hattr)
  have hle := length_le_joinPadded hmem
  simp only [attrBytes, List.length_append]
  omega

/-- An attribute begins with its own length. -/
theorem framed_attrBytes {attr : Attr} (hfits : (attrBytes attr).length ≤ 65535) :
    Framed 4 (fun rest => leValue (rest.take 2)) (attrBytes attr) := by
  refine ⟨length_le_attrBytes attr, fun rest => ?_⟩
  cases attr <;>
    simp [attrBytes, attrHeader, leValue_leBytes] at hfits ⊢ <;>
    omega

/-- The walk over attributes finds them all. -/
theorem rtaWalk_joinPadded {list : List Attr}
    (hfits : ∀ attr ∈ list, (attrBytes attr).length ≤ 65535) :
    rtaWalk (joinPadded (attrsBytes list)) = attrsBytes list := by
  rw [attrsBytes_eq]
  apply walk_joinPadded (by decide)
  intro record hrecord
  obtain ⟨attr, hattr, rfl⟩ := List.mem_map.mp hrecord
  exact framed_attrBytes (hfits attr hattr)

mutual

theorem readsAttr_attrBytes (attr : Attr) (hfits : (attrBytes attr).length ≤ 65535) :
    ReadsAttr attr (attrBytes attr) := by
  cases attr with
  | leaf type data =>
    apply ReadsAttr.leaf
    · rw [attrBytes, readType_attrHeader]
    · rw [attrBytes, List.drop_left' (length_attrHeader _ _)]
  | nested type data sublist =>
    have hsub : ∀ attr ∈ sublist, (attrBytes attr).length ≤ 65535 :=
      fun attr hattr => (length_sublist_le hattr).trans hfits
    apply ReadsAttr.nested
    · rw [attrBytes, readType_attrHeader]
    · rw [attrBytes, List.drop_left' (length_attrHeader _ _), take_joinPadded]
    · rw [attrBytes, ← List.drop_drop, List.drop_left' (length_attrHeader _ _), drop_joinPadded,
        rtaWalk_joinPadded hsub]
      exact readsAttrs_attrsBytes sublist hsub

theorem readsAttrs_attrsBytes (list : List Attr)
    (hfits : ∀ attr ∈ list, (attrBytes attr).length ≤ 65535) :
    List.Forall₂ ReadsAttr list (attrsBytes list) := by
  cases list with
  | nil => exact .nil
  | cons attr list =>
    rw [attrsBytes]
    exact .cons (readsAttr_attrBytes attr (hfits attr List.mem_cons_self))
      (readsAttrs_attrsBytes list fun other hother =>
        hfits other (List.mem_cons_of_mem _ hother))

end

section Messages

variable (multi : Bool) (pid : UInt32)

theorem length_message (message : Message) (seq : UInt32) :
    (message.bytes multi seq pid).length = message.size := by
  rw [Message.bytes, List.length_append, length_header, Message.size]

/-- A message begins with its own length. -/
theorem framed_message {message : Message} (seq : UInt32) (hsize : message.size < 2 ^ 32) :
    Framed 16 (fun rest => leValue (rest.take 4)) (message.bytes multi seq pid) := by
  refine ⟨by rw [length_message, Message.size]; omega, fun rest => ?_⟩
  rw [length_message]
  have hlen : (UInt32.ofNat message.size).toNat = message.size := by
    rw [UInt32.toNat_ofNat', Nat.mod_eq_of_lt hsize]
  simp [Message.bytes, Nlmsghdr.bytes, Message.sent, leValue_leBytes, hlen]
  omega

theorem readsMessage_bytes {message : Message} (seq : UInt32) (hfits : message.Fits) :
    ReadsMessage message multi seq pid (message.bytes multi seq pid) where
  header := readHeader_bytes _ _
  payload := by
    rw [Message.bytes, List.drop_left' (length_header _), Message.body, take_joinPadded]
  attrs := by
    rw [Message.bytes, ← List.drop_drop, List.drop_left' (length_header _),
      Message.body, drop_joinPadded, rtaWalk_joinPadded hfits]
    exact readsAttrs_attrsBytes _ hfits

variable {messages : List Message}

theorem readsBatch_batchBytes (hfits : ∀ message ∈ messages, message.Fits) :
    ∀ seq, ReadsBatch multi pid seq messages (batchBytes multi pid seq messages) := by
  induction messages with
  | nil => exact fun seq => .nil seq
  | cons message messages ih =>
    intro seq
    exact .cons (readsMessage_bytes multi pid seq (hfits _ List.mem_cons_self))
      (ih (fun other hother => hfits other (List.mem_cons_of_mem _ hother)) (seq + 1))

theorem framed_batchBytes (hsize : ∀ message ∈ messages, message.size < 2 ^ 32) :
    ∀ seq, ∀ record ∈ batchBytes multi pid seq messages,
      Framed 16 (fun rest => leValue (rest.take 4)) record := by
  induction messages with
  | nil => simp [batchBytes]
  | cons message messages ih =>
    intro seq record hrecord
    rcases List.mem_cons.mp hrecord with rfl | hrest
    · exact framed_message multi pid seq (hsize _ List.mem_cons_self)
    · exact ih (fun other hother =>
        hsize other (List.mem_cons_of_mem _ hother)) (seq + 1) record hrest

/-- Walking a batch gives back its messages. -/
theorem nlmsgWalk_batch (seq : UInt32) (hsize : ∀ message ∈ messages, message.size < 2 ^ 32)
    (hfits : ∀ message ∈ messages, message.Fits) :
    ReadsBatch multi pid seq messages
      (nlmsgWalk (joinPadded (batchBytes multi pid seq messages))) := by
  rw [nlmsgWalk, walk_joinPadded (by decide) (framed_batchBytes multi pid hsize seq)]
  exact readsBatch_batchBytes multi pid hfits seq

theorem batchBytes_concat (message : Message) :
    ∀ seq, batchBytes multi pid seq (messages ++ [message]) = batchBytes multi pid seq messages ++
        [message.bytes multi (seq + UInt32.ofNat messages.length) pid] := by
  induction messages with
  | nil => simp [batchBytes]
  | cons first messages ih =>
    intro seq
    rw [List.cons_append, batchBytes, ih, batchBytes, List.length_cons,
      UInt32.ofNat_add, UInt32.add_comm (UInt32.ofNat _), UInt32.add_assoc]
    rfl

end Messages

end Reading

end GrapheneLtp.NetlinkFormat
