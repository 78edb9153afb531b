import GrapheneLtp.Rtnetlink.Lengths

/-!
# Whole batches

A run of the builder on a fresh context, against the list of messages that its
calls describe.  The layout of one open message becomes the layout of a batch:
opening a second message marks the first as part of a multi-part batch.
-/

namespace GrapheneLtp.NetlinkBatch

open GrapheneLtp.Bytes GrapheneLtp.Rtnetlink GrapheneLtp.NetlinkFormat
open GrapheneLtp.NetlinkLayout GrapheneLtp.NetlinkLengths GrapheneLtp.Fallible

/-- The context just before the header of a new message is written. -/
structure Ready (ctx : Context) (seq pid : UInt32) (content : List UInt8) :
    Prop where
  buffer_pos : 0 < ctx.buffer
  bufsize_dvd : 4 ∣ ctx.bufsize
  bufsize_lt : ctx.bufsize < 2 ^ 32
  data : ctx.data = fill ctx.bufsize content
  curmsg : ctx.curmsg = ctx.buffer + alignUp content.length
  datalen : ctx.datalen = alignUp content.length
  seq_eq : ctx.seq = seq
  pid_eq : ctx.pid = pid

section Opening

variable {ctx : Context} {seq pid : UInt32} {content : List UInt8}

/-- The header of a new message, and its payload behind it. -/
theorem Ready.writeMessage_layout (hready : Ready ctx seq pid content)
    (header : Nlmsghdr) (extraFlags : UInt16) {payload : List UInt8}
    (hroom : alignUp content.length + alignUp (nlmsgLength payload.length) ≤ ctx.bufsize) :
    ∃ next, writeMessage ctx header extraFlags payload = .ok next ∧
      Layout next (seq + 1) pid (padded content)
        { header with
          nlmsgLen := UInt32.ofNat (nlmsgLength payload.length)
          nlmsgFlags := header.nlmsgFlags ||| extraFlags
          nlmsgSeq := seq
          nlmsgPid := pid } payload := by
  have hspace := le_alignUp (nlmsgLength payload.length)
  have hlt := hready.bufsize_lt
  have hsize : nlmsgLength payload.length < 2 ^ 32 := by omega
  have hlen : (UInt32.ofNat (nlmsgLength payload.length)).toNat = nlmsgLength payload.length := by
    rw [UInt32.toNat_ofNat', Nat.mod_eq_of_lt hsize]
  obtain rfl := hready.seq_eq
  obtain rfl := hready.pid_eq
  unfold nlmsgLength nlmsgHdrlen at *
  generalize hsent : Nlmsghdr.mk (UInt32.ofNat (payload.length + 16))
    header.nlmsgType (header.nlmsgFlags ||| extraFlags) ctx.seq ctx.pid = sent
  have hfirst := @store_hold_padded { ctx with seq := ctx.seq + 1 } ctx.curmsg
    content sent.bytes hready.curmsg
    (by simp only [length_header]; omega)
  have hdvd : 4 ∣ (padded content ++ sent.bytes).length := by
    have halign := dvd_alignUp content.length
    rw [List.length_append, length_padded, length_header]
    omega
  have hsecond := @store_hold_padded { ctx with seq := ctx.seq + 1 }
    (ctx.curmsg + 16) (padded content ++ sent.bytes) payload
    (by
      rw [alignUp_of_dvd hdvd, List.length_append, length_padded, length_header, hready.curmsg]
      push_cast
      ring)
    (by
      rw [alignUp_of_dvd hdvd, List.length_append, length_padded, length_header]
      simp only
      omega)
  have hnone := padded_append hdvd []
  rw [List.append_nil, padded_nil, List.append_nil] at hnone
  rw [hnone] at hsecond
  rw [hold_of_data { ctx with seq := ctx.seq + 1 } hready.data] at hfirst
  have hwrite : writeMessage ctx header extraFlags payload = .ok
      { hold { ctx with seq := ctx.seq + 1 } (padded content ++ sent.bytes ++ payload) with
        datalen := ctx.datalen + (payload.length + 16) } := by
    subst hsent
    simp only [writeMessage, nlmsgLength, nlmsgHdrlen, bind, pure, Except.pure,
      Except.bind, hfirst, hlen]
    simp only [hold] at hsecond ⊢
    push_cast
    simp only [hsecond]
  refine ⟨_, hwrite, ?_⟩
  exact
    { buffer_pos := hready.buffer_pos
      bufsize_dvd := hready.bufsize_dvd
      bufsize_lt := hready.bufsize_lt
      data := rfl
      room := by
        have hdatalen := hready.datalen
        simp only [hold]
        omega
      aligned := by simpa using dvd_alignUp _
      curmsg := by simp [hold, hready.curmsg]
      datalen := by
        simp only [hready.datalen, length_padded]
        omega
      len := by
        rw [← hsent, hlen]
        omega
      seq_eq := rfl
      pid_eq := rfl }

/-- The header of a message that is followed by another one. -/
def withMulti (header : Nlmsghdr) : Nlmsghdr :=
  { header with nlmsgFlags := header.nlmsgFlags ||| nlmFMulti }

/-- Opening another message marks the one before and goes behind it. -/
theorem nextMessage_ready {done rest : List UInt8} {header : Nlmsghdr}
    (hlayout : Layout ctx seq pid done header rest) :
    ∃ next, nextMessage ctx = .ok (next, nlmFMulti) ∧
      Ready next seq pid (done ++ (withMulti header).bytes ++ rest) ∧
        next.bufsize = ctx.bufsize := by
  have hcurmsg : ctx.curmsg ≠ 0 := by
    have hpos := hlayout.buffer_pos
    have haddress := hlayout.curmsg
    omega
  have hsplit (flags : UInt16) : done ++
      Nlmsghdr.bytes { header with nlmsgFlags := flags } ++ rest =
        done ++ leBytes 4 header.nlmsgLen.toNat ++
          leBytes 2 header.nlmsgType.toNat ++ leBytes 2 flags.toNat ++
            (leBytes 4 header.nlmsgSeq.toNat ++ leBytes 4 header.nlmsgPid.toNat ++ rest) := by
    simp [Nlmsghdr.bytes]
  have haddress : ctx.curmsg + 6 = ctx.buffer + (done ++ leBytes 4 header.nlmsgLen.toNat ++
        leBytes 2 header.nlmsgType.toNat).length := by
    rw [hlayout.curmsg]
    simp
    ring
  have hload := @load_hold ctx (ctx.curmsg + 6) _ (leBytes 2 header.nlmsgFlags.toNat)
    (leBytes 4 header.nlmsgSeq.toNat ++ leBytes 4 header.nlmsgPid.toNat ++ rest)
    haddress
  have hstore := @store_hold ctx (ctx.curmsg + 6) _ (leBytes 2 header.nlmsgFlags.toNat)
    (leBytes 4 header.nlmsgSeq.toNat ++ leBytes 4 header.nlmsgPid.toNat ++ rest)
    (leBytes 2 (header.nlmsgFlags ||| nlmFMulti).toNat) haddress (by simp)
  rw [← hsplit header.nlmsgFlags, hold_of_data ctx hlayout.data] at hload hstore
  rw [← hsplit (header.nlmsgFlags ||| nlmFMulti)] at hstore
  rw [length_leBytes] at hload
  have hflags : UInt16.ofNat (leValue (leBytes 2 header.nlmsgFlags.toNat)) =
      header.nlmsgFlags := by
    simp [leValue_leBytes]
  have hnext : nextMessage ctx = .ok ({ hold ctx (done ++ (withMulti header).bytes ++ rest) with
        curmsg := ctx.curmsg + alignUp (16 + rest.length)
        datalen := alignUp ctx.datalen }, nlmFMulti) := by
    simp only [nextMessage, hcurmsg, if_false, bind, pure, Except.pure,
      Except.bind, hlayout.load_len, hlayout.loaded_align, hload, hflags,
      hstore, hold, hlayout.sound.curlen]
    rfl
  have hlength : (done ++ (withMulti header).bytes ++ rest).length =
      ctx.datalen := by
    rw [hlayout.datalen]
    simp [length_header]
  refine ⟨_, hnext, ?_, rfl⟩
  exact
    { buffer_pos := hlayout.buffer_pos
      bufsize_dvd := hlayout.bufsize_dvd
      bufsize_lt := hlayout.bufsize_lt
      data := rfl
      curmsg := by
        rw [hlength, hlayout.alignUp_datalen]
        simp only [hold, hlayout.curmsg]
        push_cast
        ring
      datalen := by rw [hlength]
      seq_eq := hlayout.seq_eq
      pid_eq := hlayout.pid_eq }

end Opening

/-- The attributes that a call adds. -/
def attrsOf : Call → List Attr
  | .message _ _ => []
  | .attr type data => [.leaf type data]
  | .attrList list => list

/-- The last message with more attributes, if there is a message. -/
def extend (messages : List Message) (attrs : List Attr) : Option (List Message) :=
  messages.getLast?.map fun last =>
    messages.dropLast ++ [{ last with attrs := last.attrs ++ attrs }]

/-- What a call adds to the messages it is about.  Attributes need an open
message. -/
def describe (messages : List Message) : Call → Option (List Message)
  | .message header payload =>
    some (messages ++ [{ header := header, payload := payload, attrs := [] }])
  | .attr type data => extend messages [.leaf type data]
  | .attrList [] => some messages
  | .attrList list => extend messages list

/-- The messages of a sequence of calls. -/
def describeAll (messages : List Message) (calls : List Call) : Option (List Message) :=
  calls.foldlM describe messages

/-- The bytes of a batch. -/
def batchLength (messages : List Message) : ℕ := (joinPadded (batchBytes true 0 0 messages)).length

/-- The condition on a call: the first message fits into the buffer, or
`realloc` lets the buffer stay where it is; and the batch stays within 2 GiB. -/
def Meets (realloc : ℤ → ℕ → ℤ) (buffer : ℤ) (messages : List Message) (call : Call) : Prop :=
  (∀ header payload, call = .message header payload → messages = [] →
    nlmsgSpace payload.length ≤ 1024 ∨
      realloc buffer (max 2048 (nlmsgSpace payload.length)) = buffer) ∧
  ∀ after, describe messages call = some after → alignUp (batchLength after) ≤ 2 ^ 31

/-- Every call of the sequence meets the condition. -/
def MeetsAll (realloc : ℤ → ℕ → ℤ) (buffer : ℤ) : List Message → List Call → Prop
  | _, [] => True
  | messages, call :: calls =>
    Meets realloc buffer messages call ∧ ∀ after, describe messages call = some after →
        MeetsAll realloc buffer after calls

/-- The context after the calls that describe `messages`. -/
inductive Built (buffer : ℤ) : Context → List Message → Prop
  | fresh : Built buffer (createContext buffer) []
  | opened {ctx : Context} (before : List Message) (last : Message) :
      Layout ctx (UInt32.ofNat (before.length + 1)) 0
        (padded (joinPadded (batchBytes true 0 0 before)))
        (last.sent (!before.isEmpty) (UInt32.ofNat before.length) 0)
        last.body →
      (∀ message ∈ before ++ [last], message.size < 2 ^ 32) →
        Built buffer ctx (before ++ [last])

section Steps

variable {realloc : ℤ → ℕ → ℤ} {buffer : ℤ} {ctx : Context}

theorem batchLength_concat (messages : List Message) (message : Message) :
    batchLength (messages ++ [message]) = alignUp (batchLength messages) + message.size := by
  rw [batchLength, batchBytes_concat, joinPadded_concat, List.length_append, length_padded,
    length_message, batchLength]

/-- Growing an empty buffer that does not move leaves no message open. -/
theorem growBuffer_fresh (hrealloc : Allocator realloc) (hbuffer : 0 < buffer) {size : ℕ}
    (hdvd : 4 ∣ size) (hsize : size ≤ 2 ^ 31)
    (hplace : size ≤ 1024 ∨ realloc buffer (max 2048 size) = buffer) :
    ∃ bufsize, growBuffer realloc (createContext buffer) size = .ok
        { createContext buffer with bufsize := bufsize, data := fill bufsize [] } ∧
      4 ∣ bufsize ∧ bufsize < 2 ^ 32 ∧ size ≤ bufsize := by
  have hneed : alignUp (createContext buffer).datalen + size = size := by
    change alignUp 0 + size = size
    rw [alignUp_of_dvd (dvd_zero 4), Nat.zero_add]
  obtain ⟨bufsize, hsized⟩ := exists_sizedFor 1024 hsize
  obtain ⟨haligned, hlt, hle, hroom⟩ := sizedFor_ok (by decide) hdvd (by decide) hsized
  refine ⟨bufsize, ?_, haligned, hlt, hroom⟩
  have hstays : placed realloc (createContext buffer) bufsize = buffer := by
    rw [placed]
    split_ifs with hsame
    · rfl
    · have hlarge : ¬size ≤ 1024 := fun hsmall => by
        rw [sizedFor, if_pos hsmall] at hsized
        exact hsame (Except.ok.inj hsized).symm
      rw [sizedFor, if_neg hlarge] at hsized
      split_ifs at hsized
      rw [← Except.ok.inj hsized]
      exact hplace.resolve_left hlarge
  have hdata : (createContext buffer).data ++ List.replicate (bufsize - 1024) 0 =
      fill bufsize [] := by
    rw [fill_nil, createContext, List.replicate_append_replicate, Nat.add_sub_cancel' hle]
  have hnull : buffer + ((createContext buffer).curmsg - (createContext buffer).buffer) = 0 :=
    show buffer + (0 - buffer) = 0 by omega
  rw [(Sound.create hbuffer).growBuffer_eq hrealloc hdvd (by omega), hneed]
  change (sizedFor 1024 size).map _ = _
  rw [hsized, Except.map, resized, hstays, hnull]
  exact congrArg Except.ok (congrArg (fun data => { createContext buffer with
    bufsize := bufsize, data := data }) hdata)

/-- The first message, in a buffer that has not moved. -/
theorem addMessage_first (hrealloc : Allocator realloc) (hbuffer : 0 < buffer)
    (header : Nlmsghdr) {payload : List UInt8}
    (hplace : nlmsgSpace payload.length ≤ 1024 ∨
      realloc buffer (max 2048 (nlmsgSpace payload.length)) = buffer)
    (hsize : alignUp (nlmsgLength payload.length) ≤ 2 ^ 31) :
    ∃ next, addMessage realloc (createContext buffer) header payload = .ok next ∧
      Layout next 1 0 [] (Message.sent ⟨header, payload, []⟩ false 0 0)
        payload := by
  have hspace : nlmsgSpace payload.length = alignUp (nlmsgLength payload.length) :=
    nlmsgAlign_eq (by omega)
  rw [hspace] at hplace
  obtain ⟨bufsize, hgrow, hdvd, hlt, hroom⟩ :=
    growBuffer_fresh hrealloc hbuffer (dvd_alignUp _) hsize hplace
  set grown : Context := { createContext buffer with bufsize := bufsize, data := fill bufsize [] }
  have hready : Ready { grown with datalen := 0, curmsg := grown.buffer } 0 0 [] :=
    { buffer_pos := hbuffer
      bufsize_dvd := hdvd
      bufsize_lt := hlt
      data := rfl
      curmsg := (Int.add_zero _).symm
      datalen := rfl
      seq_eq := rfl
      pid_eq := rfl }
  obtain ⟨next, hwrite, hlayout⟩ := hready.writeMessage_layout header 0
    (by simpa [alignUp] using hroom)
  refine ⟨next, ?_, ?_⟩
  · rw [addMessage, hspace, hgrow, ok_bind]
    exact hwrite
  · have hlength : nlmsgLength payload.length = Message.size ⟨header, payload, []⟩ :=
      Nat.add_comm _ _
    rw [hlength] at hlayout
    exact hlayout

theorem withMulti_sent (message : Message) (multi : Bool) (seq pid : UInt32) :
    withMulti (message.sent multi seq pid) = message.sent true seq pid := by
  cases multi
  · simp [withMulti, Message.sent]
  · simp [withMulti, Message.sent, UInt16.or_assoc]

/-- A further message, behind the padded ones before it. -/
theorem addMessage_next (hrealloc : Allocator realloc)
    {before : List Message} {last : Message} {multi : Bool}
    (hlayout : Layout ctx (UInt32.ofNat (before.length + 1)) 0
      (padded (joinPadded (batchBytes true 0 0 before)))
      (last.sent multi (UInt32.ofNat before.length) 0) last.body)
    (header : Nlmsghdr) {payload : List UInt8}
    (hsize : alignUp ctx.datalen + alignUp (nlmsgLength payload.length) ≤ 2 ^ 31) :
    ∃ next, addMessage realloc ctx header payload = .ok next ∧
      Layout next (UInt32.ofNat ((before ++ [last]).length + 1)) 0
        (padded (joinPadded (batchBytes true 0 0 (before ++ [last]))))
        (Message.sent ⟨header, payload, []⟩ true
          (UInt32.ofNat (before ++ [last]).length) 0) payload := by
  obtain ⟨grown, hgrow⟩ := hlayout.sound.exists_growBuffer hrealloc (dvd_alignUp _) hsize
  obtain ⟨hgrown, hroom, -⟩ := hlayout.growBuffer hrealloc (dvd_alignUp _) (by omega) hgrow
  obtain ⟨opened, hnext, hready, hbufsize⟩ := nextMessage_ready hgrown
  have hcontent : padded (joinPadded (batchBytes true 0 0 before)) ++
      (withMulti (last.sent multi (UInt32.ofNat before.length) 0)).bytes ++
        last.body = joinPadded (batchBytes true 0 0 (before ++ [last])) := by
    rw [batchBytes_concat, joinPadded_concat, withMulti_sent, Message.bytes,
      UInt32.zero_add, List.append_assoc]
  have hlength : (padded (joinPadded (batchBytes true 0 0 before)) ++
      (withMulti (last.sent multi (UInt32.ofNat before.length) 0)).bytes ++
        last.body).length = ctx.datalen := by
    rw [hlayout.datalen]
    simp only [List.length_append, length_header]
    omega
  rw [← hlength, ← hbufsize] at hroom
  obtain ⟨next, hwrite, hfinal⟩ := hready.writeMessage_layout header nlmFMulti hroom
  refine ⟨next, ?_, ?_⟩
  · rw [addMessage, nlmsgSpace, nlmsgAlign_eq (by omega), hgrow, ok_bind, hnext]
    exact hwrite
  · have hnumber : (before ++ [last]).length = before.length + 1 := by simp
    have hsent : nlmsgLength payload.length = Message.size ⟨header, payload, []⟩ := Nat.add_comm _ _
    have hseq : UInt32.ofNat (before.length + 1 + 1) =
        UInt32.ofNat (before.length + 1) + 1 := UInt32.ofNat_add _ _
    rw [hcontent, hsent] at hfinal
    rw [hnumber, hseq]
    exact hfinal

/-- More attributes for the open message. -/
theorem body_extend (message : Message) (attrs : List Attr) :
    Message.body { message with attrs := message.attrs ++ attrs } =
      joinPadded (message.body :: attrsBytes attrs) := by
  rw [Message.body, Message.body, joinPadded_joinPadded, attrsBytes_eq,
    attrsBytes_eq, attrsBytes_eq, List.map_append]

theorem sent_extend (message : Message) (multi : Bool) (seq pid : UInt32) (attrs : List Attr) :
    Message.sent { message with attrs := message.attrs ++ attrs } multi seq pid =
      withLen (message.sent multi seq pid)
        (16 + (joinPadded (message.body :: attrsBytes attrs)).length) := by
  rw [← body_extend]
  rfl

variable {messages after : List Message}

theorem extend_concat (before : List Message) (last : Message) (attrs : List Attr) :
    extend (before ++ [last]) attrs =
      some (before ++ [{ last with attrs := last.attrs ++ attrs }]) := by
  simp [extend]

/-- What the calls for attributes leave of an open message. -/
theorem Built.extend {before : List Message} {last : Message} {attrs : List Attr}
    (hlayout : Layout ctx (UInt32.ofNat (before.length + 1)) 0
      (padded (joinPadded (batchBytes true 0 0 before)))
      (withLen (last.sent (!before.isEmpty) (UInt32.ofNat before.length) 0)
        (16 + (joinPadded (last.body :: attrsBytes attrs)).length))
      (joinPadded (last.body :: attrsBytes attrs)))
    (hbefore : ∀ message ∈ before, message.size < 2 ^ 32)
    (hsize : Message.size { last with attrs := last.attrs ++ attrs } < 2 ^ 32) :
    Built buffer ctx (before ++ [{ last with attrs := last.attrs ++ attrs }]) := by
  apply Built.opened
  · rw [sent_extend, body_extend]
    exact hlayout
  · intro message hmessage
    rcases List.mem_append.mp hmessage with hold | hnew
    · exact hbefore message hold
    · rw [List.mem_singleton.mp hnew]
      exact hsize

/-- More attributes for the open message, if the batch stays within 2 GiB. -/
theorem addAttrList_built (hrealloc : Allocator realloc) {before : List Message} {last : Message}
    (hlayout : Layout ctx (UInt32.ofNat (before.length + 1)) 0
      (padded (joinPadded (batchBytes true 0 0 before)))
      (last.sent (!before.isEmpty) (UInt32.ofNat before.length) 0) last.body)
    (hbefore : ∀ message ∈ before ++ [last], message.size < 2 ^ 32) {attrs : List Attr}
    (hfits : ∀ attr ∈ attrs, (attrBytes attr).length ≤ 65535)
    (hbatch : alignUp (batchLength
      (before ++ [{ last with attrs := last.attrs ++ attrs }])) ≤ 2 ^ 31) :
    ∃ next, addAttrList realloc ctx attrs = .ok next ∧
      Built buffer next (before ++ [{ last with attrs := last.attrs ++ attrs }]) := by
  have hsize := hbatch
  rw [batchLength_concat, Message.size, body_extend] at hsize
  obtain ⟨next, hadd⟩ := addAttrList_succeeds hrealloc hlayout hfits
    (by rw [length_padded]; exact hsize)
  refine ⟨next, hadd, Built.extend (addAttrList_layout realloc hrealloc attrs hlayout hfits hadd)
    (fun message hmessage => hbefore message (List.mem_append_left _ hmessage)) ?_⟩
  have hle := le_alignUp (batchLength (before ++ [{ last with attrs := last.attrs ++ attrs }]))
  rw [batchLength_concat] at hle hbatch
  omega

/-- A single attribute is a list of one. -/
theorem addAttrList_singleton {type : UInt16} {data : List UInt8}
    (hfits : (attrBytes (.leaf type data)).length ≤ 65535) :
    addAttrList realloc ctx [.leaf type data] = addAttr realloc ctx type data := by
  have hpassed : checkLength data = .ok () :=
    checkLength_ok (le_of_add_le_right ((length_data_le (.leaf type data)).trans hfits))
  rw [addAttrList, addEntry, hpassed, ok_bind]
  cases addAttr realloc ctx type data with
  | error failure => rfl
  | ok next => rw [ok_bind, addAttrList]

/-- Every call that meets the condition builds what it describes. -/
theorem Built.call (hrealloc : Allocator realloc)
    (hbuffer : 0 < buffer) (hbuilt : Built buffer ctx messages) {call : Call}
    (hfits : ∀ attr ∈ attrsOf call, (attrBytes attr).length ≤ 65535)
    (hmeets : Meets realloc buffer messages call)
    (hdescribe : describe messages call = some after) :
    ∃ next, call.run realloc ctx = .ok next ∧ Built buffer next after := by
  have hbatch := hmeets.2 after hdescribe
  cases call with
  | message header payload =>
    simp only [describe, Option.some.injEq] at hdescribe
    subst hdescribe
    have hlength : nlmsgLength payload.length =
        Message.size ⟨header, payload, []⟩ := Nat.add_comm _ _
    rw [batchLength_concat, alignUp_add (dvd_alignUp _), ← hlength] at hbatch
    have hsize : Message.size ⟨header, payload, []⟩ < 2 ^ 32 := by
      have hle := le_alignUp (nlmsgLength payload.length)
      omega
    cases hbuilt with
    | fresh =>
      obtain ⟨next, hadd, hlayout⟩ := addMessage_first hrealloc hbuffer header
        (hmeets.1 header payload rfl rfl) (by omega)
      exact ⟨next, hadd, .opened [] _ hlayout (by simpa using hsize)⟩
    | opened before last hlayout hbefore =>
      have hdatalen : ctx.datalen = batchLength (before ++ [last]) := by
        rw [hlayout.datalen, batchLength_concat, length_padded]
        rfl
      rw [← hdatalen] at hbatch
      obtain ⟨next, hadd, hlayout⟩ := addMessage_next hrealloc hlayout header hbatch
      refine ⟨next, hadd, .opened _ _ ?_ ?_⟩
      · have hmulti : (!(before ++ [last]).isEmpty) = true := by simp
        rw [hmulti]
        exact hlayout
      · intro message hmessage
        rcases List.mem_append.mp hmessage with hold | hnew
        · exact hbefore message hold
        · exact List.mem_singleton.mp hnew ▸ hsize
  | attr type data =>
    cases hbuilt with
    | fresh => simp [describe, NetlinkBatch.extend] at hdescribe
    | opened before last hlayout hbefore =>
      rw [describe, extend_concat, Option.some.injEq] at hdescribe
      subst hdescribe
      rw [Call.run, ← addAttrList_singleton (hfits _ List.mem_cons_self)]
      exact addAttrList_built hrealloc hlayout hbefore hfits hbatch
  | attrList list =>
    cases list with
    | nil =>
      simp only [describe, Option.some.injEq] at hdescribe
      subst hdescribe
      exact ⟨ctx, by rw [Call.run, addAttrList], hbuilt⟩
    | cons attr list =>
      cases hbuilt with
      | fresh => simp [describe, NetlinkBatch.extend] at hdescribe
      | opened before last hlayout hbefore =>
        rw [describe, extend_concat, Option.some.injEq] at hdescribe
        · subst hdescribe
          exact addAttrList_built hrealloc hlayout hbefore hfits hbatch
        · simp

end Steps

end GrapheneLtp.NetlinkBatch
