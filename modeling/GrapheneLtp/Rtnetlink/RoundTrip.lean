import GrapheneLtp.Rtnetlink.Batch

/-!
# What a receiver reads back

Walking the buffer after a run of the builder gives back the messages that the
calls described.  The runs for which this is proved are those in which the
buffer does not move before the first message is in it: growing an empty buffer
relocates a null `curmsg`, and the next access is a wild one.  The batch stays within
2 GiB, for which no size is cut.
-/

namespace GrapheneLtp.NetlinkRoundTrip

open GrapheneLtp.Bytes GrapheneLtp.Rtnetlink GrapheneLtp.NetlinkFormat
open GrapheneLtp.NetlinkLayout GrapheneLtp.NetlinkBatch GrapheneLtp.Fallible

/-- The buffer of a context reads back as `messages`. -/
structure ReadBack (ctx : Context) (messages : List Message) : Prop where
  walk : ReadsBatch (decide (2 ≤ messages.length)) 0 0 messages
    (nlmsgWalk (ctx.data.take ctx.datalen))
  datalen_le : ctx.datalen ≤ ctx.bufsize
  curmsg : messages ≠ [] → ∃ offset : ℕ, ctx.curmsg = ctx.buffer + offset ∧
    offset + (readHeader (ctx.data.drop offset)).nlmsgLen.toNat = ctx.datalen
  multi : ∀ record ∈ nlmsgWalk (ctx.data.take ctx.datalen),
    (readHeader record).nlmsgFlags &&& nlmFMulti ≠ 0 ↔ 2 ≤ messages.length

section Describing

variable {messages after : List Message} {call : Call}

/-- A property of messages that every call keeps. -/
theorem describe_forall {P : Message → Prop}
    (hmessage : ∀ header payload, call = .message header payload → P ⟨header, payload, []⟩)
    (hextend : ∀ message, P message → P { message with attrs := message.attrs ++ attrsOf call })
    (hall : ∀ message ∈ messages, P message)
    (hdescribe : describe messages call = some after) :
    ∀ message ∈ after, P message := by
  have hextended {attrs : List Attr} (hattrs : attrs = attrsOf call)
      (hafter : extend messages attrs = some after) :
      ∀ message ∈ after, P message := by
    subst hattrs
    rcases List.eq_nil_or_concat' messages with rfl | ⟨before, last, rfl⟩
    · simp [extend] at hafter
    · rw [extend_concat, Option.some.injEq] at hafter
      subst hafter
      intro message hmem
      rcases List.mem_append.mp hmem with hold | hnew
      · exact hall message (List.mem_append_left _ hold)
      · rw [List.mem_singleton.mp hnew]
        exact hextend last (hall last (by simp))
  cases call with
  | message header payload =>
    simp only [describe, Option.some.injEq] at hdescribe
    subst hdescribe
    intro message hmem
    rcases List.mem_append.mp hmem with hold | hnew
    · exact hall message hold
    · rw [List.mem_singleton.mp hnew]
      exact hmessage header payload rfl
  | attr type data => exact hextended rfl hdescribe
  | attrList list =>
    cases list with
    | nil =>
      simp only [describe, Option.some.injEq] at hdescribe
      exact hdescribe ▸ hall
    | cons attr list => exact hextended rfl hdescribe

theorem describeAll_forall {P : Message → Prop} {calls : List Call}
    (hmessage : ∀ header payload, Call.message header payload ∈ calls → P ⟨header, payload, []⟩)
    (hextend : ∀ call ∈ calls, ∀ message, P message →
      P { message with attrs := message.attrs ++ attrsOf call }) :
    ∀ {messages final}, (∀ message ∈ messages, P message) →
      describeAll messages calls = some final → ∀ message ∈ final, P message := by
  induction calls with
  | nil =>
    intro messages final hall hdescribe
    simp only [describeAll, List.foldlM_nil, Option.pure_def, Option.some.injEq] at hdescribe
    exact hdescribe ▸ hall
  | cons call calls ih =>
    intro messages final hall hdescribe
    rw [describeAll, List.foldlM_cons] at hdescribe
    obtain ⟨after, hcall, hrest⟩ := Option.bind_eq_some_iff.mp hdescribe
    have hafter := describe_forall (fun header payload hequal =>
      hmessage header payload (hequal ▸ List.mem_cons_self))
      (hextend call List.mem_cons_self) hall hcall
    exact ih (fun header payload hmem =>
      hmessage header payload (List.mem_cons_of_mem _ hmem))
      (fun other hother => hextend other (List.mem_cons_of_mem _ hother))
      hafter hrest

/-- The caller has left the multi-part flag alone. -/
def CleanFlags (message : Message) : Prop := message.header.nlmsgFlags &&& nlmFMulti = 0

end Describing

section Runs

variable {realloc : ℤ → ℕ → ℤ} {buffer : ℤ}

/-- A whole run, call by call. -/
theorem built_run (hrealloc : Allocator realloc)
    (hbuffer : 0 < buffer) {calls : List Call} :
    ∀ {ctx messages final}, Built buffer ctx messages → (∀ call ∈ calls, ∀ attr ∈ attrsOf call,
        (attrBytes attr).length ≤ 65535) →
      MeetsAll realloc buffer messages calls →
      describeAll messages calls = some final → ∃ next, runCalls realloc ctx calls = .ok next ∧
          Built buffer next final := by
  induction calls with
  | nil =>
    intro ctx messages final hbuilt _ _ hdescribe
    simp only [describeAll, List.foldlM_nil, Option.pure_def, Option.some.injEq] at hdescribe
    exact ⟨ctx, rfl, hdescribe ▸ hbuilt⟩
  | cons call calls ih =>
    intro ctx messages final hbuilt hfits hmeets hdescribe
    rw [describeAll, List.foldlM_cons] at hdescribe
    obtain ⟨after, hcall, hrest⟩ := Option.bind_eq_some_iff.mp hdescribe
    obtain ⟨middle, hrun, hmiddle⟩ := hbuilt.call hrealloc hbuffer
      (hfits call List.mem_cons_self) hmeets.1 hcall
    obtain ⟨next, hlater, hnext⟩ := ih hmiddle (fun other hother =>
      hfits other (List.mem_cons_of_mem _ hother)) (hmeets.2 after hcall)
      hrest
    refine ⟨next, ?_, hnext⟩
    rw [runCalls, List.foldlM_cons, hrun]
    exact hlater

variable {ctx : Context} {messages : List Message}

/-- The bytes that a built context has to send. -/
theorem built_content (hbuilt : Built buffer ctx messages) : ctx.data.take ctx.datalen = joinPadded
      (batchBytes (decide (2 ≤ messages.length)) 0 0 messages) := by
  cases hbuilt with
  | fresh => rfl
  | opened before last hlayout hsizes =>
    rw [hlayout.data, fill, ← hlayout.length_content, List.take_left' rfl, List.append_assoc]
    change _ ++ last.bytes _ _ _ = _
    by_cases hbefore : before = []
    · subst hbefore
      rfl
    · have hmulti : (!before.isEmpty) = true := by
        simpa [List.isEmpty_iff] using hbefore
      have hcount : decide (2 ≤ (before ++ [last]).length) = true := by
        have hpos := List.length_pos_iff.mpr hbefore
        simp
        omega
      rw [hmulti, hcount, batchBytes_concat, joinPadded_concat, UInt32.zero_add]

/-- Every record of the walk is one of the messages. -/
theorem readsBatch_exists {multi : Bool} {pid seq : UInt32} {records : List (List UInt8)}
    (hreads : ReadsBatch multi pid seq messages records) {record : List UInt8}
    (hrecord : record ∈ records) :
    ∃ message ∈ messages, ∃ number, ReadsMessage message multi number pid record := by
  induction hreads with
  | nil => simp at hrecord
  | cons hfirst _ ih =>
    rcases List.mem_cons.mp hrecord with rfl | hrest
    · exact ⟨_, List.mem_cons_self, _, hfirst⟩
    · obtain ⟨message, hmem, number, hmessage⟩ := ih hrest
      exact ⟨message, List.mem_cons_of_mem _ hmem, number, hmessage⟩

theorem multi_flag (flags : UInt16) : (flags ||| 2) &&& 2 = 2 := by
  apply UInt16.toBitVec_inj.mp
  ext index hindex
  simp
  grind

/-- A message carries the flag exactly in a multi-part batch. -/
theorem readsMessage_multi {message : Message} {multi : Bool}
    {pid seq : UInt32} {record : List UInt8}
    (hreads : ReadsMessage message multi seq pid record)
    (hclean : CleanFlags message) :
    (readHeader record).nlmsgFlags &&& nlmFMulti ≠ 0 ↔ multi = true := by
  rw [hreads.header, Message.sent]
  cases multi with
  | true => simp [nlmFMulti, multi_flag]
  | false => simpa [CleanFlags] using hclean

theorem built_readBack (hbuilt : Built buffer ctx messages)
    (hfits : ∀ message ∈ messages, message.Fits)
    (hclean : ∀ message ∈ messages, CleanFlags message) :
    ReadBack ctx messages := by
  have hsizes : ∀ message ∈ messages, message.size < 2 ^ 32 := by
    cases hbuilt with
    | fresh => simp
    | opened before last _ hsizes => exact hsizes
  have hwalk := nlmsgWalk_batch (decide (2 ≤ messages.length)) 0 0 hsizes hfits
  rw [← built_content hbuilt] at hwalk
  refine ⟨hwalk, ?_, ?_, ?_⟩
  · cases hbuilt with
    | fresh => exact Nat.zero_le _
    | opened before last hlayout _ => exact hlayout.room
  · cases hbuilt with
    | fresh => exact fun hempty => absurd rfl hempty
    | opened before last hlayout _ =>
      intro _
      refine ⟨_, hlayout.curmsg, ?_⟩
      rw [hlayout.data, fill, List.append_assoc, List.append_assoc,
        List.drop_left' rfl, readHeader_bytes, hlayout.len, hlayout.datalen]
  · intro record hrecord
    obtain ⟨message, hmem, number, hmessage⟩ := readsBatch_exists hwalk hrecord
    rw [readsMessage_multi hmessage (hclean message hmem), decide_eq_true_iff]

end Runs

/-- For every allocator and every sequence of calls whose attributes fit their
length fields: if the buffer does not move before the first message is in it,
and the batch stays within 2 GiB, the calls succeed and the buffer
reads back as the messages they described. -/
theorem runCalls_readBack {realloc : ℤ → ℕ → ℤ} {buffer : ℤ}
    (hrealloc : Allocator realloc) (hbuffer : 0 < buffer)
    {calls : List Call} {messages : List Message}
    (hdescribe : describeAll [] calls = some messages)
    (hfits : ∀ call ∈ calls, ∀ attr ∈ attrsOf call, (attrBytes attr).length ≤ 65535)
    (hclean : ∀ header payload, Call.message header payload ∈ calls →
      header.nlmsgFlags &&& nlmFMulti = 0)
    (hmeets : MeetsAll realloc buffer [] calls) :
    ∃ ctx, runCalls realloc (createContext buffer) calls = .ok ctx ∧ ReadBack ctx messages := by
  obtain ⟨ctx, hrun, hbuilt⟩ := built_run hrealloc hbuffer .fresh hfits hmeets hdescribe
  have hall : ∀ message ∈ messages, message.Fits := by
    refine @describeAll_forall Message.Fits calls (fun header payload _ attr hattr => ?_)
      (fun call hcall message hmessage attr hattr => ?_) [] messages (by simp)
      hdescribe
    · simp at hattr
    · rcases List.mem_append.mp hattr with hold | hnew
      · exact hmessage attr hold
      · exact hfits call hcall attr hnew
  have hflags : ∀ message ∈ messages, CleanFlags message :=
    @describeAll_forall CleanFlags calls hclean
      (fun _ _ _ hmessage => hmessage) [] messages (by simp) hdescribe
  exact ⟨ctx, hrun, built_readBack hbuilt hall hflags⟩

def request : Nlmsghdr :=
  { nlmsgLen := 0, nlmsgType := 16, nlmsgFlags := 5, nlmsgSeq := 0
    nlmsgPid := 0 }

/-- A request for a link with a nested attribute, and a second message. -/
def linkCalls : List Call := [.message request (List.replicate 16 0), .attr 3 [118, 0],
    .attrList [.nested 18 [] [.leaf 1 [118, 101, 116, 104]]],
    .message request []]

def linkMessages : List Message := [⟨request, List.replicate 16 0,
      [.leaf 3 [118, 0], .nested 18 [] [.leaf 1 [118, 101, 116, 104]]]⟩,
    ⟨request, [], []⟩]

theorem meetsAll_linkCalls : MeetsAll moving 4096 [] linkCalls := by
  refine ⟨⟨?_, ?_⟩, ?_⟩
  · rintro _ _ ⟨⟩ -
    exact .inl (by decide)
  · rintro _ ⟨⟩
    decide
  rintro _ ⟨⟩
  refine ⟨⟨?_, ?_⟩, ?_⟩
  · rintro _ _ ⟨⟩
  · rintro _ ⟨⟩
    decide
  rintro _ ⟨⟩
  refine ⟨⟨?_, ?_⟩, ?_⟩
  · rintro _ _ ⟨⟩
  · rintro _ ⟨⟩
    decide
  rintro _ ⟨⟩
  refine ⟨⟨?_, ?_⟩, fun _ _ => trivial⟩
  · rintro _ _ - ⟨⟩
  · rintro _ ⟨⟩
    decide

theorem runCalls_readBack_link : ∃ ctx, runCalls moving (createContext 4096) linkCalls = .ok ctx ∧
      ReadBack ctx linkMessages := by
  apply runCalls_readBack allocator_moving (by decide) rfl
  · simp [linkCalls, attrsOf]
    decide
  · intro header payload hmem
    simp only [linkCalls, List.mem_cons, Call.message.injEq, reduceCtorEq,
      List.not_mem_nil, or_false, false_or] at hmem
    obtain ⟨rfl, -⟩ | ⟨rfl, -⟩ := hmem <;> decide
  · exact meetsAll_linkCalls

/-- A first message that does not fit into the initial buffer. -/
def largeCalls : List Call := [.message request (List.replicate 1009 0)]

/-- When the buffer moves before the first message, the relocated null pointer
is taken for a message. -/
theorem runCalls_largeCalls : Allocator moving ∧ describeAll [] largeCalls =
        some [⟨request, List.replicate 1009 0, []⟩] ∧
      request.nlmsgFlags &&& nlmFMulti = 0 ∧
        runCalls moving (createContext 4096) largeCalls = .error .wild := by
  refine ⟨allocator_moving, rfl, by decide, ?_⟩
  have hsized : sizedFor 1024 (alignUp 0 + 1028) = .ok 2048 := by decide
  have hgrow := (Sound.create (show (0 : ℤ) < 4096 by decide)).growBuffer_eq allocator_moving
    (show 4 ∣ 1028 by decide) (by decide)
  change _ = (sizedFor 1024 (alignUp 0 + 1028)).map _ at hgrow
  rw [hsized, Except.map] at hgrow
  set grown := resized moving (createContext 4096) 2048 with hgrown
  have hnext : nextMessage grown = .error .wild := by
    have hcurmsg : grown.curmsg = 1044480 := rfl
    have hbefore : ¬grown.buffer ≤ grown.curmsg := by decide
    rw [nextMessage, if_neg (by rw [hcurmsg]; decide), load, if_neg hbefore]
    rfl
  have hspace : nlmsgSpace (List.replicate 1009 (0 : UInt8)).length = 1028 := by
    rw [List.length_replicate]
    decide
  simp only [runCalls, largeCalls, List.foldlM_cons, Call.run, addMessage, hspace, hgrow, ok_bind,
    hnext]
  rfl

end GrapheneLtp.NetlinkRoundTrip
