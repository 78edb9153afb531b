import GrapheneLtp.Core.Fallible
import GrapheneLtp.Rtnetlink.Layout

/-!
# Growing the buffer between messages

Messages are added and sent in any order.  When no message is open and the
buffer has to grow, the null pointer `curmsg` is relocated with the buffer.
What the call builds is right exactly if the buffer stays where it is and its size is
not cut.
-/

namespace GrapheneLtp.NetlinkGrowth

open GrapheneLtp.Bytes GrapheneLtp.Rtnetlink GrapheneLtp.NetlinkFormat
open GrapheneLtp.NetlinkLayout GrapheneLtp.Fallible

section Calls

variable (realloc : ℤ → ℕ → ℤ)

/-- The header of type `NLMSG_DONE`. -/
def eom : Nlmsghdr :=
  { nlmsgLen := 0, nlmsgType := 3, nlmsgFlags := 0, nlmsgSeq := 0
    nlmsgPid := 0 }

/-- The end of a multi-part batch, which is itself not marked as a part. -/
def endBatch (ctx : Context) (flags : UInt16) : Except Failure Context :=
  if flags &&& nlmFMulti ≠ 0 then do
    let ctx ← addMessage realloc ctx eom []
    store ctx (ctx.curmsg + 6) (leBytes 2 0)
  else .ok ctx

/-- `tst_rtnl_send`, given whether `sendmsg` returns a positive number. -/
def send (ctx : Context) (sent : Bool) : Except Failure Context :=
  if ctx.curmsg = 0 then
    .error (.brk "tst_rtnl_send(): No message to send")
  else do
    let flags := UInt16.ofNat (leValue (← load ctx (ctx.curmsg + 6) 2))
    let ctx ← endBatch realloc ctx flags
    return if sent then { ctx with curmsg := 0 } else ctx

/-- A call for a message or for sending. -/
inductive Op
  | message (header : Nlmsghdr) (payload : List UInt8)
  | send (sent : Bool)

def Op.run (ctx : Context) : Op → Except Failure Context
  | .message header payload => addMessage realloc ctx header payload
  | .send sent => NetlinkGrowth.send realloc ctx sent

def runOps (ctx : Context) (ops : List Op) : Except Failure Context :=
  ops.foldlM (Op.run realloc) ctx

end Calls

section Sound

variable {realloc : ℤ → ℕ → ℤ} {ctx next : Context} {size : ℕ} {header : Nlmsghdr}
  {extraFlags : UInt16} {payload : List UInt8}

theorem store_cases {address : ℤ} {bytes : List UInt8}
    (hstore : store ctx address bytes = .ok next) :
    ∃ data, next = { ctx with data := data } ∧ data.length = ctx.data.length ∧
      ctx.buffer ≤ address ∧ address - ctx.buffer + bytes.length ≤ ctx.data.length := by
  unfold store at hstore
  split at hstore
  · rename_i data hdata
    refine ⟨data, (Except.ok.inj hstore).symm, ?_⟩
    split at hdata
    · rw [overwrite] at hdata
      split at hdata
      · obtain rfl := Option.some.inj hdata
        simp only [List.length_append, List.length_take, List.length_drop]
        omega
      · cases hdata
    · cases hdata
  · cases hstore

theorem sound_store {address : ℤ} {bytes : List UInt8} (hsound : Sound ctx)
    (hstore : store ctx address bytes = .ok next) :
    Sound next ∧ next.datalen = ctx.datalen ∧ next.bufsize = ctx.bufsize := by
  obtain ⟨data, rfl, hlength, -⟩ := store_cases hstore
  exact ⟨⟨hsound.buffer_pos, hsound.bufsize_dvd, hsound.bufsize_lt,
    hlength.trans hsound.data_length, hsound.room⟩, rfl, rfl⟩

/-- Growing makes room behind what is there. -/
theorem sound_growBuffer (hrealloc : Allocator realloc) (hsound : Sound ctx) (hdvd : 4 ∣ size)
    (hlt : size < 2 ^ 32) (hgrow : growBuffer realloc ctx size = .ok next) :
    Sound next ∧ alignUp ctx.datalen + size ≤ next.bufsize ∧ next.datalen = ctx.datalen := by
  obtain ⟨bufsize, hsized, rfl, hroom⟩ := hsound.exists_of_growBuffer hrealloc hdvd hlt hgrow
  exact ⟨hsound.resized hrealloc (dvd_add (dvd_alignUp _) hdvd) hsized, hroom, rfl⟩

/-- The new message goes to a multiple of four, not behind what was there. -/
theorem sound_nextMessage (hsound : Sound ctx)
    (hnext : nextMessage ctx = .ok (next, extraFlags)) :
    Sound next ∧ 4 ∣ next.datalen ∧ next.datalen ≤ alignUp ctx.datalen ∧
      next.bufsize = ctx.bufsize := by
  unfold nextMessage at hnext
  split at hnext
  · cases hnext
    exact ⟨⟨hsound.buffer_pos, hsound.bufsize_dvd, hsound.bufsize_lt, hsound.data_length,
      Nat.zero_le _⟩, dvd_zero 4, Nat.zero_le _, rfl⟩
  · obtain ⟨len, -, hnext⟩ := bind_ok hnext
    obtain ⟨flags, -, hnext⟩ := bind_ok hnext
    obtain ⟨marked, hstore, hnext⟩ := bind_ok hnext
    obtain ⟨hmarked, hdatalen, hbufsize⟩ := sound_store hsound hstore
    cases hnext
    have hcurlen := hmarked.curlen
    have hroom := hmarked.alignUp_datalen_le
    rw [← hdatalen]
    exact ⟨⟨hmarked.buffer_pos, hmarked.bufsize_dvd, hmarked.bufsize_lt, hmarked.data_length,
      hcurlen.le.trans hroom⟩, dvd_nlmsgAlign _, hcurlen.le, hbufsize⟩

/-- The space of a message that has been written was not cut. -/
theorem alignUp_lt_of_writeMessage (hsound : Sound ctx)
    (hwrite : writeMessage ctx header extraFlags payload = .ok next) :
    alignUp (nlmsgLength payload.length) < 2 ^ 32 := by
  obtain ⟨headed, hheader, hwrite⟩ := bind_ok hwrite
  obtain ⟨filled, hpayload, -⟩ := bind_ok hwrite
  obtain ⟨data, rfl, hlength, hbefore, -⟩ := store_cases hheader
  obtain ⟨_, -, -, -, hinside⟩ := store_cases hpayload
  have hfits : nlmsgLength payload.length ≤ ctx.bufsize := by
    have hdata := hsound.data_length
    unfold nlmsgLength nlmsgHdrlen at *
    simp only at hlength hbefore hinside
    omega
  have hle := alignUp_mono hfits
  rw [alignUp_of_dvd hsound.bufsize_dvd] at hle
  exact hle.trans_lt hsound.bufsize_lt

/-- A message that there is room for. -/
theorem sound_writeMessage (hsound : Sound ctx)
    (hroom : ctx.datalen + nlmsgSpace payload.length ≤ ctx.bufsize)
    (hwrite : writeMessage ctx header extraFlags payload = .ok next) :
    Sound next := by
  have hspace := nlmsgAlign_eq (alignUp_lt_of_writeMessage hsound hwrite)
  have hshort := le_alignUp (nlmsgLength payload.length)
  obtain ⟨headed, hheader, hwrite⟩ := bind_ok hwrite
  obtain ⟨filled, hpayload, hwrite⟩ := bind_ok hwrite
  have hstart : Sound { ctx with seq := ctx.seq + 1 } :=
    ⟨hsound.buffer_pos, hsound.bufsize_dvd, hsound.bufsize_lt, hsound.data_length, hsound.room⟩
  obtain ⟨hheaded, hdatalen, hbufsize⟩ := sound_store hstart hheader
  obtain ⟨hfilled, hdatalen', hbufsize'⟩ := sound_store hheaded hpayload
  have hlen : (UInt32.ofNat (nlmsgLength payload.length)).toNat ≤ nlmsgLength payload.length := by
    rw [UInt32.toNat_ofNat']
    exact Nat.mod_le _ _
  cases hwrite
  refine ⟨hfilled.buffer_pos, hfilled.bufsize_dvd, hfilled.bufsize_lt, hfilled.data_length, ?_⟩
  rw [nlmsgSpace] at hroom
  simp only [hdatalen', hdatalen, hbufsize', hbufsize]
  omega

/-- The space of a message that has been added was not cut, and the buffer has grown for
it. -/
theorem sound_addMessage (hrealloc : Allocator realloc) (hsound : Sound ctx)
    (hadd : addMessage realloc ctx header payload = .ok next) :
    Sound next ∧ alignUp (nlmsgLength payload.length) < 2 ^ 32 ∧
      ∃ grown, growBuffer realloc ctx (nlmsgSpace payload.length) = .ok grown := by
  obtain ⟨grown, hgrow, hadd⟩ := bind_ok hadd
  obtain ⟨⟨opened, extraFlags⟩, hnext, hwrite⟩ := bind_ok hadd
  obtain ⟨hgrown, hroom, hdatalen⟩ :=
    sound_growBuffer hrealloc hsound (dvd_nlmsgAlign _) (nlmsgAlign_lt _) hgrow
  obtain ⟨hopened, hdvd, hle, hbufsize⟩ := sound_nextMessage hgrown hnext
  rw [hdatalen] at hle
  rw [← nlmsgSpace] at hroom
  exact ⟨sound_writeMessage hopened (by omega) hwrite, alignUp_lt_of_writeMessage hopened hwrite,
    grown, hgrow⟩

theorem sound_send (hrealloc : Allocator realloc) {sent : Bool}
    (hsound : Sound ctx) (hsend : send realloc ctx sent = .ok next) :
    Sound next := by
  unfold send at hsend
  split at hsend
  · cases hsend
  · obtain ⟨flags, -, hsend⟩ := bind_ok hsend
    obtain ⟨ended, hend, hsend⟩ := bind_ok hsend
    have hended : Sound ended := by
      unfold endBatch at hend
      split at hend
      · obtain ⟨closed, hclose, hstore⟩ := bind_ok hend
        exact (sound_store (sound_addMessage hrealloc hsound hclose).1 hstore).1
      · exact Except.ok.inj hend ▸ hsound
    cases hsend
    cases sent with
    | true =>
      exact ⟨hended.buffer_pos, hended.bufsize_dvd, hended.bufsize_lt, hended.data_length,
        hended.room⟩
    | false => exact hended

theorem sound_runOps (hrealloc : Allocator realloc)
    {ops : List Op} (hsound : Sound ctx) (hrun : runOps realloc ctx ops = .ok next) :
    Sound next := by
  induction ops generalizing ctx with
  | nil => exact Except.ok.inj hrun ▸ hsound
  | cons op ops ih =>
    obtain ⟨middle, hop, hrest⟩ := bind_ok hrun
    refine ih ?_ hrest
    cases op with
    | message header payload => exact (sound_addMessage hrealloc hsound hop).1
    | send sent => exact sound_send hrealloc hsound hop

end Sound

section First

variable {realloc : ℤ → ℕ → ℤ} {ctx next : Context} {header : Nlmsghdr} {payload : List UInt8}

/-- The size that a message asks for when the buffer has to grow. -/
def sizeFor (ctx : Context) (payload : List UInt8) : ℕ :=
  max (2 * ctx.bufsize) (alignUp ctx.datalen + alignUp (nlmsgLength payload.length))

/-- Where the buffer goes when it grows for a message. -/
def placeFor (realloc : ℤ → ℕ → ℤ) (ctx : Context) (payload : List UInt8) : ℤ :=
  realloc ctx.buffer (sizeFor ctx payload)

/-- The same context with a buffer that is large enough from the beginning. -/
def roomy (realloc : ℤ → ℕ → ℤ) (ctx : Context) (payload : List UInt8) :
    Context :=
  { ctx with
    buffer := placeFor realloc ctx payload
    bufsize := sizeFor ctx payload
    data := ctx.data ++ List.replicate (sizeFor ctx payload - ctx.bufsize) 0 }

/-- The message is the only one of the context.  It is at the start of the
buffer, and no flag has been added to it. -/
structure HoldsOnly (ctx : Context) (header : Nlmsghdr) (payload : List UInt8)
    (seq : UInt32) : Prop where
  curmsg : ctx.curmsg = ctx.buffer
  datalen : ctx.datalen = nlmsgLength payload.length
  header : readHeader ctx.data =
    { header with
      nlmsgLen := UInt32.ofNat (nlmsgLength payload.length)
      nlmsgSeq := seq
      nlmsgPid := ctx.pid }
  payload : (ctx.data.drop 16).take payload.length = payload

/-- The call builds what it would build in a large enough buffer, and that is
the message alone. -/
def BuildsFirst (realloc : ℤ → ℕ → ℤ) (ctx : Context) (header : Nlmsghdr)
    (payload : List UInt8) : Prop :=
  ∃ next, addMessage realloc ctx header payload = .ok next ∧
    addMessage realloc (roomy realloc ctx payload) header payload = .ok next ∧
      HoldsOnly next header payload ctx.seq

/-- A store over bytes of the same number. -/
theorem store_append {address : ℤ} {before old after new : List UInt8}
    (hdata : ctx.data = before ++ old ++ after)
    (haddress : address = ctx.buffer + before.length)
    (hlength : old.length = new.length) :
    store ctx address new = .ok { ctx with data := before ++ new ++ after } := by
  have hoffset : (address - ctx.buffer).toNat = before.length := by omega
  have hinside : ctx.buffer ≤ address := by omega
  simp only [store, hdata, hinside, if_true, hoffset, overwrite_append before old after new hlength]

/-- The header and the payload of a message at the start of the buffer. -/
theorem writeMessage_first (hcurmsg : ctx.curmsg = ctx.buffer) (hdatalen : ctx.datalen = 0)
    (hroom : nlmsgLength payload.length ≤ ctx.data.length)
    (hfits : nlmsgLength payload.length < 2 ^ 32) :
    ∃ next, writeMessage ctx header 0 payload = .ok next ∧
      HoldsOnly next header payload ctx.seq := by
  have hlen : (UInt32.ofNat (nlmsgLength payload.length)).toNat = nlmsgLength payload.length := by
    rw [UInt32.toNat_ofNat', Nat.mod_eq_of_lt hfits]
  generalize hsent : Nlmsghdr.mk (UInt32.ofNat (nlmsgLength payload.length))
    header.nlmsgType header.nlmsgFlags ctx.seq ctx.pid = sent
  unfold nlmsgLength nlmsgHdrlen at hroom
  have hfirst := @store_append { ctx with seq := ctx.seq + 1 } ctx.curmsg []
    (ctx.data.take 16) (ctx.data.drop 16) sent.bytes (by simp)
    (by simp [hcurmsg]) (by rw [length_header, List.length_take]; omega)
  rw [List.nil_append] at hfirst
  have hsecond := @store_append
    { ctx with seq := ctx.seq + 1, data := sent.bytes ++ ctx.data.drop 16 }
    (ctx.curmsg + 16) sent.bytes ((ctx.data.drop 16).take payload.length)
    ((ctx.data.drop 16).drop payload.length) payload
    (by rw [List.append_assoc, List.take_append_drop])
    (by rw [length_header, hcurmsg]; rfl)
    (by rw [List.length_take, List.length_drop]; omega)
  have hwrite : writeMessage ctx header 0 payload = .ok
      { ctx with
        seq := ctx.seq + 1
        datalen := nlmsgLength payload.length
        data := sent.bytes ++ payload ++ (ctx.data.drop 16).drop payload.length } := by
    subst hsent
    simp only [writeMessage, UInt16.or_zero, bind, pure, Except.bind,
      Except.pure, nlmsgHdrlen, Nat.cast_ofNat, hlen, hfirst, hsecond]
    rw [hdatalen, Nat.zero_add]
  exact ⟨_, hwrite,
    { curmsg := hcurmsg
      datalen := rfl
      header := by rw [List.append_assoc, readHeader_bytes, ← hsent]
      payload := by
        rw [List.append_assoc, List.drop_left' (length_header _), List.take_left] }⟩

theorem nextMessage_first (hclosed : ctx.curmsg = 0) : nextMessage ctx =
      .ok ({ ctx with datalen := 0, curmsg := ctx.buffer }, 0) :=
  if_pos hclosed

section Growing

variable (hsound : Sound ctx)
  (hgrows : ctx.bufsize - alignUp ctx.datalen < alignUp (nlmsgLength payload.length))

theorem nlmsgSpace_eq (hlt : sizeFor ctx payload < 2 ^ 32) :
    nlmsgSpace payload.length = alignUp (nlmsgLength payload.length) :=
  nlmsgAlign_eq (by unfold sizeFor at hlt; omega)

include hsound

/-- The buffer of the roomy context is large enough. -/
theorem growBuffer_roomy (hlt : sizeFor ctx payload < 2 ^ 32) :
    growBuffer realloc (roomy realloc ctx payload) (nlmsgSpace payload.length) =
      .ok (roomy realloc ctx payload) := by
  have hroom : (roomy realloc ctx payload).bufsize -
      nlmsgAlign (roomy realloc ctx payload).datalen ≥ nlmsgSpace payload.length := by
    simp only [roomy, hsound.curlen, nlmsgSpace_eq hlt, sizeFor]
    omega
  rw [growBuffer, if_pos hroom]

include hgrows

/-- Growing differs from having the room only in the relocated pointer. -/
theorem growBuffer_grows (hrealloc : Allocator realloc) (hlt : sizeFor ctx payload < 2 ^ 32) :
    growBuffer realloc ctx (nlmsgSpace payload.length) = .ok
      { roomy realloc ctx payload with
        curmsg := placeFor realloc ctx payload + (ctx.curmsg - ctx.buffer) } := by
  have hsized : sizedFor ctx.bufsize (alignUp ctx.datalen + alignUp (nlmsgLength payload.length)) =
      .ok (sizeFor ctx payload) := by
    rw [sizedFor, if_neg (by omega), ← sizeFor, if_pos hlt]
  have hother : sizeFor ctx payload ≠ ctx.bufsize := by
    rw [sizeFor]
    omega
  rw [nlmsgSpace_eq hlt, hsound.growBuffer_eq hrealloc (dvd_alignUp _)
    (by rw [sizeFor] at hlt; omega), hsized, Except.map, resized, placed, if_neg hother]
  rfl

/-- A size that is cut does not give a message. -/
theorem sizeFor_lt (hrealloc : Allocator realloc)
    (hadd : addMessage realloc ctx header payload = .ok next) : sizeFor ctx payload < 2 ^ 32 := by
  obtain ⟨-, hspace, grown, hgrow⟩ := sound_addMessage hrealloc hsound hadd
  obtain ⟨bufsize, hsized, -⟩ :=
    hsound.exists_of_growBuffer hrealloc (dvd_nlmsgAlign _) (nlmsgAlign_lt _) hgrow
  rw [nlmsgAlign_eq hspace, sizedFor, if_neg (by omega), ← sizeFor] at hsized
  split_ifs at hsized with hlt
  exact hlt

/-- A buffer that moves leaves the null pointer in front of it. -/
theorem addMessage_moved (hrealloc : Allocator realloc) (hlt : sizeFor ctx payload < 2 ^ 32)
    (hclosed : ctx.curmsg = 0) (hmoved : placeFor realloc ctx payload ≠ ctx.buffer) :
    addMessage realloc ctx header payload = .error .wild := by
  have hcurmsg : placeFor realloc ctx payload + (ctx.curmsg - ctx.buffer) ≠ 0 := by
    omega
  have hbefore : ¬(roomy realloc ctx payload).buffer ≤
      placeFor realloc ctx payload + (ctx.curmsg - ctx.buffer) := by
    have hpos := hsound.buffer_pos
    simp only [roomy]
    omega
  simp only [addMessage, growBuffer_grows hsound hgrows hrealloc hlt, nextMessage, hcurmsg,
    if_false, load, hbefore, bind, Except.bind]

/-- A buffer that stays leaves the pointer null. -/
theorem buildsFirst_stays (hrealloc : Allocator realloc) (hlt : sizeFor ctx payload < 2 ^ 32)
    (hclosed : ctx.curmsg = 0) (hstays : placeFor realloc ctx payload = ctx.buffer) :
    BuildsFirst realloc ctx header payload := by
  have hnull : placeFor realloc ctx payload + (ctx.curmsg - ctx.buffer) =
      (roomy realloc ctx payload).curmsg := by
    simp only [roomy]
    omega
  have hspace := le_alignUp (nlmsgLength payload.length)
  have hneed : alignUp ctx.datalen + alignUp (nlmsgLength payload.length) ≤ sizeFor ctx payload :=
    le_max_right _ _
  have hlength : nlmsgLength payload.length ≤ (roomy realloc ctx payload).data.length := by
    simp only [roomy, List.length_append, List.length_replicate, hsound.data_length]
    omega
  obtain ⟨next, hwrite, honly⟩ := @writeMessage_first
    { roomy realloc ctx payload with
      datalen := 0, curmsg := (roomy realloc ctx payload).buffer }
    header payload rfl rfl hlength (by omega)
  have hroomy : (roomy realloc ctx payload).curmsg = 0 := hclosed
  refine ⟨next, ?_, ?_, honly⟩
  · rw [addMessage, growBuffer_grows hsound hgrows hrealloc hlt, hnull, ok_bind,
      nextMessage_first hroomy]
    exact hwrite
  · rw [addMessage, growBuffer_roomy hsound hlt, ok_bind, nextMessage_first hroomy]
    exact hwrite

end Growing

end First

/-- After every sequence of calls that leaves no message open: a message for
which the buffer has to grow is built as in a large enough buffer exactly if
the buffer stays where it is and its new size is below 2^32. -/
theorem addMessage_grown_iff {realloc : ℤ → ℕ → ℤ} {buffer : ℤ}
    (hrealloc : Allocator realloc) (hbuffer : 0 < buffer)
    {ops : List Op} {ctx : Context}
    (hrun : runOps realloc (createContext buffer) ops = .ok ctx)
    (hclosed : ctx.curmsg = 0) (header : Nlmsghdr) {payload : List UInt8}
    (hgrows : ctx.bufsize - alignUp ctx.datalen < alignUp (nlmsgLength payload.length)) :
    BuildsFirst realloc ctx header payload ↔ placeFor realloc ctx payload = ctx.buffer ∧
        sizeFor ctx payload < 2 ^ 32 := by
  have hsound := sound_runOps hrealloc (Sound.create hbuffer) hrun
  constructor
  · rintro ⟨next, hadd, -, honly⟩
    have hlt := sizeFor_lt hsound hgrows hrealloc hadd
    refine ⟨?_, hlt⟩
    by_contra hmoved
    rw [addMessage_moved hsound hgrows hrealloc hlt hclosed hmoved] at hadd
    cases hadd
  · rintro ⟨hstays, hlt⟩
    exact buildsFirst_stays hsound hgrows hrealloc hlt hclosed hstays

/-- An allocator that extends every buffer in place. -/
def extending (old : ℤ) (size : ℕ) : ℤ :=
  if size = 0 then 0 else if 0 < old then old else 4096

theorem allocator_extending : Allocator extending where
  pos old size hsize := by
    rw [extending, if_neg hsize.ne']
    split_ifs with hold
    · exact hold
    · decide
  null _ := rfl

/-- A small message that has been sent. -/
def sentOps : List Op := [.message eom [7], .send true]

/-- The context after `sentOps`: the length of the message is still there. -/
def sentContext : Context :=
  { createContext 4096 with
    seq := 1
    datalen := 17
    data := [17, 0, 0, 0, 3, 0, 0, 0, 0, 0, 0, 0, 0, 0, 0, 0, 7] ++ List.replicate 1007 0 }

theorem addMessage_grown_extending :
    runOps extending (createContext 4096) sentOps = .ok sentContext ∧
      BuildsFirst extending sentContext eom (List.replicate 1009 0) := by
  have hrun : runOps extending (createContext 4096) sentOps = .ok sentContext := by decide +kernel
  have hsize : sizeFor sentContext (List.replicate 1009 0) = 2048 := by
    rw [sizeFor, List.length_replicate]
    rfl
  refine ⟨hrun, (addMessage_grown_iff allocator_extending (by decide) hrun rfl eom ?_).mpr ?_⟩
  · rw [List.length_replicate]
    decide
  · rw [placeFor, hsize]
    exact ⟨rfl, by decide⟩

/-- When the buffer moves for the first message, the relocated null pointer is
taken for a message. -/
theorem addMessage_relocating : Allocator moving ∧
      runOps moving (createContext 4096) [] = .ok (createContext 4096) ∧
      (createContext 4096).curmsg = 0 ∧
      1024 - alignUp (createContext 4096).datalen <
        alignUp (nlmsgLength (List.replicate 1009 (0 : UInt8)).length) ∧
      addMessage moving (createContext 4096) eom (List.replicate 1009 0) = .error .wild := by
  have hgrows : 1024 - alignUp (createContext 4096).datalen <
      alignUp (nlmsgLength (List.replicate 1009 (0 : UInt8)).length) := by
    rw [List.length_replicate]
    decide
  have hsize : sizeFor (createContext 4096) (List.replicate 1009 0) = 2048 := by
    rw [sizeFor, List.length_replicate]
    rfl
  refine ⟨allocator_moving, rfl, rfl, hgrows,
    addMessage_moved (Sound.create (by decide)) hgrows allocator_moving ?_ rfl ?_⟩
  · rw [hsize]
    decide
  · rw [placeFor, hsize]
    decide

end GrapheneLtp.NetlinkGrowth
