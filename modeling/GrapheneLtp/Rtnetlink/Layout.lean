import GrapheneLtp.Core.Fallible
import GrapheneLtp.Rtnetlink.Format

/-!
# The builder writes the format

While a message is open the buffer holds the finished messages, the header of
the open one and what has been added to it, and zeros behind.  Every call of
the builder that succeeds keeps this layout as long as no attribute outgrows its length
field: the stores land where the format wants them, and the lengths that are patched
afterwards cover what was added.
-/

namespace GrapheneLtp.NetlinkLayout

open GrapheneLtp.Bytes GrapheneLtp.Rtnetlink GrapheneLtp.NetlinkFormat
open GrapheneLtp.Fallible

/-- An allocator that does not run out of memory.  It frees a block that is to have no
bytes. -/
structure Allocator (realloc : ℤ → ℕ → ℤ) : Prop where
  pos : ∀ old size, 0 < size → 0 < realloc old size
  null : ∀ old, realloc old 0 = 0

/-- An allocator that moves every buffer to the same place. -/
def moving (_ : ℤ) (size : ℕ) : ℤ := if size = 0 then 0 else 1048576

theorem allocator_moving : Allocator moving where
  pos _ size hsize := by
    rw [moving, if_neg hsize.ne']
    decide
  null _ := rfl

/-- The buffer is a block of memory whose size has not been cut, and holds what `datalen`
says. -/
structure Sound (ctx : Context) : Prop where
  buffer_pos : 0 < ctx.buffer
  bufsize_dvd : 4 ∣ ctx.bufsize
  bufsize_lt : ctx.bufsize < 2 ^ 32
  data_length : ctx.data.length = ctx.bufsize
  room : ctx.datalen ≤ ctx.bufsize

/-- The state of a context with an open message: `done` are the messages before
it with their padding, `rest` is what follows its header. -/
structure Layout (ctx : Context) (seq pid : UInt32) (done : List UInt8)
    (header : Nlmsghdr) (rest : List UInt8) : Prop where
  buffer_pos : 0 < ctx.buffer
  bufsize_dvd : 4 ∣ ctx.bufsize
  bufsize_lt : ctx.bufsize < 2 ^ 32
  data : ctx.data = fill ctx.bufsize (done ++ header.bytes ++ rest)
  room : ctx.datalen ≤ ctx.bufsize
  aligned : 4 ∣ done.length
  curmsg : ctx.curmsg = ctx.buffer + done.length
  datalen : ctx.datalen = done.length + (16 + rest.length)
  len : header.nlmsgLen.toNat = 16 + rest.length
  seq_eq : ctx.seq = seq
  pid_eq : ctx.pid = pid

/-- The context with its buffer holding `content` and zeros behind. -/
def hold (ctx : Context) (content : List UInt8) : Context :=
  { ctx with data := fill ctx.bufsize content }

section Stores

variable (ctx : Context) {address : ℤ}

theorem hold_of_data {content : List UInt8}
    (hdata : ctx.data = fill ctx.bufsize content) : hold ctx content = ctx := by
  rw [hold, ← hdata]

/-- A store over bytes of the same number. -/
theorem store_hold {before old after new : List UInt8}
    (haddress : address = ctx.buffer + before.length)
    (hlength : old.length = new.length) :
    store (hold ctx (before ++ old ++ after)) address new =
      .ok (hold ctx (before ++ new ++ after)) := by
  have hoffset : (address - ctx.buffer).toNat = before.length := by omega
  have hinside : ctx.buffer ≤ address := by omega
  simp only [store, hold, hinside, if_true, hoffset, overwrite_fill before old after new hlength]

/-- A store behind everything, on the next multiple of four. -/
theorem store_hold_padded {content new : List UInt8}
    (haddress : address = ctx.buffer + alignUp content.length)
    (hroom : alignUp content.length + new.length ≤ ctx.bufsize) :
    store (hold ctx content) address new = .ok (hold ctx (padded content ++ new)) := by
  have hoffset : (address - ctx.buffer).toNat = alignUp content.length := by
    omega
  have hinside : ctx.buffer ≤ address := by omega
  simp only [store, hold, hinside, if_true, hoffset, overwrite_fill_padded hroom]

theorem load_hold {before field after : List UInt8}
    (haddress : address = ctx.buffer + before.length) :
    load (hold ctx (before ++ field ++ after)) address field.length = .ok field := by
  have hoffset : (address - ctx.buffer).toNat = before.length := by omega
  have hinside : ctx.buffer ≤ address := by omega
  have hslice := slice_append before field (after ++
    List.replicate (ctx.bufsize - (before ++ field ++ after).length) 0)
  rw [← List.append_assoc] at hslice
  simp only [load, hold, fill, hinside, if_true, hoffset, hslice]

end Stores

section Sizes

theorem nlmsgAlign_eq {len : ℕ} (hlen : alignUp len < 2 ^ 32) : nlmsgAlign len = alignUp len := by
  have hle := le_alignUp len
  have hdvd := dvd_alignUp len
  have hsmall : len + 3 < 2 ^ 32 := by omega
  rw [nlmsgAlign, Nat.mod_eq_of_lt hsmall, alignUp]

theorem nlmsgAlign_of_dvd {len : ℕ} (hdvd : 4 ∣ len) : nlmsgAlign len = len % 2 ^ 32 := by
  rw [nlmsgAlign]
  omega

theorem dvd_nlmsgAlign (len : ℕ) : 4 ∣ nlmsgAlign len := Dvd.intro_left _ rfl

theorem nlmsgAlign_lt (len : ℕ) : nlmsgAlign len < 2 ^ 32 := by
  rw [nlmsgAlign]
  omega

/-- The size of a buffer that has room up to `need`.  A buffer that has to grow is at least
doubled.  A size of 2^32 or more is cut and comes out below the old one, and a block of that
size is freed if it has no bytes. -/
def sizedFor (bufsize need : ℕ) : Except Failure ℕ :=
  if need ≤ bufsize then .ok bufsize
  else if max (2 * bufsize) need < 2 ^ 32 then .ok (max (2 * bufsize) need)
  else if max (2 * bufsize) need % 2 ^ 32 = 0 then .error (.brk "realloc() failed")
  else .error .wild

theorem sizedFor_ok {bufsize need size : ℕ} (hbufsize : 4 ∣ bufsize) (hneed : 4 ∣ need)
    (hlt : bufsize < 2 ^ 32) (hsized : sizedFor bufsize need = .ok size) :
    4 ∣ size ∧ size < 2 ^ 32 ∧ bufsize ≤ size ∧ need ≤ size := by
  unfold sizedFor at hsized
  split_ifs at hsized with henough hsmall
  · cases hsized
    exact ⟨hbufsize, hlt, le_rfl, henough⟩
  · cases hsized
    refine ⟨?_, hsmall, by omega, le_max_right _ _⟩
    rcases max_choice (2 * bufsize) need with hmax | hmax <;> rw [hmax] <;> omega

/-- Up to 2 GiB no size is cut. -/
theorem exists_sizedFor (bufsize : ℕ) {need : ℕ} (hneed : need ≤ 2 ^ 31) :
    ∃ size, sizedFor bufsize need = .ok size := by
  unfold sizedFor
  split_ifs with henough hsmall
  · exact ⟨_, rfl⟩
  · exact ⟨_, rfl⟩
  all_goals omega

end Sizes

section Growing

variable {realloc : ℤ → ℕ → ℤ} {ctx next : Context} {size : ℕ}

/-- Where the buffer is after it got this size. -/
def placed (realloc : ℤ → ℕ → ℤ) (ctx : Context) (size : ℕ) : ℤ :=
  if size = ctx.bufsize then ctx.buffer else realloc ctx.buffer size

/-- The context with a buffer of this size. -/
def resized (realloc : ℤ → ℕ → ℤ) (ctx : Context) (size : ℕ) : Context :=
  { ctx with
    data := ctx.data ++ List.replicate (size - ctx.bufsize) 0
    buffer := placed realloc ctx size
    curmsg := placed realloc ctx size + (ctx.curmsg - ctx.buffer)
    bufsize := size }

theorem resized_self : resized realloc ctx ctx.bufsize = ctx := by
  simp [resized, placed]

theorem Sound.alignUp_datalen_le (hsound : Sound ctx) : alignUp ctx.datalen ≤ ctx.bufsize := by
  have hle := alignUp_mono hsound.room
  rwa [alignUp_of_dvd hsound.bufsize_dvd] at hle

theorem Sound.curlen (hsound : Sound ctx) : nlmsgAlign ctx.datalen = alignUp ctx.datalen :=
  nlmsgAlign_eq (hsound.alignUp_datalen_le.trans_lt hsound.bufsize_lt)

/-- What growing does depends on the sizes only. -/
theorem Sound.growBuffer_eq (hrealloc : Allocator realloc) (hsound : Sound ctx)
    (hdvd : 4 ∣ size) (hlt : size < 2 ^ 32) : growBuffer realloc ctx size =
      (sizedFor ctx.bufsize (alignUp ctx.datalen + size)).map (resized realloc ctx) := by
  have hroom := hsound.alignUp_datalen_le
  have hbufsize := hsound.bufsize_lt
  have haligned := hsound.bufsize_dvd
  have hcurlen := dvd_alignUp ctx.datalen
  unfold growBuffer sizedFor
  rw [hsound.curlen]
  by_cases henough : ctx.bufsize - alignUp ctx.datalen ≥ size
  · rw [if_pos henough, if_pos (by omega), Except.map, resized_self]
  · set grown := max (2 * ctx.bufsize) (alignUp ctx.datalen + size) with hgrown
    have hneed : ¬alignUp ctx.datalen + size ≤ ctx.bufsize := by omega
    have hsum : (ctx.bufsize + if ctx.bufsize > size - (ctx.bufsize - alignUp ctx.datalen)
        then ctx.bufsize else size - (ctx.bufsize - alignUp ctx.datalen)) = grown := by
      split_ifs <;> omega
    have hsize : grownSize ctx.bufsize (size - (ctx.bufsize - alignUp ctx.datalen)) =
        grown % 2 ^ 32 := by
      rw [grownSize, hsum, nlmsgAlign_of_dvd (by omega)]
    rw [if_neg henough, if_neg hneed]
    simp only [hsize]
    by_cases hsmall : grown < 2 ^ 32
    · have hpos := hrealloc.pos ctx.buffer grown (by omega)
      have hlarger : ¬grown < ctx.bufsize := by omega
      have hother : grown ≠ ctx.bufsize := by omega
      rw [Nat.mod_eq_of_lt hsmall, if_neg hpos.ne', if_neg hlarger, if_pos hsmall, Except.map,
        resized, placed, if_neg hother]
    · rw [if_neg hsmall]
      by_cases hnone : grown % 2 ^ 32 = 0
      · rw [hnone, if_pos (hrealloc.null _), if_pos rfl]
        rfl
      · have hpos := hrealloc.pos ctx.buffer _ (Nat.pos_of_ne_zero hnone)
        have hsmaller : grown % 2 ^ 32 < ctx.bufsize := by omega
        rw [if_neg hpos.ne', if_pos hsmaller, if_neg hnone]
        rfl

theorem Sound.exists_of_growBuffer (hrealloc : Allocator realloc) (hsound : Sound ctx)
    (hdvd : 4 ∣ size) (hlt : size < 2 ^ 32) (hgrow : growBuffer realloc ctx size = .ok next) :
    ∃ bufsize, sizedFor ctx.bufsize (alignUp ctx.datalen + size) = .ok bufsize ∧
      next = resized realloc ctx bufsize ∧ alignUp ctx.datalen + size ≤ bufsize := by
  rw [hsound.growBuffer_eq hrealloc hdvd hlt] at hgrow
  cases hsized : sizedFor ctx.bufsize (alignUp ctx.datalen + size) with
  | error failure =>
    rw [hsized] at hgrow
    cases hgrow
  | ok bufsize =>
    rw [hsized] at hgrow
    cases hgrow
    exact ⟨bufsize, rfl, rfl, (sizedFor_ok hsound.bufsize_dvd
      (dvd_add (dvd_alignUp _) hdvd) hsound.bufsize_lt hsized).2.2.2⟩

theorem Sound.exists_growBuffer (hrealloc : Allocator realloc) (hsound : Sound ctx)
    (hdvd : 4 ∣ size) (hsize : alignUp ctx.datalen + size ≤ 2 ^ 31) :
    ∃ next, growBuffer realloc ctx size = .ok next := by
  obtain ⟨bufsize, hsized⟩ := exists_sizedFor ctx.bufsize hsize
  rw [hsound.growBuffer_eq hrealloc hdvd (by omega), hsized]
  exact ⟨_, rfl⟩

theorem Sound.create {buffer : ℤ} (hbuffer : 0 < buffer) : Sound (createContext buffer) where
  buffer_pos := hbuffer
  bufsize_dvd := ⟨256, rfl⟩
  bufsize_lt := show 1024 < 2 ^ 32 by decide
  data_length := List.length_replicate
  room := Nat.zero_le _

theorem Sound.resized (hrealloc : Allocator realloc) (hsound : Sound ctx) {need bufsize : ℕ}
    (hdvd : 4 ∣ need) (hsized : sizedFor ctx.bufsize need = .ok bufsize) :
    Sound (resized realloc ctx bufsize) := by
  have hlength := hsound.data_length
  have hroom := hsound.room
  obtain ⟨haligned, hlt, hle, -⟩ :=
    sizedFor_ok hsound.bufsize_dvd hdvd hsound.bufsize_lt hsized
  refine ⟨?_, haligned, hlt, ?_, hroom.trans hle⟩
  · rw [NetlinkLayout.resized, placed]
    split_ifs with hsame
    · exact hsound.buffer_pos
    · exact hrealloc.pos _ _ (by omega)
  · simp only [NetlinkLayout.resized, List.length_append, List.length_replicate]
    omega

end Growing

section Attributes

variable {realloc : ℤ → ℕ → ℤ} {ctx next : Context} {seq pid : UInt32}
  {done rest : List UInt8} {header : Nlmsghdr}

/-- The header of the open message with another length. -/
def withLen (header : Nlmsghdr) (len : ℕ) : Nlmsghdr :=
  { header with nlmsgLen := UInt32.ofNat len }

/-- The length field, apart from the rest of the header. -/
def headerTail (header : Nlmsghdr) : List UInt8 :=
  leBytes 2 header.nlmsgType.toNat ++ leBytes 2 header.nlmsgFlags.toNat ++
    leBytes 4 header.nlmsgSeq.toNat ++ leBytes 4 header.nlmsgPid.toNat

theorem header_bytes_eq (header : Nlmsghdr) :
    header.bytes = leBytes 4 header.nlmsgLen.toNat ++ headerTail header := by
  simp [Nlmsghdr.bytes, headerTail]

theorem Layout.length_content (hlayout : Layout ctx seq pid done header rest) :
    (done ++ header.bytes ++ rest).length = ctx.datalen := by
  have hdatalen := hlayout.datalen
  simp only [List.length_append, length_header]
  omega

theorem Layout.alignUp_datalen (hlayout : Layout ctx seq pid done header rest) :
    alignUp ctx.datalen = done.length + alignUp (16 + rest.length) := by
  rw [hlayout.datalen, alignUp_add hlayout.aligned]

theorem Layout.sound (hlayout : Layout ctx seq pid done header rest) : Sound ctx where
  buffer_pos := hlayout.buffer_pos
  bufsize_dvd := hlayout.bufsize_dvd
  bufsize_lt := hlayout.bufsize_lt
  data_length := by
    rw [hlayout.data]
    exact length_fill (by rw [hlayout.length_content]; exact hlayout.room)
  room := hlayout.room

/-- The message that is open does not outgrow its length field. -/
theorem Layout.alignUp_lt (hlayout : Layout ctx seq pid done header rest) :
    alignUp (16 + rest.length) < 2 ^ 32 := by
  have hroom := hlayout.sound.alignUp_datalen_le
  have hlt := hlayout.bufsize_lt
  have halign := hlayout.alignUp_datalen
  omega

/-- Growing makes room behind what is there. -/
theorem Layout.growBuffer (hrealloc : Allocator realloc)
    (hlayout : Layout ctx seq pid done header rest) {size : ℕ} (hdvd : 4 ∣ size)
    (hlt : size < 2 ^ 32) (hgrow : growBuffer realloc ctx size = .ok next) :
    Layout next seq pid done header rest ∧ alignUp ctx.datalen + size ≤ next.bufsize ∧
      next.datalen = ctx.datalen := by
  obtain ⟨bufsize, hsized, rfl, hroom⟩ := hlayout.sound.exists_of_growBuffer hrealloc hdvd hlt hgrow
  have hneed : 4 ∣ alignUp ctx.datalen + size := dvd_add (dvd_alignUp _) hdvd
  have hsound := hlayout.sound.resized hrealloc hneed hsized
  have hcurmsg := hlayout.curmsg
  have hlarger : ctx.bufsize ≤ bufsize :=
    (sizedFor_ok hlayout.bufsize_dvd hneed hlayout.bufsize_lt hsized).2.2.1
  refine ⟨?_, hroom, rfl⟩
  exact
    { buffer_pos := hsound.buffer_pos
      bufsize_dvd := hsound.bufsize_dvd
      bufsize_lt := hsound.bufsize_lt
      data := by
        simp only [resized, hlayout.data]
        rw [fill_append (by rw [hlayout.length_content]; exact hlayout.room),
          Nat.add_sub_cancel' hlarger]
      room := hsound.room
      aligned := hlayout.aligned
      curmsg := by
        simp only [resized]
        omega
      datalen := hlayout.datalen
      len := hlayout.len
      seq_eq := hlayout.seq_eq
      pid_eq := hlayout.pid_eq }

theorem Layout.padded_content (hlayout : Layout ctx seq pid done header rest) :
    padded (done ++ header.bytes ++ rest) =
      done ++ header.bytes ++ padded rest := by
  apply padded_append
  have haligned := hlayout.aligned
  rw [List.length_append, length_header]
  omega

/-- The content with the length field set apart. -/
theorem content_eq (done : List UInt8) (header : Nlmsghdr) (rest : List UInt8) :
    done ++ header.bytes ++ rest = done ++
      leBytes 4 header.nlmsgLen.toNat ++ (headerTail header ++ rest) := by
  rw [header_bytes_eq]
  simp only [List.append_assoc]

/-- The length that the code reads from the header of the open message. -/
theorem Layout.load_len (hlayout : Layout ctx seq pid done header rest) :
    load ctx ctx.curmsg 4 = .ok (leBytes 4 header.nlmsgLen.toNat) := by
  have hload := @load_hold ctx ctx.curmsg done
    (leBytes 4 header.nlmsgLen.toNat) (headerTail header ++ rest)
    hlayout.curmsg
  rw [← content_eq, hold_of_data ctx hlayout.data, length_leBytes] at hload
  exact hload

theorem Layout.loaded_align (hlayout : Layout ctx seq pid done header rest) :
    nlmsgAlign (UInt32.ofNat (leValue (leBytes 4 header.nlmsgLen.toNat))).toNat =
      alignUp (16 + rest.length) := by
  have hlen : UInt32.ofNat (leValue (leBytes 4 header.nlmsgLen.toNat)) =
      header.nlmsgLen := by
    simp [leValue_leBytes]
  rw [hlen, hlayout.len, nlmsgAlign_eq hlayout.alignUp_lt]

/-- The three stores of an attribute: its header, its data, and the length of
the message. -/
theorem Layout.writeAttr_eq (hlayout : Layout ctx seq pid done header rest)
    (type : UInt16) {data : List UInt8} (hfits : 4 + data.length ≤ 65535)
    (hroom : alignUp ctx.datalen + rtaSpace data.length ≤ ctx.bufsize) :
    writeAttr ctx type data = .ok
      { hold ctx (done ++ leBytes 4 (alignUp (16 + rest.length) + (4 + data.length)) ++
            (headerTail header ++ (padded rest ++ attrBytes (.leaf type data)))) with
        datalen := alignUp ctx.datalen + (4 + data.length) } := by
  have hlen16 : (UInt16.ofNat (rtaLength data.length)).toNat = 4 + data.length := by
    rw [UInt16.toNat_ofNat', rtaLength]
    exact Nat.mod_eq_of_lt (by omega)
  have hspace := le_alignUp (rtaLength data.length)
  simp only [rtaSpace, rtaLength] at hroom hspace
  have hcontent := hlayout.length_content
  have hdatalen := hlayout.alignUp_datalen
  have hdvd : 4 ∣ (padded (done ++ header.bytes ++ rest) ++
      attrHeader (4 + data.length) type).length := by
    have halign := dvd_alignUp (done ++ header.bytes ++ rest).length
    rw [List.length_append, length_padded, length_attrHeader]
    omega
  have hfirst := @store_hold_padded ctx
    (ctx.curmsg + alignUp (16 + rest.length)) (done ++ header.bytes ++ rest)
    (attrHeader (4 + data.length) type)
    (by rw [hlayout.curmsg, hcontent, hdatalen]; push_cast; ring)
    (by rw [hcontent, length_attrHeader]; omega)
  have hsecond := @store_hold_padded ctx (ctx.curmsg + alignUp (16 + rest.length) + 4) _ data (by
      rw [alignUp_of_dvd hdvd, List.length_append, length_padded, hcontent,
        hdatalen, length_attrHeader, hlayout.curmsg]
      push_cast
      ring)
    (by
      rw [alignUp_of_dvd hdvd, List.length_append, length_padded, hcontent, length_attrHeader]
      omega)
  have hplain : padded (padded (done ++ header.bytes ++ rest) ++
      attrHeader (4 + data.length) type) ++ data =
      done ++ leBytes 4 header.nlmsgLen.toNat ++ (headerTail header ++
        (padded rest ++ attrBytes (.leaf type data))) := by
    have hnone := padded_append hdvd []
    rw [List.append_nil, padded_nil, List.append_nil] at hnone
    rw [hnone, hlayout.padded_content, header_bytes_eq, attrBytes]
    simp only [List.append_assoc]
  rw [hplain] at hsecond
  have hthird := @store_hold ctx ctx.curmsg done (leBytes 4 header.nlmsgLen.toNat)
    (headerTail header ++ (padded rest ++ attrBytes (.leaf type data)))
    (leBytes 4 (alignUp (16 + rest.length) + (4 + data.length)))
    hlayout.curmsg (by simp)
  rw [hold_of_data ctx hlayout.data, attrHeader] at hfirst
  rw [attrHeader] at hsecond
  simp only [writeAttr, bind, pure, Except.pure, Except.bind,
    hlayout.load_len, hlayout.loaded_align, hlen16, hfirst, hsecond]
  simp only [hold] at hthird ⊢
  simp only [hthird, hlayout.sound.curlen]

theorem toNat_withLen {len : ℕ} (hlen : len < 2 ^ 32) :
    (withLen header len).nlmsgLen.toNat = len := by
  rw [withLen, UInt32.toNat_ofNat', Nat.mod_eq_of_lt hlen]

theorem dvd_rtaSpace (len : ℕ) : 4 ∣ rtaSpace len := dvd_alignUp _

theorem rtaSpace_lt {len : ℕ} (hlen : len ≤ 65535) : rtaSpace len < 2 ^ 32 := by
  rw [rtaSpace, rtaLength, alignUp]
  omega

theorem addAttr_layout (hrealloc : Allocator realloc)
    (hlayout : Layout ctx seq pid done header rest) {type : UInt16}
    {data : List UInt8} (hfits : 4 + data.length ≤ 65535)
    (hadd : addAttr realloc ctx type data = .ok next) :
    Layout next seq pid done
      (withLen header (16 + (padded rest ++ attrBytes (.leaf type data)).length))
      (padded rest ++ attrBytes (.leaf type data)) := by
  have hcurmsg : ctx.curmsg ≠ 0 := by
    have hpos := hlayout.buffer_pos
    have haddress := hlayout.curmsg
    omega
  have hlen : data.length % 2 ^ 16 = data.length := Nat.mod_eq_of_lt (by omega)
  have hlength : (padded rest ++ attrBytes (.leaf type data)).length =
      alignUp rest.length + (4 + data.length) := by
    simp [attrBytes, length_attrHeader]
  have hshift : alignUp (16 + rest.length) = 16 + alignUp rest.length := alignUp_add (by decide)
  rw [addAttr, if_neg hcurmsg] at hadd
  simp only [hlen, List.take_length] at hadd
  obtain ⟨grown, hgrow, hwrite⟩ := bind_ok hadd
  obtain ⟨hgrown, hroom, hdatalen⟩ := hlayout.growBuffer hrealloc (dvd_rtaSpace _)
    (rtaSpace_lt (by omega)) hgrow
  rw [← hdatalen] at hroom
  rw [hgrown.writeAttr_eq type hfits hroom] at hwrite
  cases hwrite
  have hspace : 4 + data.length ≤ rtaSpace data.length := le_alignUp _
  have halign := hgrown.alignUp_datalen
  have hsize : 16 + (padded rest ++ attrBytes (.leaf type data)).length < 2 ^ 32 := by
    have hlt := hgrown.bufsize_lt
    omega
  exact
    { buffer_pos := hgrown.buffer_pos
      bufsize_dvd := hgrown.bufsize_dvd
      bufsize_lt := hgrown.bufsize_lt
      data := by
        rw [content_eq, toNat_withLen hsize, hlength, hshift]
        simp only [hold, withLen, headerTail, Nat.add_assoc]
      room := by
        simp only [hold]
        omega
      aligned := hgrown.aligned
      curmsg := hgrown.curmsg
      datalen := by
        simp only [halign, hlength, hshift]
        omega
      len := toNat_withLen hsize
      seq_eq := hgrown.seq_eq
      pid_eq := hgrown.pid_eq }

/-- The back-patched length makes the attribute a nested one. -/
theorem patchLength_layout {type : UInt16} {data : List UInt8} {sublist : List Attr}
    (hlayout : Layout ctx seq pid done header (padded rest ++ (attrHeader (4 + data.length) type ++
        joinPadded (data :: attrsBytes sublist))))
    (hfits : (attrBytes (.nested type data sublist)).length ≤ 65535)
    (hpatch : patchLength ctx (done.length + alignUp (16 + rest.length)) = .ok next) :
    Layout next seq pid done header (padded rest ++ attrBytes (.nested type data sublist)) := by
  have hshift : alignUp (16 + rest.length) = 16 + alignUp rest.length := alignUp_add (by decide)
  have hdatalen := hlayout.datalen
  simp only [List.length_append, length_padded, length_attrHeader] at hdatalen
  simp only [attrBytes, List.length_append, length_attrHeader] at hfits
  have htotal : ctx.datalen - (done.length + alignUp (16 + rest.length)) =
      4 + (joinPadded (data :: attrsBytes sublist)).length := by
    omega
  have hsplit : done ++ header.bytes ++ (padded rest ++ (attrHeader (4 + data.length) type ++
        joinPadded (data :: attrsBytes sublist))) =
      done ++ header.bytes ++ padded rest ++ leBytes 2 (4 + data.length) ++
        (leBytes 2 type.toNat ++ joinPadded (data :: attrsBytes sublist)) := by
    simp [attrHeader]
  have hstore := @store_hold ctx (ctx.buffer + ((done.length + alignUp (16 + rest.length) : ℕ) : ℤ))
    (done ++ header.bytes ++ padded rest) (leBytes 2 (4 + data.length))
    (leBytes 2 type.toNat ++ joinPadded (data :: attrsBytes sublist))
    (leBytes 2 (4 + (joinPadded (data :: attrsBytes sublist)).length))
    (by simp [length_header, hshift]) (by simp)
  rw [← hsplit, hold_of_data ctx hlayout.data] at hstore
  rw [patchLength, htotal, if_neg (by omega), hstore] at hpatch
  cases hpatch
  exact
    { buffer_pos := hlayout.buffer_pos
      bufsize_dvd := hlayout.bufsize_dvd
      bufsize_lt := hlayout.bufsize_lt
      data := by simp [hold, attrBytes, attrHeader]
      room := hlayout.room
      aligned := hlayout.aligned
      curmsg := hlayout.curmsg
      datalen := by
        simp only [hold, hdatalen, attrBytes, List.length_append, length_padded, length_attrHeader]
      len := by
        rw [hlayout.len]
        simp [attrBytes, length_attrHeader]
      seq_eq := hlayout.seq_eq
      pid_eq := hlayout.pid_eq }

theorem checkLength_ok {data : List UInt8} (hfits : data.length ≤ 65535) :
    checkLength data = .ok () :=
  if_neg (by omega)

theorem length_data_le (attr : Attr) : 4 + attr.data.length ≤ (attrBytes attr).length := by
  cases attr with
  | leaf type data => simp [attrBytes, Attr.data, length_attrHeader]
  | nested type data sublist =>
    have hle : data.length ≤ (joinPadded (data :: attrsBytes sublist)).length :=
      length_le_joinPadded List.mem_cons_self
    simpa [attrBytes, Attr.data, length_attrHeader] using hle

theorem withLen_withLen (header : Nlmsghdr) (first second : ℕ) :
    withLen (withLen header first) second = withLen header second := rfl

theorem withLen_self (hlayout : Layout ctx seq pid done header rest) :
    withLen header (16 + rest.length) = header := by
  have hlen : header.nlmsgLen = UInt32.ofNat (16 + rest.length) := by
    rw [← hlayout.len, UInt32.ofNat_toNat]
  rw [withLen, ← hlen]

variable (realloc)

mutual

/-- An entry of an attribute list, with everything nested in it. -/
theorem addEntry_layout (hrealloc : Allocator realloc)
    (attr : Attr) {ctx next : Context} {header : Nlmsghdr} {rest : List UInt8}
    (hlayout : Layout ctx seq pid done header rest)
    (hfits : (attrBytes attr).length ≤ 65535)
    (hadd : addEntry realloc ctx attr = .ok next) :
    Layout next seq pid done
      (withLen header (16 + (padded rest ++ attrBytes attr).length))
      (padded rest ++ attrBytes attr) := by
  have hdata : 4 + attr.data.length ≤ 65535 := (length_data_le attr).trans hfits
  cases attr with
  | leaf type data =>
    rw [Attr.data] at hdata
    rw [addEntry, checkLength_ok (by omega)] at hadd
    exact addAttr_layout hrealloc hlayout hdata hadd
  | nested type data sublist =>
    have hleaf : attrBytes (.leaf type data) =
        attrHeader (4 + data.length) type ++ data := by rw [attrBytes]
    have hjoin : joinPadded ((padded rest ++ attrBytes (.leaf type data)) ::
        attrsBytes sublist) = padded rest ++ (attrHeader (4 + data.length) type ++
            joinPadded (data :: attrsBytes sublist)) := by
      rw [hleaf, joinPadded_append (by simpa using dvd_alignUp _),
        joinPadded_append (by simp [length_attrHeader])]
    have hlength : (padded rest ++ (attrHeader (4 + data.length) type ++
        joinPadded (data :: attrsBytes sublist))).length =
          (padded rest ++ attrBytes (.nested type data sublist)).length := by
      simp [attrBytes, length_attrHeader]
    have hsub : ∀ attr ∈ sublist, (attrBytes attr).length ≤ 65535 :=
      fun attr hattr => (length_sublist_le hattr).trans hfits
    rw [Attr.data] at hdata
    rw [addEntry, checkLength_ok (by omega), ok_bind] at hadd
    obtain ⟨opened, hopen, hadd⟩ := bind_ok hadd
    obtain ⟨filled, hlist, hpatch⟩ := bind_ok hadd
    have hopened := addAttr_layout hrealloc hlayout hdata hopen
    have hfilled := addAttrList_layout hrealloc sublist hopened hsub hlist
    rw [hlayout.sound.curlen, hlayout.alignUp_datalen] at hpatch
    rw [hjoin] at hfilled
    have hnext := patchLength_layout hfilled hfits hpatch
    rw [withLen_withLen, hlength] at hnext
    exact hnext

theorem addAttrList_layout (hrealloc : Allocator realloc)
    (list : List Attr) {ctx next : Context} {header : Nlmsghdr} {rest : List UInt8}
    (hlayout : Layout ctx seq pid done header rest)
    (hfits : ∀ attr ∈ list, (attrBytes attr).length ≤ 65535)
    (hadd : addAttrList realloc ctx list = .ok next) :
    Layout next seq pid done
      (withLen header (16 + (joinPadded (rest :: attrsBytes list)).length))
      (joinPadded (rest :: attrsBytes list)) := by
  cases list with
  | nil =>
    rw [addAttrList] at hadd
    cases hadd
    change Layout ctx seq pid done (withLen header (16 + rest.length)) rest
    rw [withLen_self hlayout]
    exact hlayout
  | cons attr list =>
    rw [attrsBytes, joinPadded_merge]
    rw [addAttrList] at hadd
    obtain ⟨middle, hentry, hlist⟩ := bind_ok hadd
    have hmiddle := addEntry_layout hrealloc attr hlayout (hfits attr List.mem_cons_self) hentry
    have hnext := addAttrList_layout hrealloc list hmiddle
      (fun other hother => hfits other (List.mem_cons_of_mem _ hother)) hlist
    rwa [withLen_withLen] at hnext

end

end Attributes

end GrapheneLtp.NetlinkLayout
