import GrapheneLtp.Rtnetlink.Layout

/-!
# The lengths of attributes

The check of `tst_rtnl_add_attr_list` admits values of up to 65535 bytes, but
the length of an attribute covers its header too.  From 65532 bytes on it no
longer fits into `rta_len`, and the message, the buffer and an enclosing
attribute count only what is left of it.  Whether the buffer can hold the
attributes depends on what is counted.
-/

namespace GrapheneLtp.NetlinkLengths

open GrapheneLtp.Bytes GrapheneLtp.Rtnetlink GrapheneLtp.NetlinkFormat
open GrapheneLtp.NetlinkLayout GrapheneLtp.Fallible

section Counting

mutual

/-- An attribute and the attributes nested in it, at every depth. -/
def withNested : Attr → List Attr
  | .leaf type data => [.leaf type data]
  | .nested type data sublist =>
    .nested type data sublist :: allNested sublist

def allNested : List Attr → List Attr
  | [] => []
  | attr :: list => withNested attr ++ allNested list

end

mutual

/-- The length of an attribute as the code counts it, with the length of every
single value in sixteen bits. -/
def counted : Attr → ℕ
  | .leaf _ data => rtaLength data.length % 2 ^ 16
  | .nested _ data sublist =>
    countedFrom (rtaLength data.length % 2 ^ 16) sublist

def countedFrom (start : ℕ) : List Attr → ℕ
  | [] => start
  | attr :: list => countedFrom (alignUp start + counted attr) list

end

mutual

/-- The size of the buffer after an attribute has been added behind `datalen` bytes, or the
error of a check or of the growth.  It depends on the lengths alone. -/
def sizedEntry (bufsize datalen : ℕ) : Attr → Except Failure ℕ
  | .leaf _ data => do
      checkLength data
      sizedFor bufsize (alignUp datalen + rtaSpace data.length)
  | .nested type data sublist => do
      checkLength data
      let bufsize ← sizedFor bufsize (alignUp datalen + rtaSpace data.length)
      let bufsize ← sizedList bufsize (alignUp datalen + rtaLength data.length % 2 ^ 16) sublist
      if counted (.nested type data sublist) > 65535 then
        .error (.brk "tst_rtnl_add_attr_list(): Sublist too long")
      else .ok bufsize

def sizedList (bufsize datalen : ℕ) : List Attr → Except Failure ℕ
  | [] => .ok bufsize
  | attr :: list => do
      let bufsize ← sizedEntry bufsize datalen attr
      sizedList bufsize (alignUp datalen + counted attr) list

end

/-- How often the length of an attribute without those nested in it does not
fit. -/
def carries (attrs : List Attr) : ℕ :=
  (attrs.map fun attr => rtaLength attr.data.length / 2 ^ 16).sum

theorem carries_append (first second : List Attr) :
    carries (first ++ second) = carries first + carries second := by
  rw [carries, List.map_append, List.sum_append, carries, carries]

theorem carries_cons (attr : Attr) (attrs : List Attr) : carries (attr :: attrs) =
      rtaLength attr.data.length / 2 ^ 16 + carries attrs := rfl

theorem carries_eq_zero_iff {attrs : List Attr} :
    carries attrs = 0 ↔ ∀ attr ∈ attrs, attr.data.length ≤ 65531 := by
  induction attrs with
  | nil => simp [carries]
  | cons attr attrs ih =>
    have hfits : rtaLength attr.data.length / 2 ^ 16 = 0 ↔ attr.data.length ≤ 65531 := by
      rw [rtaLength]
      omega
    rw [carries_cons, Nat.add_eq_zero_iff, hfits, ih, List.forall_mem_cons]

theorem alignUp_carry (length count : ℕ) :
    alignUp (length + 2 ^ 16 * count) = alignUp length + 2 ^ 16 * count := by
  unfold alignUp
  omega

mutual

/-- What the code counts falls short by 65536 for every value that is too
long. -/
theorem length_attrBytes_counted (attr : Attr) : (attrBytes attr).length =
      counted attr + 2 ^ 16 * carries (withNested attr) := by
  cases attr with
  | leaf type data =>
    rw [attrBytes, List.length_append, length_attrHeader, counted, withNested, carries_cons]
    exact (Nat.mod_add_div (rtaLength data.length) (2 ^ 16)).symm
  | nested type data sublist =>
    have hheader : 4 ∣ (attrHeader (4 + data.length) type).length := by
      rw [length_attrHeader]
    have hrecord : (attrHeader (4 + data.length) type ++ data).length =
        rtaLength data.length % 2 ^ 16 + 2 ^ 16 * (rtaLength data.length / 2 ^ 16) := by
      rw [Nat.mod_add_div, List.length_append, length_attrHeader, rtaLength]
    have hlist := length_joinPadded_counted sublist _ _ _ hrecord
    rw [joinPadded_append hheader, List.length_append, length_attrHeader] at hlist
    rw [attrBytes, List.length_append, length_attrHeader, hlist, counted,
      withNested, carries_cons, Attr.data]

theorem length_joinPadded_counted (list : List Attr) (record : List UInt8)
    (start count : ℕ) (hrecord : record.length = start + 2 ^ 16 * count) :
    (joinPadded (record :: attrsBytes list)).length = countedFrom start list +
        2 ^ 16 * (count + carries (allNested list)) := by
  cases list with
  | nil => exact hrecord
  | cons attr list =>
    have hattr := length_attrBytes_counted attr
    have hmerged : (padded record ++ attrBytes attr).length = alignUp start + counted attr +
          2 ^ 16 * (count + carries (withNested attr)) := by
      rw [List.length_append, length_padded, hrecord, alignUp_carry, hattr]
      ring
    rw [attrsBytes, joinPadded_merge,
      length_joinPadded_counted list _ _ _ hmerged, countedFrom, allNested,
      carries_append, Nat.add_assoc count]

end

/-- The count goes on from an aligned position as from the beginning. -/
theorem countedFrom_add {before : ℕ} (hdvd : 4 ∣ before) (list : List Attr) :
    ∀ start, countedFrom (before + start) list = before + countedFrom start list := by
  induction list with
  | nil => exact fun start => rfl
  | cons attr list ih =>
    intro start
    rw [countedFrom, countedFrom, alignUp_add hdvd, Nat.add_assoc, ih]

end Counting

/-- A message is open at `start`, and its length does not go beyond what the
buffer holds.  Unlike `Layout` this says nothing about the content. -/
structure Open (ctx : Context) (start : ℕ) : Prop extends Sound ctx where
  aligned : 4 ∣ start
  curmsg : ctx.curmsg = ctx.buffer + start
  behind : start + 4 ≤ ctx.datalen
  len : ∃ bytes, slice ctx.data start 4 = some bytes ∧
    start + leValue bytes ≤ ctx.datalen

section Running

variable {realloc : ℤ → ℕ → ℤ} {ctx next : Context} {start : ℕ}

theorem store_inside {address : ℤ} {offset : ℕ} {bytes : List UInt8}
    (haddress : address = ctx.buffer + offset)
    (hfits : offset + bytes.length ≤ ctx.data.length) :
    ∃ data, store ctx address bytes = .ok { ctx with data := data } ∧
      data.length = ctx.data.length ∧
      slice data offset bytes.length = some bytes ∧
      ∀ other count, other + count ≤ offset →
        slice data other count = slice ctx.data other count := by
  have hoffset : (address - ctx.buffer).toNat = offset := by omega
  have hinside : ctx.buffer ≤ address := by omega
  obtain ⟨data, hwrite, hspec⟩ := overwrite_inside hfits
  refine ⟨data, ?_, hspec⟩
  simp only [store, hinside, if_true, hoffset, hwrite]

theorem slice_of_append {data more bytes : List UInt8} {offset count : ℕ}
    (hslice : slice data offset count = some bytes) :
    slice (data ++ more) offset count = some bytes := by
  unfold slice at hslice ⊢
  split at hslice
  · rename_i hfits
    rw [if_pos (by rw [List.length_append]; omega), ← hslice,
      List.take_drop, List.take_drop, List.take_append_of_le_length hfits]
  · cases hslice

theorem Open.resized (hrealloc : Allocator realloc) (hopen : Open ctx start) {need bufsize : ℕ}
    (hdvd : 4 ∣ need) (hsized : sizedFor ctx.bufsize need = .ok bufsize) :
    Open (resized realloc ctx bufsize) start := by
  obtain ⟨bytes, hslice, hlen⟩ := hopen.len
  have hcurmsg := hopen.curmsg
  refine ⟨hopen.toSound.resized hrealloc hdvd hsized, hopen.aligned, ?_, hopen.behind,
    bytes, slice_of_append hslice, hlen⟩
  simp only [NetlinkLayout.resized]
  omega

theorem load_inside {address : ℤ} {offset count : ℕ} {bytes : List UInt8}
    (haddress : address = ctx.buffer + offset)
    (hslice : slice ctx.data offset count = some bytes) :
    load ctx address count = .ok bytes := by
  have hoffset : (address - ctx.buffer).toNat = offset := by omega
  have hinside : ctx.buffer ≤ address := by omega
  simp only [load, hinside, if_true, hoffset, hslice]

theorem nlmsgAlign_le (value : ℕ) : nlmsgAlign (UInt32.ofNat value).toNat ≤ alignUp value := by
  rw [nlmsgAlign, UInt32.toNat_ofNat', alignUp]
  have hinner := Nat.mod_le value (2 ^ 32)
  have houter := Nat.mod_le (value % 2 ^ 32 + 3) (2 ^ 32)
  exact Nat.mul_le_mul_right 4 (Nat.div_le_div_right (by omega))

/-- The three stores of an attribute are inside the buffer, wherever the length
of the message says that they belong. -/
theorem Open.writeAttr (hopen : Open ctx start) (type : UInt16) {data : List UInt8}
    (hroom : alignUp ctx.datalen + rtaSpace data.length ≤ ctx.bufsize) :
    ∃ next, writeAttr ctx type data = .ok next ∧ Open next start ∧ next.bufsize = ctx.bufsize ∧
      next.datalen = alignUp ctx.datalen + rtaLength data.length % 2 ^ 16 := by
  obtain ⟨bytes, hslice, hlen⟩ := hopen.len
  have hload := load_inside hopen.curmsg hslice
  set size := nlmsgAlign (UInt32.ofNat (leValue bytes)).toNat with hsize
  set len16 := (UInt16.ofNat (rtaLength data.length)).toNat with hlen16
  have hplace : start + size ≤ alignUp ctx.datalen := by
    have hle := alignUp_mono hlen
    rw [alignUp_add hopen.aligned] at hle
    exact (Nat.add_le_add_left (nlmsgAlign_le _) start).trans hle
  have hcut : len16 = rtaLength data.length % 2 ^ 16 := UInt16.toNat_ofNat'
  have hspace : rtaLength data.length ≤ rtaSpace data.length := le_alignUp _
  have hshort : len16 ≤ rtaLength data.length := by
    rw [hcut]
    exact Nat.mod_le _ _
  have hvalue : rtaLength data.length = 4 + data.length := rfl
  have hlength := hopen.data_length
  obtain ⟨headed, hfirst, hheaded, -, -⟩ := @store_inside ctx (ctx.curmsg + size) (start + size)
    (leBytes 2 len16 ++ leBytes 2 type.toNat)
    (by rw [hopen.curmsg]; push_cast; ring)
    (by simp only [List.length_append, length_leBytes]; omega)
  obtain ⟨filled, hsecond, hfilled, -, -⟩ := @store_inside
    { ctx with data := headed } (ctx.curmsg + size + 4) (start + size + 4) data
    (by simp only [hopen.curmsg]; push_cast; ring)
    (by simp only; omega)
  obtain ⟨closed, hthird, hclosed, hpatched, -⟩ := @store_inside
    { ctx with data := filled } ctx.curmsg start (leBytes 4 (size + len16))
    hopen.curmsg
    (by
      have hbehind := hopen.behind
      have hinside := hopen.room
      simp only [length_leBytes] at hfilled ⊢
      omega)
  refine ⟨{ ctx with
    data := closed, datalen := alignUp ctx.datalen + len16 }, ?_, ?_, rfl, ?_⟩
  · simp only [Rtnetlink.writeAttr, bind, pure, Except.bind, Except.pure, hload,
      ← hsize, ← hlen16, hfirst, hsecond, hthird, hopen.toSound.curlen]
  · have hbehind := hopen.behind
    have hgrown := le_alignUp ctx.datalen
    have hmod := Nat.mod_le (size + len16) (256 ^ 4)
    rw [length_leBytes] at hpatched
    refine ⟨⟨hopen.buffer_pos, hopen.bufsize_dvd, hopen.bufsize_lt, ?_, ?_⟩, hopen.aligned,
      hopen.curmsg, ?_, _, hpatched, ?_⟩
    · simp only at hheaded hfilled hclosed ⊢
      omega
    · simp only
      omega
    · simp only
      omega
    · rw [leValue_leBytes]
      simp only
      omega
  · rw [hcut]

/-- What a call does that starts with an open message: it fails as the sizes do, or it
succeeds with a buffer of the size they give and adds up the lengths to `datalen`. -/
def Outcome (ctx : Context) (start datalen : ℕ) (sized : Except Failure ℕ)
    (result : Except Failure Context) : Prop :=
  (∃ failure, sized = .error failure ∧ result = .error failure) ∨
    ∃ next, sized = .ok next.bufsize ∧ result = .ok next ∧ Open next start ∧
      ctx.bufsize ≤ next.bufsize ∧ next.datalen = datalen

variable {sized : Except Failure ℕ} {datalen : ℕ}

theorem Outcome.bind {total : ℕ} {later : ℕ → Except Failure ℕ}
    {first : Except Failure Context} {rest : Context → Except Failure Context}
    (hfirst : Outcome ctx start datalen sized first)
    (hrest : ∀ middle, sized = .ok middle.bufsize → Open middle start →
      ctx.bufsize ≤ middle.bufsize → middle.datalen = datalen →
        Outcome middle start total (later middle.bufsize) (rest middle)) :
    Outcome ctx start total (sized >>= later) (first >>= rest) := by
  obtain ⟨failure, rfl, rfl⟩ | ⟨middle, rfl, rfl, hmiddle, hlarger, hdatalen⟩ := hfirst
  · exact .inl ⟨failure, rfl, rfl⟩
  · obtain hfails | ⟨next, hsized, hresult, hnext, hmore, htotal⟩ :=
      hrest middle rfl hmiddle hlarger hdatalen
    · exact .inl hfails
    · exact .inr ⟨next, hsized, hresult, hnext, hlarger.trans hmore, htotal⟩

theorem Open.addAttr (hrealloc : Allocator realloc)
    (hopen : Open ctx start) (type : UInt16) {data : List UInt8}
    (hdata : data.length ≤ 65535) :
    Outcome ctx start (alignUp ctx.datalen + rtaLength data.length % 2 ^ 16)
      (sizedFor ctx.bufsize (alignUp ctx.datalen + rtaSpace data.length))
      (addAttr realloc ctx type data) := by
  have hcurmsg : ctx.curmsg ≠ 0 := by
    have hpos := hopen.buffer_pos
    have haddress := hopen.curmsg
    omega
  have hlen : data.length % 2 ^ 16 = data.length := Nat.mod_eq_of_lt (by omega)
  have hneed : 4 ∣ alignUp ctx.datalen + rtaSpace data.length :=
    dvd_add (dvd_alignUp _) (dvd_rtaSpace _)
  rw [Rtnetlink.addAttr, if_neg hcurmsg]
  simp only [hlen, List.take_length]
  rw [hopen.toSound.growBuffer_eq hrealloc (dvd_rtaSpace _) (rtaSpace_lt hdata)]
  cases hsized : sizedFor ctx.bufsize (alignUp ctx.datalen + rtaSpace data.length) with
  | error failure => exact .inl ⟨failure, rfl, rfl⟩
  | ok bufsize =>
    obtain ⟨-, -, hlarger, hroom⟩ :=
      sizedFor_ok hopen.bufsize_dvd hneed hopen.bufsize_lt hsized
    obtain ⟨next, hwrite, hnext, hbufsize, hdatalen⟩ :=
      (hopen.resized hrealloc hneed hsized).writeAttr type hroom
    refine .inr ⟨next, ?_, hwrite, hnext, ?_, hdatalen⟩
    · rw [hbufsize]
      rfl
    · rw [hbufsize]
      exact hlarger

/-- The patched length belongs to an attribute of the open message. -/
theorem Open.patchLength (hopen : Open ctx start) {offset : ℕ}
    (hstart : start + 4 ≤ offset) (hinside : offset + 4 ≤ ctx.bufsize) :
    Outcome ctx start ctx.datalen
      (if ctx.datalen - offset > 65535 then
        .error (.brk "tst_rtnl_add_attr_list(): Sublist too long") else .ok ctx.bufsize)
      (patchLength ctx offset) := by
  rw [Rtnetlink.patchLength]
  split_ifs with hlong
  · exact .inl ⟨_, rfl, rfl⟩
  · have hlength := hopen.data_length
    obtain ⟨bytes, hslice, hlen⟩ := hopen.len
    obtain ⟨data, hstore, hdata, -, hbefore⟩ := @store_inside ctx
      (ctx.buffer + offset) offset (leBytes 2 (ctx.datalen - offset)) rfl
      (by rw [length_leBytes]; omega)
    rw [hstore]
    exact .inr ⟨{ ctx with data := data }, rfl, rfl, ⟨⟨hopen.buffer_pos, hopen.bufsize_dvd,
      hopen.bufsize_lt, hdata.trans hlength, hopen.room⟩, hopen.aligned, hopen.curmsg,
      hopen.behind, bytes, (hbefore start 4 hstart).trans hslice, hlen⟩,
      le_rfl, rfl⟩

end Running

section Lists

variable {start : ℕ} (realloc : ℤ → ℕ → ℤ)

/-- The check in front of an entry fails for the sizes as for the call. -/
theorem Outcome.check {ctx : Context} {datalen : ℕ} {data : List UInt8}
    {sized : Except Failure ℕ} {result : Except Failure Context}
    (hrest : data.length ≤ 65535 → Outcome ctx start datalen sized result) :
    Outcome ctx start datalen (checkLength data >>= fun _ => sized)
      (checkLength data >>= fun _ => result) := by
  by_cases hlong : data.length > 65535
  · rw [checkLength, if_pos hlong]
    exact .inl ⟨_, rfl, rfl⟩
  · rw [checkLength_ok (by omega)]
    exact hrest (by omega)

mutual

/-- An entry fails or succeeds as its lengths say. -/
theorem addEntry_outcome (hrealloc : Allocator realloc)
    (attr : Attr) (ctx : Context) (hopen : Open ctx start) :
    Outcome ctx start (alignUp ctx.datalen + counted attr)
      (sizedEntry ctx.bufsize ctx.datalen attr) (addEntry realloc ctx attr) := by
  cases attr with
  | leaf type data =>
    rw [addEntry, sizedEntry, counted]
    exact .check fun hdata => hopen.addAttr hrealloc type hdata
  | nested type data sublist =>
    rw [addEntry, sizedEntry]
    refine .check fun hdata => ?_
    refine (hopen.addAttr hrealloc type hdata).bind fun opened hsized hopened _ hdatalen => ?_
    have hroom := (sizedFor_ok hopen.bufsize_dvd (dvd_add (dvd_alignUp _) (dvd_rtaSpace _))
      hopen.bufsize_lt hsized).2.2.2
    have hheader : rtaLength data.length ≤ rtaSpace data.length := le_alignUp _
    rw [rtaLength] at hheader
    have hcounted : countedFrom opened.datalen sublist =
        alignUp ctx.datalen + counted (.nested type data sublist) := by
      rw [hdatalen, countedFrom_add (dvd_alignUp _), counted]
    rw [← hdatalen]
    refine (addAttrList_outcome hrealloc sublist opened hopened).bind
      fun filled _ hfilled hlarger hsum => ?_
    have hpatch := hfilled.patchLength (hopen.behind.trans (le_alignUp _))
      (show alignUp ctx.datalen + 4 ≤ filled.bufsize by omega)
    rw [hsum, hcounted, Nat.add_sub_cancel_left] at hpatch
    rwa [hopen.toSound.curlen]

theorem addAttrList_outcome (hrealloc : Allocator realloc)
    (list : List Attr) (ctx : Context) (hopen : Open ctx start) :
    Outcome ctx start (countedFrom ctx.datalen list)
      (sizedList ctx.bufsize ctx.datalen list) (addAttrList realloc ctx list) := by
  cases list with
  | nil =>
    rw [addAttrList, sizedList]
    exact .inr ⟨ctx, rfl, rfl, hopen, le_rfl, rfl⟩
  | cons attr list =>
    rw [sizedList, countedFrom, addAttrList]
    refine (addEntry_outcome hrealloc attr ctx hopen).bind ?_
    intro middle _ hmiddle _ hdatalen
    rw [← hdatalen]
    exact addAttrList_outcome hrealloc list middle hmiddle

end

end Lists

section Lengths

variable {realloc : ℤ → ℕ → ℤ} {ctx : Context} {seq pid : UInt32}
  {done rest : List UInt8} {header : Nlmsghdr}

theorem open_of_layout (hlayout : Layout ctx seq pid done header rest) : Open ctx done.length := by
  have hdatalen := hlayout.datalen
  refine ⟨hlayout.sound, hlayout.aligned, hlayout.curmsg, by omega,
    leBytes 4 header.nlmsgLen.toNat, ?_, ?_⟩
  · have hslice := slice_append done (leBytes 4 header.nlmsgLen.toNat) (headerTail header ++ rest ++
        List.replicate (ctx.bufsize - ctx.datalen) 0)
    rw [length_leBytes] at hslice
    rw [hlayout.data, fill, hlayout.length_content, content_eq, ← hslice]
    simp only [List.append_assoc]
  · have hlen := hlayout.len
    have hmod := Nat.mod_le header.nlmsgLen.toNat (256 ^ 4)
    rw [leValue_leBytes]
    omega

mutual

theorem length_nested_le (attr : Attr) : ∀ inner ∈ withNested attr,
    (attrBytes inner).length ≤ (attrBytes attr).length := by
  cases attr with
  | leaf type data => simp [withNested]
  | nested type data sublist =>
    rw [withNested]
    refine List.forall_mem_cons.mpr ⟨le_rfl, fun inner hinner => ?_⟩
    obtain ⟨attr, hattr, hle⟩ := length_allNested_le sublist inner hinner
    exact hle.trans (length_sublist_le hattr)

theorem length_allNested_le (list : List Attr) : ∀ inner ∈ allNested list,
    ∃ attr ∈ list, (attrBytes inner).length ≤ (attrBytes attr).length := by
  cases list with
  | nil => simp [allNested]
  | cons attr list =>
    intro inner hinner
    rw [allNested] at hinner
    rcases List.mem_append.mp hinner with hfirst | hlater
    · exact ⟨attr, List.mem_cons_self, length_nested_le attr inner hfirst⟩
    · obtain ⟨other, hother, hle⟩ := length_allNested_le list inner hlater
      exact ⟨other, List.mem_cons_of_mem _ hother, hle⟩

end

/-- The length in the header of an attribute is that of its header, its data and
the attributes nested in it. -/
def TrueLength (attr : Attr) : Prop := leValue ((attrBytes attr).take 2) = (attrBytes attr).length

theorem trueLength_of_le {attr : Attr}
    (hfits : (attrBytes attr).length ≤ 65535) : TrueLength attr := by
  have hframed := (framed_attrBytes hfits).2 []
  rwa [List.append_nil] at hframed

/-- The call reports an error, or it leaves the message with the attributes
behind what was there, each of them with its true length. -/
def LengthsRight (realloc : ℤ → ℕ → ℤ) (ctx : Context) (seq pid : UInt32)
    (done rest : List UInt8) (list : List Attr) : Prop :=
  (∃ text, addAttrList realloc ctx list = .error (.brk text)) ∨
    ∃ next header, addAttrList realloc ctx list = .ok next ∧
      Layout next seq pid done header (joinPadded (rest :: attrsBytes list)) ∧
      ∀ attr ∈ allNested list, TrueLength attr

theorem sizedEntry_of_sizedList {list : List Attr} :
    ∀ {bufsize datalen size}, sizedList bufsize datalen list = .ok size → ∀ attr ∈ list,
      ∃ bufsize datalen size, sizedEntry bufsize datalen attr = .ok size := by
  induction list with
  | nil => simp
  | cons attr list ih =>
    intro bufsize datalen size hsized
    rw [sizedList] at hsized
    obtain ⟨middle, hentry, hlist⟩ := bind_ok hsized
    exact List.forall_mem_cons.mpr ⟨⟨_, _, _, hentry⟩, ih hlist⟩

theorem withNested_subset {list : List Attr} {attr : Attr} (hattr : attr ∈ list) :
    ∀ inner ∈ withNested attr, inner ∈ allNested list := by
  induction list with
  | nil => simp at hattr
  | cons first list ih =>
    intro inner hinner
    rw [allNested, List.mem_append]
    rcases List.mem_cons.mp hattr with rfl | hlater
    · exact .inl hinner
    · exact .inr (ih hlater inner hinner)

/-- An attribute that passes the checks and has no value that is too long fits
its length field. -/
theorem length_le_of_sized {attr : Attr} {bufsize datalen size : ℕ}
    (hsized : sizedEntry bufsize datalen attr = .ok size)
    (hshort : ∀ inner ∈ withNested attr, inner.data.length ≤ 65531) :
    (attrBytes attr).length ≤ 65535 := by
  have hcounted := length_attrBytes_counted attr
  rw [carries_eq_zero_iff.mpr hshort, Nat.mul_zero, Nat.add_zero] at hcounted
  rw [hcounted]
  cases attr with
  | leaf type data =>
    rw [counted]
    exact Nat.le_of_lt_succ (Nat.mod_lt _ (by decide))
  | nested type data sublist =>
    rw [sizedEntry] at hsized
    obtain ⟨_, -, hsized⟩ := bind_ok hsized
    obtain ⟨_, -, hsized⟩ := bind_ok hsized
    obtain ⟨_, -, hsized⟩ := bind_ok hsized
    split_ifs at hsized with hlong
    exact Nat.le_of_not_gt hlong

/-- An attribute that fits its length field is counted with every byte. -/
theorem counted_of_fits {attr : Attr} (hfits : (attrBytes attr).length ≤ 65535) :
    counted attr = (attrBytes attr).length := by
  have hcounted := length_attrBytes_counted attr
  omega

theorem le_countedFrom (list : List Attr) : ∀ start, start ≤ countedFrom start list := by
  induction list with
  | nil => exact fun start => le_rfl
  | cons attr list ih =>
    intro start
    rw [countedFrom]
    have hstart := le_alignUp start
    have hrest := ih (alignUp start + counted attr)
    omega

mutual

/-- Attributes that fit their length fields can be added up to 2 GiB. -/
theorem exists_sizedEntry (attr : Attr) {bufsize datalen : ℕ}
    (hfits : (attrBytes attr).length ≤ 65535)
    (hsize : alignUp (alignUp datalen + counted attr) ≤ 2 ^ 31) :
    ∃ size, sizedEntry bufsize datalen attr = .ok size := by
  have hdata : rtaLength attr.data.length ≤ counted attr := by
    rw [counted_of_fits hfits]
    exact length_data_le attr
  have hneed : alignUp datalen + rtaSpace attr.data.length ≤ 2 ^ 31 := by
    have hle := alignUp_mono hdata
    rw [alignUp_add (dvd_alignUp _)] at hsize
    rw [rtaSpace]
    omega
  rw [counted_of_fits hfits] at hdata
  have hpassed : checkLength attr.data = .ok () := by
    rw [rtaLength] at hdata
    exact checkLength_ok (by omega)
  obtain ⟨first, hfirst⟩ := exists_sizedFor bufsize hneed
  cases attr with
  | leaf type data =>
    rw [Attr.data] at hpassed hfirst
    exact ⟨first, by rw [sizedEntry, hpassed, ok_bind, hfirst]⟩
  | nested type data sublist =>
    rw [Attr.data] at hpassed hfirst hdata
    have hcut : rtaLength data.length % 2 ^ 16 = rtaLength data.length :=
      Nat.mod_eq_of_lt (by omega)
    obtain ⟨last, hlast⟩ := exists_sizedList sublist
      (fun attr hattr => (length_sublist_le hattr).trans hfits)
      (show alignUp (countedFrom (alignUp datalen + rtaLength data.length % 2 ^ 16) sublist) ≤
          2 ^ 31 by
        rw [countedFrom_add (dvd_alignUp _)]
        rwa [counted] at hsize)
    refine ⟨last, ?_⟩
    rw [sizedEntry, hpassed, ok_bind, hfirst, ok_bind, hlast, ok_bind,
      if_neg (by rw [counted_of_fits hfits]; omega)]

theorem exists_sizedList (list : List Attr) {bufsize datalen : ℕ}
    (hfits : ∀ attr ∈ list, (attrBytes attr).length ≤ 65535)
    (hsize : alignUp (countedFrom datalen list) ≤ 2 ^ 31) :
    ∃ size, sizedList bufsize datalen list = .ok size := by
  cases list with
  | nil => exact ⟨bufsize, by rw [sizedList]⟩
  | cons attr list =>
    rw [countedFrom] at hsize
    obtain ⟨middle, hmiddle⟩ := exists_sizedEntry attr (hfits attr List.mem_cons_self)
      ((alignUp_mono (le_countedFrom list _)).trans hsize)
    obtain ⟨size, hlist⟩ := exists_sizedList list
      (fun other hother => hfits other (List.mem_cons_of_mem _ hother)) hsize
    exact ⟨size, by rw [sizedList, hmiddle, ok_bind, hlist]⟩

end

/-- The lengths that the code counts behind the header of the open message. -/
theorem countedFrom_layout (hlayout : Layout ctx seq pid done header rest) (list : List Attr) :
    done.length + (16 + (joinPadded (rest :: attrsBytes list)).length) =
      countedFrom ctx.datalen list + 2 ^ 16 * carries (allNested list) := by
  have hsum : countedFrom ctx.datalen list =
      done.length + 16 + countedFrom rest.length list := by
    have haligned := hlayout.aligned
    rw [hlayout.datalen, ← Nat.add_assoc]
    exact countedFrom_add (by omega) list _
  rw [hsum, length_joinPadded_counted list rest rest.length 0 rfl]
  ring

/-- The attributes are added if the sizes can be had. -/
theorem addAttrList_of_sized (hrealloc : Allocator realloc)
    (hlayout : Layout ctx seq pid done header rest) {list : List Attr} {bufsize : ℕ}
    (hsized : sizedList ctx.bufsize ctx.datalen list = .ok bufsize) :
    ∃ next, addAttrList realloc ctx list = .ok next ∧
      next.datalen = countedFrom ctx.datalen list := by
  obtain ⟨failure, hfails, -⟩ | ⟨next, -, hadd, -, -, hdatalen⟩ :=
    addAttrList_outcome realloc hrealloc list ctx (open_of_layout hlayout)
  · cases hsized.symm.trans hfails
  · exact ⟨next, hadd, hdatalen⟩

/-- Attributes that fit their length fields are added if the buffer stays within 2 GiB. -/
theorem addAttrList_succeeds (hrealloc : Allocator realloc)
    (hlayout : Layout ctx seq pid done header rest) {list : List Attr}
    (hfits : ∀ attr ∈ list, (attrBytes attr).length ≤ 65535)
    (hsize : alignUp (done.length + (16 + (joinPadded (rest :: attrsBytes list)).length)) ≤
      2 ^ 31) :
    ∃ next, addAttrList realloc ctx list = .ok next := by
  have hcounted := countedFrom_layout hlayout list
  obtain ⟨size, hsized⟩ := exists_sizedList list hfits
    ((alignUp_mono (show countedFrom ctx.datalen list ≤ _ by omega)).trans hsize)
  obtain ⟨next, hadd, -⟩ := addAttrList_of_sized hrealloc hlayout hsized
  exact ⟨next, hadd⟩

/-- If all lengths are true, the buffer has counted every byte. -/
theorem LengthsRight.short (hrealloc : Allocator realloc)
    (hlayout : Layout ctx seq pid done header rest) {list : List Attr} {bufsize : ℕ}
    (hsized : sizedList ctx.bufsize ctx.datalen list = .ok bufsize)
    (hright : LengthsRight realloc ctx seq pid done rest list) :
    ∀ attr ∈ allNested list, attr.data.length ≤ 65531 := by
  obtain ⟨next, hadd, hdatalen⟩ := addAttrList_of_sized hrealloc hlayout hsized
  obtain ⟨text, herror⟩ | ⟨last, header, hlast, hfinal, -⟩ := hright
  · cases hadd.symm.trans herror
  · obtain rfl := Except.ok.inj (hadd.symm.trans hlast)
    have htrue := countedFrom_layout hlayout list
    have hwhole := hfinal.datalen
    exact carries_eq_zero_iff.mp (by omega)

theorem lengthsRight_of_short (hrealloc : Allocator realloc)
    (hlayout : Layout ctx seq pid done header rest) {list : List Attr} {bufsize : ℕ}
    (hsized : sizedList ctx.bufsize ctx.datalen list = .ok bufsize)
    (hshort : ∀ attr ∈ allNested list, attr.data.length ≤ 65531) :
    LengthsRight realloc ctx seq pid done rest list := by
  have hfits : ∀ attr ∈ list, (attrBytes attr).length ≤ 65535 := by
    intro attr hattr
    obtain ⟨_, _, _, hentry⟩ := sizedEntry_of_sizedList hsized attr hattr
    exact length_le_of_sized hentry fun inner hinner =>
      hshort inner (withNested_subset hattr inner hinner)
  obtain ⟨next, hadd, -⟩ := addAttrList_of_sized hrealloc hlayout hsized
  refine .inr ⟨next, _, hadd, addAttrList_layout realloc hrealloc list hlayout hfits hadd,
    fun attr hattr => ?_⟩
  obtain ⟨outer, houter, hle⟩ := length_allNested_le list attr hattr
  exact trueLength_of_le (hle.trans (hfits outer houter))

/-- For every allocator, every open message and every attribute list: the call
reports an error or all lengths are true, exactly if a check fails or `realloc` is asked
for no bytes before the size of the buffer is cut, or the size is not cut and no value has
65532 bytes or more. -/
theorem addAttrList_lengths_iff (hrealloc : Allocator realloc)
    (hlayout : Layout ctx seq pid done header rest) (list : List Attr) :
    LengthsRight realloc ctx seq pid done rest list ↔
      (∃ text, sizedList ctx.bufsize ctx.datalen list = .error (.brk text)) ∨
        (∃ bufsize, sizedList ctx.bufsize ctx.datalen list = .ok bufsize) ∧
          ∀ attr ∈ allNested list, attr.data.length ≤ 65531 := by
  constructor
  · intro hright
    obtain ⟨failure, hsized, hadd⟩ | ⟨next, hsized, -⟩ :=
      addAttrList_outcome realloc hrealloc list ctx (open_of_layout hlayout)
    · obtain ⟨text, herror⟩ | ⟨last, header, hlast, -⟩ := hright
      · cases hadd.symm.trans herror
        exact .inl ⟨text, hsized⟩
      · cases hadd.symm.trans hlast
    · exact .inr ⟨⟨_, hsized⟩, hright.short hrealloc hlayout hsized⟩
  · rintro (⟨text, hsized⟩ | ⟨⟨bufsize, hsized⟩, hshort⟩)
    · obtain ⟨failure, hfails, hadd⟩ | ⟨next, hok, -⟩ :=
        addAttrList_outcome realloc hrealloc list ctx (open_of_layout hlayout)
      · cases hsized.symm.trans hfails
        exact .inl ⟨text, hadd⟩
      · cases hsized.symm.trans hok
    · exact lengthsRight_of_short hrealloc hlayout hsized hshort

end Lengths

/-- The header of a message of type `RTM_NEWLINK` without payload. -/
def newlink : Nlmsghdr :=
  { nlmsgLen := 16, nlmsgType := 16, nlmsgFlags := 5, nlmsgSeq := 0
    nlmsgPid := 0 }

/-- A context with this message open. -/
def opened : Context :=
  { createContext 4096 with
    seq := 1
    datalen := 16
    data := fill 1024 newlink.bytes
    curmsg := 4096 }

theorem layout_opened : Layout opened 1 0 [] newlink [] where
  buffer_pos := by decide
  bufsize_dvd := by decide
  bufsize_lt := by decide
  data := by rw [List.nil_append, List.append_nil]; rfl
  room := by decide
  aligned := by decide
  curmsg := rfl
  datalen := rfl
  len := rfl
  seq_eq := rfl
  pid_eq := rfl

theorem addAttrList_lengths_link : LengthsRight moving opened 1 0 [] []
    [.nested 18 [] [.leaf 1 [118, 101, 116, 104]], .leaf 3 [118, 0]] :=
  (addAttrList_lengths_iff allocator_moving layout_opened _).mpr
    (.inr ⟨⟨1024, by decide⟩, by simp [allNested, withNested, Attr.data]⟩)

def zeros (count : ℕ) : List UInt8 := List.replicate count 0

theorem length_zeros (count : ℕ) : (zeros count).length = count := List.length_replicate

/-- An attribute whose value is admitted and whose length does not fit. -/
def longAttr : Attr := .leaf 3 (zeros 65532)

/-- The call succeeds, and nothing of the 65536 bytes is counted. -/
theorem addAttrList_longAttr :
    Layout opened 1 0 [] newlink [] ∧ (attrBytes longAttr).length = 65536 ∧
      (∃ next, addAttrList moving opened [longAttr] = .ok next ∧ next.datalen = opened.datalen) ∧
      ¬LengthsRight moving opened 1 0 [] [] [longAttr] := by
  have hdata : longAttr.data.length = 65532 := by
    rw [longAttr, Attr.data, length_zeros]
  have hsized : sizedList 1024 16 [longAttr] = .ok 65552 := by
    simp [sizedList, longAttr, sizedEntry, checkLength, length_zeros, sizedFor, rtaSpace,
      rtaLength, alignUp]
  have hcounted : countedFrom opened.datalen [longAttr] = opened.datalen := by
    rw [countedFrom, countedFrom, longAttr, counted, length_zeros]
    rfl
  refine ⟨layout_opened, ?_, ?_, fun hright => ?_⟩
  · simp [longAttr, attrBytes, length_attrHeader, length_zeros]
  · obtain ⟨next, hadd, hdatalen⟩ := addAttrList_of_sized allocator_moving layout_opened hsized
    exact ⟨next, hadd, hdatalen.trans hcounted⟩
  · have hshort := hright.short allocator_moving layout_opened hsized longAttr
      (by simp [allNested, withNested, longAttr])
    omega

end GrapheneLtp.NetlinkLengths
