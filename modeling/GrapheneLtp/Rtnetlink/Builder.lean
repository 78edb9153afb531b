import GrapheneLtp.Core.Bytes

/-!
# Building netlink messages

The part of the rtnetlink library that fills the send buffer.  The buffer is a
piece of memory with an address; `curmsg` is the address of the last message
header, and zero stands for the null pointer.  An access outside the buffer is
a wild one.  Where `realloc` puts the buffer is a parameter.  The mask of
`NLMSG_ALIGN` is an `unsigned int`, so it cuts every size to 32 bits.
-/

namespace GrapheneLtp.Rtnetlink

open GrapheneLtp.Bytes

/-- `struct nlmsghdr`. -/
structure Nlmsghdr where
  nlmsgLen : UInt32
  nlmsgType : UInt16
  nlmsgFlags : UInt16
  nlmsgSeq : UInt32
  nlmsgPid : UInt32
  deriving DecidableEq, Repr

/-- The header in memory. -/
def Nlmsghdr.bytes (header : Nlmsghdr) : List UInt8 :=
  leBytes 4 header.nlmsgLen.toNat ++ leBytes 2 header.nlmsgType.toNat ++
    leBytes 2 header.nlmsgFlags.toNat ++ leBytes 4 header.nlmsgSeq.toNat ++
      leBytes 4 header.nlmsgPid.toNat

/-- An entry of `struct tst_rtnl_attr_list`, with its `sublist` if there is
one. -/
inductive Attr
  | leaf (type : UInt16) (data : List UInt8)
  | nested (type : UInt16) (data : List UInt8) (sublist : List Attr)

def Attr.type : Attr → UInt16
  | .leaf type _ => type
  | .nested type _ _ => type

def Attr.data : Attr → List UInt8
  | .leaf _ data => data
  | .nested _ data _ => data

def nlmFMulti : UInt16 := 2

def nlmsgHdrlen : ℕ := 16

def nlmsgLength (payloadSize : ℕ) : ℕ := payloadSize + nlmsgHdrlen

/-- `NLMSG_ALIGN`, of a 32-bit length or a `size_t`. -/
def nlmsgAlign (len : ℕ) : ℕ := (len + 3) % 2 ^ 32 / 4 * 4

def nlmsgSpace (payloadSize : ℕ) : ℕ := nlmsgAlign (nlmsgLength payloadSize)

def rtaLength (len : ℕ) : ℕ := 4 + len

def rtaSpace (len : ℕ) : ℕ := alignUp (rtaLength len)

/-- `struct tst_rtnl_context`, with the memory that `buffer` points to. -/
structure Context where
  pid : UInt32
  seq : UInt32
  bufsize : ℕ
  datalen : ℕ
  buffer : ℤ
  data : List UInt8
  curmsg : ℤ
  deriving DecidableEq, Repr

/-- `tst_rtnl_create_context`, given where the buffer is allocated. -/
def createContext (buffer : ℤ) : Context :=
  { pid := 0, seq := 0, bufsize := 1024, datalen := 0, buffer := buffer
    data := List.replicate 1024 0, curmsg := 0 }

/-- Why a call does not return: it touches memory that is not its own, or it
ends the test with `tst_brk`. -/
inductive Failure
  | wild
  | brk (text : String)
  deriving DecidableEq, Repr

section Memory

variable (ctx : Context) (address : ℤ)

def load (count : ℕ) : Except Failure (List UInt8) :=
  match (if ctx.buffer ≤ address then
    slice ctx.data (address - ctx.buffer).toNat count else none) with
  | some bytes => .ok bytes
  | none => .error .wild

def store (bytes : List UInt8) : Except Failure Context :=
  match (if ctx.buffer ≤ address then
    overwrite ctx.data (address - ctx.buffer).toNat bytes else none) with
  | some data => .ok { ctx with data := data }
  | none => .error .wild

end Memory

section Calls

variable (realloc : ℤ → ℕ → ℤ)

/-- The size of the buffer after growing by at least what is missing. -/
def grownSize (bufsize needed : ℕ) : ℕ :=
  nlmsgAlign (bufsize + if bufsize > needed then bufsize else needed)

/-- `tst_rtnl_grow_buffer`.  The offset of `curmsg` is taken from the old
buffer also when `curmsg` is null. -/
def growBuffer (ctx : Context) (size : ℕ) : Except Failure Context :=
  let curlen := nlmsgAlign ctx.datalen
  if ctx.bufsize - curlen ≥ size then .ok ctx
  else
    let needed := size - (ctx.bufsize - curlen)
    let size := grownSize ctx.bufsize needed
    let buf := realloc ctx.buffer size
    if buf = 0 then .error (.brk "realloc() failed")
    -- The length of the memset() is below zero, which is no length of a block.
    else if size < ctx.bufsize then .error .wild
    else .ok
      { ctx with
        data := ctx.data ++ List.replicate (size - ctx.bufsize) 0
        buffer := buf
        curmsg := buf + (ctx.curmsg - ctx.buffer)
        bufsize := size }

/-- Where the next message goes, and the flags it adds: the first part of
`tst_rtnl_add_message` after the buffer has grown. -/
def nextMessage (ctx : Context) : Except Failure (Context × UInt16) :=
  if ctx.curmsg = 0 then
    .ok ({ ctx with datalen := 0, curmsg := ctx.buffer }, 0)
  else do
    let len := UInt32.ofNat (leValue (← load ctx ctx.curmsg 4))
    let flags := UInt16.ofNat (leValue (← load ctx (ctx.curmsg + 6) 2))
    let ctx ← store ctx (ctx.curmsg + 6) (leBytes 2 (flags ||| nlmFMulti).toNat)
    return ({ ctx with
      curmsg := ctx.curmsg + nlmsgAlign len.toNat
      datalen := nlmsgAlign ctx.datalen }, nlmFMulti)

/-- The header of the new message and its payload: the second part of
`tst_rtnl_add_message`. -/
def writeMessage (ctx : Context) (header : Nlmsghdr) (extraFlags : UInt16)
    (payload : List UInt8) : Except Failure Context := do
  let header :=
    { header with
      nlmsgLen := UInt32.ofNat (nlmsgLength payload.length)
      nlmsgFlags := header.nlmsgFlags ||| extraFlags
      nlmsgSeq := ctx.seq
      nlmsgPid := ctx.pid }
  let ctx ← store { ctx with seq := ctx.seq + 1 } ctx.curmsg header.bytes
  let ctx ← store ctx (ctx.curmsg + nlmsgHdrlen) payload
  return { ctx with datalen := ctx.datalen + header.nlmsgLen.toNat }

/-- `tst_rtnl_add_message`. -/
def addMessage (ctx : Context) (header : Nlmsghdr) (payload : List UInt8) :
    Except Failure Context := do
  let ctx ← growBuffer realloc ctx (nlmsgSpace payload.length)
  let (ctx, extraFlags) ← nextMessage ctx
  writeMessage ctx header extraFlags payload

/-- What `tst_rtnl_add_attr` does once the buffer is large enough. -/
def writeAttr (ctx : Context) (type : UInt16) (data : List UInt8) : Except Failure Context := do
  let size := nlmsgAlign (UInt32.ofNat (leValue (← load ctx ctx.curmsg 4))).toNat
  let attr := ctx.curmsg + size
  let len16 := UInt16.ofNat (rtaLength data.length)
  let ctx ← store ctx attr (leBytes 2 len16.toNat ++ leBytes 2 type.toNat)
  let ctx ← store ctx (attr + 4) data
  let ctx ← store ctx ctx.curmsg (leBytes 4 (size + len16.toNat))
  return { ctx with datalen := nlmsgAlign ctx.datalen + len16.toNat }

/-- `tst_rtnl_add_attr`; its parameter `len` is an unsigned short. -/
def addAttr (ctx : Context) (type : UInt16) (data : List UInt8) : Except Failure Context :=
  if ctx.curmsg = 0 then
    .error (.brk "tst_rtnl_add_attr(): No message to add attributes to")
  else
    let len := data.length % 2 ^ 16
    growBuffer realloc ctx (rtaSpace len) >>= fun ctx => writeAttr ctx type (data.take len)

/-- The check that precedes every entry of `tst_rtnl_add_attr_list`. -/
def checkLength (data : List UInt8) : Except Failure Unit :=
  if data.length > 65535 then
    .error (.brk "tst_rtnl_add_attr_list(): Attribute value too long")
  else .ok ()

/-- The back-patched length of an attribute with a sublist. -/
def patchLength (ctx : Context) (offset : ℕ) : Except Failure Context :=
  if ctx.datalen - offset > 65535 then
    .error (.brk "tst_rtnl_add_attr_list(): Sublist too long")
  else store ctx (ctx.buffer + offset) (leBytes 2 (ctx.datalen - offset))

mutual

/-- The body of the loop of `tst_rtnl_add_attr_list`. -/
def addEntry (ctx : Context) : Attr → Except Failure Context
  | .leaf type data => do
      checkLength data
      addAttr realloc ctx type data
  | .nested type data sublist => do
      checkLength data
      let offset := nlmsgAlign ctx.datalen
      let ctx ← addAttr realloc ctx type data
      let ctx ← addAttrList ctx sublist
      patchLength ctx offset

/-- `tst_rtnl_add_attr_list`; on success it returns the number of entries. -/
def addAttrList (ctx : Context) : List Attr → Except Failure Context
  | [] => .ok ctx
  | attr :: list => do
      let ctx ← addEntry ctx attr
      addAttrList ctx list

end

end Calls

/-- A call of the builder. -/
inductive Call
  | message (header : Nlmsghdr) (payload : List UInt8)
  | attr (type : UInt16) (data : List UInt8)
  | attrList (list : List Attr)

def Call.run (realloc : ℤ → ℕ → ℤ) (ctx : Context) : Call → Except Failure Context
  | .message header payload => addMessage realloc ctx header payload
  | .attr type data => addAttr realloc ctx type data
  | .attrList list => addAttrList realloc ctx list

/-- A sequence of calls, up to the first that fails. -/
def runCalls (realloc : ℤ → ℕ → ℤ) (ctx : Context) (calls : List Call) : Except Failure Context :=
  calls.foldlM (Call.run realloc) ctx

end GrapheneLtp.Rtnetlink
