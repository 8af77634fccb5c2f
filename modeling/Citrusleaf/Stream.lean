import Citrusleaf.RequestRoundTrip

/-! The read loops of `do_batch_monte` and `do_scan_monte`, from the first read on. A response
is a stream of protos with any number of messages in each; a message is swapped and read in
place, and its record is handed to the callback. `none` stands for an access outside a buffer
or an array. -/
namespace Citrusleaf
open Lib

def clProtoTypeClMsgCompressed : UInt8 := 4
def clResultOk : UInt8 := 0
def clResultNotfound : UInt8 := 2
def clMsgInfo1Nobindata : UInt8 := 32
def clMsgInfo3Last : UInt8 := 1

/-- `STACK_BUF_SZ` and `STACK_BINS` -/
def stackBufSz : Nat := 1024 * 16
def stackBins : Nat := 100

/-! ### A message -/

/-- The state of the loop over fields. `keyd` points into the buffer. -/
structure MessageFields where
  buf : List UInt8
  mf : Nat
  keyd : Option Nat
  nsRet : List UInt8
  setRet : Option (List UInt8)

/-- `char ns_ret[33] = {0}`, with the other pointers null. -/
def MessageFields.init (buf : List UInt8) (mf : Nat) : MessageFields := ⟨buf,mf,none,List.replicate 33 0,none⟩

/-- Copy bytes and a NUL behind them into a block of a given size. -/
def copyString (block : List UInt8) (str : List UInt8) : Option (List UInt8) := writeBytes block 0 (str ++ [0])

/-- `malloc(set_name_len + 1)`, whose result is not checked, in 32 bits. -/
def setBlock (malloc : Nat → Option UInt64) (setNameLen : Nat) : Option (List UInt8) :=
  (malloc ((setNameLen + 1) % 2 ^ 32)).map fun _ => List.replicate ((setNameLen + 1) % 2 ^ 32) 0

def readMessageField (malloc : Nat → Option UInt64) (s : MessageFields) : Option MessageFields := do
  let buf ← clMsgSwapField s.buf s.mf
  let type ← fieldType buf s.mf
  let mf ← clMsgFieldGetNext buf s.mf
  if type = clMsgFieldTypeDigestRipe then return {s with buf,mf,keyd := some (s.mf + 5)}
  else if type = clMsgFieldTypeNamespace then
    let ns ← readBytes buf (s.mf + 5) (clMsgFieldGetValueSz (← fieldSz buf s.mf))
    return {s with buf,mf,nsRet := ← copyString s.nsRet ns}
  else if type = clMsgFieldTypeSet then
    let setNameLen := clMsgFieldGetValueSz (← fieldSz buf s.mf)
    let set ← readBytes buf (s.mf + 5) setNameLen
    return {s with buf,mf,setRet := some (← copyString (← setBlock malloc setNameLen) set)}
  else return {s with buf,mf}

/-- The loop over fields. -/
def readMessageFields (malloc : Nat → Option UInt64) : Nat → MessageFields → Option MessageFields
  | 0,s => some s
  | n + 1,s => do readMessageFields malloc n (← readMessageField malloc s)

/-- A name copied into an entry of the bin array. Behind one of 32 bytes the NUL falls on
`object.type`. -/
def BinName.fill (old : BinName) (name : List UInt8) : BinName :=
  if full : name.length = 32 then ⟨name,full⟩ else (old.set name).getD old

/-- `cl_set_value_particular` on an entry of the array, whose type `set_object` writes anew. -/
def clSetValueParticularEntry (malloc : Nat → Option UInt64) (buf : List UInt8) (op : Nat) (value : ClBin) :
    Option ClBin := do
  let nameSz ← opNameSz buf op
  if nameSz > 32 then return value
  else
    let name ← readBytes buf (op + 8) nameSz
    let (_,object) ← setObject malloc buf op value.object
    return ⟨value.binName.fill name,object⟩

/-- The loop over operations, into as many bins. -/
def readMessageOps (malloc : Nat → Option UInt64) :
    List ClBin → List UInt8 → Nat → Option (List ClBin × List UInt8 × Nat)
  | [],buf,op => some ([],buf,op)
  | value :: values,buf,op => do
    let buf ← clMsgSwapOp buf op
    let value ← clSetValueParticularEntry malloc buf op value
    let (values,buf,op) ← readMessageOps malloc values buf (← clMsgOpGetNext buf op)
    return (value :: values,buf,op)

/-- `bins_local`: the first bins on the stack, or a new array. -/
def binsLocal (heap : Heap) (stack : List ClBin) (nOps : Nat) : Option (List ClBin) :=
  if nOps > stackBins then (heap.malloc (64 * nOps)).map fun _ => (List.range nOps).map heap.garbage
  else some (stack.take nOps)

/-- What the callback is given, with the digest behind `keyd`. -/
structure CallbackRecord where
  ns : List UInt8
  keyd : Option (List UInt8)
  set : Option (List UInt8)
  generation : UInt32
  recordTtl : UInt32
  bins : List ClBin

structure ReadMessage where
  m : ClMsg
  record : CallbackRecord
  buf : List UInt8
  next : Nat
  stack : List ClBin

/-- The returns of the two functions behind the write of the request: those of -1, and the last one,
where `rv` may decide what becomes of the socket. -/
inductive StreamExit where
  /-- The header of a proto does not arrive. -/
  | protoUnread
  | wrongVersion
  | wrongType
  /-- `rd_buf == NULL` -/
  | noRdBuf
  | bodyUnread
  | notDecompressed
  /-- `msg->header_sz != sizeof(cl_msg)` -/
  | wrongHeaderSz
  /-- `bins_local == NULL` -/
  | noBins
  | pooled
  | closed
  deriving DecidableEq

/-- One turn up to the handling of the result, or a return of -1. -/
def readMessage (heap : Heap) (stack : List ClBin) (buf : List UInt8) (p : Nat) :
    Option (Except StreamExit ReadMessage) := do
  let buf ← clMsgSwapHeader buf p
  let m ← readMsg buf p
  if m.headerSz ≠ 22 then return .error .wrongHeaderSz
  else
    let fields ← readMessageFields heap.malloc m.nFields.toNat (.init buf (p + 22))
    match binsLocal heap stack m.nOps.toNat with
    | none => return .error .noBins
    | some bins =>
      let (bins,buf,next) ← readMessageOps heap.malloc bins fields.buf fields.mf
      let keyd := fields.keyd.map fun keyd => (buf.drop keyd).take 20
      let stack := if m.nOps.toNat > stackBins then stack else bins ++ stack.drop m.nOps.toNat
      return .ok ⟨m,⟨fields.nsRet,keyd,fields.setRet,m.generation,m.recordTtl,bins⟩,buf,next,stack⟩

/-! ### What a message does -/

/-- `rv` and `done`, and what the callback was given so far. -/
structure Progress (ρ : Type) where
  rv : Int
  done : Bool
  calls : List ρ

/-- All codes but these two abort a batch. -/
def batchAborts (m : ClMsg) : Bool := m.resultCode ≠ clResultOk ∧ m.resultCode ≠ clResultNotfound

def isLast (m : ClMsg) : Bool := m.info3 &&& clMsgInfo3Last ≠ 0

/-- A record that a batch hands to a callback. -/
def batchRecord (cb : Bool) (m : ClMsg) : Bool := cb ∧ (m.nOps ≠ 0 ∨ m.info1 &&& clMsgInfo1Nobindata ≠ 0)

def batchMessage (cb : Bool) (s : Progress ρ) (m : ClMsg) (record : ρ) : Progress ρ :=
  let s := if batchAborts m then {s with rv := m.resultCode.toNat,done := true} else s
  let s := if isLast m then {s with done := true} else s
  if batchRecord cb m then {s with rv := 0,calls := s.calls ++ [record]} else s

/-- A record that a scan hands to its callback. -/
def scanRecord (operationInfo : UInt32) (m : ClMsg) : Bool :=
  m.nOps ≠ 0 ∨ operationInfo &&& clMsgInfo1Nobindata.toUInt32 ≠ 0

/-- A set that does not exist on the node is not an error. -/
def scanMessage (operationInfo : UInt32) (s : Progress ρ) (m : ClMsg) (record : ρ) : Progress ρ :=
  if m.resultCode ≠ clResultOk then
    let resultCode := if m.resultCode = clResultNotfound then clResultOk else m.resultCode
    {s with rv := resultCode.toNat,done := true}
  else if isLast m then {s with done := true}
  else if scanRecord operationInfo m then {s with rv := 0,calls := s.calls ++ [record]}
  else s

/-! ### The messages of a proto -/

/-- The loop over messages, with the return of -1 if one of them makes it. `pos` is the cursor as a
`uint`. A message moves it by 22 bytes at least, so `fuel` bounds those that start inside the
buffer. -/
def walkMessages (heap : Heap) (message : Progress CallbackRecord → ClMsg → CallbackRecord → Progress CallbackRecord) :
    Nat → List ClBin → List UInt8 → Nat → Progress CallbackRecord →
      Option (Option StreamExit × Progress CallbackRecord)
  | 0,_,buf,p,s => if p % 2 ^ 32 < buf.length then none else some (none,s)
  | fuel + 1,stack,buf,p,s =>
    if p % 2 ^ 32 < buf.length then do
      match ← readMessage heap stack buf p with
      | .error exit => return (some exit,s)
      | .ok read => walkMessages heap message fuel read.stack read.buf read.next (message s read.m read.record)
    else some (none,s)

/-! ### The protos of a stream -/

/-- `cf_socket_read_forever` on the bytes still to arrive. -/
def receive (stream : List UInt8) (n : Nat) : Option (List UInt8 × List UInt8) :=
  if n ≤ stream.length then some (stream.take n,stream.drop n) else none

def receiveProto (stream : List UInt8) : Option (ClProto × List UInt8) := do
  let (bytes,stream) ← receive stream 8
  let bytes ← clProtoSwap bytes 0
  return (← readProto bytes 0,stream)

/-- `rd_buf`, on the stack or a new block. -/
def readBuf (malloc : Nat → Option UInt64) (rdBufSz : Nat) : Option UInt64 :=
  if rdBufSz > stackBufSz then malloc rdBufSz else some 0

/-- Where the two functions differ: inflating a compressed proto, what a message does, and when
the socket goes back to the pool of its node. -/
structure ReadLoop where
  inflate : Option (List UInt8 → Option (List UInt8))
  message : {ρ : Type} → Progress ρ → ClMsg → ρ → Progress ρ
  pools : Int → Bool

/-- The messages of the next proto and the stream behind it, or a return of -1. -/
def ReadLoop.receiveBody (loop : ReadLoop) (malloc : Nat → Option UInt64) (stream : List UInt8) :
    Except StreamExit (List UInt8 × List UInt8) := do
  let (proto,stream) ← orError .protoUnread (receiveProto stream)
  if proto.version ≠ clProtoVersion then .error .wrongVersion
  else if proto.type ≠ clProtoTypeClMsg ∧ (proto.type ≠ clProtoTypeClMsgCompressed ∨ loop.inflate.isNone) then
    .error .wrongType
  else
    let _ ← orError .noRdBuf (readBuf malloc proto.sz)
    let (body,stream) ← orError .bodyUnread (receive stream proto.sz)
    if proto.type = clProtoTypeClMsgCompressed then
      let body ← orError .notDecompressed (loop.inflate.bind fun inflate => inflate body)
      return (body,stream)
    else return (body,stream)

structure StreamResult (ρ : Type) where
  rv : Int
  exit : StreamExit
  calls : List ρ

/-- The socket goes back to the pool. -/
def StreamResult.pooled (result : StreamResult ρ) : Bool := result.exit = .pooled

/-- The last return. -/
def ReadLoop.leave (loop : ReadLoop) (rv : Int) : StreamExit := if loop.pools rv then .pooled else .closed

/-- Every read sets `rv` to zero, so only the calls go from one proto to the next. A proto takes
8 bytes at least, which bounds their number by `fuel`. -/
def ReadLoop.run (loop : ReadLoop) (heap : Heap) :
    Nat → List UInt8 → List CallbackRecord → Option (StreamResult CallbackRecord)
  | 0,_,_ => none
  | fuel + 1,stream,calls =>
    match loop.receiveBody heap.malloc stream with
    | .error exit => some ⟨-1,exit,calls⟩
    | .ok (body,stream) => do
      let (exit,s) ← walkMessages heap loop.message (body.length + 1) ((List.range stackBins).map heap.garbage)
        body 0 ⟨0,false,calls⟩
      match exit with
      | some exit => return ⟨-1,exit,s.calls⟩
      | none => if s.done then return ⟨s.rv,loop.leave s.rv,s.calls⟩ else loop.run heap fuel stream s.calls

/-- A batch may be compressed, and its socket goes back only without an error. -/
def doBatchMonte (inflate : List UInt8 → Option (List UInt8)) (cb : Bool) : ReadLoop :=
  ⟨some inflate,batchMessage cb,(· = 0)⟩

/-- A scan gives its socket back whatever it returns. -/
def doScanMonte (operationInfo : UInt32) : ReadLoop := ⟨none,scanMessage operationInfo,fun _ => true⟩

/-- The return with its value, and the calls, for the bytes that arrive. -/
def ReadLoop.result (loop : ReadLoop) (heap : Heap) (stream : List UInt8) : Option (StreamResult CallbackRecord) :=
  loop.run heap (stream.length + 1) stream []

end Citrusleaf
