import Citrusleaf.Proto
import Citrusleaf.WriteParameters

/-! `cl_compile`: the size of a request, its header, its fields and its operations. The
parts are written in host order at a moving position and each size is swapped in place
once the next position is known. `none` stands for an access outside the buffer or an
argument. -/
namespace Citrusleaf
open Lib

/-! ### The header -/

structure ClProto where
  version : UInt8
  type : UInt8
  sz : Nat
  deriving DecidableEq

/-- `cl_proto` in memory, with its 48-bit size. -/
def ClProto.bytes (proto : ClProto) : List UInt8 :=
  [proto.version,proto.type] ++ leBytes 6 proto.sz

/-- `cl_msg` in memory. -/
def ClMsg.bytes (m : ClMsg) : List UInt8 :=
  [m.headerSz,m.info1,m.info2,m.info3,m.unused,m.resultCode] ++ (leBytes 4 m.generation.toNat ++
    (leBytes 4 m.recordTtl.toNat ++ (leBytes 4 m.transactionTtl.toNat ++
    (leBytes 2 m.nFields.toNat ++ leBytes 2 m.nOps.toNat))))

/-- Turn the six bytes of the size around; the version and the type stay. -/
def clProtoSwap (buf : List UInt8) (p : Nat) : Option (List UInt8) := swapBytes buf (p + 2) 6

def clMsgSwapHeader (buf : List UInt8) (m : Nat) : Option (List UInt8) := do
  let buf ← swapBytes buf (m + 6) 4
  let buf ← swapBytes buf (m + 10) 4
  let buf ← swapBytes buf (m + 14) 4
  let buf ← swapBytes buf (m + 18) 2
  swapBytes buf (m + 20) 2

def clProtoVersion : UInt8 := 2
def clProtoTypeClMsg : UInt8 := 3

def clWriteHeader (buf : List UInt8) (msgSz : Nat) (info1 info2 info3 generation recordTtl
    transactionTtl : UInt32) (nFields nOps : Nat) : Option (List UInt8) := do
  let buf ← writeBytes buf 0 (ClProto.bytes ⟨clProtoVersion,clProtoTypeClMsg,msgSz - 8⟩)
  let buf ← clProtoSwap buf 0
  let buf ← writeBytes buf 8 (ClMsg.bytes ⟨22,info1.toUInt8,info2.toUInt8,info3.toUInt8,0,0,
    generation,recordTtl,transactionTtl,nFields.toUInt16,nOps.toUInt16⟩)
  clMsgSwapHeader buf 8

/-! ### The arguments -/

structure ClScanParamField where
  byte1 : UInt8
  scanPct : UInt8

/-- `values` with one operator for all, or `operations`. -/
inductive CompileValues where
  | values (values : List ClBin) (operator : ClOperator)
  | operations (operations : List ClOperation)

/-- The bin and the operator of each operation. -/
def CompileValues.ops : CompileValues → List ClOperation
  | .values bins operator => bins.map (⟨·,operator⟩)
  | .operations list => list

/-- A transaction id of zero is none. -/
structure CompileArgs where
  info1 : UInt32
  info2 : UInt32
  info3 : UInt32
  ns : Option CString
  set : Option CString
  key : Option ClObject
  digest : Option CfDigest
  values : CompileValues
  clWP : Option ClWriteParameters
  trid : UInt64
  scanParamField : Option ClScanParamField

/-- `strlen` as an `int`. A negative one is a huge count for a later `memcpy`. -/
def intStrlen (str : CString) : Option Nat :=
  let len := toInt (str.length % 2 ^ 32)
  if len < 0 then none else some len.toNat

/-- What a string adds to the size of a request. -/
def stringSz (str : CString) : Nat := (intStrlen str).getD 0

/-! ### Fields -/

/-- Lay a field at `mf`: type, size and data, then the next position, then the swap. -/
def layField (buf : List UInt8) (mf : Nat) (type : UInt8) (fieldSz : Nat) (data : List UInt8) :
    Option (List UInt8 × Nat) := do
  let buf ← writeBytes buf (mf + 4) [type]
  let buf ← writeBytes buf mf (leBytes 4 fieldSz)
  let buf ← writeBytes buf (mf + 5) data
  let mfTmp ← clMsgFieldGetNext buf mf
  let buf ← clMsgSwapField buf mf
  return (buf,mfTmp)

/-- The size and the data of a key field; `some none` is the return of an unknown type. -/
def keyField (key : ClObject) : Option (Option (Nat × List UInt8)) :=
  if key.type = clStr then do
    return some (key.sz + 2,key.type.toUInt8 :: (← key.u.copy key.sz))
  else if key.type = clInt then
    some (some (8 + 2,key.type.toUInt8 :: beBytes 8 key.u.toI64.toUInt64.toNat))
  else if isBlob key.type then do
    return some (key.sz + 2,key.type.toUInt8 :: (← key.u.copy key.sz))
  else some none

/-- Lay a field that may be absent. -/
def layPresent (buf : List UInt8) (mf : Nat) (type : UInt8) :
    Option (Nat × List UInt8) → Option (List UInt8 × Nat)
  | none => some (buf,mf)
  | some (fieldSz,data) => layField buf mf type fieldSz data

def stringField : Option CString → Option (Option (Nat × List UInt8))
  | none => some none
  | some str => (intStrlen str).map fun len => some (len + 1,str.take len)

/-- A position of `none` is the null return of `write_fields`. -/
def layKey (buf : List UInt8) (mf : Nat) : Option ClObject → Option (List UInt8 × Option Nat)
  | none => some (buf,some mf)
  | some key => do
    match ← keyField key with
    | none => return (buf,none)
    | some (fieldSz,data) =>
      let (buf,mf) ← layField buf mf clMsgFieldTypeKey fieldSz data
      return (buf,some mf)

/-- `write_fields`, without the digest it computes for the caller. -/
def writeFields (buf : List UInt8) (mf : Nat) (args : CompileArgs) : Option (List UInt8 × Option Nat) := do
  let (buf,mf) ← layPresent buf mf clMsgFieldTypeNamespace (← stringField args.ns)
  let (buf,mf) ← layPresent buf mf clMsgFieldTypeSet (← stringField args.set)
  let (buf,mf) ← layPresent buf mf clMsgFieldTypeTrid
    (if args.trid = 0 then none else some (8 + 1,beBytes 8 args.trid.toNat))
  let (buf,mf) ← layPresent buf mf clMsgFieldTypeScanOptions
    (args.scanParamField.map fun scan => (2 + 1,[scan.byte1,scan.scanPct]))
  let (buf,mf) ← layKey buf mf args.key
  match mf with
  | none => return (buf,none)
  | some mf =>
    let (buf,mf) ← layPresent buf mf clMsgFieldTypeDigestRipe
      (args.digest.map fun d => (20 + 1,d.toList))
    return (buf,some mf)

/-! ### Operations -/

def clValueToOpGetSize (v : ClBin) : Option Nat :=
  if v.object.type = clNull then some 0
  else if v.object.type = clInt then some 8
  else if v.object.type = clStr ∨ isBlob v.object.type then some v.object.sz
  else none

/-- The code of an operator on the wire. -/
def clMsgOp : ClOperator → Option UInt8
  | .write => some 2
  | .read => some 1
  | .incr => some 5
  | .mcIncr => some 129
  | .append => some 9
  | .prepend => some 10
  | .mcAppend => some 130
  | .mcPrepend => some 131
  | .touch => some 11
  | .mcTouch => some 132
  | .other _ => none

/-- The value bytes of an operation; `some none` is the return of an unknown type. The blob
of an `MC_INCR` is two integers. -/
def opValue (code : UInt8) (object : ClObject) : Option (Option (List UInt8)) :=
  if object.type = clNull then some (some [])
  else if object.type = clInt then some (some (beBytes 8 object.u.toI64.toUInt64.toNat))
  else if object.type = clStr then (object.u.copy object.sz).map some
  else if isBlob object.type then
    if code = 129 then
      (object.u.copy 16).map fun ints => some ((ints.take 8).reverse ++ (ints.drop 8).reverse)
    else (object.u.copy object.sz).map some
  else some none

/-- `cl_value_to_op`, with the value it returns. -/
def clValueToOp (buf : List UInt8) (op : Nat) (operation : ClOperation) : Option (Int × List UInt8) := do
  let binName := operation.bin.binName.str
  let buf ← writeBytes buf op (leBytes 4 (8 + binName.length - 4))
  let buf ← writeBytes buf (op + 7) [binName.length.toUInt8]
  let buf ← writeBytes buf (op + 6) [0]
  let buf ← writeBytes buf (op + 8) binName
  match clMsgOp operation.op with
  | none => return (-1,buf)
  | some code =>
    let buf ← writeBytes buf (op + 4) [code]
    let data ← clMsgOpGetValueP buf op
    let buf ← writeBytes buf (op + 5) [operation.bin.object.type.toUInt8]
    match ← opValue code operation.bin.object with
    | none => return (-1,buf)
    | some value =>
      let buf ← writeBytes buf op (leBytes 4 ((← opSz buf op) + value.length))
      return (0,← writeBytes buf data value)

/-- The loop over operations, which goes on whatever `cl_value_to_op` returns. -/
def layOps : List UInt8 → Nat → List ClOperation → Option (List UInt8)
  | buf,_,[] => some buf
  | buf,op,operation :: operations => do
    let (_,buf) ← clValueToOp buf op operation
    let opTmp ← clMsgOpGetNext buf op
    let buf ← clMsgSwapOp buf op
    layOps buf opTmp operations

/-! ### The request -/

def opsSize : List ClOperation → Option Nat
  | [] => some 0
  | operation :: operations => do
    let size ← clValueToOpGetSize operation.bin
    return 8 + operation.bin.binName.str.length + size + (← opsSize operations)

/-- Header, fields and operations. The digest and the scan options count one byte more
than their fields take. -/
def CompileArgs.fieldsSize (args : CompileArgs) : Nat :=
  (args.ns.map (5 + stringSz ·)).getD 0 + (args.set.map (5 + stringSz ·)).getD 0 +
    (args.key.map (5 + 1 + ·.sz)).getD 0 + (if args.digest.isSome then 5 + 1 + 20 else 0) +
    (if args.trid = 0 then 0 else 5 + 8) + (if args.scanParamField.isSome then 5 + 1 + 2 else 0)

def CompileArgs.msgSz (args : CompileArgs) : Option Nat :=
  (opsSize args.values.ops).map (30 + args.fieldsSize + ·)

def CompileArgs.nFields (args : CompileArgs) : Nat :=
  args.ns.toList.length + args.set.toList.length + args.key.toList.length + args.digest.toList.length +
    (if args.trid = 0 then 0 else 1) + args.scanParamField.toList.length

/-- The return value and the buffer, in memory that could be allocated. -/
def clCompile (args : CompileArgs) : Option (Int × List UInt8) :=
  match args.msgSz with
  | none => some (-1,[])
  | some msgSz => do
    let buf := List.replicate msgSz 0
    let (info2,generation) := writeInfo2 args.info2 args.clWP
    let recordTtl := (args.clWP.map (·.recordTtl)).getD 0
    let transactionTtl := (args.clWP.map (·.timeoutMs.toUInt32)).getD 0
    let buf ← clWriteHeader buf msgSz args.info1 info2 args.info3 generation recordTtl transactionTtl
      args.nFields args.values.ops.length
    let (buf,op) ← writeFields buf 30 args
    match op with
    | none => return (-1,buf)
    | some op => return (0,← layOps buf op args.values.ops)

end Citrusleaf
