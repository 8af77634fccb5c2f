import Citrusleaf.Object

/-! The message fields and operations of proto.h inside a buffer, and the readers the
client shares between its parsers. Positions count from the start of the buffer; a size in
host order is little-endian. A reader that leaves the buffer or an array gives `none`. -/
namespace Citrusleaf
open Lib

structure ClMsg where
  headerSz : UInt8
  info1 : UInt8
  info2 : UInt8
  info3 : UInt8
  unused : UInt8
  resultCode : UInt8
  generation : UInt32
  recordTtl : UInt32
  transactionTtl : UInt32
  nFields : UInt16
  nOps : UInt16
  deriving DecidableEq

/-! ### Fields: `field_sz` (4), `type` (1), `data` -/

def clMsgFieldTypeNamespace : UInt8 := 0
def clMsgFieldTypeSet : UInt8 := 1
def clMsgFieldTypeKey : UInt8 := 2
def clMsgFieldTypeDigestRipe : UInt8 := 4
def clMsgFieldTypeTrid : UInt8 := 7
def clMsgFieldTypeScanOptions : UInt8 := 8

/-- `ntohl` of a size, in place. -/
def clMsgSwapField (buf : List UInt8) (mf : Nat) : Option (List UInt8) := swapBytes buf mf 4

def fieldSz (buf : List UInt8) (mf : Nat) : Option Nat := (readBytes buf mf 4).map leNat

def fieldType (buf : List UInt8) (mf : Nat) : Option UInt8 := readByte buf (mf + 4)

def clMsgFieldGetNext (buf : List UInt8) (mf : Nat) : Option Nat :=
  (fieldSz buf mf).map (mf + 4 + ·)

/-- `field_sz - 1` as a `uint32_t`. -/
def clMsgFieldGetValueSz (fieldSz : Nat) : Nat := (fieldSz + (2 ^ 32 - 1)) % 2 ^ 32

/-! ### Operations: `op_sz` (4), `op`, `particle_type`, `version`, `name_sz`, `name`, value -/

def clMsgSwapOp (buf : List UInt8) (op : Nat) : Option (List UInt8) := swapBytes buf op 4

def opSz (buf : List UInt8) (op : Nat) : Option Nat := (readBytes buf op 4).map leNat

def opParticleType (buf : List UInt8) (op : Nat) : Option UInt8 := readByte buf (op + 5)

def opNameSz (buf : List UInt8) (op : Nat) : Option Nat := (readByte buf (op + 7)).map UInt8.toNat

def clMsgOpGetNext (buf : List UInt8) (op : Nat) : Option Nat := (opSz buf op).map (op + 4 + ·)

def clMsgOpGetValueP (buf : List UInt8) (op : Nat) : Option Nat := (opNameSz buf op).map (op + 8 + ·)

/-- `op_sz - (4 + name_sz)` as a `uint32_t`. -/
def valueSz (opSz nameSz : Nat) : Nat := (opSz + (2 ^ 32 - (4 + nameSz))) % 2 ^ 32

def clMsgOpGetValueSz (buf : List UInt8) (op : Nat) : Option Nat := do
  let opSz ← opSz buf op
  let nameSz ← opNameSz buf op
  return valueSz opSz nameSz

/-! ### Values -/

/-- A `uint32_t` passed as an `int`. -/
def toInt (sz : Nat) : Int := if sz < 2 ^ 31 then sz else sz - 2 ^ 32

/-- `op_to_value_int`: the return value, and what is stored through `value`. -/
def opToValueInt (buf : List UInt8) (p : Nat) (sz : Int) : Option (Int × Option Int64) :=
  if 8 < sz then some (-1,none)
  else if sz = 8 then do
    let bytes ← readBytes buf p 8
    return (0,some (Int64.ofNat (beNat bytes)))
  else if sz = 0 then some (0,some 0)
  else do
    let first ← readByte buf p
    if sz = 1 ∧ first < 0x7f then return (0,some (Int64.ofNat first.toNat))
    else if first &&& 0x80 ≠ 0 then
      -- a negative size fills lg_buf past its 8 bytes and is a huge count for memcpy
      if sz < 0 then none
      else
        let _ ← readBytes buf p sz.toNat
        -- the value is taken from the first byte of buf, not from lg_buf
        return (0,some (Int64.ofNat (beNat (leBytes 8 first.toNat))))
    else if sz < 0 then return (0,some 0)
    else
      let bytes ← readBytes buf p sz.toNat
      return (0,some (Int64.ofNat (beNat bytes)))

/-- `set_object`. `malloc` gives the address of a new block, or fails. -/
def setObject (malloc : Nat → Option UInt64) (buf : List UInt8) (op : Nat) (obj : ClObject) :
    Option (Int × ClObject) := do
  let particleType ← opParticleType buf op
  let obj := {obj with type := particleType.toUInt32}
  if obj.type = clNull then return (0,{obj with sz := 0})
  else if obj.type = clInt then
    let (rv,value) ← opToValueInt buf (← clMsgOpGetValueP buf op) (toInt (← clMsgOpGetValueSz buf op))
    return (rv,{obj with sz := 8,u := (value.map ClUnion.i64).getD obj.u})
  else if obj.type = clStr then
    let obj := {obj with sz := ← clMsgOpGetValueSz buf op}
    match malloc (obj.sz + 1) with
    | none => return (-1,{obj with u := .ptr 0 []})
    | some address =>
      let str ← readBytes buf (← clMsgOpGetValueP buf op) obj.sz
      return (0,{obj with u := .ptr address (str ++ [0])})
  else if isBlob obj.type then
    let obj := {obj with sz := ← clMsgOpGetValueSz buf op}
    match malloc obj.sz with
    | none => return (-1,{obj with u := .ptr 0 []})
    | some address =>
      let blob ← readBytes buf (← clMsgOpGetValueP buf op) obj.sz
      return (0,{obj with u := .ptr address blob})
  else return (-1,obj)

def clSetValueParticular (malloc : Nat → Option UInt64) (buf : List UInt8) (op : Nat) (value : ClBin) :
    Option ClBin := do
  let nameSz ← opNameSz buf op
  if nameSz > 32 then return value
  else
    let name ← readBytes buf (op + 8) nameSz
    let binName ← value.binName.set name
    let (_,object) ← setObject malloc buf op value.object
    return ⟨binName,object⟩

end Citrusleaf
