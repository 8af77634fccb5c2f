import Citrusleaf.Proto

/-! `cl_parse`. The two bounds checks compare the end of the buffer with the start of the
part that is parsed, not with the cursor. `none` stands for an access outside the buffer,
or outside the name of a bin. -/
namespace Citrusleaf
open Lib

/-- The array behind `values_r`, or behind `operations_r` with the bins inside operations. -/
structure Values where
  operations : Bool
  bins : List ClBin

/-- What the caller passes: `n_values_r` with one of the arrays, and where to put the
transaction id and the set name. -/
structure ParseCaller where
  values : Option Values
  tridR : Bool
  setnameR : Bool

structure Parsed where
  rv : Int
  values : Option Values
  trid : Option UInt64
  setname : Option (List UInt8)

/-- `malloc`, and what a new array of bins holds. -/
structure Heap where
  malloc : Nat → Option UInt64
  garbage : Nat → ClBin

/-! ### Fields -/

structure FieldState where
  buf : List UInt8
  mf : Nat
  trid : Option UInt64
  setname : Option (List UInt8)

def parseField (caller : ParseCaller) (s : FieldState) : Option FieldState := do
  let buf ← clMsgSwapField s.buf s.mf
  let type ← fieldType buf s.mf
  let next ← clMsgFieldGetNext buf s.mf
  if type = clMsgFieldTypeTrid then
    let tridNbo ← readBytes buf (s.mf + 5) 8
    return {s with buf,mf := next,trid := if caller.tridR then some (beNat tridNbo).toUInt64 else s.trid}
  else if type = clMsgFieldTypeSet ∧ caller.setnameR then
    let setnameLen := clMsgFieldGetValueSz (← fieldSz buf s.mf)
    let setname ← readBytes buf (s.mf + 5) setnameLen
    return {s with buf,mf := next,setname := some setname}
  else return {s with buf,mf := next}

/-- The loop over fields. -/
def parseFields (caller : ParseCaller) : Nat → FieldState → Option (Int × FieldState)
  | 0,s => some (0,s)
  | n + 1,s =>
    if s.buf.length < 5 then some (-1,s)
    else do parseFields caller n (← parseField caller s)

/-! ### Operations -/

/-- `set_value_search`, with the names in the array compared as `memcmp` does. -/
def setValueSearch (malloc : Nat → Option UInt64) (buf : List UInt8) (op : Nat) :
    List ClBin → Option (Int × List ClBin)
  | [] => some (-1,[])
  | value :: values => do
    let nameSz ← opNameSz buf op
    let binName ← readBytes value.binName.chars 0 nameSz
    let name ← readBytes buf (op + 8) nameSz
    if binName = name then
      let (_,object) ← setObject malloc buf op value.object
      return (0,{value with object} :: values)
    else
      let (rv,values) ← setValueSearch malloc buf op values
      return (rv,value :: values)

/-- The loop that fills a new array. `start` is `buf` after the fields. -/
def parseOpsFresh (malloc : Nat → Option UInt64) (start : Nat) :
    List ClBin → List UInt8 → Nat → Option (Int × List ClBin)
  | [],_,_ => some (0,[])
  | value :: values,buf,op =>
    if buf.length < start + 8 then some (-1,value :: values)
    else do
      let buf ← clMsgSwapOp buf op
      let value ← clSetValueParticular malloc buf op value
      let (rv,values) ← parseOpsFresh malloc start values buf (← clMsgOpGetNext buf op)
      return (rv,value :: values)

/-- The loop that fills the caller's array. -/
def parseOpsSearch (malloc : Nat → Option UInt64) (start : Nat) :
    Nat → List ClBin → List UInt8 → Nat → Option (Int × List ClBin)
  | 0,values,_,_ => some (0,values)
  | n + 1,values,buf,op =>
    if buf.length < start + 8 then some (-1,values)
    else do
      let buf ← clMsgSwapOp buf op
      let (_,values) ← setValueSearch malloc buf op values
      parseOpsSearch malloc start n values buf (← clMsgOpGetNext buf op)

/-- `sizeof(cl_operation)` and `sizeof(cl_bin)` -/
def Values.itemSize (values : Values) : Nat := if values.operations then 72 else 64

def parseOps (heap : Heap) (nOps : Nat) (values : Values) (buf : List UInt8) (start : Nat) :
    Option (Int × Values) :=
  if nOps > values.bins.length then
    match heap.malloc (values.itemSize * nOps) with
    | none => some (-1,values)
    | some _ => do
      let (rv,bins) ← parseOpsFresh heap.malloc start ((List.range nOps).map heap.garbage) buf start
      return (rv,{values with bins})
  else do
    let (rv,bins) ← parseOpsSearch heap.malloc start nOps values.bins buf start
    return (rv,{values with bins})

def clParse (heap : Heap) (msg : ClMsg) (buf : List UInt8) (caller : ParseCaller) : Option Parsed := do
  let (rv,s) ← parseFields caller msg.nFields.toNat ⟨buf,0,none,none⟩
  if rv ≠ 0 then return ⟨rv,caller.values,s.trid,s.setname⟩
  match caller.values with
  | none => return ⟨0,none,s.trid,s.setname⟩
  | some values =>
    let (rv,values) ← parseOps heap msg.nOps.toNat values s.buf s.mf
    return ⟨rv,some values,s.trid,s.setname⟩

end Citrusleaf
