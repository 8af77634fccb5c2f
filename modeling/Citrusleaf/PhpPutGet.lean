import Citrusleaf.DateHour
import Citrusleaf.FullMonteCodes
import Citrusleaf.ParseSearch
import Citrusleaf.PhpArithmetic

/-! `CitrusleafClient::put`, `putmany` and `get` of php_citrusleaf.c: values of the application on their way to the
server and back into an array. -/
namespace Citrusleaf.PhpClient
open Lib FullMonte

/-! ### Writes -/

/-- A key of a PHP array. -/
inductive ArrayKey where
  | string (key : List UInt8)
  | long (index : Int64)

/-- What `strcpy` or `sprintf` writes of it. -/
def ArrayKey.chars : ArrayKey → CString
  | .string key => cString key
  | .long index => decimalInt index.toInt

/-- The optional arguments, with their defaults. -/
structure PutOptions where
  writeUniqueFlag : Int64 := 0
  generation : Int64 := -1
  ttlseconds : Int64 := -1

def citrusleafWriteIfKeyNotExist : Int64 := 1
def citrusleafWriteIfBinsNotExist : Int64 := 2

/-- What the stack and the new array hold when a method is entered. -/
structure PutFrame where
  oKey : ClObject
  values : Nat → ClBin
  clWP : WriteParameters

def PutOptions.writeParameters (options : PutOptions) (clo : CitrusleafObject) (clWP : WriteParameters)
    (unique uniqueBin : Bool) : WriteParameters :=
  let clWP := {clWP.setDefault with timeoutMs := clo.timeout,wPol := clo.writepolicy,unique,uniqueBin}
  let clWP := if -1 < options.generation then
      {clWP with useGeneration := true,generation := options.generation.toUInt64.toUInt32}
    else clWP
  if -1 < options.ttlseconds then {clWP with recordTtl := options.ttlseconds.toUInt64.toUInt32} else clWP

/-- The array of bins. The outer `none` is a name that does not fit, the inner one a value that has no conversion. -/
def fillValues (values : Nat → ClBin) : List (CString × Zval) → Option (Option (List ClBin))
  | [] => some (some [])
  | (name,z) :: rest => do
    let binName ← (values 0).binName.set name
    match zvalToCitrusleafObject z (values 0).object with
    | none => return none
    | some object =>
      let filled ← fillValues (fun i => values (i + 1)) rest
      return filled.map fun bins => ⟨binName,object⟩ :: bins

/-- What `put` and `putmany` have in common. -/
def putValues (initialized : Bool) (clo : CitrusleafObject) (frame : PutFrame) (key : Zval) (values : List (CString × Zval))
    (clWP : WriteParameters) : Option PhpCall :=
  match zvalToCitrusleafObject key frame.oKey with
  | none => some (.returned (.long .invalidApiParam))
  | some oKey =>
    if oKey.type = clNull then some (.returned (.long .invalidApiParam))
    else do
      match ← fillValues frame.values values with
      | none => return .returned (.long .unknown)
      | some bins => return answer (citrusleafPut initialized clo.ns.chars clo.set.chars oKey bins clWP)

def clientPut (initialized : Bool) (clo : CitrusleafObject) (frame : PutFrame) (key val : Zval) (options : PutOptions) :
    Option PhpCall :=
  let unique := options.writeUniqueFlag = citrusleafWriteIfKeyNotExist
  let uniqueBin := ¬unique ∧ options.writeUniqueFlag = citrusleafWriteIfBinsNotExist
  putValues initialized clo frame key [(clo.bin.chars,val)] (options.writeParameters clo frame.clWP unique uniqueBin)

def clientPutmany (initialized : Bool) (clo : CitrusleafObject) (frame : PutFrame) (key : Zval)
    (vals : List (ArrayKey × Zval)) (options : PutOptions) : Option PhpCall :=
  putValues initialized clo frame key (vals.map fun val => (val.1.chars,val.2))
    (options.writeParameters clo frame.clWP (options.writeUniqueFlag ≠ 0) false)

/-! ### Reads -/

def clMsgInfo1GetAll : UInt32 := 2

def citrusleafGetAll (initialized : Bool) (ns set : CString) (key : ClObject) (timeoutMs : Int32)
    (clWP : WriteParameters) : Except Int Request :=
  if initialized then
    let clWP := {clWP.setDefault with timeoutMs}
    .ok ⟨{info1 := clMsgInfo1Read ||| clMsgInfo1GetAll,info2 := 0,info3 := 0
          ns := some ns,set := some set,key := some key,digest := none
          values := .values [] .read,clWP := some clWP.toClWriteParameters
          trid := 0,scanParamField := none},clWP.wPol⟩
  else .error (-1)

/-- `get` without an array of names. The error is the response code of a call that does not ask the server. -/
def clientGet (initialized : Bool) (clo : CitrusleafObject) (oKey : ClObject) (clWP : WriteParameters) (key : Zval) :
    Except ClResultCode Request :=
  match zvalToCitrusleafObject key oKey with
  | none => .error .unknown
  | some oKey =>
    if oKey.type = clNull then .error .invalidApiParam
    else (citrusleafGetAll initialized clo.ns.chars clo.set.chars oKey clo.timeout clWP).mapError makePhpRv

/-- What `citrusleaf_get_all` gives for the bins and the transaction id. -/
def getAllCaller : ParseCaller := ⟨some ⟨false,[]⟩,true,false⟩

/-- `citrusleaf_response` -/
structure CitrusleafResponse where
  responseCode : ClResultCode
  generation : Option UInt32
  binVals : List ClBin

/-- What `get` makes of the result of `do_the_full_monte`. -/
def clientGetResponse (result : MonteResult) : CitrusleafResponse :=
  ⟨makePhpRv result.rv,result.clGen,(result.values.map Values.bins).getD []⟩

inductive PhpValue (ζ : Type) where
  | long (value : Int64)
  | string (chars : List UInt8)
  | unserialized (value : ζ)

abbrev PhpArray (ζ : Type) := List (CString × PhpValue ζ)

variable {ζ : Type}

def PhpArray.find (array : PhpArray ζ) (name : CString) : Option (PhpValue ζ) :=
  (List.find? (fun entry => entry.1 = name) array).map Prod.snd

/-- `add_assoc_zval`: a name that is there gets the new value. -/
def addAssoc : PhpArray ζ → CString → PhpValue ζ → PhpArray ζ
  | [],name,value => [(name,value)]
  | entry :: array,name,value => if entry.1 = name then (name,value) :: array else entry :: addAssoc array name value

/-- The loop of `get_bins`, with `php_var_unserialize`. The outer `none` is a read outside an object, the inner one
the null that is returned where a value cannot be unserialised. -/
def getBins (unserialize : List UInt8 → Option ζ) : List ClBin → PhpArray ζ → Option (Option (PhpArray ζ))
  | [],array => some (some array)
  | bin :: bins,array =>
    if bin.object.type = clStr ∨ bin.object.type = clBlob then do
      let chars ← bin.object.u.copy bin.object.sz
      getBins unserialize bins (addAssoc array bin.binName.str (.string chars))
    else if bin.object.type = clInt then
      getBins unserialize bins (addAssoc array bin.binName.str (.long bin.object.u.toI64))
    else if bin.object.type = clPhpBlob then do
      let bytes ← bin.object.u.copy bin.object.sz
      match unserialize bytes with
      | none => return none
      | some value => getBins unserialize bins (addAssoc array bin.binName.str (.unserialized value))
    else getBins unserialize bins array

/-! ### The server -/

/-- The bins of a record by name, each with its type and value. -/
abbrev TypedRecord := CString → Option (UInt32 × ObjectValue)

/-- Code 2 writes. -/
def TypedRecord.operate (record : TypedRecord) (op : OpView) : TypedRecord :=
  fun name => if name = op.name ∧ op.op = 2 then op.value.map fun value => (op.type,value) else record name

def TypedRecord.serve (record : TypedRecord) (ops : List OpView) : TypedRecord := ops.foldl TypedRecord.operate record

/-- The records, by the fields of a request: namespace, set and key. -/
abbrev Store := List (UInt8 × List UInt8) → TypedRecord

/-- The server applies what it reads from the buffer of a request. -/
def Store.receive (heap : Heap) (store : Store) (buf : List UInt8) : Option Store :=
  (decodeRequest heap buf).map fun decoded fields =>
    if fields = decoded.fields then (store fields).serve (decoded.ops.map fun op => opView op.1 op.2) else store fields

/-- The operations of a response to a read of the whole record. What it does with a bin that was set to null is left
to the server. -/
structure Lists (record : TypedRecord) (ops : List WireOp) : Prop where
  formed : ∀ op ∈ ops, op.WellFormed
  held : ∀ op ∈ ops, ∃ value, op.view.value = some value ∧ record (cString op.name) = some (op.view.type,value)
  all : ∀ name type value, record name = some (type,value) → type ≠ clNull → ∃ op ∈ ops, cString op.name = name

/-! ### Calls -/

inductive PutMethod where
  | put (val : Zval)
  | putmany (vals : List (ArrayKey × Zval))

/-- A call in the surroundings it is made in. With its retries the server may take its request several times; one that
it refuses does not count as received. -/
structure PutCall where
  clo : CitrusleafObject
  key : Zval
  method : PutMethod
  options : PutOptions
  initialized : Bool
  frame : PutFrame
  rv : Int
  received : Nat

namespace PutCall

def values (call : PutCall) : List (CString × Zval) :=
  match call.method with
  | .put val => [(call.clo.bin.chars,val)]
  | .putmany vals => vals.map fun val => (val.1.chars,val.2)

def php (call : PutCall) : Option PhpCall :=
  match call.method with
  | .put val => clientPut call.initialized call.clo call.frame call.key val call.options
  | .putmany vals => clientPutmany call.initialized call.clo call.frame call.key vals call.options

def ReturnsOk (call : PutCall) : Prop := call.php.map (PhpCall.value call.rv) = some (.long .ok)

instance (call : PutCall) : Decidable call.ReturnsOk := inferInstanceAs (Decidable (_ = _))

/-- Lengths for the wire. -/
structure Fits (call : PutCall) : Prop where
  keySz : ∀ oKey, zvalToCitrusleafObject call.key call.frame.oKey = some oKey → oKey.sz + 2 < 2 ^ 32
  values : ∀ value ∈ call.values, ∀ o object, zvalToCitrusleafObject value.2 o = some object →
    4 + value.1.length + object.sz < 2 ^ 32
  count : call.values.length ≤ 65535
  total : ∀ request, call.php = some (.sends request) → ∀ msgSz, request.args.msgSz = some msgSz → msgSz - 8 < 2 ^ 48

end PutCall

/-- The server after a call. -/
def putStep (heap : Heap) (store : Store) (call : PutCall) : Store :=
  match call.php with
  | some (.sends request) =>
    match clCompile request.args with
    | some (rv,buf) =>
      if rv = 0 then Nat.iterate (fun store => (store.receive heap buf).getD store) call.received store else store
    | none => store
  | _ => store

/-- What a value is on the server. -/
def Zval.stored : Zval → Option (UInt32 × ObjectValue)
  | .null => some (clNull,.null)
  | .bool value => some (clInt,.int (if value then 1 else 0))
  | .long value => some (clInt,.int value)
  | .string _ chars => some (clStr,.bytes chars)
  | .serialized _ bytes => some (clPhpBlob,.bytes bytes)
  | .other _ => none

/-- A call names the record of a key. As a key `true` is 1. -/
structure PutCall.Names (call : PutCall) (clo : CitrusleafObject) (key : Zval) : Prop where
  ns : call.clo.ns.chars = clo.ns.chars
  set : call.clo.set.chars = clo.set.chars
  key : call.key.stored = key.stored

/-- The last value given for a name. -/
def lastOf (values : List (CString × Zval)) (name : CString) : Option Zval :=
  values.foldl (fun held value => if value.1 = name then some value.2 else held) none

/-- What comes back of a value: nothing of a null, and a boolean as an integer. -/
def Zval.back (unserialize : List UInt8 → Option ζ) : Zval → Option (PhpValue ζ)
  | .null => none
  | .bool value => some (.long (if value then 1 else 0))
  | .long value => some (.long value)
  | .string _ chars => some (.string chars)
  | .serialized _ bytes => (unserialize bytes).map .unserialized
  | .other _ => none

end Citrusleaf.PhpClient
