import Citrusleaf.CompileLayout
import Citrusleaf.ParseBounds

/-! Requests read back. The decoder uses the readers the client has for responses: the
swaps in place, the steps from one item to the next, and the copy of an operation into a
bin. -/
namespace Citrusleaf
open Lib

/-! ### The decoder -/

def readProto (buf : List UInt8) (p : Nat) : Option ClProto := do
  let version ← readByte buf p
  let type ← readByte buf (p + 1)
  let sz ← readBytes buf (p + 2) 6
  return ⟨version,type,leNat sz⟩

def readMsg (buf : List UInt8) (m : Nat) : Option ClMsg := do
  let headerSz ← readByte buf m
  let info1 ← readByte buf (m + 1)
  let info2 ← readByte buf (m + 2)
  let info3 ← readByte buf (m + 3)
  let unused ← readByte buf (m + 4)
  let resultCode ← readByte buf (m + 5)
  let generation ← readBytes buf (m + 6) 4
  let recordTtl ← readBytes buf (m + 10) 4
  let transactionTtl ← readBytes buf (m + 14) 4
  let nFields ← readBytes buf (m + 18) 2
  let nOps ← readBytes buf (m + 20) 2
  return ⟨headerSz,info1,info2,info3,unused,resultCode,(leNat generation).toUInt32,(leNat recordTtl).toUInt32,
    (leNat transactionTtl).toUInt32,(leNat nFields).toUInt16,(leNat nOps).toUInt16⟩

/-- The type and the contents of so many fields, with the buffer and the position after them. -/
def decodeFields : Nat → List UInt8 → Nat → Option (List (UInt8 × List UInt8) × List UInt8 × Nat)
  | 0,buf,mf => some ([],buf,mf)
  | n + 1,buf,mf => do
    let buf ← clMsgSwapField buf mf
    let type ← fieldType buf mf
    let data ← readBytes buf (mf + 5) (clMsgFieldGetValueSz (← fieldSz buf mf))
    let (fields,buf,mf) ← decodeFields n buf (← clMsgFieldGetNext buf mf)
    return ((type,data) :: fields,buf,mf)

/-- Operations read into an array of bins, each with its code. -/
def decodeOps (malloc : Nat → Option UInt64) : List ClBin → List UInt8 → Nat → Option (List (UInt8 × ClBin))
  | [],_,_ => some []
  | value :: values,buf,op => do
    let buf ← clMsgSwapOp buf op
    let code ← readByte buf (op + 4)
    let value ← clSetValueParticular malloc buf op value
    let ops ← decodeOps malloc values buf (← clMsgOpGetNext buf op)
    return ((code,value) :: ops)

structure DecodedRequest where
  proto : ClProto
  m : ClMsg
  fields : List (UInt8 × List UInt8)
  ops : List (UInt8 × ClBin)

def decodeRequest (heap : Heap) (buf : List UInt8) : Option DecodedRequest := do
  let buf ← clProtoSwap buf 0
  let buf ← clMsgSwapHeader buf 8
  let proto ← readProto buf 0
  let m ← readMsg buf 8
  let (fields,buf,op) ← decodeFields m.nFields.toNat buf 30
  let ops ← decodeOps heap.malloc ((List.range m.nOps.toNat).map heap.garbage) buf op
  return ⟨proto,m,fields,ops⟩

/-! ### Header and fields -/

theorem toUInt32_leNat (v : UInt32) : (leNat (leBytes 4 v.toNat)).toUInt32 = v := by
  rw [leNat_leBytes_of_lt v.toNat_lt]
  exact UInt32.ofNat_toNat

theorem toUInt16_leNat (v : UInt16) : (leNat (leBytes 2 v.toNat)).toUInt16 = v := by
  rw [leNat_leBytes_of_lt v.toNat_lt]
  exact UInt16.ofNat_toNat

theorem readProto_bytes (proto : ClProto) (after : List UInt8) (fits : proto.sz < 2 ^ 48) :
    readProto (proto.bytes ++ after) 0 = some proto := by
  have sz := readBytes_at [proto.version,proto.type] (leBytes 6 proto.sz) after (p := 2) rfl
    (leBytes_length 6 _).symm
  have same : leNat (leBytes 6 proto.sz) = proto.sz := leNat_leBytes_of_lt fits
  rw [readProto,ClProto.bytes,List.append_assoc,sz]
  simp only [readByte,List.cons_append,List.getElem?_cons_zero,List.getElem?_cons_succ,Option.bind_eq_bind,
    Option.bind_some,Option.pure_def,same]

theorem readMsg_bytes (m : ClMsg) (before after : List UInt8) (start : p = before.length) :
    readMsg (before ++ (m.bytes ++ after)) p = some m := by
  have byte (i : Nat) (b : UInt8)
      (found : [m.headerSz,m.info1,m.info2,m.info3,m.unused,m.resultCode][i]? = some b) :
      readByte (before ++ (m.bytes ++ after)) (p + i) = some b := by
    have inside := (List.getElem?_eq_some_iff.mp found).1
    rw [readByte,start,List.getElem?_append_right (Nat.le_add_right _ _),Nat.add_sub_cancel_left,ClMsg.bytes,
      List.append_assoc,List.getElem?_append_left inside,found]
  have generation := readBytes_at (before ++ [m.headerSz,m.info1,m.info2,m.info3,m.unused,m.resultCode])
    (leBytes 4 m.generation.toNat) (leBytes 4 m.recordTtl.toNat ++ (leBytes 4 m.transactionTtl.toNat ++
    (leBytes 2 m.nFields.toNat ++ (leBytes 2 m.nOps.toNat ++ after)))) (p := p + 6) (n := 4)
    (by simp [start]) (by simp)
  have recordTtl := readBytes_at (before ++ [m.headerSz,m.info1,m.info2,m.info3,m.unused,m.resultCode] ++
    leBytes 4 m.generation.toNat) (leBytes 4 m.recordTtl.toNat) (leBytes 4 m.transactionTtl.toNat ++
    (leBytes 2 m.nFields.toNat ++ (leBytes 2 m.nOps.toNat ++ after))) (p := p + 10) (n := 4)
    (by simp [start]) (by simp)
  have transactionTtl := readBytes_at (before ++ [m.headerSz,m.info1,m.info2,m.info3,m.unused,m.resultCode] ++
    leBytes 4 m.generation.toNat ++ leBytes 4 m.recordTtl.toNat) (leBytes 4 m.transactionTtl.toNat)
    (leBytes 2 m.nFields.toNat ++ (leBytes 2 m.nOps.toNat ++ after)) (p := p + 14) (n := 4)
    (by simp [start]) (by simp)
  have nFields := readBytes_at (before ++ [m.headerSz,m.info1,m.info2,m.info3,m.unused,m.resultCode] ++
    leBytes 4 m.generation.toNat ++ leBytes 4 m.recordTtl.toNat ++ leBytes 4 m.transactionTtl.toNat)
    (leBytes 2 m.nFields.toNat) (leBytes 2 m.nOps.toNat ++ after) (p := p + 18) (n := 2)
    (by simp [start]) (by simp)
  have nOps := readBytes_at (before ++ [m.headerSz,m.info1,m.info2,m.info3,m.unused,m.resultCode] ++
    leBytes 4 m.generation.toNat ++ leBytes 4 m.recordTtl.toNat ++ leBytes 4 m.transactionTtl.toNat ++
    leBytes 2 m.nFields.toNat) (leBytes 2 m.nOps.toNat) after (p := p + 20) (n := 2)
    (by simp [start]) (by simp)
  have bytes : before ++ (m.bytes ++ after) = before ++ ([m.headerSz,m.info1,m.info2,m.info3,m.unused,
      m.resultCode] ++ (leBytes 4 m.generation.toNat ++ (leBytes 4 m.recordTtl.toNat ++
      (leBytes 4 m.transactionTtl.toNat ++ (leBytes 2 m.nFields.toNat ++
      (leBytes 2 m.nOps.toNat ++ after)))))) := by
    simp only [ClMsg.bytes,List.append_assoc]
  simp only [List.append_assoc] at generation recordTtl transactionTtl nFields nOps
  rw [← bytes] at generation recordTtl transactionTtl nFields nOps
  have headerSz := byte 0 m.headerSz rfl
  rw [Nat.add_zero] at headerSz
  simp only [readMsg,headerSz,byte 1 m.info1 rfl,byte 2 m.info2 rfl,byte 3 m.info3 rfl,byte 4 m.unused rfl,
    byte 5 m.resultCode rfl,generation,recordTtl,transactionTtl,nFields,nOps,Option.bind_eq_bind,
    Option.bind_some,Option.pure_def,toUInt32_leNat,toUInt16_leNat]

theorem fieldValueSz_eq (fits : n + 1 < 256 ^ 4) : clMsgFieldGetValueSz (n + 1) = n := by
  unfold clMsgFieldGetValueSz
  omega

/-- A field in host order. -/
def hostField (type : UInt8) (data : List UInt8) : List UInt8 :=
  leBytes 4 (data.length + 1) ++ ([type] ++ data)

theorem hostField_length (type : UInt8) (data : List UInt8) :
    (hostField type data).length = 5 + data.length := by
  simp only [hostField,List.length_append,leBytes_length,List.length_singleton]
  omega

theorem swapField_at (before after : List UInt8) (type : UInt8) (data : List UInt8) (start : mf = before.length) :
    clMsgSwapField (before ++ (fieldBytes (type,data) ++ after)) mf =
      some (before ++ (hostField type data ++ after)) := by
  have swapped := swapBytes_at before (beBytes 4 (data.length + 1)) ([type] ++ data ++ after) start
    (beBytes_length 4 _).symm
  rw [beBytes,List.reverse_reverse,← beBytes] at swapped
  rw [clMsgSwapField,fieldBytes,hostField,List.append_assoc,List.append_assoc]
  exact swapped

/-- What the parser reads of a field after the swap. -/
structure HostField (buf : List UInt8) (mf : Nat) (type : UInt8) (data : List UInt8) : Prop where
  sized : fieldSz buf mf = some (data.length + 1)
  typed : fieldType buf mf = some type
  copied : readBytes buf (mf + 5) data.length = some data

theorem HostField.next (host : HostField buf mf type data) :
    clMsgFieldGetNext buf mf = some (mf + (5 + data.length)) := by
  rw [clMsgFieldGetNext,host.sized,Option.map_some]
  congr 1
  omega

theorem hostField_at (before after : List UInt8) (type : UInt8) (data : List UInt8) (start : mf = before.length)
    (fits : data.length + 1 < 256 ^ 4) : HostField (before ++ (hostField type data ++ after)) mf type data := by
  have size := readBytes_at before (leBytes 4 (data.length + 1)) ([type] ++ data ++ after) start
    (leBytes_length 4 _).symm
  have typed := readByte_at (before ++ leBytes 4 (data.length + 1)) type (data ++ after) (p := mf + 4)
    (by rw [List.length_append,leBytes_length,start])
  have copied := readBytes_at (before ++ leBytes 4 (data.length + 1) ++ [type]) data after (p := mf + 5)
    (by rw [List.length_append,List.length_append,leBytes_length,start,List.length_singleton]) rfl
  have parts : before ++ (hostField type data ++ after) =
      before ++ (leBytes 4 (data.length + 1) ++ ([type] ++ data ++ after)) := by
    rw [hostField,List.append_assoc]
  have atType : before ++ (hostField type data ++ after) =
      before ++ leBytes 4 (data.length + 1) ++ ([type] ++ (data ++ after)) := by
    simp [hostField]
  have atData : before ++ (hostField type data ++ after) =
      before ++ leBytes 4 (data.length + 1) ++ [type] ++ (data ++ after) := by
    simp [hostField]
  constructor
  · rw [fieldSz,parts,size,Option.map_some,leNat_leBytes_of_lt fits]
  · rw [fieldType,atType,typed]
  · rw [atData,copied]

/-- Fields laid one behind the other are read back, whatever follows them. -/
theorem decodeFields_at (before after : List UInt8) (fields : List (UInt8 × List UInt8))
    (start : p = before.length) (fits : ∀ field ∈ fields, field.2.length + 1 < 2 ^ 32) :
    ∃ mid, mid.length = (fields.flatMap fieldBytes).length ∧
      decodeFields fields.length (before ++ (fields.flatMap fieldBytes ++ after)) p =
        some (fields,before ++ (mid ++ after),p + (fields.flatMap fieldBytes).length) := by
  induction fields generalizing before p with
  | nil => exact ⟨[],rfl,rfl⟩
  | cons field fields ih =>
    obtain ⟨type,data⟩ := field
    have size : data.length + 1 < 256 ^ 4 := fits (type,data) List.mem_cons_self
    obtain ⟨mid,midSize,decoded⟩ := ih (before ++ hostField type data) (p := p + (5 + data.length))
      (by rw [List.length_append,hostField_length,start])
      fun field member => fits field (List.mem_cons_of_mem _ member)
    have swapped := swapField_at before (fields.flatMap fieldBytes ++ after) type data start
    have host := hostField_at before (fields.flatMap fieldBytes ++ after) type data start size
    refine ⟨hostField type data ++ mid,?_,?_⟩
    · rw [List.flatMap_cons,List.length_append,List.length_append,hostField_length,fieldBytes_length,midSize]
    · rw [List.append_assoc,List.append_assoc,Nat.add_assoc p] at decoded
      rw [List.flatMap_cons,List.append_assoc,List.length_append,fieldBytes_length,List.length_cons,
        List.append_assoc]
      apply bind_given swapped
      apply bind_given host.typed
      apply bind_given host.sized
      rw [fieldValueSz_eq size]
      apply bind_given host.copied
      apply bind_given host.next
      exact bind_given decoded rfl

/-! ### Operations -/

inductive ObjectValue where
  | null
  | int (i : Int64)
  | bytes (bytes : List UInt8)
  deriving DecidableEq

/-- The value an object holds, by its type. -/
def ClObject.value (o : ClObject) : Option ObjectValue :=
  if o.type = clNull then some .null
  else if o.type = clInt then some (.int o.u.toI64)
  else (o.u.copy o.sz).map .bytes

/-- What an operation says: name, code, type, size and value. -/
structure OpView where
  name : CString
  op : UInt8
  type : UInt32
  sz : Nat
  value : Option ObjectValue
  deriving DecidableEq

def opView (op : UInt8) (bin : ClBin) : OpView :=
  ⟨bin.binName.str,op,bin.object.type,bin.object.sz,bin.object.value⟩

def ClOperation.view (operation : ClOperation) : OpView := opView operation.code operation.bin

theorem BinName.str_plain (name : BinName) : (0 : UInt8) ∉ name.str := by
  intro member
  have holds := List.mem_takeWhile_imp member
  simp at holds

theorem particle_type (sized : ClObject.Sized o) : o.type.toUInt8.toUInt32 = o.type := by
  have labels : ∀ type, (isBlob type = true → type.toUInt8.toUInt32 = type) := by
    intro type blob
    have member : type ∈ [clBlob,clJavaBlob,clCsharpBlob,clPythonBlob,clRubyBlob,clPhpBlob] :=
      List.contains_iff_mem.mp blob
    simp only [List.mem_cons,List.not_mem_nil,or_false] at member
    rcases member with rfl | rfl | rfl | rfl | rfl | rfl <;> rfl
  rcases sized.accepted with null | int | str | blob
  · rw [null]; rfl
  · rw [int]; rfl
  · rw [str]; rfl
  · exact labels _ blob

/-- An operation in host order, as the parser finds it after the swap. -/
structure HostOp (buf : List UInt8) (op : Nat) (operation : ClOperation) : Prop where
  sized : opSz buf op = some operation.opSz
  coded : readByte buf (op + 4) = some operation.code
  typed : opParticleType buf op = some operation.bin.object.type.toUInt8
  nameSz : opNameSz buf op = some operation.name.length
  named : readBytes buf (op + 8) operation.name.length = some operation.name
  copied : readBytes buf (op + 8 + operation.name.length) operation.wireValue.length = some operation.wireValue

def ClOperation.host (operation : ClOperation) : List UInt8 := leBytes 4 operation.opSz ++ operation.body

theorem ClOperation.host_length (operation : ClOperation) : operation.host.length = operation.wire.length := by
  rw [host,wire,List.length_append,List.length_append,leBytes_length,beBytes_length]

theorem swapOp_at (before after : List UInt8) (operation : ClOperation) (start : op = before.length) :
    clMsgSwapOp (before ++ (operation.wire ++ after)) op = some (before ++ (operation.host ++ after)) := by
  have swapped := swapBytes_at before (beBytes 4 operation.opSz) (operation.body ++ after) start
    (beBytes_length 4 _).symm
  rw [beBytes,List.reverse_reverse,← beBytes] at swapped
  rw [clMsgSwapOp,ClOperation.wire,ClOperation.host,List.append_assoc,List.append_assoc]
  exact swapped

/-- The eight bytes that lead an operation, after the swap of its size. -/
structure OpHeader (buf : List UInt8) (op sz : Nat) (code type nameSz : UInt8) (rest : List UInt8) : Prop where
  sized : opSz buf op = some sz
  coded : readByte buf (op + 4) = some code
  typed : opParticleType buf op = some type
  nameSz : opNameSz buf op = some nameSz.toNat
  behind : ∃ before, buf = before ++ rest ∧ op + 8 = before.length

theorem opHeader_at (before rest : List UInt8) (code type version nameSz : UInt8) (start : op = before.length)
    (fits : sz < 256 ^ 4) : OpHeader (before ++ (leBytes 4 sz ++ ([code] ++ ([type] ++ ([version] ++ ([nameSz] ++
      rest)))))) op sz code type nameSz rest := by
  have size := readBytes_at before (leBytes 4 sz) ([code] ++ ([type] ++ ([version] ++ ([nameSz] ++ rest)))) start
    (leBytes_length 4 _).symm
  have coded := readByte_at (before ++ leBytes 4 sz) code ([type] ++ ([version] ++ ([nameSz] ++ rest)))
    (p := op + 4) (by simp [start])
  have typed := readByte_at (before ++ leBytes 4 sz ++ [code]) type ([version] ++ ([nameSz] ++ rest))
    (p := op + 5) (by simp [start])
  have named := readByte_at (before ++ leBytes 4 sz ++ [code] ++ [type] ++ [version]) nameSz rest
    (p := op + 7) (by simp [start])
  simp only [List.append_assoc] at coded typed named
  constructor
  · rw [opSz,size,Option.map_some,leNat_leBytes_of_lt fits]
  · exact coded
  · exact typed
  · rw [opNameSz,named,Option.map_some]
  · exact ⟨before ++ leBytes 4 sz ++ [code] ++ [type] ++ [version] ++ [nameSz],by simp only [List.append_assoc],
      by simp [start]⟩

theorem hostOp_at (before after : List UInt8) (operation : ClOperation) (sendable : operation.Sendable)
    (start : op = before.length) : HostOp (before ++ (operation.host ++ after)) op operation := by
  have short : operation.name.length ≤ 31 := sendable.name
  have small : operation.name.length.toUInt8.toNat = operation.name.length :=
    UInt8.toNat_ofNat_of_lt' (Nat.lt_of_le_of_lt short (by decide))
  have fits : operation.opSz < 256 ^ 4 := by
    unfold ClOperation.opSz ClOperation.wireValue
    rw [sendable.object.wireValue_length]
    exact sendable.fits
  have header := opHeader_at before (operation.name ++ (operation.wireValue ++ after)) operation.code
    operation.bin.object.type.toUInt8 0 operation.name.length.toUInt8 start fits
  have bytes : before ++ (operation.host ++ after) = before ++ (leBytes 4 operation.opSz ++
      ([operation.code] ++ ([operation.bin.object.type.toUInt8] ++ ([0] ++
      ([operation.name.length.toUInt8] ++ (operation.name ++ (operation.wireValue ++ after))))))) := by
    simp only [ClOperation.host,ClOperation.body,List.append_assoc]
  rw [← bytes] at header
  obtain ⟨front,parts,behind⟩ := header.behind
  have name := readBytes_at front operation.name (operation.wireValue ++ after) behind rfl
  have value := readBytes_at (front ++ operation.name) operation.wireValue after
    (p := op + 8 + operation.name.length) (by rw [List.length_append,behind]) rfl
  rw [List.append_assoc] at value
  rw [← parts] at name value
  exact ⟨header.sized,header.coded,header.typed,header.nameSz.trans (congrArg some small),name,value⟩

theorem HostOp.value_p (host : HostOp buf op operation) :
    clMsgOpGetValueP buf op = some (op + 8 + operation.name.length) := by
  rw [clMsgOpGetValueP,host.nameSz,Option.map_some]

theorem HostOp.next (host : HostOp buf op operation) :
    clMsgOpGetNext buf op = some (op + 4 + operation.opSz) := by
  rw [clMsgOpGetNext,host.sized,Option.map_some]

theorem valueSz_eq (operation : ClOperation) (fits : operation.opSz < 2 ^ 32) :
    valueSz operation.opSz operation.name.length = operation.wireValue.length := by
  unfold ClOperation.opSz at *
  unfold valueSz
  omega

theorem HostOp.value_sz (host : HostOp buf op operation) (fits : operation.opSz < 2 ^ 32) :
    clMsgOpGetValueSz buf op = some operation.wireValue.length := by
  apply bind_given host.sized
  apply bind_given host.nameSz
  change some (valueSz operation.opSz operation.name.length) = _
  rw [valueSz_eq operation fits]

theorem opToValueInt_eight (buf : List UInt8) (p : Nat) (value : Int64)
    (read : readBytes buf p 8 = some (beBytes 8 value.toUInt64.toNat)) :
    opToValueInt buf p (toInt 8) = some (0,some value) := by
  have back : Int64.ofNat (beNat (beBytes 8 value.toUInt64.toNat)) = value := by
    rw [beNat_beBytes_of_lt value.toUInt64.toNat_lt,← UInt64.toInt64_ofNat',UInt64.ofNat_toNat,
      Int64.toInt64_toUInt64]
  have eight : toInt 8 = 8 := rfl
  rw [eight,opToValueInt,if_neg (by decide),if_pos rfl]
  apply bind_given read
  rw [back]
  rfl

/-- Memory that never runs out. -/
def Plenty (malloc : Nat → Option UInt64) : Prop := ∀ size, ∃ address, malloc size = some address

/-- Where `set_object` finds a type and the bytes of a value. -/
structure HoldsValue (buf : List UInt8) (op p : Nat) (type : UInt32) (value : List UInt8) : Prop where
  typed : ∃ label, opParticleType buf op = some label ∧ label.toUInt32 = type
  sized : clMsgOpGetValueSz buf op = some value.length
  placed : clMsgOpGetValueP buf op = some p
  copied : readBytes buf p value.length = some value

theorem HoldsValue.null (holds : HoldsValue buf op p clNull value) (malloc : Nat → Option UInt64) (obj : ClObject) :
    setObject malloc buf op obj = some (0,{obj with type := clNull,sz := 0}) := by
  obtain ⟨label,typed,null⟩ := holds.typed
  apply bind_given typed
  rw [null]
  rfl

theorem HoldsValue.int (holds : HoldsValue buf op p clInt value) (malloc : Nat → Option UInt64) (obj : ClObject)
    (read : opToValueInt buf p (toInt value.length) = some (0,some v)) :
    setObject malloc buf op obj = some (0,{obj with type := clInt,sz := 8,u := .i64 v}) := by
  obtain ⟨label,typed,int⟩ := holds.typed
  apply bind_given typed
  dsimp only
  rw [int,if_neg labels_distinct.1,if_pos rfl]
  apply bind_given holds.placed
  apply bind_given holds.sized
  exact bind_given read rfl

/-- A block that starts with the value reads back as it. -/
theorem copy_value (notNull : type ≠ clNull) (notInt : type ≠ clInt) (address : UInt64) (value after : List UInt8) :
    ClObject.value ⟨type,value.length,.ptr address (value ++ after)⟩ = some (.bytes value) := by
  have back := readBytes_at [] value after (p := 0) rfl rfl
  rw [List.nil_append] at back
  rw [ClObject.value,if_neg notNull,if_neg notInt,ClUnion.copy,back,Option.map_some]

/-- A string or a blob is copied into a block of its own. -/
theorem HoldsValue.bytes (holds : HoldsValue buf op p type value) (plenty : Plenty malloc)
    (held : type = clStr ∨ isBlob type = true) (obj : ClObject) :
    ∃ o, setObject malloc buf op obj = some (0,o) ∧ o.type = type ∧ o.sz = value.length ∧
      o.value = some (.bytes value) := by
  obtain ⟨_,strNull,strInt,blobNull,blobInt,_⟩ := labels_distinct
  obtain ⟨label,typed,same⟩ := holds.typed
  have notNull : type ≠ clNull := by
    rcases held with str | blob
    · exact str ▸ strNull
    · rintro rfl
      exact Bool.false_ne_true (blobNull.symm.trans blob)
  have notInt : type ≠ clInt := by
    rcases held with str | blob
    · exact str ▸ strInt
    · rintro rfl
      exact Bool.false_ne_true (blobInt.symm.trans blob)
  by_cases str : type = clStr
  · obtain ⟨address,block⟩ := plenty (value.length + 1)
    refine ⟨⟨type,value.length,.ptr address (value ++ [0])⟩,?_,rfl,rfl,copy_value notNull notInt address value [0]⟩
    apply bind_given typed
    dsimp only
    rw [same,if_neg notNull,if_neg notInt,if_pos str]
    apply bind_given holds.sized
    rw [block]
    apply bind_given holds.placed
    exact bind_given holds.copied rfl
  · obtain ⟨address,block⟩ := plenty value.length
    have copied := copy_value notNull notInt address value []
    rw [List.append_nil] at copied
    refine ⟨⟨type,value.length,.ptr address value⟩,?_,rfl,rfl,copied⟩
    apply bind_given typed
    dsimp only
    rw [same,if_neg notNull,if_neg notInt,if_neg str,if_pos (held.resolve_left str)]
    apply bind_given holds.sized
    rw [block]
    apply bind_given holds.placed
    exact bind_given holds.copied rfl

theorem HostOp.holds (host : HostOp buf op operation) (sendable : operation.Sendable) :
    HoldsValue buf op (op + 8 + operation.name.length) operation.bin.object.type operation.wireValue := by
  have fits : operation.opSz < 2 ^ 32 := by
    unfold ClOperation.opSz ClOperation.wireValue
    rw [sendable.object.wireValue_length]
    exact sendable.fits
  exact ⟨⟨_,host.typed,particle_type sendable.object⟩,host.value_sz fits,host.value_p,host.copied⟩

/-- The value of an operation is copied into an object of the same type, size and value. -/
theorem setObject_host (host : HostOp buf op operation) (sendable : operation.Sendable)
    (plenty : Plenty malloc) (obj : ClObject) :
    ∃ o, setObject malloc buf op obj = some (0,o) ∧ o.type = operation.bin.object.type ∧
      o.sz = operation.bin.object.sz ∧ o.value = operation.bin.object.value := by
  have holds := host.holds sendable
  have length : operation.wireValue.length = operation.bin.object.sz := sendable.object.wireValue_length
  have intNull : clInt ≠ clNull := labels_distinct.1
  rcases sendable.object.cases with ⟨null,zero,_⟩ | ⟨int,eight,wire⟩ | ⟨held,notNull,notInt,copy⟩
  · rw [null] at holds
    refine ⟨_,holds.null malloc obj,null.symm,zero.symm,?_⟩
    rw [ClObject.value,ClObject.value,if_pos rfl,if_pos null]
  · have wireValue : operation.wireValue = beBytes 8 operation.bin.object.u.toI64.toUInt64.toNat := wire
    have copied := host.copied
    rw [length,eight,wireValue] at copied
    have read := opToValueInt_eight _ _ _ copied
    rw [int] at holds
    refine ⟨_,holds.int malloc obj (by rw [length,eight]; exact read),int.symm,eight.symm,?_⟩
    rw [ClObject.value,ClObject.value,if_neg intNull,if_pos rfl,int,if_neg intNull,if_pos rfl]
    rfl
  · obtain ⟨o,stored,type,sz,value⟩ := holds.bytes plenty held obj
    refine ⟨o,stored,type,sz.trans length,value.trans ?_⟩
    rw [ClObject.value,if_neg notNull,if_neg notInt,copy]
    rfl

/-- A name with room for its NUL is copied into the bin, and the value is stored. -/
theorem clSetValueParticular_stored {name : List UInt8} (nameSz : opNameSz buf op = some name.length)
    (named : readBytes buf (op + 8) name.length = some name) (short : name.length ≤ 31)
    (stored : setObject malloc buf op bin.object = some (rv,o)) :
    ∃ binName, bin.binName.set name = some binName ∧
      clSetValueParticular malloc buf op bin = some ⟨binName,o⟩ := by
  obtain ⟨binName,set⟩ := Option.isSome_iff_exists.mp
    ((BinName.set_isSome bin.binName name).mpr (Nat.lt_succ_of_le short))
  refine ⟨binName,set,?_⟩
  apply bind_given nameSz
  dsimp only
  rw [if_neg (Nat.not_lt.mpr (Nat.le_succ_of_le short))]
  apply bind_given named
  apply bind_given set
  exact bind_given stored rfl

theorem clSetValueParticular_host (host : HostOp buf op operation) (sendable : operation.Sendable)
    (plenty : Plenty malloc) (bin : ClBin) :
    ∃ value, clSetValueParticular malloc buf op bin = some value ∧
      opView operation.code value = operation.view := by
  obtain ⟨o,set,type,sz,value⟩ := setObject_host host sendable plenty bin.object
  obtain ⟨name,named,stored⟩ := clSetValueParticular_stored host.nameSz host.named sendable.name set
  refine ⟨⟨name,o⟩,stored,?_⟩
  rw [ClOperation.view,opView,opView,BinName.str_set operation.bin.binName.str_plain named,type,sz,value]

/-- Operations laid one behind the other are read back into as many bins. -/
theorem decodeOps_at (before after : List UInt8) (operations : List ClOperation) (bins : List ClBin)
    (count : bins.length = operations.length) (start : p = before.length)
    (sendable : ∀ operation ∈ operations, operation.Sendable) (plenty : Plenty malloc) :
    ∃ ops, decodeOps malloc bins (before ++ (operations.flatMap ClOperation.wire ++ after)) p = some ops ∧
      ops.map (fun op => opView op.1 op.2) = operations.map ClOperation.view := by
  induction operations generalizing before p bins with
  | nil =>
    obtain rfl := List.length_eq_zero_iff.mp count
    exact ⟨[],rfl,rfl⟩
  | cons operation operations ih =>
    cases bins with
    | nil => cases count
    | cons bin bins =>
      have accepted := sendable operation List.mem_cons_self
      have swapped := swapOp_at before (operations.flatMap ClOperation.wire ++ after) operation start
      have host := hostOp_at before (operations.flatMap ClOperation.wire ++ after) operation accepted start
      obtain ⟨value,set,same⟩ := clSetValueParticular_host host accepted plenty bin
      obtain ⟨ops,decoded,rest⟩ := ih (before ++ operation.host) (p := p + 4 + operation.opSz) bins
        (Nat.succ.inj count)
        (by rw [List.length_append,ClOperation.host_length,ClOperation.wire_length,start,ClOperation.opSz]; omega)
        fun other member => sendable other (List.mem_cons_of_mem _ member)
      rw [List.append_assoc] at decoded
      refine ⟨(operation.code,value) :: ops,?_,?_⟩
      · rw [List.flatMap_cons,List.append_assoc]
        apply bind_given swapped
        apply bind_given host.coded
        apply bind_given set
        apply bind_given host.next
        exact bind_given decoded rfl
      · rw [List.map_cons,List.map_cons,rest]
        dsimp only
        rw [same]

/-! ### The request -/

/-- The objects the initialisers make. -/
inductive Initialised : ClObject → Prop where
  | init (o : ClObject) : Initialised (citrusleafObjectInit o)
  | null (o : ClObject) : Initialised (citrusleafObjectInitNull o)
  | str (o : ClObject) (address : UInt64) (str : CString) (plain : (0 : UInt8) ∉ str) :
    Initialised (citrusleafObjectInitStr o address str)
  | str2 (o : ClObject) (address : UInt64) (str : List UInt8) : Initialised (citrusleafObjectInitStr2 o address str)
  | int (o : ClObject) (i : Int64) : Initialised (citrusleafObjectInitInt o i)
  | blob (o : ClObject) (address : UInt64) (blob : List UInt8) :
    Initialised (citrusleafObjectInitBlob o address blob)
  | blob2 (o : ClObject) (address : UInt64) (blob : List UInt8) (t : UInt32) :
    Initialised (citrusleafObjectInitBlob2 o address blob t)
  | blobType (o : ClObject) (t : UInt32) (address : UInt64) (blob : List UInt8) :
    Initialised (citrusleafObjectInitBlobType o t address blob)

/-- The types `cl_value_to_op` has a case for. -/
def AcceptedType (type : UInt32) : Prop := type = clNull ∨ type = clInt ∨ type = clStr ∨ isBlob type

/-- An operation from an initialised object, with lengths for the wire. -/
structure ClOperation.Accepted (operation : ClOperation) : Prop where
  name : operation.bin.binName.str.length ≤ 31
  object : Initialised operation.bin.object
  type : AcceptedType operation.bin.object.type
  listed : ∀ value, operation.op ≠ .other value
  single : operation.op ≠ .mcIncr
  fits : 4 + operation.bin.binName.str.length + operation.bin.object.sz < 2 ^ 32

structure CompileArgs.Accepted (args : CompileArgs) : Prop where
  ns : ∀ ns, args.ns = some ns → ns.length < 2 ^ 31
  set : ∀ set, args.set = some set → set.length < 2 ^ 31
  key : ∀ key, args.key = some key → Initialised key ∧
    (key.type = clStr ∨ key.type = clInt ∨ isBlob key.type) ∧ key.sz + 2 < 2 ^ 32
  ops : ∀ operation ∈ args.values.ops, operation.Accepted
  count : args.values.ops.length ≤ 65535
  total : ∀ msgSz, args.msgSz = some msgSz → msgSz - 8 < 2 ^ 48

/-- A null object has no bytes and an integer has eight, as their own initialisers set them. -/
def ClObject.OwnSize (o : ClObject) : Prop := (o.type = clNull → o.sz = 0) ∧ (o.type = clInt → o.sz = 8)

def CompileArgs.OwnSizes (args : CompileArgs) : Prop :=
  (∀ key, args.key = some key → key.OwnSize) ∧ ∀ operation ∈ args.values.ops, operation.bin.object.OwnSize

theorem Initialised.held (made : Initialised o) (held : o.type ≠ clNull) (notInt : o.type ≠ clInt) :
    ∃ bytes, o.u.copy o.sz = some bytes := by
  have whole (address : UInt64) (bytes : List UInt8) :
      ∃ copied, ClUnion.copy bytes.length (.ptr address bytes) = some copied := by
    have read := readBytes_at [] bytes [] (p := 0) rfl rfl
    rw [List.nil_append,List.append_nil] at read
    exact ⟨bytes,read⟩
  cases made with
  | init | null => exact absurd rfl held
  | int => exact absurd rfl notInt
  | str | str2 | blob | blob2 | blobType => exact whole _ _

theorem Initialised.sized (made : Initialised o) (type : AcceptedType o.type) (own : o.OwnSize) : o.Sized := by
  obtain ⟨_,strNull,strInt,blobNull,blobInt,_⟩ := labels_distinct
  refine ⟨own.1,own.2,fun bytes => made.held ?_ ?_,type⟩
  · intro null
    rw [null,blobNull] at bytes
    exact bytes.elim (fun str => strNull str.symm) nofun
  · intro int
    rw [int,blobInt] at bytes
    exact bytes.elim (fun str => strInt str.symm) nofun

theorem CompileArgs.Accepted.sendable {args : CompileArgs} (accepted : args.Accepted) (own : args.OwnSizes) :
    args.Sendable := by
  obtain ⟨intNull,strNull,_,blobNull,_⟩ := labels_distinct
  refine ⟨accepted.ns,accepted.set,fun key given => ?_,fun operation member => ?_,accepted.count,accepted.total⟩
  · obtain ⟨made,type,fits⟩ := accepted.key key given
    refine ⟨made.sized ?_ (own.1 key given),?_,fits⟩
    · rcases type with str | int | blob
      · exact .inr (.inr (.inl str))
      · exact .inr (.inl int)
      · exact .inr (.inr (.inr blob))
    · intro null
      rw [null] at type
      rcases type with str | int | blob
      · exact strNull str.symm
      · exact intNull int.symm
      · rw [blobNull] at blob
        cases blob
  · have good := accepted.ops operation member
    refine ⟨good.name,good.object.sized good.type (own.2 operation member),?_,good.single,good.fits⟩
    cases given : operation.op with
    | other value => exact absurd given (good.listed value)
    | _ => exact ⟨_,rfl⟩

/-- The buffer of a request decodes to its header, its fields and its operations. -/
def RoundTrips (heap : Heap) (args : CompileArgs) : Prop :=
  ∃ buf decoded, clCompile args = some (0,buf) ∧ decodeRequest heap buf = some decoded ∧
    decoded.proto.version = clProtoVersion ∧ decoded.proto.type = clProtoTypeClMsg ∧
    decoded.m = args.header ∧ decoded.fields = args.fields ∧
    decoded.ops.map (fun op => opView op.1 op.2) = args.values.ops.map ClOperation.view

theorem nFields_eq (args : CompileArgs) : args.nFields = args.fields.length ∧ args.fields.length ≤ 6 := by
  have count (type : UInt8) (data : Option (List UInt8)) : (present type data).length = data.toList.length := by
    rw [present,List.length_map]
  have short {α : Type} (data : Option α) : data.toList.length ≤ 1 := by
    cases data with
    | none => exact Nat.zero_le 1
    | some => exact Nat.le_refl 1
  have trid : args.tridData.toList.length = if args.trid = 0 then 0 else 1 := by
    unfold CompileArgs.tridData
    split <;> rfl
  have mapped {α β : Type} (f : α → β) (data : Option α) : (data.map f).toList.length = data.toList.length := by
    cases data <;> rfl
  have ns : (present clMsgFieldTypeNamespace args.ns).length = args.ns.toList.length := count _ _
  have set : (present clMsgFieldTypeSet args.set).length = args.set.toList.length := count _ _
  simp only [CompileArgs.fields,List.length_append,ns,set,count,trid,CompileArgs.scanData,CompileArgs.keyData,
    CompileArgs.digestData,mapped,CompileArgs.nFields]
  have := short args.ns
  have := short args.set
  have := short args.key
  have := short args.digest
  have := short args.scanParamField
  split <;> omega

theorem roundTrips_of_sendable (plenty : Plenty heap.malloc) (sendable : args.Sendable) : RoundTrips heap args := by
  obtain ⟨msgSz,size,compiled⟩ := clCompile_eq args sendable
  obtain ⟨counted,few⟩ := nFields_eq args
  have nFields : args.header.nFields.toNat = args.fields.length := by
    change args.nFields.toUInt16.toNat = _
    rw [counted]
    exact UInt16.toNat_ofNat_of_lt' (Nat.lt_of_le_of_lt few (by decide))
  have nOps : args.header.nOps.toNat = args.values.ops.length := by
    change args.values.ops.length.toUInt16.toNat = _
    exact UInt16.toNat_ofNat_of_lt' (Nat.lt_of_le_of_lt sendable.count (by decide))
  have proto := clProtoSwap_wire (headerProto msgSz) (args.header.wire ++ (args.fields.flatMap fieldBytes ++
    (args.values.ops.flatMap ClOperation.wire ++ List.replicate args.slack 0)))
  have protoBytes : (headerProto msgSz).bytes.length = 8 := by simp [ClProto.bytes]
  have m := clMsgSwapHeader_wire args.header (headerProto msgSz).bytes (args.fields.flatMap fieldBytes ++
    (args.values.ops.flatMap ClOperation.wire ++ List.replicate args.slack 0)) protoBytes.symm
  have readP := readProto_bytes (headerProto msgSz) (args.header.bytes ++ (args.fields.flatMap fieldBytes ++
    (args.values.ops.flatMap ClOperation.wire ++ List.replicate args.slack 0))) (sendable.total msgSz size)
  have readM := readMsg_bytes args.header (headerProto msgSz).bytes (args.fields.flatMap fieldBytes ++
    (args.values.ops.flatMap ClOperation.wire ++ List.replicate args.slack 0)) protoBytes.symm
  have headerBytes : ((headerProto msgSz).bytes ++ args.header.bytes).length = 30 := by
    simp [ClProto.bytes,ClMsg.bytes]
  obtain ⟨mid,midSize,fields⟩ := decodeFields_at ((headerProto msgSz).bytes ++ args.header.bytes)
    (args.values.ops.flatMap ClOperation.wire ++ List.replicate args.slack 0) args.fields headerBytes.symm
    (fields_fit args sendable)
  obtain ⟨ops,decodedOps,same⟩ := decodeOps_at ((headerProto msgSz).bytes ++ args.header.bytes ++ mid)
    (List.replicate args.slack 0) args.values.ops ((List.range args.values.ops.length).map heap.garbage)
    (p := 30 + (args.fields.flatMap fieldBytes).length) (by rw [List.length_map,List.length_range])
    (by rw [List.length_append,headerBytes,midSize]) sendable.ops plenty
  simp only [List.append_assoc] at fields decodedOps
  refine ⟨args.wire msgSz,⟨headerProto msgSz,args.header,args.fields,ops⟩,compiled,?_,rfl,rfl,rfl,rfl,same⟩
  rw [CompileArgs.wire,decodeRequest]
  apply bind_given proto
  apply bind_given m
  apply bind_given readP
  apply bind_given readM
  rw [nFields,nOps]
  apply bind_given fields
  exact bind_given decodedOps rfl

/-- A request reads back as it was given, when its null and integer objects have the size
their own initialisers give them. -/
theorem request_round_trip (heap : Heap) (args : CompileArgs) (plenty : Plenty heap.malloc)
    (accepted : args.Accepted) (own : args.OwnSizes) : RoundTrips heap args :=
  roundTrips_of_sendable plenty (accepted.sendable own)

/-- A bin called `a`. -/
def sampleBin (o : ClObject) : ClBin := ⟨⟨97 :: List.replicate 31 0,rfl⟩,o⟩

def unsetObject : ClObject := ⟨0,0,.i64 0⟩

/-- Write one bin of the record with an integer key. -/
def sampleArgs (o : ClObject) : CompileArgs :=
  {info1 := 0,info2 := clMsgInfo2Write,info3 := 0,ns := some (text "test"),set := none
   key := some (citrusleafObjectInitInt unsetObject 7),digest := none
   values := .values [sampleBin o] .write,clWP := none,trid := 5,scanParamField := some ⟨0,100⟩}

theorem sampleArgs_accepted (msgSz : Nat) (made : Initialised o) (type : AcceptedType o.type)
    (short : o.sz ≤ 100) (size : (sampleArgs o).msgSz = some msgSz) (small : msgSz < 1000) : (sampleArgs o).Accepted := by
  refine ⟨?_,nofun,?_,?_,by change 1 ≤ 65535; decide,?_⟩
  · rintro ns ⟨⟩
    decide
  · rintro key ⟨⟩
    exact ⟨.int _ _,.inr (.inl rfl),by decide⟩
  · intro operation member
    obtain rfl := List.mem_singleton.mp member
    refine ⟨by change (sampleBin o).binName.str.length ≤ 31; exact (by decide : 1 ≤ 31),made,type,nofun,nofun,?_⟩
    change 4 + 1 + o.sz < 2 ^ 32
    omega
  · intro total given
    rw [size] at given
    obtain rfl := Option.some.inj given
    omega

theorem request_round_trip_sample :
    RoundTrips sampleHeap (sampleArgs (citrusleafObjectInitStr unsetObject 4096 (text "hello"))) := by
  refine request_round_trip sampleHeap _ (fun _ => ⟨_,rfl⟩) ?_ ?_
  · exact sampleArgs_accepted 88 (.str _ _ _ (by decide)) (.inr (.inr (.inl rfl))) (by decide)
      (by decide) (by decide)
  · refine ⟨?_,?_⟩
    · rintro key ⟨⟩
      exact ⟨nofun,fun _ => rfl⟩
    · intro operation member
      obtain rfl := List.mem_singleton.mp member
      exact ⟨nofun,nofun⟩

/-- Two bytes given the type `CL_NULL` come back as none. -/
theorem null_blob_resized : ¬∀ args : CompileArgs, args.Accepted → RoundTrips sampleHeap args := by
  intro every
  let o := citrusleafObjectInitBlob2 unsetObject 4096 (text "ab") clNull
  obtain ⟨buf,decoded,compiled,read,_,_,_,_,same⟩ := every (sampleArgs o) <|
    sampleArgs_accepted 83 (.blob2 _ _ _ _) (.inl rfl) (by decide) (by decide) (by decide)
  have outcome : (((clCompile (sampleArgs o)).bind fun out => decodeRequest sampleHeap out.2).map fun out =>
      out.ops.map fun op => (opView op.1 op.2).sz) = some [0] := by decide
  rw [compiled] at outcome
  change ((decodeRequest sampleHeap buf).map fun out => out.ops.map fun op => (opView op.1 op.2).sz) = _ at outcome
  rw [read] at outcome
  have sizes := congrArg (List.map OpView.sz) same
  rw [List.map_map] at sizes
  have given : decoded.ops.map (fun op => (opView op.1 op.2).sz) = [2] := sizes
  rw [Option.map_some,given] at outcome
  cases outcome

end Citrusleaf
