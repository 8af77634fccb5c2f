import Citrusleaf.Compile

/-! The bytes `cl_compile` leaves in its buffer: header, fields and operations follow each
other in network order, each as long as the position was moved for it. -/
namespace Citrusleaf
open Lib

/-! ### The header -/

theorem clProtoSwap_at (before head sz after : List UInt8) (start : p = before.length)
    (two : head.length = 2) (six : sz.length = 6) :
    clProtoSwap (before ++ (head ++ (sz ++ after))) p = some (before ++ (head ++ (sz.reverse ++ after))) := by
  have swapped := swapBytes_at (before ++ head) sz after
    (p := p + 2) (by rw [List.length_append,start,two]) six.symm
  simpa only [clProtoSwap,List.append_assoc] using swapped

/-- The five swaps turn the numbers around and leave the leading bytes. -/
theorem clMsgSwapHeader_at (before head g r t f o after : List UInt8) (start : m = before.length)
    (hh : head.length = 6) (hg : g.length = 4) (hr : r.length = 4) (ht : t.length = 4)
    (hf : f.length = 2) (ho : o.length = 2) :
    clMsgSwapHeader (before ++ (head ++ (g ++ (r ++ (t ++ (f ++ (o ++ after))))))) m =
      some (before ++ (head ++ (g.reverse ++ (r.reverse ++ (t.reverse ++ (f.reverse ++
        (o.reverse ++ after))))))) := by
  have generation := swapBytes_at (before ++ head) g (r ++ (t ++ (f ++ (o ++ after))))
    (p := m + 6) (by simp [start,hh]) hg.symm
  have recordTtl := swapBytes_at (before ++ head ++ g.reverse) r (t ++ (f ++ (o ++ after)))
    (p := m + 10) (by simp [start,hh,hg]) hr.symm
  have transactionTtl := swapBytes_at (before ++ head ++ g.reverse ++ r.reverse) t (f ++ (o ++ after))
    (p := m + 14) (by simp [start,hh,hg,hr]) ht.symm
  have nFields := swapBytes_at (before ++ head ++ g.reverse ++ r.reverse ++ t.reverse) f (o ++ after)
    (p := m + 18) (by simp [start,hh,hg,hr,ht]) hf.symm
  have nOps := swapBytes_at (before ++ head ++ g.reverse ++ r.reverse ++ t.reverse ++ f.reverse) o after
    (p := m + 20) (by simp [start,hh,hg,hr,ht,hf]) ho.symm
  simp only [List.append_assoc] at generation recordTtl transactionTtl nFields nOps
  simp only [clMsgSwapHeader,generation,recordTtl,transactionTtl,nFields,nOps,Option.bind_eq_bind,
    Option.bind_some]

/-- The header in network order. -/
def ClProto.wire (proto : ClProto) : List UInt8 := [proto.version,proto.type] ++ beBytes 6 proto.sz

def ClMsg.wire (m : ClMsg) : List UInt8 :=
  [m.headerSz,m.info1,m.info2,m.info3,m.unused,m.resultCode] ++ (beBytes 4 m.generation.toNat ++
    (beBytes 4 m.recordTtl.toNat ++ (beBytes 4 m.transactionTtl.toNat ++
    (beBytes 2 m.nFields.toNat ++ beBytes 2 m.nOps.toNat))))

theorem ClProto.wire_length (proto : ClProto) : proto.wire.length = 8 := by
  simp [ClProto.wire]

theorem ClMsg.wire_length (m : ClMsg) : m.wire.length = 22 := by
  simp [ClMsg.wire]

theorem clProtoSwap_bytes (proto : ClProto) (after : List UInt8) :
    clProtoSwap (proto.bytes ++ after) 0 = some (proto.wire ++ after) :=
  clProtoSwap_at [] [proto.version,proto.type] (leBytes 6 proto.sz) after rfl rfl (leBytes_length 6 _)

theorem clProtoSwap_wire (proto : ClProto) (after : List UInt8) :
    clProtoSwap (proto.wire ++ after) 0 = some (proto.bytes ++ after) := by
  have swapped := clProtoSwap_at [] [proto.version,proto.type] (beBytes 6 proto.sz) after rfl rfl
    (beBytes_length 6 _)
  rw [beBytes,List.reverse_reverse] at swapped
  exact swapped

theorem clMsgSwapHeader_bytes (m : ClMsg) (before after : List UInt8) (start : p = before.length) :
    clMsgSwapHeader (before ++ (m.bytes ++ after)) p = some (before ++ (m.wire ++ after)) := by
  have swapped := clMsgSwapHeader_at before
    [m.headerSz,m.info1,m.info2,m.info3,m.unused,m.resultCode] (leBytes 4 m.generation.toNat)
    (leBytes 4 m.recordTtl.toNat) (leBytes 4 m.transactionTtl.toNat) (leBytes 2 m.nFields.toNat)
    (leBytes 2 m.nOps.toNat) after start rfl (by simp) (by simp) (by simp) (by simp) (by simp)
  simpa only [ClMsg.bytes,ClMsg.wire,beBytes,List.append_assoc] using swapped

theorem clMsgSwapHeader_wire (m : ClMsg) (before after : List UInt8) (start : p = before.length) :
    clMsgSwapHeader (before ++ (m.wire ++ after)) p = some (before ++ (m.bytes ++ after)) := by
  have swapped := clMsgSwapHeader_at before
    [m.headerSz,m.info1,m.info2,m.info3,m.unused,m.resultCode] (beBytes 4 m.generation.toNat)
    (beBytes 4 m.recordTtl.toNat) (beBytes 4 m.transactionTtl.toNat) (beBytes 2 m.nFields.toNat)
    (beBytes 2 m.nOps.toNat) after start rfl (by simp) (by simp) (by simp) (by simp) (by simp)
  simpa only [ClMsg.bytes,ClMsg.wire,beBytes,List.reverse_reverse,List.append_assoc] using swapped

/-- The header `cl_write_header` lays out. -/
def headerProto (msgSz : Nat) : ClProto := ⟨clProtoVersion,clProtoTypeClMsg,msgSz - 8⟩

def headerMsg (info1 info2 info3 generation recordTtl transactionTtl : UInt32) (nFields nOps : Nat) : ClMsg :=
  ⟨22,info1.toUInt8,info2.toUInt8,info3.toUInt8,0,0,generation,recordTtl,transactionTtl,
    nFields.toUInt16,nOps.toUInt16⟩

theorem clWriteHeader_at (old after : List UInt8) (room : old.length = 30) :
    clWriteHeader (old ++ after) msgSz info1 info2 info3 generation recordTtl transactionTtl nFields nOps =
      some ((headerProto msgSz).wire ++ ((headerMsg info1 info2 info3 generation recordTtl
        transactionTtl nFields nOps).wire ++ after)) := by
  obtain ⟨a,b,rfl,first,second⟩ : ∃ a b, old = a ++ b ∧ a.length = 8 ∧ b.length = 22 :=
    ⟨old.take 8,old.drop 8,(List.take_append_drop 8 old).symm,by simp [room],by simp [room]⟩
  have proto := writeBytes_at [] a (b ++ after) (headerProto msgSz).bytes (p := 0) rfl
    (by simp [ClProto.bytes,first])
  have msg := writeBytes_at (headerProto msgSz).wire b after (headerMsg info1 info2 info3 generation
    recordTtl transactionTtl nFields nOps).bytes (headerProto msgSz).wire_length.symm
    (by simp [ClMsg.bytes,second])
  have swapped := clMsgSwapHeader_bytes (headerMsg info1 info2 info3 generation recordTtl
    transactionTtl nFields nOps) (headerProto msgSz).wire after (headerProto msgSz).wire_length.symm
  simp only [List.nil_append] at proto
  unfold clWriteHeader
  simp only [headerProto,headerMsg] at proto msg swapped ⊢
  have turned := clProtoSwap_bytes ⟨clProtoVersion,clProtoTypeClMsg,msgSz - 8⟩ (b ++ after)
  simp only [List.append_assoc,proto,turned,msg,swapped,Option.bind_eq_bind,Option.bind_some]

/-! ### Fields -/

/-- A field in network order. -/
def fieldBytes (field : UInt8 × List UInt8) : List UInt8 :=
  beBytes 4 (field.2.length + 1) ++ ([field.1] ++ field.2)

theorem fieldBytes_length (field : UInt8 × List UInt8) : (fieldBytes field).length = 5 + field.2.length := by
  simp only [fieldBytes,List.length_append,beBytes_length,List.length_singleton]
  omega

/-- A field is laid with the size it is given, and the next position follows from that size. -/
theorem layField_eq (before old after : List UInt8) (type : UInt8) (start : mf = before.length)
    (room : old.length = 5 + data.length) :
    layField (before ++ (old ++ after)) mf type size data =
      some (before ++ (beBytes 4 size ++ ([type] ++ (data ++ after))),mf + 4 + size % 2 ^ 32) := by
  obtain ⟨a,b,c,rfl,four,one,rest⟩ : ∃ a b c, old = a ++ (b ++ c) ∧ a.length = 4 ∧ b.length = 1 ∧
      c.length = data.length := by
    refine ⟨old.take 4,(old.drop 4).take 1,(old.drop 4).drop 1,?_,?_,?_,?_⟩
    · rw [List.take_append_drop,List.take_append_drop]
    · rw [List.length_take]; omega
    · rw [List.length_take,List.length_drop]; omega
    · rw [List.length_drop,List.length_drop]; omega
  have typed := writeBytes_at (before ++ a) b (c ++ after) [type] (p := mf + 4)
    (by rw [List.length_append,start,four]) one
  have sized := writeBytes_at before a ([type] ++ (c ++ after)) (leBytes 4 size) start
    (by rw [leBytes_length,four])
  have copied := writeBytes_at (before ++ leBytes 4 size ++ [type]) c after data (p := mf + 5)
    (by simp [start]) rest
  have read := readBytes_at before (leBytes 4 size) ([type] ++ (data ++ after)) start
    (leBytes_length 4 _).symm
  have swapped := swapBytes_at before (leBytes 4 size) ([type] ++ (data ++ after)) start
    (leBytes_length 4 _).symm
  simp only [List.append_assoc] at typed sized copied read swapped
  have next : clMsgFieldGetNext (before ++ (leBytes 4 size ++ ([type] ++ (data ++ after)))) mf =
      some (mf + 4 + size % 2 ^ 32) := by
    rw [clMsgFieldGetNext,fieldSz,read,Option.map_some,Option.map_some,leNat_leBytes]
    rfl
  simp only [layField,clMsgSwapField,List.append_assoc,typed,sized,copied,next,swapped,Option.bind_eq_bind,
    Option.bind_some,Option.pure_def,beBytes]

theorem layField_at (before old after : List UInt8) (type : UInt8) (start : mf = before.length)
    (room : old.length = 5 + data.length) (fits : data.length + 1 < 2 ^ 32) :
    layField (before ++ (old ++ after)) mf type (data.length + 1) data =
      some (before ++ (fieldBytes (type,data) ++ after),mf + (5 + data.length)) := by
  have next : mf + 4 + (data.length + 1) % 2 ^ 32 = mf + (5 + data.length) := by
    rw [Nat.mod_eq_of_lt fits]
    omega
  rw [layField_eq before old after type start room,next]
  simp only [fieldBytes,List.append_assoc]

/-- Fields laid one behind the other. -/
def layAll (buf : List UInt8) (mf : Nat) : List (UInt8 × List UInt8) → Option (List UInt8 × Nat)
  | [] => some (buf,mf)
  | (type,data) :: fields => do
    let (buf,mf) ← layField buf mf type (data.length + 1) data
    layAll buf mf fields

theorem layAll_append (buf : List UInt8) (mf : Nat) (first later : List (UInt8 × List UInt8)) :
    layAll buf mf (first ++ later) = (layAll buf mf first).bind fun out => layAll out.1 out.2 later := by
  induction first generalizing buf mf with
  | nil => rfl
  | cons field first ih =>
    obtain ⟨type,data⟩ := field
    rw [List.cons_append,layAll,layAll]
    cases layField buf mf type (data.length + 1) data with
    | none => rfl
    | some out => exact ih out.1 out.2

theorem layAll_at (before old after : List UInt8) (fields : List (UInt8 × List UInt8))
    (start : p = before.length) (room : old.length = (fields.flatMap fieldBytes).length)
    (fits : ∀ field ∈ fields, field.2.length + 1 < 2 ^ 32) :
    layAll (before ++ (old ++ after)) p fields =
      some (before ++ (fields.flatMap fieldBytes ++ after),p + (fields.flatMap fieldBytes).length) := by
  induction fields generalizing before old p with
  | nil =>
    obtain rfl := List.length_eq_zero_iff.mp room
    rfl
  | cons field fields ih =>
    obtain ⟨type,data⟩ := field
    rw [List.flatMap_cons,List.length_append,fieldBytes_length] at room
    dsimp only at room
    obtain ⟨a,b,rfl,size,rest⟩ : ∃ a b, old = a ++ b ∧ a.length = 5 + data.length ∧
        b.length = (fields.flatMap fieldBytes).length :=
      ⟨old.take (5 + data.length),old.drop (5 + data.length),(List.take_append_drop _ old).symm,
        by rw [List.length_take]; omega,by rw [List.length_drop]; omega⟩
    have first := layField_at before a (b ++ after) type start size
      (fits (type,data) List.mem_cons_self)
    have later := ih (before ++ fieldBytes (type,data)) b (p := p + (5 + data.length))
      (by rw [List.length_append,fieldBytes_length,start]) rest
      fun field member => fits field (List.mem_cons_of_mem _ member)
    simp only [List.append_assoc] at later
    rw [layAll,List.append_assoc,first]
    refine later.trans ?_
    rw [List.flatMap_cons,List.append_assoc,List.length_append,fieldBytes_length,Nat.add_assoc p]

/-! ### The values of objects -/

/-- An object the encoders accept, whose size is that of its value. -/
structure ClObject.Sized (o : ClObject) : Prop where
  null : o.type = clNull → o.sz = 0
  int : o.type = clInt → o.sz = 8
  copied : o.type = clStr ∨ isBlob o.type → ∃ bytes, o.u.copy o.sz = some bytes
  accepted : o.type = clNull ∨ o.type = clInt ∨ o.type = clStr ∨ isBlob o.type

/-- The value of an object on the wire. -/
def ClObject.wireValue (o : ClObject) : List UInt8 :=
  if o.type = clNull then []
  else if o.type = clInt then beBytes 8 o.u.toI64.toUInt64.toNat
  else (o.u.copy o.sz).getD []

theorem labels_distinct : clInt ≠ clNull ∧ clStr ≠ clNull ∧ clStr ≠ clInt ∧ isBlob clNull = false ∧
    isBlob clInt = false ∧ isBlob clStr = false := by decide

/-- How an accepted object is sent, by its type. -/
theorem ClObject.Sized.cases {o : ClObject} (sized : o.Sized) :
    (o.type = clNull ∧ o.sz = 0 ∧ o.wireValue = []) ∨
    (o.type = clInt ∧ o.sz = 8 ∧ o.wireValue = beBytes 8 o.u.toI64.toUInt64.toNat) ∨
    ((o.type = clStr ∨ isBlob o.type = true) ∧ o.type ≠ clNull ∧ o.type ≠ clInt ∧
      o.u.copy o.sz = some o.wireValue) := by
  obtain ⟨intNull,strNull,strInt,blobNull,blobInt,_⟩ := labels_distinct
  rcases sized.accepted with null | int | held
  · exact .inl ⟨null,sized.null null,if_pos null⟩
  · refine .inr (.inl ⟨int,sized.int int,?_⟩)
    rw [wireValue,if_neg (by rw [int]; exact intNull),if_pos int]
  · have notNull : o.type ≠ clNull := by
      intro null
      rw [null,blobNull] at held
      exact held.elim (fun str => strNull str.symm) nofun
    have notInt : o.type ≠ clInt := by
      intro int
      rw [int,blobInt] at held
      exact held.elim (fun str => strInt str.symm) nofun
    obtain ⟨bytes,copied⟩ := sized.copied held
    refine .inr (.inr ⟨held,notNull,notInt,?_⟩)
    rw [wireValue,if_neg notNull,if_neg notInt,copied]
    rfl

theorem ClObject.Sized.wireValue_length {o : ClObject} (sized : o.Sized) : o.wireValue.length = o.sz := by
  rcases sized.cases with ⟨_,size,wire⟩ | ⟨_,size,wire⟩ | ⟨_,_,_,copied⟩
  · rw [wire,size]
    rfl
  · rw [wire,size,beBytes_length]
  · exact ClUnion.copy_length copied

theorem opValue_eq {o : ClObject} (sized : o.Sized) (code : UInt8) (single : code ≠ 129) :
    opValue code o = some (some o.wireValue) := by
  obtain ⟨intNull,_⟩ := labels_distinct
  rcases sized.cases with ⟨type,_,wire⟩ | ⟨type,_,wire⟩ | ⟨held,notNull,notInt,copied⟩
  · rw [opValue,if_pos type,wire]
  · rw [opValue,if_neg (by rw [type]; exact intNull),if_pos type,wire]
  · rw [opValue,if_neg notNull,if_neg notInt,copied]
    by_cases str : o.type = clStr
    · rw [if_pos str]
      rfl
    · rw [if_neg str,if_pos (held.resolve_left str),if_neg single]
      rfl

theorem clValueToOpGetSize_eq {v : ClBin} (sized : v.object.Sized) :
    clValueToOpGetSize v = some v.object.wireValue.length := by
  obtain ⟨intNull,_⟩ := labels_distinct
  rw [sized.wireValue_length,clValueToOpGetSize]
  rcases sized.cases with ⟨type,size,_⟩ | ⟨type,size,_⟩ | ⟨held,notNull,notInt,_⟩
  · rw [if_pos type,size]
  · rw [if_neg (by rw [type]; exact intNull),if_pos type,size]
  · rw [if_neg notNull,if_neg notInt,if_pos held]

theorem keyField_eq {key : ClObject} (sized : key.Sized) (typed : key.type ≠ clNull) :
    keyField key = some (some ((key.type.toUInt8 :: key.wireValue).length + 1,
      key.type.toUInt8 :: key.wireValue)) := by
  obtain ⟨_,_,strInt,_⟩ := labels_distinct
  rw [List.length_cons,sized.wireValue_length]
  rcases sized.cases with ⟨type,_,_⟩ | ⟨type,size,wire⟩ | ⟨held,_,notInt,copied⟩
  · exact absurd type typed
  · rw [keyField,if_neg (by rw [type]; exact strInt.symm),if_pos type,wire,size]
  · rw [keyField,copied]
    by_cases str : key.type = clStr
    · rw [if_pos str]
      rfl
    · rw [if_neg str,if_neg notInt,if_pos (held.resolve_left str)]
      rfl

/-! ### The fields of a request -/

def present (type : UInt8) (data : Option (List UInt8)) : List (UInt8 × List UInt8) :=
  data.toList.map fun data => (type,data)

def CompileArgs.tridData (args : CompileArgs) : Option (List UInt8) :=
  if args.trid = 0 then none else some (beBytes 8 args.trid.toNat)

def CompileArgs.scanData (args : CompileArgs) : Option (List UInt8) :=
  args.scanParamField.map fun scan => [scan.byte1,scan.scanPct]

def CompileArgs.keyData (args : CompileArgs) : Option (List UInt8) :=
  args.key.map fun key => key.type.toUInt8 :: key.wireValue

def CompileArgs.digestData (args : CompileArgs) : Option (List UInt8) := args.digest.map Vector.toList

/-- The types and contents of the fields that are present, in their order. -/
def CompileArgs.fields (args : CompileArgs) : List (UInt8 × List UInt8) :=
  present clMsgFieldTypeNamespace args.ns ++ (present clMsgFieldTypeSet args.set ++
    (present clMsgFieldTypeTrid args.tridData ++ (present clMsgFieldTypeScanOptions args.scanData ++
    (present clMsgFieldTypeKey args.keyData ++ present clMsgFieldTypeDigestRipe args.digestData))))

/-- Operations `cl_value_to_op` accepts as one operation each, with a size for the wire. -/
structure ClOperation.Sendable (operation : ClOperation) : Prop where
  name : operation.bin.binName.str.length ≤ 31
  object : operation.bin.object.Sized
  listed : ∃ code, clMsgOp operation.op = some code
  single : operation.op ≠ .mcIncr
  fits : 4 + operation.bin.binName.str.length + operation.bin.object.sz < 2 ^ 32

structure CompileArgs.Sendable (args : CompileArgs) : Prop where
  ns : ∀ ns, args.ns = some ns → ns.length < 2 ^ 31
  set : ∀ set, args.set = some set → set.length < 2 ^ 31
  key : ∀ key, args.key = some key → key.Sized ∧ key.type ≠ clNull ∧ key.sz + 2 < 2 ^ 32
  ops : ∀ operation ∈ args.values.ops, operation.Sendable
  count : args.values.ops.length ≤ 65535
  total : ∀ msgSz, args.msgSz = some msgSz → msgSz - 8 < 2 ^ 48

theorem layPresent_eq (buf : List UInt8) (mf : Nat) (type : UInt8) (data : Option (List UInt8)) :
    layPresent buf mf type (data.map fun data => (data.length + 1,data)) =
      layAll buf mf (present type data) := by
  cases data with
  | none => rfl
  | some data =>
    change layField buf mf type (data.length + 1) data =
      (layField buf mf type (data.length + 1) data).bind some
    rw [Option.bind_fun_some]

theorem intStrlen_short (short : str.length < 2 ^ 31) : intStrlen str = some str.length := by
  have whole : str.length % 2 ^ 32 = str.length := Nat.mod_eq_of_lt (by omega)
  unfold intStrlen toInt
  rw [whole,if_pos short,if_neg (by omega),Int.toNat_natCast]

theorem stringField_eq (str : Option CString) (short : ∀ s, str = some s → s.length < 2 ^ 31) :
    stringField str = some (str.map fun s => (s.length + 1,s)) := by
  cases str with
  | none => rfl
  | some s =>
    rw [stringField,intStrlen_short (short s rfl),Option.map_some,List.take_length,Option.map_some]

/-- The fields are laid one behind the other, each with the size of what is copied for it. -/
theorem writeFields_layAll (buf : List UInt8) (mf : Nat) (args : CompileArgs) (ns set : Option CString)
    (ns_field : stringField args.ns = some (ns.map fun s => (s.length + 1,s)))
    (set_field : stringField args.set = some (set.map fun s => (s.length + 1,s)))
    (key_field : ∀ key, args.key = some key → keyField key =
      some (some ((key.type.toUInt8 :: key.wireValue).length + 1,key.type.toUInt8 :: key.wireValue))) :
    writeFields buf mf args = (layAll buf mf {args with ns,set}.fields).map fun out => (out.1,some out.2) := by
  have trid : (if args.trid = 0 then none else some (8 + 1,beBytes 8 args.trid.toNat)) =
      args.tridData.map fun data => (data.length + 1,data) := by
    unfold CompileArgs.tridData
    split
    · rfl
    · rw [Option.map_some,beBytes_length]
  have scan : (args.scanParamField.map fun scan => (2 + 1,[scan.byte1,scan.scanPct])) =
      args.scanData.map fun data => (data.length + 1,data) := by
    rw [CompileArgs.scanData,Option.map_map]
    rfl
  have digest : (args.digest.map fun d => (20 + 1,d.toList)) =
      args.digestData.map fun data => (data.length + 1,data) := by
    rw [CompileArgs.digestData,Option.map_map]
    congr
    funext d
    simp only [Function.comp,Vector.length_toList]
  have key (buf : List UInt8) (mf : Nat) : layKey buf mf args.key =
      (layAll buf mf (present clMsgFieldTypeKey args.keyData)).map fun out => (out.1,some out.2) := by
    rw [← layPresent_eq,CompileArgs.keyData]
    cases given : args.key with
    | none => rfl
    | some object =>
      rw [layKey,key_field object given]
      change Option.bind _ _ = Option.map _ _
      rw [Option.map_eq_bind]
      rfl
  have fields : {args with ns,set}.fields = present clMsgFieldTypeNamespace ns ++
      (present clMsgFieldTypeSet set ++ (present clMsgFieldTypeTrid args.tridData ++
      (present clMsgFieldTypeScanOptions args.scanData ++ (present clMsgFieldTypeKey args.keyData ++
      present clMsgFieldTypeDigestRipe args.digestData)))) := rfl
  unfold writeFields
  simp only [fields,layAll_append,ns_field,set_field,trid,scan,digest,key,layPresent_eq,Option.bind_eq_bind,
    Option.bind_some,Option.pure_def]
  simp only [Option.map_eq_bind,Option.bind_assoc,Option.bind_some,Function.comp]

theorem writeFields_eq (buf : List UInt8) (mf : Nat) (args : CompileArgs) (sendable : args.Sendable) :
    writeFields buf mf args = (layAll buf mf args.fields).map fun out => (out.1,some out.2) :=
  writeFields_layAll buf mf args args.ns args.set (stringField_eq _ sendable.ns) (stringField_eq _ sendable.set)
    fun key given => keyField_eq (sendable.key key given).1 (sendable.key key given).2.1

/-! ### Operations -/

def ClOperation.name (operation : ClOperation) : CString := operation.bin.binName.str

def ClOperation.code (operation : ClOperation) : UInt8 := (clMsgOp operation.op).getD 0

def ClOperation.wireValue (operation : ClOperation) : List UInt8 := operation.bin.object.wireValue

def ClOperation.opSz (operation : ClOperation) : Nat :=
  4 + operation.name.length + operation.wireValue.length

/-- What follows the size of an operation. -/
def ClOperation.body (operation : ClOperation) : List UInt8 :=
  [operation.code] ++ ([operation.bin.object.type.toUInt8] ++ ([0] ++ ([operation.name.length.toUInt8] ++
    (operation.name ++ operation.wireValue))))

def ClOperation.wire (operation : ClOperation) : List UInt8 := beBytes 4 operation.opSz ++ operation.body

theorem ClOperation.wire_length (operation : ClOperation) :
    operation.wire.length = 8 + operation.name.length + operation.wireValue.length := by
  simp only [wire,body,List.length_append,beBytes_length,List.length_singleton]
  omega

theorem clMsgOp_code (operation : ClOperation) (sendable : operation.Sendable) :
    clMsgOp operation.op = some operation.code ∧ operation.code ≠ 129 := by
  obtain ⟨code,listed⟩ := sendable.listed
  have single := sendable.single
  refine ⟨by rw [ClOperation.code,listed]; rfl,?_⟩
  rw [ClOperation.code,listed]
  cases given : operation.op with
  | mcIncr => exact absurd given single
  | other value => rw [given] at listed; cases listed
  | _ => rw [given] at listed; obtain rfl := Option.some.inj listed; decide

/-- A block can be cut into parts of given sizes. -/
theorem parts_of_length (block : List UInt8) (sizes : block.length = m + n) :
    ∃ a b, block = a ++ b ∧ a.length = m ∧ b.length = n :=
  ⟨block.take m,block.drop m,(List.take_append_drop m block).symm,by rw [List.length_take]; omega,
    by rw [List.length_drop]; omega⟩

theorem ClOperation.name_short (operation : ClOperation) : operation.name.length ≤ 32 := by
  rw [← operation.bin.binName.size]
  exact (List.takeWhile_sublist _).length_le

/-- An operation with the size and the value it is given. -/
def opBytes (operation : ClOperation) (code : UInt8) (size : Nat) (behind : List UInt8) : List UInt8 :=
  leBytes 4 size ++ ([code] ++ ([operation.bin.object.type.toUInt8] ++ ([0] ++
    ([operation.name.length.toUInt8] ++ (operation.name ++ behind)))))

/-- The operation up to its name is laid first; the value goes behind it and its length is
added to the size. -/
theorem clValueToOp_head (before old after : List UInt8) (operation : ClOperation)
    (start : op = before.length) (room : old.length = 8 + operation.name.length)
    (coded : clMsgOp operation.op = some code)
    (valued : opValue code operation.bin.object = some (some value)) :
    clValueToOp (before ++ (old ++ after)) op operation =
      (writeBytes (before ++ opBytes operation code (4 + operation.name.length + value.length) after)
        (op + 8 + operation.name.length) value).map fun buf => (0,buf) := by
  have short := operation.name_short
  obtain ⟨head,n,rfl,hhead,hn⟩ := parts_of_length old room
  obtain ⟨head,e,rfl,hhead,he⟩ := parts_of_length (m := 7) (n := 1) head hhead
  obtain ⟨head,d,rfl,hhead,hd⟩ := parts_of_length (m := 6) (n := 1) head hhead
  obtain ⟨head,c,rfl,hhead,hc⟩ := parts_of_length (m := 5) (n := 1) head hhead
  obtain ⟨a,b,rfl,ha,hb⟩ := parts_of_length (m := 4) (n := 1) head hhead
  -- the buffer after each write, in the order of the source
  have sized := writeBytes_at before a (b ++ (c ++ (d ++ (e ++ (n ++ after)))))
    (leBytes 4 (8 + operation.name.length - 4)) start (by rw [leBytes_length,ha])
  have counted := writeBytes_at (before ++ leBytes 4 (8 + operation.name.length - 4) ++ b ++ c ++ d) e
    (n ++ after) [operation.name.length.toUInt8] (p := op + 7) (by simp [start,hb,hc,hd]) he
  have versioned := writeBytes_at (before ++ leBytes 4 (8 + operation.name.length - 4) ++ b ++ c) d
    ([operation.name.length.toUInt8] ++ (n ++ after)) [0] (p := op + 6) (by simp [start,hb,hc]) hd
  have named := writeBytes_at (before ++ leBytes 4 (8 + operation.name.length - 4) ++ b ++ c ++ [0] ++
    [operation.name.length.toUInt8]) n after operation.name (p := op + 8) (by simp [start,hb,hc]) hn
  have lettered := writeBytes_at (before ++ leBytes 4 (8 + operation.name.length - 4)) b
    (c ++ ([0] ++ ([operation.name.length.toUInt8] ++ (operation.name ++ after)))) [code]
    (p := op + 4) (by simp [start]) hb
  have nameSz := readByte_at (before ++ leBytes 4 (8 + operation.name.length - 4) ++ [code] ++ c ++
    [0]) operation.name.length.toUInt8 (operation.name ++ after) (p := op + 7) (by simp [start,hc])
  have typed := writeBytes_at (before ++ leBytes 4 (8 + operation.name.length - 4) ++ [code]) c
    ([0] ++ ([operation.name.length.toUInt8] ++ (operation.name ++ after)))
    [operation.bin.object.type.toUInt8] (p := op + 5) (by simp [start]) hc
  have size := readBytes_at before (leBytes 4 (8 + operation.name.length - 4)) ([code] ++
    ([operation.bin.object.type.toUInt8] ++ ([0] ++ ([operation.name.length.toUInt8] ++
    (operation.name ++ after))))) start (leBytes_length 4 _).symm
  have resized := writeBytes_at before (leBytes 4 (8 + operation.name.length - 4)) ([code] ++
    ([operation.bin.object.type.toUInt8] ++ ([0] ++ ([operation.name.length.toUInt8] ++
    (operation.name ++ after))))) (leBytes 4 (4 + operation.name.length + value.length)) start (by simp)
  have small : operation.name.length.toUInt8.toNat = operation.name.length :=
    UInt8.toNat_ofNat_of_lt' (Nat.lt_of_le_of_lt short (by decide))
  have total : 8 + operation.name.length - 4 + value.length = 4 + operation.name.length + value.length := by
    omega
  have fits : 8 + operation.name.length - 4 < 256 ^ 4 := by omega
  simp only [List.append_assoc] at sized counted versioned named lettered nameSz typed size resized
  have pointer : clMsgOpGetValueP (before ++ (leBytes 4 (8 + operation.name.length - 4) ++ ([code] ++
      (c ++ ([0] ++ ([operation.name.length.toUInt8] ++ (operation.name ++ after))))))) op =
      some (op + 8 + operation.name.length) := by
    rw [clMsgOpGetValueP,opNameSz,nameSz,Option.map_some,Option.map_some,small]
  unfold clValueToOp opBytes
  rw [show operation.bin.binName.str = operation.name from rfl]
  simp only [List.append_assoc,sized,counted,versioned,named,coded,lettered,pointer,opSz,Option.bind_eq_bind,
    Option.bind_some,Option.map_some,typed,valued,size,leNat_leBytes_of_lt fits,total,resized,
    Option.pure_def]
  rw [Option.map_eq_bind]
  rfl

theorem clValueToOp_at (before old after : List UInt8) (operation : ClOperation)
    (sendable : operation.Sendable) (start : op = before.length) (room : old.length = operation.wire.length) :
    clValueToOp (before ++ (old ++ after)) op operation =
      some (0,before ++ (leBytes 4 operation.opSz ++ (operation.body ++ after))) := by
  obtain ⟨coded,single⟩ := clMsgOp_code operation sendable
  have valued : opValue operation.code operation.bin.object = some (some operation.wireValue) :=
    opValue_eq sendable.object operation.code single
  rw [ClOperation.wire_length] at room
  obtain ⟨head,v,rfl,hhead,hv⟩ := parts_of_length old room
  have laid := clValueToOp_head before head (v ++ after) operation start hhead coded valued
  have copied := writeBytes_at (before ++ leBytes 4 operation.opSz ++ [operation.code] ++
    [operation.bin.object.type.toUInt8] ++ [0] ++ [operation.name.length.toUInt8] ++ operation.name) v after
    operation.wireValue (p := op + 8 + operation.name.length) (by simp [start]; omega) hv
  have size : 4 + operation.name.length + operation.wireValue.length = operation.opSz := rfl
  rw [size] at laid
  simp only [List.append_assoc,opBytes,ClOperation.body] at laid copied ⊢
  rw [laid,copied,Option.map_some]

/-- The loop over operations lays them one behind the other. -/
theorem layOps_at (before old after : List UInt8) (operations : List ClOperation)
    (sendable : ∀ operation ∈ operations, operation.Sendable) (start : p = before.length)
    (room : old.length = (operations.flatMap ClOperation.wire).length) :
    layOps (before ++ (old ++ after)) p operations =
      some (before ++ (operations.flatMap ClOperation.wire ++ after)) := by
  induction operations generalizing before old p with
  | nil =>
    obtain rfl := List.length_eq_zero_iff.mp room
    rfl
  | cons operation operations ih =>
    have accepted := sendable operation List.mem_cons_self
    rw [List.flatMap_cons,List.length_append] at room
    obtain ⟨a,b,rfl,first,rest⟩ := parts_of_length old room
    have fits : operation.opSz < 256 ^ 4 := by
      unfold ClOperation.opSz ClOperation.wireValue
      rw [accepted.object.wireValue_length]
      exact accepted.fits
    have laid := clValueToOp_at before a (b ++ after) operation accepted start first
    have read := readBytes_at before (leBytes 4 operation.opSz) (operation.body ++ (b ++ after)) start
      (leBytes_length 4 _).symm
    have swapped := swapBytes_at before (leBytes 4 operation.opSz) (operation.body ++ (b ++ after)) start
      (leBytes_length 4 _).symm
    have later := ih (before ++ operation.wire) b (p := p + 4 + operation.opSz)
      (fun other member => sendable other (List.mem_cons_of_mem _ member))
      (by rw [List.length_append,ClOperation.wire_length,start,ClOperation.opSz]; omega) rest
    simp only [List.append_assoc,ClOperation.wire,beBytes] at later
    rw [layOps,List.append_assoc]
    simp only [laid,clMsgOpGetNext,opSz,read,clMsgSwapOp,swapped,leNat_leBytes_of_lt fits,Option.map_some,
      Option.bind_eq_bind,Option.bind_some]
    rw [later,List.flatMap_cons,ClOperation.wire,beBytes]
    simp only [List.append_assoc]

/-! ### The request -/

/-- The header values of a request. -/
def CompileArgs.header (args : CompileArgs) : ClMsg :=
  headerMsg args.info1 (writeInfo2 args.info2 args.clWP).1 args.info3 (writeInfo2 args.info2 args.clWP).2
    ((args.clWP.map (·.recordTtl)).getD 0) ((args.clWP.map (·.timeoutMs.toUInt32)).getD 0)
    args.nFields args.values.ops.length

/-- The bytes counted for the digest and the scan options and not written. -/
def CompileArgs.slack (args : CompileArgs) : Nat :=
  (if args.digest.isSome then 1 else 0) + (if args.scanParamField.isSome then 1 else 0)

theorem present_size (type : UInt8) (data : Option (List UInt8)) :
    ((present type data).flatMap fieldBytes).length = (data.map (5 + ·.length)).getD 0 := by
  cases data with
  | none => rfl
  | some data =>
    change ((fieldBytes (type,data)) ++ []).length = _
    rw [List.append_nil,fieldBytes_length]
    rfl

theorem fieldsSize_eq (args : CompileArgs) (sendable : args.Sendable) :
    args.fieldsSize = (args.fields.flatMap fieldBytes).length + args.slack := by
  have trid : (args.tridData.map (5 + ·.length)).getD 0 = if args.trid = 0 then 0 else 5 + 8 := by
    unfold CompileArgs.tridData
    split
    · rfl
    · rw [Option.map_some,beBytes_length,Option.getD_some]
  have scan : (args.scanData.map (5 + ·.length)).getD 0 = if args.scanParamField.isSome then 5 + 2 else 0 := by
    unfold CompileArgs.scanData
    cases args.scanParamField <;> rfl
  have key : (args.keyData.map (5 + ·.length)).getD 0 = (args.key.map (5 + 1 + ·.sz)).getD 0 := by
    unfold CompileArgs.keyData
    cases given : args.key with
    | none => rfl
    | some object =>
      rw [Option.map_some,Option.map_some,Option.map_some,Option.getD_some,Option.getD_some,List.length_cons,
        (sendable.key object given).1.wireValue_length]
      omega
  have digest : (args.digestData.map (5 + ·.length)).getD 0 = if args.digest.isSome then 5 + 20 else 0 := by
    unfold CompileArgs.digestData
    cases args.digest with
    | none => rfl
    | some d =>
      rw [Option.map_some,Option.map_some,Vector.length_toList]
      rfl
  have string (type : UInt8) (str : Option CString) (short : ∀ s, str = some s → s.length < 2 ^ 31) :
      ((present type str).flatMap fieldBytes).length = (str.map (5 + stringSz ·)).getD 0 := by
    rw [present_size]
    cases str with
    | none => rfl
    | some s =>
      rw [Option.map_some,Option.map_some,stringSz,intStrlen_short (short s rfl)]
      rfl
  have ns := string clMsgFieldTypeNamespace args.ns sendable.ns
  have set := string clMsgFieldTypeSet args.set sendable.set
  simp only [CompileArgs.fields,List.flatMap_append,List.length_append,ns,set,present_size,trid,scan,key,digest,
    CompileArgs.fieldsSize,CompileArgs.slack]
  cases args.digest.isSome <;> cases args.scanParamField.isSome <;>
    simp only [Bool.false_eq_true,if_true,if_false] <;> omega

theorem opsSize_eq (operations : List ClOperation) (sendable : ∀ operation ∈ operations, operation.Sendable) :
    opsSize operations = some (operations.flatMap ClOperation.wire).length := by
  induction operations with
  | nil => rfl
  | cons operation operations ih =>
    have accepted := sendable operation List.mem_cons_self
    rw [opsSize,clValueToOpGetSize_eq accepted.object,
      ih fun other member => sendable other (List.mem_cons_of_mem _ member),List.flatMap_cons,
      List.length_append,ClOperation.wire_length]
    rfl

theorem fields_fit (args : CompileArgs) (sendable : args.Sendable) :
    ∀ field ∈ args.fields, field.2.length + 1 < 2 ^ 32 := by
  intro field member
  simp only [CompileArgs.fields,List.mem_append,present,List.mem_map,Option.mem_toList] at member
  rcases member with ⟨data,given,rfl⟩ | ⟨data,given,rfl⟩ | ⟨data,given,rfl⟩ | ⟨data,given,rfl⟩ |
    ⟨data,given,rfl⟩ | ⟨data,given,rfl⟩
  · have := sendable.ns data given
    dsimp only
    omega
  · have := sendable.set data given
    dsimp only
    omega
  · unfold CompileArgs.tridData at given
    split at given
    · cases given
    · obtain rfl := Option.some.inj given
      rw [beBytes_length]
      decide
  · obtain ⟨scan,_,rfl⟩ := Option.map_eq_some_iff.mp given
    exact (by decide : 2 + 1 < 2 ^ 32)
  · obtain ⟨object,is,rfl⟩ := Option.map_eq_some_iff.mp given
    obtain ⟨sized,_,fits⟩ := sendable.key object is
    dsimp only
    rw [List.length_cons,sized.wireValue_length]
    omega
  · obtain ⟨d,_,rfl⟩ := Option.map_eq_some_iff.mp given
    rw [Vector.length_toList]
    decide

/-- The buffer of a request: header, fields and operations, and the bytes left over. -/
def CompileArgs.wire (args : CompileArgs) (msgSz : Nat) : List UInt8 :=
  (headerProto msgSz).wire ++ (args.header.wire ++ (args.fields.flatMap fieldBytes ++
    (args.values.ops.flatMap ClOperation.wire ++ List.replicate args.slack 0)))

theorem clCompile_eq (args : CompileArgs) (sendable : args.Sendable) :
    ∃ msgSz, args.msgSz = some msgSz ∧ clCompile args = some (0,args.wire msgSz) := by
  have size : args.msgSz = some (30 + args.fieldsSize + (args.values.ops.flatMap ClOperation.wire).length) := by
    rw [CompileArgs.msgSz,opsSize_eq _ sendable.ops,Option.map_some]
  refine ⟨_,size,?_⟩
  have block : List.replicate (30 + args.fieldsSize + (args.values.ops.flatMap ClOperation.wire).length) (0 : UInt8) =
      List.replicate 30 0 ++ (List.replicate (args.fields.flatMap fieldBytes).length 0 ++
        (List.replicate (args.values.ops.flatMap ClOperation.wire).length 0 ++ List.replicate args.slack 0)) := by
    rw [fieldsSize_eq args sendable,List.replicate_append_replicate,List.replicate_append_replicate,
      List.replicate_append_replicate]
    congr 1
    omega
  generalize 30 + args.fieldsSize + (args.values.ops.flatMap ClOperation.wire).length = msgSz at size block ⊢
  have fields := layAll_at ((headerProto msgSz).wire ++ args.header.wire)
    (List.replicate (args.fields.flatMap fieldBytes).length 0)
    (List.replicate (args.values.ops.flatMap ClOperation.wire).length 0 ++ List.replicate args.slack 0)
    args.fields (p := 30) (by rw [List.length_append,ClProto.wire_length,ClMsg.wire_length])
    List.length_replicate (fields_fit args sendable)
  have ops := layOps_at ((headerProto msgSz).wire ++ (args.header.wire ++ args.fields.flatMap fieldBytes))
    (List.replicate (args.values.ops.flatMap ClOperation.wire).length 0) (List.replicate args.slack 0)
    args.values.ops (p := 30 + (args.fields.flatMap fieldBytes).length) sendable.ops
    (by simp only [List.length_append,ClProto.wire_length,ClMsg.wire_length]; omega) List.length_replicate
  simp only [List.append_assoc] at fields ops
  unfold clCompile
  rw [size]
  dsimp only
  rw [block,clWriteHeader_at _ _ List.length_replicate]
  change Option.bind (writeFields ((headerProto msgSz).wire ++ (args.header.wire ++ _)) 30 args) _ = _
  rw [writeFields_eq _ _ args sendable,fields]
  change Option.bind (layOps _ _ _) _ = _
  rw [ops]
  rfl

end Citrusleaf
