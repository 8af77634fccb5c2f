import Citrusleaf.Stream

/-! Well-formed messages. A message is read where it lies: the callback is given what its own
bytes say, and the cursor ends behind it. -/
namespace Citrusleaf
open Lib

/-! ### Messages as they are sent -/

structure WireOp where
  op : UInt8
  particleType : UInt8
  version : UInt8
  name : List UInt8
  value : List UInt8

def WireOp.opSz (op : WireOp) : Nat := 4 + op.name.length + op.value.length

def WireOp.body (op : WireOp) : List UInt8 :=
  [op.op] ++ ([op.particleType] ++ ([op.version] ++ ([op.name.length.toUInt8] ++ (op.name ++ op.value))))

def WireOp.wire (op : WireOp) : List UInt8 := beBytes 4 op.opSz ++ op.body

/-- The operation after its size was swapped. -/
def WireOp.host (op : WireOp) : List UInt8 := leBytes 4 op.opSz ++ op.body

/-- A name with room for its NUL, and a value of a known type. -/
structure WireOp.WellFormed (op : WireOp) : Prop where
  name : op.name.length ≤ 31
  type : AcceptedType op.particleType.toUInt32
  int : op.particleType.toUInt32 = clInt → op.value.length ≤ 8
  fits : op.opSz < 2 ^ 32

structure StreamMessage where
  m : ClMsg
  fields : List (UInt8 × List UInt8)
  ops : List WireOp

def StreamMessage.wire (msg : StreamMessage) : List UInt8 :=
  msg.m.wire ++ (msg.fields.flatMap fieldBytes ++ msg.ops.flatMap WireOp.wire)

structure FieldWellFormed (field : UInt8 × List UInt8) : Prop where
  fits : field.2.length + 1 < 2 ^ 32
  ns : field.1 = clMsgFieldTypeNamespace → field.2.length ≤ 32
  digest : field.1 = clMsgFieldTypeDigestRipe → field.2.length = 20

structure StreamMessage.WellFormed (msg : StreamMessage) : Prop where
  headerSz : msg.m.headerSz = 22
  nFields : msg.m.nFields.toNat = msg.fields.length
  nOps : msg.m.nOps.toNat = msg.ops.length
  fields : ∀ field ∈ msg.fields, FieldWellFormed field
  ops : ∀ op ∈ msg.ops, op.WellFormed

/-! ### What a message says -/

/-- The string in a block, up to its NUL. -/
def cString (block : List UInt8) : CString := block.takeWhile (· != 0)

structure BinView where
  name : CString
  type : UInt32
  sz : Nat
  value : Option ObjectValue
  deriving DecidableEq

def ClBin.view (bin : ClBin) : BinView := ⟨bin.binName.str,bin.object.type,bin.object.sz,bin.object.value⟩

/-- The value of an operation by its own bytes; an integer as `op_to_value_int` reads it. -/
def WireOp.view (op : WireOp) : BinView :=
  if op.particleType.toUInt32 = clNull then ⟨cString op.name,clNull,0,some .null⟩
  else if op.particleType.toUInt32 = clInt then
    ⟨cString op.name,clInt,8,((opToValueInt op.value 0 op.value.length).bind (·.2)).map .int⟩
  else ⟨cString op.name,op.particleType.toUInt32,op.value.length,some (.bytes op.value)⟩

/-- The strings and the digest of the fields. -/
structure FieldsView where
  ns : CString
  digest : Option (List UInt8)
  set : Option CString
  deriving DecidableEq

def FieldsView.none : FieldsView := ⟨[],Option.none,Option.none⟩

def FieldsView.field (view : FieldsView) (field : UInt8 × List UInt8) : FieldsView :=
  if field.1 = clMsgFieldTypeDigestRipe then {view with digest := some field.2}
  else if field.1 = clMsgFieldTypeNamespace then {view with ns := cString field.2}
  else if field.1 = clMsgFieldTypeSet then {view with set := some (cString field.2)}
  else view

structure RecordView where
  fields : FieldsView
  generation : UInt32
  recordTtl : UInt32
  bins : List BinView
  deriving DecidableEq

def CallbackRecord.view (record : CallbackRecord) : RecordView :=
  ⟨⟨cString record.ns,record.keyd,record.set.map cString⟩,record.generation,record.recordTtl,
    record.bins.map ClBin.view⟩

def StreamMessage.view (msg : StreamMessage) : RecordView :=
  ⟨msg.fields.foldl FieldsView.field .none,msg.m.generation,msg.m.recordTtl,msg.ops.map WireOp.view⟩

/-! ### Fields -/

theorem copyString_fits (block str : List UInt8) (room : str.length < block.length) :
    ∃ out, copyString block str = some out ∧ out.length = block.length ∧ cString out = cString str := by
  have inside : 0 + (str ++ [0]).length ≤ block.length := by
    rw [List.length_append,List.length_singleton]
    omega
  refine ⟨_,if_pos inside,?_,?_⟩
  · simp only [List.take_zero,List.nil_append,List.length_append,List.length_drop,List.length_singleton]
    omega
  · unfold cString
    simp only [List.take_zero,List.nil_append,List.append_assoc,List.takeWhile_append]
    split
    · rename_i whole
      have same : str.takeWhile (· != 0) = str := (List.takeWhile_prefix _).eq_of_length whole
      simp [same]
    · rfl

theorem setBlock_fits {str : List UInt8} (malloc : Nat → Option UInt64) (plenty : Plenty malloc) (fits : str.length + 1 < 2 ^ 32) :
    ∃ block, setBlock malloc str.length = some block ∧ str.length < block.length := by
  have whole : (str.length + 1) % 2 ^ 32 = str.length + 1 := Nat.mod_eq_of_lt fits
  obtain ⟨address,given⟩ := plenty (str.length + 1)
  refine ⟨List.replicate (str.length + 1) 0,?_,by rw [List.length_replicate]; exact Nat.lt_succ_self _⟩
  rw [setBlock,whole,given,Option.map_some]

/-- What the loop over fields has found, in the part of the buffer it has passed. -/
structure FieldsRead (done : List UInt8) (s : MessageFields) (view : FieldsView) : Prop where
  nsRet : s.nsRet.length = 33
  ns : cString s.nsRet = view.ns
  digest : (s.keyd.map fun keyd => (done.drop keyd).take 20) = view.digest
  inside : ∀ keyd, s.keyd = some keyd → keyd + 20 ≤ done.length
  set : s.setRet.map cString = view.set

theorem FieldsRead.more (read : FieldsRead done s view) (more : List UInt8) (keyd : t.keyd = s.keyd)
    (nsRet : t.nsRet = s.nsRet) (setRet : t.setRet = s.setRet) : FieldsRead (done ++ more) t view := by
  have same (position : Nat) (given : s.keyd = some position) :
      ((done ++ more).drop position).take 20 = (done.drop position).take 20 := by
    have inside := read.inside position given
    rw [List.drop_append_of_le_length (by omega),List.take_append_of_le_length (by rw [List.length_drop]; omega)]
  refine ⟨nsRet ▸ read.nsRet,nsRet ▸ read.ns,?_,?_,setRet ▸ read.set⟩
  · rw [keyd,← read.digest]
    cases given : s.keyd with
    | none => rfl
    | some position => rw [Option.map_some,Option.map_some,same position given]
  · intro position given
    have inside := read.inside position (keyd ▸ given)
    rw [List.length_append]
    omega

/-- The four branches of the source, each behind the swap and the step to the next field. -/
theorem readMessageField_branches (malloc : Nat → Option UInt64) (before after : List UInt8) (type : UInt8)
    (data : List UInt8) (fits : data.length + 1 < 256 ^ 4) (start : mf = before.length)
    (branch : (if type = clMsgFieldTypeDigestRipe then
        some ⟨before ++ (hostField type data ++ after),mf + (5 + data.length),some (mf + 5),nsRet,setRet⟩
      else if type = clMsgFieldTypeNamespace then (copyString nsRet data).map fun nsRet =>
        ⟨before ++ (hostField type data ++ after),mf + (5 + data.length),keyd,nsRet,setRet⟩
      else if type = clMsgFieldTypeSet then
        (setBlock malloc data.length).bind fun block => (copyString block data).map fun set =>
          ⟨before ++ (hostField type data ++ after),mf + (5 + data.length),keyd,nsRet,some set⟩
      else some ⟨before ++ (hostField type data ++ after),mf + (5 + data.length),keyd,nsRet,setRet⟩) = some t) :
    readMessageField malloc ⟨before ++ (fieldBytes (type,data) ++ after),mf,keyd,nsRet,setRet⟩ = some t := by
  have swapped := swapField_at before after type data start
  have host := hostField_at before after type data start fits
  have valueSz := fieldValueSz_eq fits
  apply bind_given swapped
  apply bind_given host.typed
  apply bind_given host.next
  dsimp only
  split at branch
  · rename_i digest
    rw [if_pos digest]
    exact branch
  split at branch
  · rename_i notDigest ns
    rw [if_neg notDigest,if_pos ns]
    obtain ⟨block,copied,rfl⟩ := Option.map_eq_some_iff.mp branch
    apply bind_given host.sized
    rw [valueSz]
    apply bind_given host.copied
    exact bind_given copied rfl
  split at branch
  · rename_i notDigest notNs set
    rw [if_neg notDigest,if_neg notNs,if_pos set]
    obtain ⟨block,given,branch⟩ := Option.bind_eq_some_iff.mp branch
    obtain ⟨out,copied,rfl⟩ := Option.map_eq_some_iff.mp branch
    apply bind_given host.sized
    rw [valueSz]
    apply bind_given host.copied
    apply bind_given given
    exact bind_given copied rfl
  · rename_i notDigest notNs notSet
    rw [if_neg notDigest,if_neg notNs,if_neg notSet]
    exact branch

/-- One field, laid at the position of the loop. -/
theorem readMessageField_at (malloc : Nat → Option UInt64) (plenty : Plenty malloc) (before after : List UInt8)
    (type : UInt8) (data : List UInt8) (formed : FieldWellFormed (type,data)) (start : s.mf = before.length)
    (buf : s.buf = before ++ (fieldBytes (type,data) ++ after)) (read : FieldsRead before s view) :
    ∃ t, readMessageField malloc s = some t ∧ t.mf = s.mf + (5 + data.length) ∧
      t.buf = before ++ (hostField type data ++ after) ∧
      FieldsRead (before ++ hostField type data) t (view.field (type,data)) := by
  have low : (256 : Nat) ^ 4 = 2 ^ 32 := by decide
  have fits : data.length + 1 < 256 ^ 4 := low ▸ formed.fits
  have kept := read.more (t := s) (hostField type data) rfl rfl rfl
  have laid : (before ++ hostField type data).length = s.mf + 5 + data.length := by
    rw [List.length_append,hostField_length,start]
    omega
  obtain ⟨sBuf,mf,keyd,nsRet,setRet⟩ := s
  subst buf
  change mf = before.length at start
  unfold FieldsView.field
  by_cases digest : type = clMsgFieldTypeDigestRipe
  · refine ⟨_,readMessageField_branches malloc before after type data fits start (if_pos digest),rfl,rfl,?_⟩
    have twenty : data.length = 20 := formed.digest digest
    rw [if_pos digest]
    refine ⟨kept.nsRet,kept.ns,?_,?_,kept.set⟩
    · have parts : before ++ hostField type data = (before ++ leBytes 4 (data.length + 1) ++ [type]) ++ data := by
        simp only [hostField,List.append_assoc]
      have behind : (before ++ leBytes 4 (data.length + 1) ++ [type]).length = mf + 5 := by
        rw [List.length_append,List.length_append,leBytes_length,List.length_singleton,start]
      rw [parts]
      change some (((_ ++ data).drop (mf + 5)).take 20) = some data
      rw [List.drop_left' behind,List.take_of_length_le (Nat.le_of_eq twenty)]
    · rintro position ⟨⟩
      rw [laid,twenty]
  by_cases ns : type = clMsgFieldTypeNamespace
  · have room : data.length < nsRet.length := by
      rw [read.nsRet]
      exact Nat.lt_succ_of_le (formed.ns ns)
    obtain ⟨block,copied,size,string⟩ := copyString_fits nsRet data room
    refine ⟨⟨_,_,keyd,block,setRet⟩,readMessageField_branches malloc before after type data fits start ?_,rfl,rfl,?_⟩
    · rw [if_neg digest,if_pos ns,copied,Option.map_some]
    · rw [if_neg digest,if_pos ns]
      exact ⟨size.trans read.nsRet,string,kept.digest,kept.inside,kept.set⟩
  by_cases set : type = clMsgFieldTypeSet
  · obtain ⟨block,given,room⟩ := setBlock_fits malloc plenty formed.fits
    obtain ⟨out,copied,_,string⟩ := copyString_fits block data room
    refine ⟨⟨_,_,keyd,nsRet,some out⟩,readMessageField_branches malloc before after type data fits start ?_,rfl,rfl,?_⟩
    · rw [if_neg digest,if_neg ns,if_pos set,given,Option.bind_some,copied,Option.map_some]
    · rw [if_neg digest,if_neg ns,if_pos set]
      exact ⟨kept.nsRet,kept.ns,kept.digest,kept.inside,congrArg some string⟩
  · refine ⟨⟨_,_,keyd,nsRet,setRet⟩,readMessageField_branches malloc before after type data fits start ?_,rfl,rfl,?_⟩
    · rw [if_neg digest,if_neg ns,if_neg set]
    · rw [if_neg digest,if_neg ns,if_neg set]
      exact ⟨kept.nsRet,kept.ns,kept.digest,kept.inside,kept.set⟩

/-- Fields laid one behind the other are read in turn. -/
theorem readMessageFields_at (malloc : Nat → Option UInt64) (plenty : Plenty malloc) (before after : List UInt8)
    (fields : List (UInt8 × List UInt8)) (formed : ∀ field ∈ fields, FieldWellFormed field)
    (start : s.mf = before.length) (buf : s.buf = before ++ (fields.flatMap fieldBytes ++ after))
    (read : FieldsRead before s view) :
    ∃ t mid, mid.length = (fields.flatMap fieldBytes).length ∧
      readMessageFields malloc fields.length s = some t ∧ t.mf = s.mf + mid.length ∧
      t.buf = before ++ (mid ++ after) ∧ FieldsRead (before ++ mid) t (fields.foldl FieldsView.field view) := by
  induction fields generalizing before s view with
  | nil => exact ⟨s,[],rfl,rfl,rfl,buf,by rw [List.append_nil]; exact read⟩
  | cons field fields ih =>
    obtain ⟨type,data⟩ := field
    rw [List.flatMap_cons,List.append_assoc] at buf
    obtain ⟨first,one,moved,changed,found⟩ := readMessageField_at malloc plenty before
      (fields.flatMap fieldBytes ++ after) type data (formed _ List.mem_cons_self) start buf read
    obtain ⟨t,mid,size,rest,ended,final,all⟩ := ih (before ++ hostField type data)
      (fun field member => formed field (List.mem_cons_of_mem _ member))
      (by rw [moved,start,List.length_append,hostField_length]) (by rw [changed,List.append_assoc]) found
    refine ⟨t,hostField type data ++ mid,?_,?_,?_,?_,?_⟩
    · rw [List.flatMap_cons,List.length_append,List.length_append,hostField_length,fieldBytes_length,size]
    · exact bind_given one rest
    · rw [ended,moved,List.length_append,hostField_length,Nat.add_assoc]
    · rw [final,List.append_assoc,List.append_assoc]
    · rw [← List.append_assoc]
      exact all

/-! ### Operations -/

theorem WireOp.host_length (op : WireOp) : op.host.length = 4 + op.opSz := by
  simp only [host,body,opSz,List.length_append,leBytes_length,List.length_singleton]
  omega

theorem WireOp.wire_length (op : WireOp) : op.wire.length = 4 + op.opSz := by
  simp only [wire,body,opSz,List.length_append,beBytes_length,List.length_singleton]
  omega

/-- An operation after the swap, as the readers find it. -/
structure HostWireOp (buf : List UInt8) (p : Nat) (op : WireOp) : Prop where
  sized : opSz buf p = some op.opSz
  typed : opParticleType buf p = some op.particleType
  nameSz : opNameSz buf p = some op.name.length
  named : readBytes buf (p + 8) op.name.length = some op.name
  value : ∃ before after, buf = before ++ (op.value ++ after) ∧ p + 8 + op.name.length = before.length

theorem swapWireOp_at (before after : List UInt8) (op : WireOp) (start : p = before.length) :
    clMsgSwapOp (before ++ (op.wire ++ after)) p = some (before ++ (op.host ++ after)) := by
  have swapped := swapBytes_at before (beBytes 4 op.opSz) (op.body ++ after) start (beBytes_length 4 _).symm
  rw [beBytes,List.reverse_reverse,← beBytes] at swapped
  rw [clMsgSwapOp,WireOp.wire,WireOp.host,List.append_assoc,List.append_assoc]
  exact swapped

theorem hostWireOp_at (before after : List UInt8) (op : WireOp) (formed : op.WellFormed) (start : p = before.length) :
    HostWireOp (before ++ (op.host ++ after)) p op := by
  have small : op.name.length.toUInt8.toNat = op.name.length :=
    UInt8.toNat_ofNat_of_lt' (Nat.lt_of_le_of_lt formed.name (by decide))
  have low : (256 : Nat) ^ 4 = 2 ^ 32 := by decide
  have header := opHeader_at before (op.name ++ (op.value ++ after)) op.op op.particleType op.version
    op.name.length.toUInt8 start (low ▸ formed.fits)
  have bytes : before ++ (op.host ++ after) = before ++ (leBytes 4 op.opSz ++ ([op.op] ++ ([op.particleType] ++
      ([op.version] ++ ([op.name.length.toUInt8] ++ (op.name ++ (op.value ++ after))))))) := by
    simp only [WireOp.host,WireOp.body,List.append_assoc]
  rw [← bytes] at header
  obtain ⟨front,parts,behind⟩ := header.behind
  have name := readBytes_at front op.name (op.value ++ after) behind rfl
  rw [← parts] at name
  refine ⟨header.sized,header.typed,header.nameSz.trans (congrArg some small),name,front ++ op.name,after,?_,?_⟩
  · rw [parts,List.append_assoc]
  · rw [List.length_append,behind]

/-- An integer of up to eight bytes has a value, which only its own bytes decide. -/
theorem opToValueInt_at (before after value : List UInt8) (start : p = before.length) (short : value.length ≤ 8) :
    ∃ v, opToValueInt (before ++ (value ++ after)) p value.length = some (0,some v) ∧
      opToValueInt value 0 value.length = some (0,some v) := by
  have whole := readBytes_at before value after start rfl
  have alone := readBytes_at [] value [] (p := 0) rfl rfl
  rw [List.nil_append,List.append_nil] at alone
  have notLong : ¬(8 : Int) < value.length := by omega
  unfold opToValueInt
  rw [if_neg notLong,if_neg notLong]
  by_cases eight : (value.length : Int) = 8
  · have length : value.length = 8 := by omega
    rw [length] at whole alone
    rw [if_pos eight,if_pos eight,whole,alone]
    exact ⟨_,rfl,rfl⟩
  rw [if_neg eight,if_neg eight]
  by_cases zero : (value.length : Int) = 0
  · rw [if_pos zero,if_pos zero]
    exact ⟨_,rfl,rfl⟩
  rw [if_neg zero,if_neg zero]
  cases value with
  | nil => exact absurd rfl zero
  | cons b value =>
    have first := readByte_at before b (value ++ after) start
    have firstAlone : readByte (b :: value) 0 = some b := rfl
    rw [List.cons_append,List.nil_append] at first
    rw [List.cons_append,first,firstAlone]
    simp only [Option.bind_eq_bind,Option.bind_some]
    rw [List.cons_append] at whole
    split
    · exact ⟨_,rfl,rfl⟩
    split
    · rw [Int.toNat_natCast,whole,alone]
      exact ⟨_,rfl,rfl⟩
    · rw [Int.toNat_natCast,whole,alone]
      exact ⟨_,rfl,rfl⟩

theorem HostWireOp.value_p (host : HostWireOp buf p op) : clMsgOpGetValueP buf p = some (p + 8 + op.name.length) := by
  rw [clMsgOpGetValueP,host.nameSz,Option.map_some]

theorem HostWireOp.next (host : HostWireOp buf p op) : clMsgOpGetNext buf p = some (p + 4 + op.opSz) := by
  rw [clMsgOpGetNext,host.sized,Option.map_some]

theorem HostWireOp.value_sz (host : HostWireOp buf p op) (formed : op.WellFormed) :
    clMsgOpGetValueSz buf p = some op.value.length := by
  apply bind_given host.sized
  apply bind_given host.nameSz
  have fits := formed.fits
  have size : valueSz op.opSz op.name.length = op.value.length := by
    unfold WireOp.opSz at *
    unfold valueSz
    omega
  exact congrArg some size

theorem HostWireOp.holds (host : HostWireOp buf p op) (formed : op.WellFormed) :
    HoldsValue buf p (p + 8 + op.name.length) op.particleType.toUInt32 op.value := by
  obtain ⟨before,after,parts,start⟩ := host.value
  refine ⟨⟨_,host.typed,rfl⟩,host.value_sz formed,host.value_p,?_⟩
  rw [parts]
  exact readBytes_at before op.value after start rfl

/-- The value of an operation is stored in whatever object its bin holds. -/
theorem setObject_wire (host : HostWireOp buf p op) (formed : op.WellFormed) (plenty : Plenty malloc) (obj : ClObject) :
    ∃ o, setObject malloc buf p obj = some (0,o) ∧
      op.view = ⟨cString op.name,o.type,o.sz,o.value⟩ := by
  have holds := host.holds formed
  have intNull : clInt ≠ clNull := labels_distinct.1
  unfold WireOp.view
  by_cases null : op.particleType.toUInt32 = clNull
  · rw [null] at holds
    refine ⟨_,holds.null malloc obj,?_⟩
    rw [if_pos null,ClObject.value,if_pos rfl]
  by_cases int : op.particleType.toUInt32 = clInt
  · have short := formed.int int
    obtain ⟨before,after,parts,start⟩ := host.value
    obtain ⟨v,here,alone⟩ := opToValueInt_at before after op.value start short
    have size : toInt op.value.length = op.value.length := if_pos (by omega)
    rw [← parts,← size] at here
    rw [int] at holds
    refine ⟨_,holds.int malloc obj here,?_⟩
    rw [if_neg null,if_pos int,ClObject.value,if_neg intNull,if_pos rfl,alone]
    rfl
  · have held : op.particleType.toUInt32 = clStr ∨ isBlob op.particleType.toUInt32 = true :=
      (formed.type.resolve_left null).resolve_left int
    obtain ⟨o,stored,type,sz,value⟩ := holds.bytes plenty held obj
    exact ⟨o,stored,by rw [if_neg null,if_neg int,type,sz,value]⟩

/-- A name with room is the string in front of its first NUL. -/
theorem BinName.set_cString {old new : BinName} {name : List UInt8} (set : old.set name = some new)
    (short : name.length ≤ 31) : new.str = cString name := by
  obtain ⟨out,copied,_,string⟩ := copyString_fits old.chars name (by rw [old.size]; omega)
  unfold BinName.set at set
  split at set
  · cases set
  · rename_i chars written
    obtain rfl := Option.some.inj set
    obtain rfl := Option.some.inj (written.symm.trans copied)
    exact string

/-- A bin set inside its name is one set inside its entry. -/
theorem clSetValueParticularEntry_of (done : clSetValueParticular malloc buf op value = some bin) :
    clSetValueParticularEntry malloc buf op value = some bin := by
  obtain ⟨nameSz,sized,done⟩ := Option.bind_eq_some_iff.mp done
  apply bind_given sized
  dsimp only at done ⊢
  split at done
  · rename_i long
    rw [if_pos long]
    exact done
  · rename_i short
    rw [if_neg short]
    obtain ⟨name,read,done⟩ := Option.bind_eq_some_iff.mp done
    obtain ⟨binName,set,done⟩ := Option.bind_eq_some_iff.mp done
    obtain ⟨stored,object,done⟩ := Option.bind_eq_some_iff.mp done
    have room : name.length < 32 := (BinName.set_isSome _ _).mp (by rw [set]; rfl)
    have filled : value.binName.fill name = binName := by
      rw [BinName.fill,dif_neg (Nat.ne_of_lt room),set,Option.getD_some]
    apply bind_given read
    apply bind_given object
    rw [filled]
    exact done

theorem clSetValueParticular_wire (host : HostWireOp buf p op) (formed : op.WellFormed) (plenty : Plenty malloc)
    (bin : ClBin) : ∃ value, clSetValueParticularEntry malloc buf p bin = some value ∧ value.view = op.view := by
  obtain ⟨o,set,view⟩ := setObject_wire host formed plenty bin.object
  obtain ⟨name,named,stored⟩ := clSetValueParticular_stored host.nameSz host.named formed.name set
  refine ⟨⟨name,o⟩,clSetValueParticularEntry_of stored,?_⟩
  rw [view,ClBin.view,BinName.set_cString named formed.name]

/-- Operations laid one behind the other are read into as many bins. -/
theorem readMessageOps_at (malloc : Nat → Option UInt64) (plenty : Plenty malloc) (before after : List UInt8)
    (ops : List WireOp) (bins : List ClBin) (count : bins.length = ops.length) (start : p = before.length)
    (formed : ∀ op ∈ ops, op.WellFormed) :
    ∃ values mid, mid.length = (ops.flatMap WireOp.wire).length ∧
      readMessageOps malloc bins (before ++ (ops.flatMap WireOp.wire ++ after)) p =
        some (values,before ++ (mid ++ after),p + mid.length) ∧
      values.map ClBin.view = ops.map WireOp.view := by
  induction ops generalizing before p bins with
  | nil =>
    obtain rfl := List.length_eq_zero_iff.mp count
    exact ⟨[],[],rfl,rfl,rfl⟩
  | cons op ops ih =>
    cases bins with
    | nil => cases count
    | cons bin bins =>
      have accepted := formed op List.mem_cons_self
      have swapped := swapWireOp_at before (ops.flatMap WireOp.wire ++ after) op start
      have host := hostWireOp_at before (ops.flatMap WireOp.wire ++ after) op accepted start
      obtain ⟨value,stored,view⟩ := clSetValueParticular_wire host accepted plenty bin
      obtain ⟨values,mid,size,rest,views⟩ := ih (before ++ op.host) bins (p := p + 4 + op.opSz)
        (Nat.succ.inj count) (by rw [List.length_append,WireOp.host_length,start,Nat.add_assoc])
        fun other member => formed other (List.mem_cons_of_mem _ member)
      rw [List.append_assoc,List.append_assoc] at rest
      refine ⟨value :: values,op.host ++ mid,?_,?_,?_⟩
      · rw [List.flatMap_cons,List.length_append,List.length_append,WireOp.host_length,WireOp.wire_length,size]
      · have ended : p + (op.host ++ mid).length = p + 4 + op.opSz + mid.length := by
          rw [List.length_append,WireOp.host_length]
          omega
        rw [List.flatMap_cons,List.append_assoc,List.append_assoc,ended]
        apply bind_given swapped
        apply bind_given stored
        apply bind_given host.next
        exact bind_given rest rfl
      · rw [List.map_cons,List.map_cons,view,views]

/-! ### Messages -/

theorem StreamMessage.wire_length (msg : StreamMessage) :
    msg.wire.length = 22 + ((msg.fields.flatMap fieldBytes).length + (msg.ops.flatMap WireOp.wire).length) := by
  rw [wire,List.length_append,List.length_append,ClMsg.wire_length]

theorem ClMsg.bytes_length (m : ClMsg) : m.bytes.length = 22 := by simp [bytes]

theorem binsLocal_plenty (heap : Heap) (plenty : Plenty heap.malloc) (stack : List ClBin) (room : stack.length = stackBins)
    (nOps : Nat) : ∃ bins, binsLocal heap stack nOps = some bins ∧ bins.length = nOps := by
  unfold binsLocal
  split
  · obtain ⟨address,given⟩ := plenty (64 * nOps)
    exact ⟨_,by rw [given,Option.map_some],by rw [List.length_map,List.length_range]⟩
  · exact ⟨_,rfl,List.length_take_of_le (by omega)⟩

/-- A message is read where it lies, and the cursor ends behind it. -/
theorem readMessage_at (heap : Heap) (plenty : Plenty heap.malloc) (before after : List UInt8) (msg : StreamMessage)
    (formed : msg.WellFormed) (stack : List ClBin) (room : stack.length = stackBins) :
    ∃ read mid, readMessage heap stack (before ++ (msg.wire ++ after)) before.length = some (.ok read) ∧
      mid.length = msg.wire.length ∧ read.m = msg.m ∧ read.record.view = msg.view ∧
      read.buf = before ++ mid ++ after ∧ read.next = (before ++ mid).length ∧ read.stack.length = stackBins := by
  have header := clMsgSwapHeader_wire msg.m before
    (msg.fields.flatMap fieldBytes ++ (msg.ops.flatMap WireOp.wire ++ after)) rfl
  have known := readMsg_bytes msg.m before
    (msg.fields.flatMap fieldBytes ++ (msg.ops.flatMap WireOp.wire ++ after)) rfl
  have start : before.length + 22 = (before ++ msg.m.bytes).length := by
    rw [List.length_append,ClMsg.bytes_length]
  have none : FieldsRead (before ++ msg.m.bytes) (.init (before ++ (msg.m.bytes ++ (msg.fields.flatMap fieldBytes ++
      (msg.ops.flatMap WireOp.wire ++ after)))) (before.length + 22)) .none :=
    ⟨List.length_replicate,rfl,rfl,nofun,rfl⟩
  obtain ⟨fields,mid,size,fieldsRead,moved,buf,found⟩ := readMessageFields_at heap.malloc plenty
    (before ++ msg.m.bytes) (msg.ops.flatMap WireOp.wire ++ after) msg.fields formed.fields start
    (by rw [List.append_assoc]; rfl) none
  obtain ⟨bins,given,count⟩ := binsLocal_plenty heap plenty stack room msg.m.nOps.toNat
  have behind : fields.mf = (before ++ msg.m.bytes ++ mid).length := by
    rw [moved,List.length_append,← start]
    rfl
  obtain ⟨values,ops,opsSize,opsRead,views⟩ := readMessageOps_at heap.malloc plenty (before ++ msg.m.bytes ++ mid)
    after msg.ops bins (count.trans formed.nOps) behind formed.ops
  have parts : fields.buf = before ++ msg.m.bytes ++ mid ++ (msg.ops.flatMap WireOp.wire ++ after) := by
    rw [buf,List.append_assoc _ mid]
  rw [← parts] at opsRead
  rw [← formed.nFields] at fieldsRead
  have whole : (msg.m.bytes ++ mid ++ ops).length = msg.wire.length := by
    rw [List.length_append,List.length_append,ClMsg.bytes_length,size,opsSize,msg.wire_length,Nat.add_assoc]
  have final : before ++ msg.m.bytes ++ mid ++ (ops ++ after) = before ++ (msg.m.bytes ++ mid ++ ops) ++ after := by
    simp only [List.append_assoc]
  have view := found.more (t := fields) (ops ++ after) rfl rfl rfl
  have filled : values.length = msg.m.nOps.toNat := by
    have same := congrArg List.length views
    rw [List.length_map,List.length_map] at same
    rw [same,formed.nOps]
  refine ⟨⟨msg.m,⟨fields.nsRet,fields.keyd.map fun keyd =>
      ((before ++ msg.m.bytes ++ mid ++ (ops ++ after)).drop keyd).take 20,fields.setRet,msg.m.generation,
      msg.m.recordTtl,values⟩,before ++ msg.m.bytes ++ mid ++ (ops ++ after),fields.mf + ops.length,
      if msg.m.nOps.toNat > stackBins then stack else values ++ stack.drop msg.m.nOps.toNat⟩,
    msg.m.bytes ++ mid ++ ops,?_,whole,rfl,?_,final,?_,?_⟩
  · have sent : before ++ (msg.wire ++ after) = before ++ (msg.m.wire ++ (msg.fields.flatMap fieldBytes ++
        (msg.ops.flatMap WireOp.wire ++ after))) := by
      rw [StreamMessage.wire,List.append_assoc,List.append_assoc]
    rw [sent]
    apply bind_given header
    apply bind_given known
    rw [if_neg (Decidable.not_not.mpr formed.headerSz)]
    apply bind_given fieldsRead
    rw [given]
    exact bind_given opsRead rfl
  · rw [StreamMessage.view,CallbackRecord.view,views,view.ns,view.digest,view.set]
  · change fields.mf + ops.length = _
    simp only [behind,List.length_append,Nat.add_assoc]
  · dsimp only
    split
    · exact room
    · rw [List.length_append,List.length_drop,filled,room]
      omega

end Citrusleaf
