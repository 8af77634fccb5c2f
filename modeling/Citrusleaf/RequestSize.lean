import Citrusleaf.RequestLayout

/-! The header of a request against what is laid out behind it. The size is counted in one
pass and the parts are written in another; where the two differ, the declared length is
wrong. -/
namespace Citrusleaf
open Lib

/-! ### What is counted -/

/-- How much more is counted for a key than its bytes. -/
def ClObject.keyMiscount (key : ClObject) : Int := if key.type = clInt then key.sz - 8 else 0

/-- How much more is counted for a value than is written: all of it where the operator is
not listed, and the size of the blob against two integers for `MC_INCR`. -/
def ClOperation.miscount (operation : ClOperation) : Int :=
  match clMsgOp operation.op with
  | none => (clValueToOpGetSize operation.bin).getD 0
  | some code => if code = 129 ∧ isBlob operation.bin.object.type then operation.bin.object.sz - 16 else 0

/-- The bytes counted and not written: one each for a digest and for scan options, and the
differences of the key and the values. -/
def CompileArgs.miscount (args : CompileArgs) : Int :=
  (if args.digest.isSome then 1 else 0) + (if args.scanParamField.isSome then 1 else 0) +
    (args.key.map ClObject.keyMiscount).getD 0 + (args.values.ops.map ClOperation.miscount).sum

theorem ClOperation.Reads.counted {operation : ClOperation} (reads : operation.Reads) :
    ∃ size, clValueToOpGetSize operation.bin = some size ∧
      (size : Int) = operation.laidValueSz + operation.miscount := by
  obtain ⟨intNull,strNull,strInt,blobNull,blobInt,blobStr⟩ := labels_distinct
  unfold clValueToOpGetSize ClOperation.miscount ClOperation.laidValueSz
  rcases reads.type with null | int | str | blob
  · cases clMsgOp operation.op <;> simp [clValueToOpGetSize,null,blobNull]
  · cases clMsgOp operation.op <;> simp [clValueToOpGetSize,int,intNull,blobInt]
  · cases clMsgOp operation.op <;> simp [clValueToOpGetSize,str,strNull,strInt,blobStr]
  · have notNull : operation.bin.object.type ≠ clNull := fun null => by simp [null,blobNull] at blob
    have notInt : operation.bin.object.type ≠ clInt := fun int => by simp [int,blobInt] at blob
    have notStr : operation.bin.object.type ≠ clStr := fun str => by simp [str,blobStr] at blob
    cases clMsgOp operation.op with
    | none => simp [clValueToOpGetSize,notNull,notInt,notStr,blob]
    | some code => by_cases two : code = 129 <;> simp [notNull,notInt,notStr,blob,two]

theorem opsSize_counted (operations : List ClOperation) (reads : ∀ operation ∈ operations, operation.Reads) :
    ∃ size, opsSize operations = some size ∧
      (size : Int) = (operations.map ClOperation.laidSz).sum + (operations.map ClOperation.miscount).sum := by
  induction operations with
  | nil => exact ⟨0,rfl,rfl⟩
  | cons operation operations ih =>
    obtain ⟨value,counted,same⟩ := (reads operation List.mem_cons_self).counted
    obtain ⟨size,rest,total⟩ := ih fun other member => reads other (List.mem_cons_of_mem _ member)
    refine ⟨8 + operation.bin.binName.str.length + value + size,?_,?_⟩
    · rw [opsSize,counted,rest]
      rfl
    · simp only [List.map_cons,List.sum_cons,ClOperation.laidSz,ClOperation.name]
      omega

theorem present_sum (type : UInt8) (data : Option (List UInt8)) :
    (fieldSizes (present type data)).sum = (data.map (5 + ·.length)).getD 0 := by
  cases data <;> simp [fieldSizes,present]

theorem fieldsSize_counted (args : CompileArgs) (reads : args.Reads) :
    (args.fieldsSize : Int) = (fieldSizes args.laidFields).sum + ((if args.digest.isSome then 1 else 0) +
      (if args.scanParamField.isSome then 1 else 0) + (args.key.map ClObject.keyMiscount).getD 0) := by
  have string (str : Option CString) : ((str.map cutString).map (5 + ·.length)).getD 0 =
      (str.map (5 + stringSz ·)).getD 0 := by
    cases str <;> simp [cutString_length]
  have trid : (args.tridData.map (5 + ·.length)).getD 0 = if args.trid = 0 then 0 else 5 + 8 := by
    unfold CompileArgs.tridData
    split <;> simp
  have scan : (args.scanData.map (5 + ·.length)).getD 0 = if args.scanParamField.isSome then 5 + 2 else 0 := by
    unfold CompileArgs.scanData
    cases args.scanParamField <;> simp
  have digest : (args.digestData.map (5 + ·.length)).getD 0 = if args.digest.isSome then 5 + 20 else 0 := by
    unfold CompileArgs.digestData
    cases args.digest <;> simp
  have key : (((args.key.map (5 + 1 + ·.sz)).getD 0 : Nat) : Int) =
      (((args.keyData.map (5 + ·.length)).getD 0 : Nat) : Int) + (args.key.map ClObject.keyMiscount).getD 0 := by
    unfold CompileArgs.keyData
    cases given : args.key with
    | none => rfl
    | some key =>
      obtain ⟨typed,read⟩ := reads.key key given
      have notNull := typed.not_null
      have length : (key.wireValue.length : Int) + key.keyMiscount = key.sz := by
        by_cases int : key.type = clInt
        · rw [ClObject.wireValue,if_neg notNull,if_pos int,beBytes_length,ClObject.keyMiscount,if_pos int]
          omega
        · obtain ⟨bytes,copied⟩ := Option.isSome_iff_exists.mp (read int)
          rw [ClObject.wireValue,if_neg notNull,if_neg int,copied,Option.getD_some,ClUnion.copy_length copied,
            ClObject.keyMiscount,if_neg int,Int.add_zero]
      simp only [Option.map_some,Option.getD_some,List.length_cons]
      omega
  have parts : (fieldSizes args.laidFields).sum = (args.ns.map (5 + stringSz ·)).getD 0 +
      ((args.set.map (5 + stringSz ·)).getD 0 + ((if args.trid = 0 then 0 else 5 + 8) +
      ((if args.scanParamField.isSome then 5 + 2 else 0) + ((args.keyData.map (5 + ·.length)).getD 0 +
      (if args.digest.isSome then 5 + 20 else 0))))) := by
    rw [← string,← string,← trid,← scan,← digest]
    have split (first later : List (UInt8 × List UInt8)) :
        (fieldSizes (first ++ later)).sum = (fieldSizes first).sum + (fieldSizes later).sum := by
      rw [fieldSizes,List.map_append,List.sum_append]
      rfl
    unfold CompileArgs.laidFields CompileArgs.fields
    simp only [split,present_sum]
    rfl
  have fields := CompileArgs.fieldsSize.eq_1 args
  by_cases trid : args.trid = 0 <;> by_cases digest : args.digest.isSome <;>
    by_cases scan : args.scanParamField.isSome <;>
    simp only [trid,digest,scan,if_true,if_false,Bool.false_eq_true] at fields parts ⊢ <;> omega

theorem CompileArgs.Reads.counted {args : CompileArgs} (reads : args.Reads) :
    ∃ msgSz, args.msgSz = some msgSz ∧ (msgSz : Int) = 30 + args.parts.sum + args.miscount := by
  obtain ⟨ops,counted,total⟩ := opsSize_counted args.values.ops reads.ops
  have fields := fieldsSize_counted args reads
  refine ⟨30 + args.fieldsSize + ops,by rw [CompileArgs.msgSz,counted,Option.map_some],?_⟩
  rw [CompileArgs.parts,List.sum_append,CompileArgs.miscount]
  omega

/-! ### The declared length -/

/-- Bytes a part takes and the position does not move over. -/
def overrun (written : Nat) : Nat := 2 ^ 32 * ((written - 4) / 2 ^ 32)

theorem advance_add_overrun (room : 4 ≤ written) : advance written + overrun written = written := by
  have parts := Nat.mod_add_div (written - 4) (2 ^ 32)
  rw [advance,overrun,Nat.add_assoc,parts]
  exact Nat.add_sub_cancel' room

theorem advance_sum {parts : List Nat} (room : ∀ written ∈ parts, 4 ≤ written) :
    (parts.map advance).sum + (parts.map overrun).sum = parts.sum := by
  induction parts with
  | nil => rfl
  | cons written parts ih =>
    have one := advance_add_overrun (room written List.mem_cons_self)
    have rest := ih fun other member => room other (List.mem_cons_of_mem _ member)
    simp only [List.map_cons,List.sum_cons]
    omega

theorem overrun_sum (parts : List Nat) :
    ((parts.map overrun).sum = 0 ∧ ∀ written ∈ parts, written < 2 ^ 32 + 4) ∨
      (2 ^ 32 ≤ (parts.map overrun).sum ∧ ¬∀ written ∈ parts, written < 2 ^ 32 + 4) := by
  induction parts with
  | nil => exact .inl ⟨rfl,fun _ member => absurd member List.not_mem_nil⟩
  | cons written parts ih =>
    have one : (overrun written = 0 ∧ written < 2 ^ 32 + 4) ∨
        (2 ^ 32 ≤ overrun written ∧ ¬written < 2 ^ 32 + 4) := by
      unfold overrun
      omega
    simp only [List.map_cons,List.sum_cons,List.forall_mem_cons]
    rcases one with ⟨none,short⟩ | ⟨some,long⟩
    · rcases ih with ⟨noneLater,whole⟩ | ⟨someLater,cut⟩
      · exact .inl ⟨by omega,short,whole⟩
      · exact .inr ⟨by omega,fun both => cut both.2⟩
    · exact .inr ⟨by omega,fun both => long both.1⟩

theorem fits_of_sum {parts : List Nat} (room : ∀ written ∈ parts, 4 ≤ written) (inside : p + parts.sum ≤ limit) :
    Fits limit p parts := by
  induction parts generalizing p with
  | nil => trivial
  | cons written parts ih =>
    have one := advance_add_overrun (room written List.mem_cons_self)
    rw [List.sum_cons] at inside
    exact ⟨by omega,ih (fun other member => room other (List.mem_cons_of_mem _ member)) (by omega)⟩

/-- With a miscount above `-2^32` the end of the parts is the counted size only when nothing is
miscounted and no part overruns its size field. -/
theorem counted_iff {msgSz : Nat} {parts : List Nat} (room : ∀ written ∈ parts, 4 ≤ written) (few : -2 ^ 32 < miscount)
    (counted : (msgSz : Int) = 30 + parts.sum + miscount) :
    Fits msgSz 30 parts ∧ msgSz = endOf 30 parts ↔ miscount = 0 ∧ ∀ written ∈ parts, written < 2 ^ 32 + 4 := by
  have split := advance_sum room
  rw [endOf_eq]
  constructor
  · rintro ⟨_,same⟩
    rcases overrun_sum parts with ⟨none,whole⟩ | ⟨some,_⟩
    · exact ⟨by omega,whole⟩
    · omega
  · rintro ⟨rfl,whole⟩
    rcases overrun_sum parts with ⟨none,_⟩ | ⟨_,cut⟩
    · exact ⟨fits_of_sum room (by omega),by omega⟩
    · exact absurd whole cut

/-- The header of a request laid in parts, read back against where the parts end. -/
theorem headerTruth_iff {m : ClMsg} (fields ops : Nat) (laid : Checked (Fits msgSz 30 parts)
      (fun out => out.1 = 0 ∧ LaysTo 30 ((headerProto msgSz).wire ++ (m.wire ++ rest)) 30 parts out.2) x)
    (large : 30 ≤ msgSz) (addressable : msgSz < 2 ^ 48) :
    (∃ buf endAt, x = some ((0 : Int),buf,endAt) ∧ HeaderTruth buf endAt fields ops) ↔
      (Fits msgSz 30 parts ∧ msgSz = endOf 30 parts) ∧ m.nFields.toNat = fields ∧ m.nOps.toNat = ops := by
  have behind := le_endOf 30 parts
  have cut : (msgSz - 8) % 2 ^ 48 = msgSz - 8 := Nat.mod_eq_of_lt (by omega)
  constructor
  · rintro ⟨buf,endAt,rfl,truth⟩
    obtain ⟨_,keeps,rfl⟩ := laid.meets rfl
    obtain ⟨sz,nFields,nOps⟩ := header_reads m rest keeps
    have size := Option.some.inj (sz.symm.trans truth.sz)
    refine ⟨⟨laid.isSome_iff.mp rfl,by omega⟩,Option.some.inj (nFields.symm.trans truth.nFields),
      Option.some.inj (nOps.symm.trans truth.nOps)⟩
  · rintro ⟨⟨fits,same⟩,rfl,rfl⟩
    obtain ⟨⟨rv,buf,endAt⟩,rfl⟩ := Option.isSome_iff_exists.mp (laid.isSome_iff.mpr fits)
    obtain ⟨rfl,keeps,rfl⟩ := laid.meets rfl
    obtain ⟨sz,nFields,nOps⟩ := header_reads m rest keeps
    refine ⟨buf,_,rfl,⟨sz.trans ?_,nFields,nOps⟩⟩
    rw [cut,← same]

theorem cut_count (n : Nat) : n.toUInt16.toNat = n ↔ n ≤ 65535 := by
  rw [Nat.toUInt16,UInt16.toNat_ofNat']
  omega

theorem stringField_unmeasured (broken : ¬Measured str) : stringField str = none := by
  cases str with
  | none =>
    refine absurd ?_ broken
    rintro s ⟨⟩
  | some s =>
    cases read : intStrlen s with
    | none => rw [stringField,read,Option.map_none]
    | some len =>
      refine absurd ?_ broken
      rintro s ⟨⟩
      rw [read]
      rfl

/-! ### What `cl_compile` declares -/

theorem fieldSizes_room (fields : List (UInt8 × List UInt8)) : ∀ written ∈ fieldSizes fields, 4 ≤ written := by
  intro written member
  obtain ⟨field,_,rfl⟩ := List.mem_map.mp member
  omega

theorem opSizes_room (operations : List ClOperation) :
    ∀ written ∈ operations.map ClOperation.laidSz, 4 ≤ written := by
  intro written member
  obtain ⟨operation,_,rfl⟩ := List.mem_map.mp member
  unfold ClOperation.laidSz
  omega

theorem parts_room (fields : List (UInt8 × List UInt8)) (operations : List ClOperation) :
    ∀ written ∈ fieldSizes fields ++ operations.map ClOperation.laidSz, 4 ≤ written := by
  intro written member
  rcases List.mem_append.mp member with field | operation
  · exact fieldSizes_room fields written field
  · exact opSizes_room operations written operation

theorem miscounts_bound (operations : List ClOperation) :
    -16 * (operations.length : Int) ≤ (operations.map ClOperation.miscount).sum := by
  induction operations with
  | nil => exact Int.le_refl 0
  | cons operation operations ih =>
    have one : -16 ≤ operation.miscount := by
      unfold ClOperation.miscount
      split
      · omega
      · split <;> omega
    rw [List.map_cons,List.sum_cons,List.length_cons]
    omega

/-- The header of a compiled request is true of its buffer. -/
def CompileArgs.TellsTruth (args : CompileArgs) : Prop :=
  ∃ buf endAt, clCompileTo args = some (0,buf,endAt) ∧
    HeaderTruth buf endAt args.laidFields.length args.values.ops.length

/-- Strings with a length, nothing miscounted, no part over the size field of its kind, and a
count of operations on 16 bits. -/
structure CompileArgs.Declarable (args : CompileArgs) : Prop where
  ns : Measured args.ns
  set : Measured args.set
  miscount : args.miscount = 0
  parts : ∀ written ∈ args.parts, written < 2 ^ 32 + 4
  count : args.values.ops.length ≤ 65535

theorem laidFields_length (args : CompileArgs) :
    args.nFields = args.laidFields.length ∧ args.laidFields.length ≤ 6 := by
  have counted := nFields_eq {args with ns := args.ns.map cutString,set := args.set.map cutString}
  have same : args.nFields =
      CompileArgs.nFields {args with ns := args.ns.map cutString,set := args.set.map cutString} := by
    unfold CompileArgs.nFields
    cases args.ns <;> cases args.set <;> rfl
  rw [same]
  exact counted

theorem CompileArgs.Reads.tellsTruth_iff {args : CompileArgs} (reads : args.Reads) :
    args.TellsTruth ↔ args.miscount = 0 ∧ (∀ written ∈ args.parts, written < 2 ^ 32 + 4) ∧
      args.values.ops.length ≤ 65535 := by
  obtain ⟨msgSz,size,counted⟩ := reads.counted
  obtain ⟨nFields,few⟩ := laidFields_length args
  have large : 30 ≤ msgSz := by
    obtain ⟨ops,_,rfl⟩ := Option.map_eq_some_iff.mp size
    omega
  have fields : args.header.nFields.toNat = args.laidFields.length := by
    change args.nFields.toUInt16.toNat = _
    rw [nFields]
    exact (cut_count _).mpr (few.trans (by decide))
  have key : -8 ≤ (args.key.map ClObject.keyMiscount).getD 0 := by
    cases args.key with
    | none => decide
    | some key =>
      rw [Option.map_some,Option.getD_some,ClObject.keyMiscount]
      split <;> omega
  have ops := miscounts_bound args.values.ops
  have truth := headerTruth_iff args.laidFields.length args.values.ops.length
    (clCompileTo_checked args reads size large) large (reads.addressable msgSz size)
  have count : args.header.nOps.toNat = args.values.ops.length ↔ args.values.ops.length ≤ 65535 := cut_count _
  rw [CompileArgs.TellsTruth,truth,count,and_iff_right fields,← and_assoc]
  refine and_congr_left fun short => counted_iff (parts_room _ _) ?_ counted
  unfold CompileArgs.miscount
  split <;> split <;> omega

/-- Without a length for a string the copy of it does not return. -/
theorem clCompileTo_unmeasured (args : CompileArgs) (size : args.msgSz = some msgSz)
    (broken : ¬(Measured args.ns ∧ Measured args.set)) : clCompileTo args = none := by
  have fields (buf : List UInt8) : writeFields buf 30 args = none := by
    unfold writeFields
    by_cases ns : Measured args.ns
    · rw [stringField_unmeasured fun set => broken ⟨ns,set⟩]
      simp only [Option.bind_eq_bind,Option.bind_none,Option.bind_fun_none]
    · rw [stringField_unmeasured ns]
      rfl
  unfold clCompileTo
  rw [size]
  simp only [fields,Option.bind_eq_bind,Option.bind_none,Option.bind_fun_none]

theorem CompileArgs.Compilable.tellsTruth_iff {args : CompileArgs} (compilable : args.Compilable) :
    args.TellsTruth ↔ args.Declarable := by
  by_cases measured : Measured args.ns ∧ Measured args.set
  · have reads : args.Reads := ⟨compilable,measured.1,measured.2⟩
    rw [reads.tellsTruth_iff]
    exact ⟨fun ⟨same,parts,count⟩ => ⟨measured.1,measured.2,same,parts,count⟩,
      fun declarable => ⟨declarable.miscount,declarable.parts,declarable.count⟩⟩
  · constructor
    · rintro ⟨buf,endAt,compiled,_⟩
      cases size : args.msgSz with
      | none =>
        rw [clCompileTo,size] at compiled
        cases compiled
      | some msgSz =>
        rw [clCompileTo_unmeasured args size measured] at compiled
        cases compiled
    · intro declarable
      exact absurd ⟨declarable.ns,declarable.set⟩ measured

/-! ### What `batch_compile` declares -/

/-- The fields of a batch as they are laid. -/
def BatchArgs.laidFields [DecidableEq ν] (args : BatchArgs ν) : List (UInt8 × List UInt8) :=
  present clMsgFieldTypeNamespace (args.ns.map cutString) ++
    [(clMsgFieldTypeDigestRipeArray,(myDigests args.digests args.myNode).flatMap Vector.toList)]

def BatchArgs.parts [DecidableEq ν] (args : BatchArgs ν) : List Nat :=
  fieldSizes args.laidFields ++ args.ops.map ClOperation.laidSz

/-- Bins `batch_compile` accepts and can read, the count of the digests it is called with, and a
request inside the address space. -/
structure BatchArgs.Compilable [DecidableEq ν] (args : BatchArgs ν) : Prop where
  ops : ∀ operation ∈ args.ops, operation.Reads
  mine : args.nMyDigests = (myDigests args.digests args.myNode).length
  addressable : ∀ msgSz, args.msgSz = some msgSz → msgSz < 2 ^ 48

/-- One byte for the digest array, and the differences of the values. -/
def BatchArgs.miscount (args : BatchArgs ν) : Int := 1 + (args.ops.map ClOperation.miscount).sum

def BatchArgs.header (args : BatchArgs ν) : ClMsg :=
  headerMsg args.info1 (batchInfo2 args.info2 args.clWP).1 0 (batchInfo2 args.info2 args.clWP).2
    ((args.clWP.map (·.recordTtl)).getD 0) ((args.clWP.map (·.timeoutMs.toUInt32)).getD 0) batchNFields
    args.ops.length

variable {ν : Type} [DecidableEq ν] {args : BatchArgs ν}

theorem BatchArgs.Compilable.counted (compilable : args.Compilable) :
    ∃ msgSz, args.msgSz = some msgSz ∧ (msgSz : Int) = 30 + args.parts.sum + args.miscount := by
  obtain ⟨ops,counted,total⟩ := opsSize_counted args.ops compilable.ops
  refine ⟨30 + args.fieldsSize + ops,by rw [BatchArgs.msgSz,counted,Option.map_some],?_⟩
  have ns : (fieldSizes (present clMsgFieldTypeNamespace (args.ns.map cutString))).sum =
      (args.ns.map (stringSz · + 5)).getD 0 := by
    rw [present_sum]
    cases args.ns with
    | none => rfl
    | some s => rw [Option.map_some,Option.map_some,Option.map_some,cutString_length,Nat.add_comm]
  have fields : (fieldSizes args.laidFields).sum = (args.ns.map (stringSz · + 5)).getD 0 +
      (5 + 20 * args.nMyDigests) := by
    rw [BatchArgs.laidFields,fieldSizes,List.map_append,List.sum_append,compilable.mine,← digests_length]
    exact congrArg (· + _) ns
  rw [BatchArgs.parts,List.sum_append,BatchArgs.miscount,fields,BatchArgs.fieldsSize]
  omega

theorem writeFieldsBatchDigests_cut (compilable : args.Compilable) (ns : Measured args.ns) (buf : List UInt8)
    (mf : Nat) : writeFieldsBatchDigests buf mf args = layAll buf mf args.laidFields := by
  have size : digestFieldSz args.nMyDigests =
      ((myDigests args.digests args.myNode).flatMap Vector.toList).length + 1 := by
    rw [digestFieldSz,digests_length,compilable.mine]
  unfold writeFieldsBatchDigests
  rw [stringField_cut args.ns ns,BatchArgs.laidFields,layAll_append,size]
  simp only [layPresent_eq,Option.bind_eq_bind,Option.bind_some]
  congr
  funext out
  rw [layAll]
  exact (Option.bind_fun_some _).symm

theorem batchCompileTo_checked (compilable : args.Compilable) (ns : Measured args.ns)
    (size : args.msgSz = some msgSz) (large : 30 ≤ msgSz) :
    Checked (Fits msgSz 30 args.parts)
      (fun out => out.1 = 0 ∧ LaysTo 30 (headerBlock msgSz args.header) 30 args.parts out.2)
      (batchCompileTo args) := by
  have length := headerBlock_length (m := args.header) large
  have fields := layAll_checked (n := 30) args.laidFields (headerBlock msgSz args.header) 30 (Nat.le_refl 30)
  rw [length] at fields
  have laid := fields.request length args.ops compilable.ops
  unfold batchCompileTo
  rw [size]
  dsimp only
  rw [blank_block large,clWriteHeader_at _ _ List.length_replicate]
  change Checked _ _ (Option.bind (writeFieldsBatchDigests (headerBlock msgSz args.header) 30 args) _)
  rw [writeFieldsBatchDigests_cut compilable ns]
  simp only [Option.map_eq_bind] at laid
  exact laid

def BatchArgs.TellsTruth (args : BatchArgs ν) : Prop :=
  ∃ buf endAt, batchCompileTo args = some (0,buf,endAt) ∧
    HeaderTruth buf endAt args.laidFields.length args.ops.length

/-- A namespace with a length, and bins whose own miscount makes up for the byte that is counted
for the digest array. -/
structure BatchArgs.Declarable (args : BatchArgs ν) : Prop where
  given : args.ns.isSome
  ns : Measured args.ns
  miscount : args.miscount = 0
  parts : ∀ written ∈ args.parts, written < 2 ^ 32 + 4
  count : args.ops.length ≤ 65535

theorem BatchArgs.Compilable.tellsTruth_iff (compilable : args.Compilable) :
    args.TellsTruth ↔ args.Declarable := by
  obtain ⟨msgSz,size,counted⟩ := compilable.counted
  have large : 30 ≤ msgSz := by
    obtain ⟨ops,_,rfl⟩ := Option.map_eq_some_iff.mp size
    omega
  by_cases ns : Measured args.ns
  · have ops := miscounts_bound args.ops
    have truth := headerTruth_iff args.laidFields.length args.ops.length
      (batchCompileTo_checked compilable ns size large) large (compilable.addressable msgSz size)
    have count : args.header.nOps.toNat = args.ops.length ↔ args.ops.length ≤ 65535 := cut_count _
    have fields : args.header.nFields.toNat = args.laidFields.length ↔ args.ns.isSome := by
      change 2 = args.laidFields.length ↔ _
      rw [BatchArgs.laidFields,present]
      cases args.ns <;> simp
    have whole (short : args.ops.length ≤ 65535) : Fits msgSz 30 args.parts ∧ msgSz = endOf 30 args.parts ↔
        args.miscount = 0 ∧ ∀ written ∈ args.parts, written < 2 ^ 32 + 4 := by
      apply counted_iff (parts_room _ _) _ counted
      unfold BatchArgs.miscount
      omega
    rw [BatchArgs.TellsTruth,truth,count,fields]
    constructor
    · rintro ⟨same,given,short⟩
      obtain ⟨miscount,parts⟩ := (whole short).mp same
      exact ⟨given,ns,miscount,parts,short⟩
    · intro declarable
      exact ⟨(whole declarable.count).mpr ⟨declarable.miscount,declarable.parts⟩,declarable.given,declarable.count⟩
  · constructor
    · rintro ⟨buf,endAt,compiled,_⟩
      rw [batchCompileTo,size] at compiled
      simp only [writeFieldsBatchDigests,stringField_unmeasured ns,Option.bind_eq_bind,Option.bind_none,
        Option.bind_fun_none] at compiled
      cases compiled
    · intro declarable
      exact absurd declarable.ns ns

/-! ### The header of a request -/

/-- The header tells the truth exactly when nothing is miscounted: neither a digest nor scan
options in a request, a namespace and no digest array of its own count in a batch. -/
theorem header_tells_truth (args : CompileArgs) (batch : BatchArgs ν) (compilable : args.Compilable)
    (batchCompilable : batch.Compilable) :
    (args.TellsTruth ↔ args.Declarable) ∧ (batch.TellsTruth ↔ batch.Declarable) :=
  ⟨compilable.tellsTruth_iff,batchCompilable.tellsTruth_iff⟩

/-- Write one integer bin of the record with a key: neither a digest nor scan options. -/
def keyArgs : CompileArgs :=
  {sampleArgs (citrusleafObjectInitInt unsetObject 7) with scanParamField := none}

/-- Read the record with a digest. -/
def digestArgs : CompileArgs :=
  {keyArgs with key := none,digest := some (Vector.replicate 20 1),values := .values [] .read}

/-- The bins of a batch, all bytes of one node, in the namespace `test`. -/
def batchOf (values : List ClBin) : BatchArgs Nat :=
  {info1 := 1,info2 := 0,ns := some (text "test"),digests := [⟨Vector.replicate 20 1,0⟩],myNode := 0
   nMyDigests := 1,values,operator := .read,clWP := none}

theorem header_tells_truth_key : keyArgs.TellsTruth ∧ ¬(batchOf []).TellsTruth := by
  have compilable : keyArgs.Compilable := by
    refine ⟨?_,?_,?_⟩
    · rintro key ⟨⟩
      exact ⟨.inr (.inl rfl),fun int => absurd rfl int⟩
    · intro operation member
      obtain rfl := List.mem_singleton.mp member
      exact ⟨.inr (.inl rfl),fun code _ => rfl⟩
    · intro msgSz size
      obtain rfl : 83 = msgSz := Option.some.inj ((by decide : keyArgs.msgSz = some 83).symm.trans size)
      decide
  have batchCompilable : (batchOf []).Compilable := by
    refine ⟨nofun,rfl,?_⟩
    intro msgSz size
    obtain rfl : 65 = msgSz := Option.some.inj ((by decide : (batchOf []).msgSz = some 65).symm.trans size)
    decide
  obtain ⟨key,batch⟩ := header_tells_truth keyArgs (batchOf []) compilable batchCompilable
  refine ⟨key.mpr ⟨?_,nofun,by decide,by decide,by decide⟩,?_⟩
  · rintro ns ⟨⟩
    decide
  · intro truth
    exact absurd (batch.mp truth).miscount (by decide)

/-- A request with a digest declares 70 bytes and lays out 69. -/
theorem digest_overdeclared : ¬∀ args : CompileArgs, args.Compilable → args.TellsTruth := by
  intro every
  have size : digestArgs.msgSz = some 78 := by decide
  obtain ⟨buf,endAt,compiled,truth⟩ := every digestArgs ⟨nofun,nofun,fun msgSz given => by
    obtain rfl := Option.some.inj (size.symm.trans given)
    decide⟩
  have outcome : (clCompileTo digestArgs).map (fun out => ((readBytes out.2.1 2 6).map beNat,out.2.2)) =
      some (some 70,77) := by decide
  rw [compiled,Option.map_some,truth.sz] at outcome
  obtain ⟨declared,laid⟩ := Prod.mk.inj (Option.some.inj outcome)
  have sz : endAt - 8 = 70 := Option.some.inj declared
  have endAt : endAt = 77 := laid
  omega

end Citrusleaf
