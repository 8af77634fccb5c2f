import Citrusleaf.BatchCompile
import Citrusleaf.Digest
import Citrusleaf.RequestRoundTrip

/-! Where a request ends. Each field and each operation moves the position by the size it
carries, which is cut to 32 bits; a write outside the counted size does not return. -/
namespace Citrusleaf
open Lib

/-! ### Where the layout ends -/

/-- `layOps` with the position behind the last operation. -/
def layOpsTo : List UInt8 → Nat → List ClOperation → Option (List UInt8 × Nat)
  | buf,op,[] => some (buf,op)
  | buf,op,operation :: operations => do
    let (_,buf) ← clValueToOp buf op operation
    let opTmp ← clMsgOpGetNext buf op
    let buf ← clMsgSwapOp buf op
    layOpsTo buf opTmp operations

theorem layOpsTo_layOps (buf : List UInt8) (op : Nat) (operations : List ClOperation) :
    layOps buf op operations = (layOpsTo buf op operations).map Prod.fst := by
  induction operations generalizing buf op with
  | nil => rfl
  | cons operation operations ih =>
    simp only [layOps,layOpsTo,ih,Option.bind_eq_bind,Option.map_bind,Function.comp_def]

/-- `cl_compile` with the position behind its last operation. -/
def clCompileTo (args : CompileArgs) : Option (Int × List UInt8 × Nat) :=
  match args.msgSz with
  | none => some (-1,[],0)
  | some msgSz => do
    let (info2,generation) := writeInfo2 args.info2 args.clWP
    let recordTtl := (args.clWP.map (·.recordTtl)).getD 0
    let transactionTtl := (args.clWP.map (·.timeoutMs.toUInt32)).getD 0
    let buf ← clWriteHeader (List.replicate msgSz 0) msgSz args.info1 info2 args.info3 generation
      recordTtl transactionTtl args.nFields args.values.ops.length
    match ← writeFields buf 30 args with
    | (buf,none) => return (-1,buf,30)
    | (buf,some op) => return (0,← layOpsTo buf op args.values.ops)

theorem clCompileTo_clCompile (args : CompileArgs) :
    clCompile args = (clCompileTo args).map fun out => (out.1,out.2.1) := by
  unfold clCompile clCompileTo
  cases args.msgSz with
  | none => rfl
  | some msgSz =>
    simp only [layOpsTo_layOps,Option.bind_eq_bind,Option.map_bind,Function.comp_def]
    congr
    funext header
    congr
    funext out
    rcases out with ⟨buf,_ | op⟩
    · rfl
    · simp only
      cases layOpsTo buf op args.values.ops <;> rfl

/-- `batch_compile` with the position behind its last operation. -/
def batchCompileTo [DecidableEq ν] (args : BatchArgs ν) : Option (Int × List UInt8 × Nat) :=
  match args.msgSz with
  | none => some (-1,[],0)
  | some msgSz => do
    let (info2,generation) := batchInfo2 args.info2 args.clWP
    let recordTtl := (args.clWP.map (·.recordTtl)).getD 0
    let transactionTtl := (args.clWP.map (·.timeoutMs.toUInt32)).getD 0
    let buf ← clWriteHeader (List.replicate msgSz 0) msgSz args.info1 info2 0 generation recordTtl
      transactionTtl batchNFields args.ops.length
    let (buf,op) ← writeFieldsBatchDigests buf 30 args
    return (0,← layOpsTo buf op args.ops)

theorem batchCompileTo_batchCompile [DecidableEq ν] (args : BatchArgs ν) :
    batchCompile args = (batchCompileTo args).map fun out => (out.1,out.2.1) := by
  unfold batchCompile batchCompileTo
  cases args.msgSz with
  | none => rfl
  | some msgSz =>
    simp only [layOpsTo_layOps,Option.bind_eq_bind,Option.map_bind,Function.comp_def]
    congr
    funext header
    congr
    funext out
    cases layOpsTo out.1 out.2 args.ops <;> rfl

/-- The header declares the length, the fields and the operations that are laid out. -/
structure HeaderTruth (buf : List UInt8) (endAt fields ops : Nat) : Prop where
  sz : (readBytes buf 2 6).map beNat = some (endAt - 8)
  nFields : (readBytes buf 26 2).map beNat = some fields
  nOps : (readBytes buf 28 2).map beNat = some ops

/-! ### The parts of a request -/

/-- How far the position moves over a part whose size field is cut to 32 bits. -/
def advance (written : Nat) : Nat := 4 + (written - 4) % 2 ^ 32

/-- Parts written one after the other stay below the limit. -/
def Fits (limit p : Nat) : List Nat → Prop
  | [] => True
  | written :: parts => p + written ≤ limit ∧ Fits limit (p + advance written) parts

def endOf (p : Nat) : List Nat → Nat
  | [] => p
  | written :: parts => endOf (p + advance written) parts

theorem fits_append (limit p : Nat) (first later : List Nat) :
    Fits limit p (first ++ later) ↔ Fits limit p first ∧ Fits limit (endOf p first) later := by
  induction first generalizing p with
  | nil => simp [Fits,endOf]
  | cons written first ih => simp [Fits,endOf,ih,and_assoc]

theorem endOf_append (p : Nat) (first later : List Nat) :
    endOf p (first ++ later) = endOf (endOf p first) later := by
  induction first generalizing p with
  | nil => rfl
  | cons written first ih => exact ih _

theorem endOf_eq (p : Nat) (parts : List Nat) : endOf p parts = p + (parts.map advance).sum := by
  induction parts generalizing p with
  | nil => rfl
  | cons written parts ih =>
    rw [endOf,ih,List.map_cons,List.sum_cons,Nat.add_assoc]

theorem le_endOf (p : Nat) (parts : List Nat) : p ≤ endOf p parts := by
  rw [endOf_eq]
  exact Nat.le_add_right _ _

/-- Parts laid from a position, the bytes before `n` kept. -/
structure LaysTo (n : Nat) (buf : List UInt8) (p : Nat) (parts : List Nat) (out : List UInt8 × Nat) : Prop where
  keeps : Keeps n buf out.1
  endAt : out.2 = endOf p parts

/-- Laying some parts and then others. -/
theorem Lib.Checked.bind_lays {f : List UInt8 × Nat → Option (List UInt8 × Nat)}
    (first : Checked (Fits buf.length p parts) (LaysTo n buf p parts) x) (behind : n ≤ p)
    (second : ∀ out : List UInt8 × Nat, n ≤ out.2 →
      Checked (Fits out.1.length out.2 later) (LaysTo n out.1 out.2 later) (f out)) :
    Checked (Fits buf.length p (parts ++ later)) (LaysTo n buf p (parts ++ later)) (x.bind f) := by
  have both : Checked (Fits buf.length p parts ∧ Fits buf.length (endOf p parts) later)
      (LaysTo n buf p (parts ++ later)) (x.bind f) :=
    first.bind fun out _ laid => by
      have moved : n ≤ out.2 := by
        rw [laid.endAt]
        exact behind.trans (le_endOf p parts)
      have next := second out moved
      rw [laid.keeps.length,laid.endAt] at next
      apply next.weaken
      intro final rest
      exact ⟨laid.keeps.trans rest.keeps,by rw [rest.endAt,endOf_append]⟩
  exact both.congr (fits_append _ _ _ _).symm

theorem layField_checked (buf : List UInt8) (mf : Nat) (type : UInt8) (size : Nat) (data : List UInt8)
    (behind : n ≤ mf) :
    Checked (mf + (5 + data.length) ≤ buf.length)
      (fun out => Keeps n buf out.1 ∧ out.2 = mf + 4 + size % 2 ^ 32) (layField buf mf type size data) := by
  by_cases room : mf + (5 + data.length) ≤ buf.length
  · obtain ⟨before,rest,rfl,start,_⟩ := parts_of_length (m := mf) (n := buf.length - mf) buf (by omega)
    rw [List.length_append] at room
    obtain ⟨old,after,rfl,length,_⟩ := parts_of_length (m := 5 + data.length)
      (n := rest.length - (5 + data.length)) rest (by omega)
    rw [layField_eq before old after type start.symm length]
    refine .gives (by simpa using room) ⟨⟨?_,?_⟩,rfl⟩
    · simp [length]
      omega
    · rw [List.take_append_of_le_length (by omega),List.take_append_of_le_length (by omega)]
  · cases laid : layField buf mf type size data with
    | none => exact .fails room
    | some out =>
      obtain ⟨b1,typed,rest⟩ := Option.bind_eq_some_iff.mp laid
      obtain ⟨b2,sized,rest⟩ := Option.bind_eq_some_iff.mp rest
      obtain ⟨b3,copied,_⟩ := Option.bind_eq_some_iff.mp rest
      have inside := (writeBytes_checked b2 (mf + 5) data).isSome_iff.mp (by rw [copied]; rfl)
      have first := (writeBytes_checked buf (mf + 4) [type]).meets typed
      have second := (writeBytes_checked b1 mf (leBytes 4 size)).meets sized
      omega

/-- The bytes that fields take. -/
def fieldSizes (fields : List (UInt8 × List UInt8)) : List Nat := fields.map (5 + ·.2.length)

theorem advance_field (length : Nat) : advance (5 + length) = 4 + (length + 1) % 2 ^ 32 := by
  have size : 5 + length - 4 = length + 1 := by omega
  rw [advance,size]

theorem layAll_checked (fields : List (UInt8 × List UInt8)) (buf : List UInt8) (mf : Nat) (behind : n ≤ mf) :
    Checked (Fits buf.length mf (fieldSizes fields)) (LaysTo n buf mf (fieldSizes fields))
      (layAll buf mf fields) := by
  induction fields generalizing buf mf with
  | nil => exact .pure ⟨.refl n buf,rfl⟩
  | cons field fields ih =>
    obtain ⟨type,data⟩ := field
    have one : Checked (Fits buf.length mf [5 + data.length]) (LaysTo n buf mf [5 + data.length])
        (layField buf mf type (data.length + 1) data) := by
      apply ((layField_checked buf mf type (data.length + 1) data behind).congr
        (and_iff_left trivial).symm).weaken
      rintro out ⟨keeps,endAt⟩
      exact ⟨keeps,by rw [endAt,endOf,endOf,advance_field,Nat.add_assoc]⟩
    exact one.bind_lays behind fun out moved => ih out.1 out.2 moved

/-! ### Operations -/

/-- The bytes of value that `cl_value_to_op` writes. -/
def ClOperation.laidValueSz (operation : ClOperation) : Nat :=
  match clMsgOp operation.op with
  | none => 0
  | some code =>
    if operation.bin.object.type = clNull then 0
    else if operation.bin.object.type = clInt then 8
    else if operation.bin.object.type = clStr then operation.bin.object.sz
    else if code = 129 then 16
    else operation.bin.object.sz

def ClOperation.laidSz (operation : ClOperation) : Nat :=
  8 + operation.name.length + operation.laidValueSz

/-- A type that has a size, and a value that can be read where it is copied. -/
structure ClOperation.Reads (operation : ClOperation) : Prop where
  type : AcceptedType operation.bin.object.type
  value : ∀ code, clMsgOp operation.op = some code → (opValue code operation.bin.object).isSome

theorem opValue_length (type : AcceptedType o.type) (read : opValue code o = some value) :
    ∃ bytes, value = some bytes ∧ bytes.length = if o.type = clNull then 0 else if o.type = clInt then 8
      else if o.type = clStr then o.sz else if code = 129 then 16 else o.sz := by
  unfold opValue at read
  by_cases null : o.type = clNull
  · rw [if_pos null] at read ⊢
    exact ⟨[],(Option.some.inj read).symm,rfl⟩
  rw [if_neg null] at read ⊢
  by_cases int : o.type = clInt
  · rw [if_pos int] at read ⊢
    exact ⟨_,(Option.some.inj read).symm,beBytes_length 8 _⟩
  rw [if_neg int] at read ⊢
  by_cases str : o.type = clStr
  · rw [if_pos str] at read ⊢
    obtain ⟨bytes,copied,rfl⟩ := Option.map_eq_some_iff.mp read
    exact ⟨bytes,rfl,ClUnion.copy_length copied⟩
  rw [if_neg str] at read ⊢
  have blob : isBlob o.type = true := ((type.resolve_left null).resolve_left int).resolve_left str
  rw [if_pos blob] at read
  by_cases two : code = 129
  · rw [if_pos two] at read ⊢
    obtain ⟨bytes,copied,rfl⟩ := Option.map_eq_some_iff.mp read
    have length := ClUnion.copy_length copied
    exact ⟨_,rfl,by simp [length]⟩
  · rw [if_neg two] at read ⊢
    obtain ⟨bytes,copied,rfl⟩ := Option.map_eq_some_iff.mp read
    exact ⟨bytes,rfl,ClUnion.copy_length copied⟩

/-- Without a code only the size, the length of the name and the name are written. -/
theorem clValueToOp_unlisted (before old after : List UInt8) (operation : ClOperation)
    (start : op = before.length) (room : old.length = 8 + operation.name.length)
    (unlisted : clMsgOp operation.op = none) :
    ∃ rest, clValueToOp (before ++ (old ++ after)) op operation =
        some (-1,before ++ (leBytes 4 (4 + operation.name.length) ++ (rest ++ after))) ∧
      rest.length = 4 + operation.name.length := by
  obtain ⟨head,n,rfl,hhead,hn⟩ := parts_of_length old room
  obtain ⟨head,e,rfl,hhead,he⟩ := parts_of_length (m := 7) (n := 1) head hhead
  obtain ⟨head,d,rfl,hhead,hd⟩ := parts_of_length (m := 6) (n := 1) head hhead
  obtain ⟨a,b,rfl,ha,hb⟩ := parts_of_length (m := 4) (n := 2) head hhead
  have size : 8 + operation.name.length - 4 = 4 + operation.name.length := by omega
  have sized := writeBytes_at before a (b ++ (d ++ (e ++ (n ++ after))))
    (leBytes 4 (4 + operation.name.length)) start (by rw [leBytes_length,ha])
  have counted := writeBytes_at (before ++ leBytes 4 (4 + operation.name.length) ++ b ++ d) e
    (n ++ after) [operation.name.length.toUInt8] (p := op + 7) (by simp [start,hb,hd]) he
  have versioned := writeBytes_at (before ++ leBytes 4 (4 + operation.name.length) ++ b) d
    ([operation.name.length.toUInt8] ++ (n ++ after)) [0] (p := op + 6) (by simp [start,hb]) hd
  have named := writeBytes_at (before ++ leBytes 4 (4 + operation.name.length) ++ b ++ [0] ++
    [operation.name.length.toUInt8]) n after operation.name (p := op + 8) (by simp [start,hb]) hn
  simp only [List.append_assoc] at sized counted versioned named
  refine ⟨b ++ ([0] ++ ([operation.name.length.toUInt8] ++ operation.name)),?_,by simp [hb]; omega⟩
  unfold clValueToOp
  rw [show operation.bin.binName.str = operation.name from rfl]
  simp only [size,List.append_assoc,sized,counted,versioned,named,unlisted,Option.bind_eq_bind,Option.bind_some,
    Option.pure_def]

theorem clValueToOp_checked (buf : List UInt8) (op : Nat) (operation : ClOperation) (reads : operation.Reads)
    (behind : n ≤ op) :
    Checked (op + operation.laidSz ≤ buf.length)
      (fun out => Keeps n buf out.2 ∧ readBytes out.2 op 4 = some (leBytes 4 (operation.laidSz - 4)))
      (clValueToOp buf op operation) := by
  by_cases room : op + (8 + operation.name.length) ≤ buf.length
  · obtain ⟨before,rest,rfl,start,_⟩ := parts_of_length (m := op) (n := buf.length - op) buf (by omega)
    rw [List.length_append] at room
    obtain ⟨old,after,rfl,length,_⟩ := parts_of_length (m := 8 + operation.name.length)
      (n := rest.length - (8 + operation.name.length)) rest (by omega)
    cases listed : clMsgOp operation.op with
    | none =>
      obtain ⟨body,laid,size⟩ := clValueToOp_unlisted before old after operation start.symm length listed
      have sz : operation.laidSz = 8 + operation.name.length := by
        simp [ClOperation.laidSz,ClOperation.laidValueSz,listed]
      have less : 8 + operation.name.length - 4 = 4 + operation.name.length := by omega
      rw [laid,sz,less]
      refine .gives (by simp [start,length]) ⟨⟨?_,?_⟩,?_⟩
      · simp [length,size]
        omega
      · rw [List.take_append_of_le_length (by omega),List.take_append_of_le_length (by omega)]
      · exact readBytes_at before _ _ start.symm (leBytes_length 4 _).symm
    | some code =>
      obtain ⟨value,read⟩ := Option.isSome_iff_exists.mp (reads.value code listed)
      obtain ⟨bytes,rfl,size⟩ := opValue_length reads.type read
      have sz : operation.laidSz = 8 + operation.name.length + bytes.length := by
        rw [ClOperation.laidSz,size]
        simp only [ClOperation.laidValueSz,listed]
      have less : operation.laidSz - 4 = 4 + operation.name.length + bytes.length := by omega
      rw [clValueToOp_head before old after operation start.symm length listed read,less]
      have whole : (before ++ opBytes operation code (4 + operation.name.length + bytes.length) after).length =
          (before ++ (old ++ after)).length := by
        simp [opBytes,length]
        omega
      cases written : writeBytes (before ++ opBytes operation code (4 + operation.name.length + bytes.length) after)
          (op + 8 + operation.name.length) bytes with
      | none =>
        have outside := (writeBytes_checked _ _ _).isSome_iff.not.mp (by rw [written]; simp)
        rw [whole] at outside
        exact .fails (by omega)
      | some out =>
        have inside := (writeBytes_checked _ _ _).isSome_iff.mp (by rw [written]; rfl)
        rw [whole] at inside
        have keeps := writeBytes_keeps written
        refine .gives (by omega) ⟨⟨keeps.length.trans whole,?_⟩,?_⟩
        · rw [(keeps.earlier (by omega)).head,List.take_append_of_le_length (by omega),
            List.take_append_of_le_length (by omega)]
        · rw [keeps.readBytes (by omega)]
          exact readBytes_at before _ _ start.symm (leBytes_length 4 _).symm
  · cases laid : clValueToOp buf op operation with
    | none => exact .fails fun inside => room (by unfold ClOperation.laidSz at inside; omega)
    | some out =>
      obtain ⟨b1,sized,rest⟩ := Option.bind_eq_some_iff.mp laid
      obtain ⟨b2,counted,rest⟩ := Option.bind_eq_some_iff.mp rest
      obtain ⟨b3,versioned,rest⟩ := Option.bind_eq_some_iff.mp rest
      obtain ⟨b4,named,_⟩ := Option.bind_eq_some_iff.mp rest
      have inside := (writeBytes_checked b3 (op + 8) operation.name).isSome_iff.mp (by
        rw [ClOperation.name,named]
        rfl)
      have first := (writeBytes_checked _ _ _).meets sized
      have second := (writeBytes_checked _ _ _).meets counted
      have third := (writeBytes_checked _ _ _).meets versioned
      omega

/-- One turn of the loop over operations moves over the size it has laid. -/
theorem layOp_checked (buf : List UInt8) (op : Nat) (operation : ClOperation) (reads : operation.Reads)
    (behind : n ≤ op) :
    Checked (Fits buf.length op [operation.laidSz]) (LaysTo n buf op [operation.laidSz])
      (do
        let (_,buf) ← clValueToOp buf op operation
        let opTmp ← clMsgOpGetNext buf op
        let buf ← clMsgSwapOp buf op
        return (buf,opTmp)) := by
  refine ((clValueToOp_checked buf op operation reads behind).bind ?_ : Checked (_ ∧ True) _ _).congr Iff.rfl
  rintro ⟨rv,after⟩ inside ⟨keeps,size⟩
  have short : op + 4 ≤ after.length := by
    have bigger : 8 ≤ operation.laidSz := by
      unfold ClOperation.laidSz
      omega
    rw [keeps.length]
    omega
  have next : clMsgOpGetNext after op = some (op + advance operation.laidSz) := by
    have low : (256 : Nat) ^ 4 = 2 ^ 32 := by decide
    rw [clMsgOpGetNext,opSz,size,Option.map_some,Option.map_some,leNat_leBytes,low,advance,Nat.add_assoc]
  obtain ⟨swapped,turned,_⟩ := swapBytes_inside short
  obtain ⟨bytes,_,written⟩ := Option.bind_eq_some_iff.mp turned
  simp only [next,clMsgSwapOp,turned,Option.bind_eq_bind,Option.bind_some,Option.pure_def]
  exact .pure ⟨keeps.trans ((writeBytes_keeps written).earlier behind),rfl⟩

theorem layOpsTo_checked (operations : List ClOperation) (reads : ∀ operation ∈ operations, operation.Reads)
    (buf : List UInt8) (op : Nat) (behind : n ≤ op) :
    Checked (Fits buf.length op (operations.map ClOperation.laidSz))
      (LaysTo n buf op (operations.map ClOperation.laidSz)) (layOpsTo buf op operations) := by
  induction operations generalizing buf op with
  | nil => exact .pure ⟨.refl n buf,rfl⟩
  | cons operation operations ih =>
    have one := layOp_checked buf op operation (reads operation List.mem_cons_self) behind
    have both := one.bind_lays behind fun out moved =>
      ih (fun other member => reads other (List.mem_cons_of_mem _ member)) out.1 out.2 moved
    simpa only [layOpsTo,Option.bind_eq_bind,Option.bind_assoc,Option.pure_def,Option.bind_some,
      List.map_cons,List.singleton_append] using both

/-! ### `cl_compile` -/

/-- A string as the length in an `int` cuts it. -/
def cutString (str : CString) : CString := str.take (stringSz str)

/-- The fields as they are laid. -/
def CompileArgs.laidFields (args : CompileArgs) : List (UInt8 × List UInt8) :=
  {args with ns := args.ns.map cutString,set := args.set.map cutString}.fields

def CompileArgs.parts (args : CompileArgs) : List Nat :=
  fieldSizes args.laidFields ++ args.values.ops.map ClOperation.laidSz

/-- Arguments `cl_compile` does not reject, with values it can read and a request inside the
address space. -/
structure CompileArgs.Compilable (args : CompileArgs) : Prop where
  key : ∀ key, args.key = some key → KeyType key.type ∧ (key.type ≠ clInt → (key.u.copy key.sz).isSome)
  ops : ∀ operation ∈ args.values.ops, operation.Reads
  addressable : ∀ msgSz, args.msgSz = some msgSz → msgSz < 2 ^ 48

/-- The length of the string is not negative as an `int`. -/
def Measured (str : Option CString) : Prop := ∀ s, str = some s → (intStrlen s).isSome

structure CompileArgs.Reads (args : CompileArgs) : Prop extends args.Compilable where
  ns : Measured args.ns
  set : Measured args.set

theorem cutString_length (str : CString) : (cutString str).length = stringSz str := by
  have short : stringSz str ≤ str.length := by
    unfold stringSz intStrlen toInt
    have low := Nat.mod_le str.length (2 ^ 32)
    dsimp only
    split <;> split <;> simp only [Option.getD_some,Option.getD_none] <;> omega
  rw [cutString,List.length_take_of_le short]

theorem stringField_cut (str : Option CString) (reads : Measured str) :
    stringField str = some ((str.map cutString).map fun s => (s.length + 1,s)) := by
  cases str with
  | none => rfl
  | some s =>
    obtain ⟨len,read⟩ := Option.isSome_iff_exists.mp (reads s rfl)
    have size : stringSz s = len := by rw [stringSz,read,Option.getD_some]
    rw [stringField,read,Option.map_some,Option.map_some,Option.map_some,cutString_length,cutString,size]

theorem keyField_reads (typed : KeyType key.type) (read : key.type ≠ clInt → (key.u.copy key.sz).isSome) :
    keyField key = some (some ((key.type.toUInt8 :: key.wireValue).length + 1,
      key.type.toUInt8 :: key.wireValue)) := by
  obtain ⟨_,_,strInt,_⟩ := labels_distinct
  have notNull := typed.not_null
  by_cases int : key.type = clInt
  · rw [keyField,if_neg (by rw [int]; exact strInt.symm),if_pos int,ClObject.wireValue,if_neg notNull,
      if_pos int,List.length_cons,beBytes_length]
  · obtain ⟨bytes,copied⟩ := Option.isSome_iff_exists.mp (read int)
    have wire : key.wireValue = bytes := by rw [ClObject.wireValue,if_neg notNull,if_neg int,copied]; rfl
    rw [wire,List.length_cons,ClUnion.copy_length copied,keyField,copied]
    by_cases str : key.type = clStr
    · rw [if_pos str]
      rfl
    · rw [if_neg str,if_neg int,if_pos ((typed.resolve_left str).resolve_left int)]
      rfl

theorem writeFields_cut (args : CompileArgs) (reads : args.Reads) (buf : List UInt8) (mf : Nat) :
    writeFields buf mf args = (layAll buf mf args.laidFields).map fun out => (out.1,some out.2) :=
  writeFields_layAll buf mf args _ _ (stringField_cut args.ns reads.ns) (stringField_cut args.set reads.set)
    fun key given => keyField_reads (reads.key key given).1 (reads.key key given).2

/-- The header numbers read back from a buffer that was changed behind the header. -/
theorem header_reads (m : ClMsg) (rest : List UInt8)
    (keeps : Keeps 30 ((headerProto msgSz).wire ++ (m.wire ++ rest)) buf) :
    (readBytes buf 2 6).map beNat = some ((msgSz - 8) % 2 ^ 48) ∧
      (readBytes buf 26 2).map beNat = some m.nFields.toNat ∧
      (readBytes buf 28 2).map beNat = some m.nOps.toNat := by
  have sz := readBytes_at [clProtoVersion,clProtoTypeClMsg] (beBytes 6 (msgSz - 8)) (m.wire ++ rest)
    (p := 2) (n := 6) rfl (by simp)
  have nFields := readBytes_at ((headerProto msgSz).wire ++ ([m.headerSz,m.info1,m.info2,m.info3,m.unused,
    m.resultCode] ++ (beBytes 4 m.generation.toNat ++ (beBytes 4 m.recordTtl.toNat ++
    beBytes 4 m.transactionTtl.toNat)))) (beBytes 2 m.nFields.toNat) (beBytes 2 m.nOps.toNat ++ rest)
    (p := 26) (n := 2) (by simp [ClProto.wire_length]) (by simp)
  have nOps := readBytes_at ((headerProto msgSz).wire ++ ([m.headerSz,m.info1,m.info2,m.info3,m.unused,
    m.resultCode] ++ (beBytes 4 m.generation.toNat ++ (beBytes 4 m.recordTtl.toNat ++
    (beBytes 4 m.transactionTtl.toNat ++ beBytes 2 m.nFields.toNat))))) (beBytes 2 m.nOps.toNat) rest
    (p := 28) (n := 2) (by simp [ClProto.wire_length]) (by simp)
  have whole : (headerProto msgSz).wire ++ (m.wire ++ rest) =
      [clProtoVersion,clProtoTypeClMsg] ++ (beBytes 6 (msgSz - 8) ++ (m.wire ++ rest)) := by
    rw [ClProto.wire,headerProto,List.append_assoc]
  have msg : m.wire ++ rest = [m.headerSz,m.info1,m.info2,m.info3,m.unused,m.resultCode] ++
      (beBytes 4 m.generation.toNat ++ (beBytes 4 m.recordTtl.toNat ++ (beBytes 4 m.transactionTtl.toNat ++
      (beBytes 2 m.nFields.toNat ++ (beBytes 2 m.nOps.toNat ++ rest))))) := by
    simp only [ClMsg.wire,List.append_assoc]
  simp only [List.append_assoc] at nFields nOps
  rw [← msg] at nFields nOps
  rw [← whole] at sz
  rw [keeps.readBytes (by decide),keeps.readBytes (by decide),keeps.readBytes (by decide),sz,nFields,nOps]
  simp only [Option.map_some,beNat_beBytes]
  refine ⟨rfl,?_,?_⟩
  · exact congrArg some (Nat.mod_eq_of_lt m.nFields.toNat_lt)
  · exact congrArg some (Nat.mod_eq_of_lt m.nOps.toNat_lt)

/-- The header as it is before the fields are laid. -/
def CompileArgs.headerBytes (args : CompileArgs) (msgSz : Nat) : List UInt8 :=
  (headerProto msgSz).wire ++ (args.header.wire ++ List.replicate (msgSz - 30) 0)

/-- Fields and then operations, laid behind a header. -/
theorem Lib.Checked.request {header : List UInt8} (length : header.length = msgSz)
    (fields : Checked (Fits msgSz 30 sizes) (LaysTo 30 header 30 sizes) x)
    (operations : List ClOperation) (reads : ∀ operation ∈ operations, operation.Reads) :
    Checked (Fits msgSz 30 (sizes ++ operations.map ClOperation.laidSz))
      (fun out => out.1 = 0 ∧ LaysTo 30 header 30 (sizes ++ operations.map ClOperation.laidSz) out.2)
      (x.bind fun out => (layOpsTo out.1 out.2 operations).map fun out => ((0 : Int),out)) := by
  subst length
  have both := fields.bind_lays (Nat.le_refl 30) (fun out moved => layOpsTo_checked operations reads out.1 out.2 moved)
  have whole : Checked _ (fun out => out.1 = 0 ∧
      LaysTo 30 header 30 (sizes ++ operations.map ClOperation.laidSz) out.2)
      ((x.bind fun out => layOpsTo out.1 out.2 operations).map fun out => ((0 : Int),out)) :=
    both.map fun out laid => ⟨rfl,laid⟩
  rwa [Option.map_bind] at whole

theorem blank_block (large : 30 ≤ msgSz) :
    List.replicate msgSz (0 : UInt8) = List.replicate 30 0 ++ List.replicate (msgSz - 30) 0 := by
  rw [List.replicate_append_replicate,Nat.add_sub_cancel' large]

/-- The block after `cl_write_header`. -/
def headerBlock (msgSz : Nat) (m : ClMsg) : List UInt8 :=
  (headerProto msgSz).wire ++ (m.wire ++ List.replicate (msgSz - 30) 0)

theorem headerBlock_length (large : 30 ≤ msgSz) : (headerBlock msgSz m).length = msgSz := by
  simp [headerBlock,ClProto.wire_length,ClMsg.wire_length]
  omega

theorem clCompileTo_checked (args : CompileArgs) (reads : args.Reads) (size : args.msgSz = some msgSz)
    (large : 30 ≤ msgSz) :
    Checked (Fits msgSz 30 args.parts)
      (fun out => out.1 = 0 ∧ LaysTo 30 (headerBlock msgSz args.header) 30 args.parts out.2)
      (clCompileTo args) := by
  have length := headerBlock_length (m := args.header) large
  have fields := layAll_checked (n := 30) args.laidFields (headerBlock msgSz args.header) 30 (Nat.le_refl 30)
  rw [length] at fields
  have laid := fields.request length args.values.ops reads.ops
  unfold clCompileTo
  rw [size]
  dsimp only
  rw [blank_block large,clWriteHeader_at _ _ List.length_replicate]
  change Checked _ _ (Option.bind (writeFields (headerBlock msgSz args.header) 30 args) _)
  rw [writeFields_cut args reads,Option.bind_map]
  simp only [Option.map_eq_bind] at laid
  exact laid

end Citrusleaf
