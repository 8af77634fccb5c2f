import Citrusleaf.Compile

/-! `batch_compile`: the request for those digests of a batch that one node holds. It counts
and lays out its parts as `cl_compile` does, with the digest array in place of the record
fields. `none` stands for an access outside the buffer or an argument. -/
namespace Citrusleaf
open Lib

def clMsgFieldTypeDigestRipeArray : UInt8 := 6

/-- A digest of the batch with its entry in `nodes`. -/
structure AssignedDigest (ν : Type) where
  digest : CfDigest
  node : ν

/-- The arguments; `ops` are the bins with their one operator. -/
structure BatchArgs (ν : Type) where
  info1 : UInt32
  info2 : UInt32
  ns : Option CString
  digests : List (AssignedDigest ν)
  myNode : ν
  nMyDigests : Nat
  values : List ClBin
  operator : ClOperator
  clWP : Option ClWriteParameters

def BatchArgs.ops (args : BatchArgs ν) : List ClOperation := args.values.map (⟨·,args.operator⟩)

/-- The digests `write_fields_batch_digests` copies. -/
def myDigests [DecidableEq ν] (digests : List (AssignedDigest ν)) (myNode : ν) : List CfDigest :=
  (digests.filter (·.node = myNode)).map (·.digest)

/-- `field_sz` of the digest array, before it is cut to 32 bits. -/
def digestFieldSz (nMyDigests : Nat) : Nat := 20 * nMyDigests + 1

def writeFieldsBatchDigests [DecidableEq ν] (buf : List UInt8) (mf : Nat) (args : BatchArgs ν) :
    Option (List UInt8 × Nat) := do
  let (buf,mf) ← layPresent buf mf clMsgFieldTypeNamespace (← stringField args.ns)
  layField buf mf clMsgFieldTypeDigestRipeArray (digestFieldSz args.nMyDigests)
    ((myDigests args.digests args.myNode).flatMap Vector.toList)

/-- The size before the operations, with one byte more than the digest array takes. -/
def BatchArgs.fieldsSize (args : BatchArgs ν) : Nat :=
  (args.ns.map (stringSz · + 5)).getD 0 + (5 + 1 + 20 * args.nMyDigests)

def BatchArgs.msgSz (args : BatchArgs ν) : Option Nat :=
  (opsSize args.ops).map (30 + args.fieldsSize + ·)

/-- The `info2` and generation of a batch; `unique_bin` is not looked at. -/
def batchInfo2 (info2 : UInt32) (clWP : Option ClWriteParameters) : UInt32 × UInt32 :=
  writeInfo2 info2 (clWP.map fun clWP => {clWP with uniqueBin := false})

/-- Always two: the namespace and the digest array. -/
def batchNFields : Nat := 2

/-- The return value and the buffer, in memory that could be allocated. -/
def batchCompile [DecidableEq ν] (args : BatchArgs ν) : Option (Int × List UInt8) :=
  match args.msgSz with
  | none => some (-1,[])
  | some msgSz => do
    let buf := List.replicate msgSz 0
    let (info2,generation) := batchInfo2 args.info2 args.clWP
    let recordTtl := (args.clWP.map (·.recordTtl)).getD 0
    let transactionTtl := (args.clWP.map (·.timeoutMs.toUInt32)).getD 0
    let buf ← clWriteHeader buf msgSz args.info1 info2 0 generation recordTtl transactionTtl
      batchNFields args.ops.length
    let (buf,op) ← writeFieldsBatchDigests buf 30 args
    return (0,← layOps buf op args.ops)

end Citrusleaf
