import Citrusleaf.Lib.Workers
import Citrusleaf.Stream

/-! The records of a batch as `citrusleaf_get_many_digest_direct` collects them. Worker threads
take work from a queue and call `direct_batchget_cb` with each record that a server returns; a
slot of the array is taken under a lock and filled outside of it. A thread that would read
outside a buffer or through a null pointer does not move. -/
namespace Citrusleaf
open Lib

def clDigest : UInt32 := 6

/-! ### Copies of bins -/

/-- The outer `none` is a read outside the source, the inner one a return of -1. What is to be
freed is the copy of a string or a blob. -/
def citrusleafCopyObject (malloc : Nat → Option UInt64) (srcobj : ClObject) : Option (Option ClObject) :=
  if srcobj.type = clNull then some (some {srcobj with u := .i64 0})
  else if srcobj.type = clInt then some (some {srcobj with u := .i64 srcobj.u.toI64})
  else if srcobj.type = clStr then
    match malloc (srcobj.sz + 1) with
    | none => some none
    | some str => (srcobj.u.copy srcobj.sz).map fun bytes => some {srcobj with u := .ptr str (bytes ++ [0])}
  else if isBlob srcobj.type ∨ srcobj.type = clDigest then
    match malloc srcobj.sz with
    | none => some none
    | some blob => (srcobj.u.copy srcobj.sz).map fun bytes => some {srcobj with u := .ptr blob bytes}
  else some none

/-- `strcpy`, then the object. A name of 32 bytes ends in the type behind it, which is written
after the name is. -/
def citrusleafCopyBin (malloc : Nat → Option UInt64) (srcbin : ClBin) : Option (Option ClBin) :=
  (citrusleafCopyObject malloc srcbin.object).map fun object =>
    object.map fun object => ⟨BinName.zero.fill srcbin.binName.str,object⟩

/-- The loop over bins; each asks the allocator under its own number. -/
def copyBinsFrom (malloc : Nat → Nat → Option UInt64) : Nat → List ClBin → Option (Option (List ClBin))
  | _,[] => some (some [])
  | call,srcbin :: srcbins => do
    match ← citrusleafCopyBin (malloc call) srcbin with
    | none => return none
    | some newbin => return (← copyBinsFrom malloc (call + 1) srcbins).map (newbin :: ·)

def citrusleafCopyBins (malloc : Nat → Nat → Option UInt64) (srcbins : List ClBin) : Option (Option (List ClBin)) :=
  match malloc 0 (64 * srcbins.length) with
  | none => some none
  | some _ => copyBinsFrom malloc 1 srcbins

/-! ### The callback -/

structure ClRec where
  digest : List UInt8
  generation : UInt32
  recordVoidtime : UInt32
  bins : List ClBin
  nBins : Nat

/-- `cl_batchresult`. No step reads the last two fields: the records whose bins were copied, in
the order in which they took slots, and those whose copy failed. -/
structure ClBatchresult where
  numrecs : Nat
  records : List ClRec
  copied : List (CallbackRecord × List ClBin)
  failed : List CallbackRecord

/-- The data that is copied to a slot, one write after the other. -/
def recordWrites (keyd : List UInt8) (r : CallbackRecord) (targetBins : List ClBin) : List (ClRec → ClRec) :=
  [fun rec => {rec with digest := keyd},
    fun rec => {rec with generation := r.generation},
    fun rec => {rec with recordVoidtime := r.recordTtl},
    fun rec => {rec with bins := targetBins},
    fun rec => {rec with nBins := r.bins.length}]

/-- Where a call of `direct_batchget_cb` is: at its start, with the bins copied, or with a slot
and the writes to come. -/
inductive BatchgetPlace where
  | called (r : CallbackRecord)
  | copied (r : CallbackRecord) (targetBins : List ClBin)
  | filling (slot : Nat) (writes : List (ClRec → ClRec))

/-- The callback, given what the allocator answers it. -/
def directBatchgetCb : Callback CallbackRecord BatchgetPlace ClBatchresult (Nat → Nat → Option UInt64) where
  enter := .called
  step
    | malloc,br,.called r =>
      match citrusleafCopyBins malloc r.bins with
      | none => none
      | some none => some ({br with failed := br.failed ++ [r]},none)
      | some (some targetBins) => some (br,some (.copied r targetBins))
    | _,br,.copied r targetBins =>
      r.keyd.map fun keyd =>
        ({br with numrecs := br.numrecs + 1,copied := br.copied ++ [(r,targetBins)]},
          some (.filling br.numrecs (recordWrites keyd r targetBins)))
    | _,br,.filling slot (write :: writes) =>
      some ({br with records := br.records.modify slot write},some (.filling slot writes))
    | _,br,.filling _ [] => some (br,none)

/-! ### The call -/

abbrev BatchCollect := Workers CallbackRecord BatchgetPlace ClBatchresult

/-- A batch call whose work is on the queue, with the records that the callback will be given
for each work. Its array is as `malloc` gave it. Threads move in any order. -/
def batchRun (works : List (List CallbackRecord)) (threads : Nat) (records : List ClRec)
    (events : List (Nat × (Nat → Nat → Option UInt64))) : BatchCollect :=
  run directBatchgetCb.move (.start works threads ⟨0,records,[],[]⟩) events

end Citrusleaf
