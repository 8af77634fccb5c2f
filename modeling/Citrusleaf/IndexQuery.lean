import Citrusleaf.Lib.Cells
import Citrusleaf.Lib.Workers
import Citrusleaf.Stream

/-! The index lookups of `group_query`: worker threads call `index_getmany_cb` with the records
of the looked-up hours, each takes a slot of `irs` by an atomic counter, and two passes put the
digests of all records into one array. `none` stands for an access outside a block or
through a pointer that is none. -/
namespace Citrusleaf
open Lib

/-! ### An index record -/

/-- `count`, behind the pointer to a record. -/
def recordCount (record : List UInt8) : Option Nat := (readBytes record 0 8).map leNat

/-- `sizeof(index_record) + record->count * sizeof(cf_digest)` -/
def recordSize (count : Nat) : Nat := (8 + count * 20) % 2 ^ 64

/-- `sizeof(cf_digest) * record->count` -/
def digestsSize (count : Nat) : Nat := 20 * count % 2 ^ 64

/-- The digests from `redirect_id` on. -/
def redirectId (record : List UInt8) (count : Nat) : Option (List UInt8) := readBytes record 8 (digestsSize count)

/-! ### The callback -/

/-- The part of `sconfig` that lookups share; `irs` has `irs_size` entries. No step reads the
last field, the records that took an index, in the order of these. -/
structure IndexLookups where
  irs : List (Option (List UInt8))
  irsCurr : Nat
  taken : List (List UInt8)

/-- Where a call of `index_getmany_cb` is: at its start, and in `add_keys_to_digest_table` before
the addition, the test of the entry, its allocation and the copy. -/
inductive IndexPlace where
  | called (r : CallbackRecord)
  | adding (record : List UInt8)
  | testing (index : Nat) (record : List UInt8)
  | storing (index : Nat) (record : List UInt8)
  | copying (index : Nat) (record : List UInt8)

/-- The callback, given what the allocator answers it. -/
def indexGetmanyCb : Callback CallbackRecord IndexPlace IndexLookups Malloc where
  enter := .called
  step
    | _,c,.called r =>
      match r.bins with
      | [bin] =>
        if bin.object.type ≠ clBlob then some (c,none)
        else
          match bin.object.u with
          | .i64 _ => none
          | .ptr address record =>
            if address = 0 then some (c,none)
            else (recordCount record).map fun count => if count = 0 then (c,none) else (c,some (.adding record))
      | _ => some (c,none)
    | _,c,.adding record =>
      some ({c with irsCurr := c.irsCurr + 1,taken := c.taken ++ [record]},some (.testing c.irsCurr record))
    | _,c,.testing index record =>
      match c.irs[index]? with
      | some none => some (c,some (.storing index record))
      | _ => some (c,none)
    | malloc,c,.storing index record =>
      (recordCount record).map fun count =>
        ({c with irs := c.irs.set index (mallocBlock malloc (recordSize count))},some (.copying index record))
    | _,c,.copying index record =>
      match c.irs[index]? with
      | some (some block) => do
        let bytes ← readBytes record 0 (recordSize (← recordCount record))
        return ({c with irs := c.irs.set index (some (← writeBytes block 0 bytes))},none)
      | _ => some (c,none)

/-- The lookups of `do_indexquery` for some hours, with the records that the callback will be
given for each work. Threads move in any order. -/
def lookupRun (works : List (List CallbackRecord)) (threads hours : Nat) (events : List (Nat × Malloc)) :
    Workers CallbackRecord IndexPlace IndexLookups :=
  run indexGetmanyCb.move (.start works threads ⟨List.replicate hours none,0,[]⟩) events

/-! ### The digest array of `group_query` -/

/-- The first pass, which adds up `n_digests` in 64 bits. -/
def countDigests : Nat → List (Option (List UInt8)) → Option Nat
  | nDigests,[] => some nDigests
  | nDigests,none :: irs => countDigests nDigests irs
  | nDigests,some record :: irs => do countDigests ((nDigests + (← recordCount record)) % 2 ^ 64) irs

/-- A copy to the entry of an `int` offset, which is before the array if it is negative. -/
def writeDigests (digests : List UInt8) (offset : Nat) (bytes : List UInt8) : Option (List UInt8) :=
  if offset < 2 ^ 31 then writeBytes digests (offset * 20) bytes else none

/-- The second pass, with the array and the entries of `irs` that it leaves. -/
def copyDigests : Nat → List UInt8 → List (Option (List UInt8)) → Option (List UInt8 × List (Option (List UInt8)))
  | _,digests,[] => some (digests,[])
  | offset,digests,none :: irs => (copyDigests offset digests irs).map fun (digests,irs) => (digests,none :: irs)
  | offset,digests,some record :: irs => do
    let count ← recordCount record
    if count = 0 then
      let (digests,irs) ← copyDigests offset digests irs
      return (digests,some record :: irs)
    else
      let digests ← writeDigests digests offset (← redirectId record count)
      let (digests,irs) ← copyDigests ((offset + count) % 2 ^ 32) digests irs
      return (digests,none :: irs)

structure GroupDigests where
  nDigests : Nat
  digests : List UInt8
  irs : List (Option (List UInt8))

/-- `group_query` from the index lookups to the batch query; the inner `none` is a return of -1. -/
def groupQuery (malloc : Malloc) (irs : List (Option (List UInt8))) : Option (Option GroupDigests) := do
  let nDigests ← countDigests 0 irs
  if nDigests = 0 then return none
  else
    match mallocBlock malloc (nDigests * 20 % 2 ^ 64) with
    | none => return none
    | some digests =>
      let (digests,irs) ← copyDigests 0 digests irs
      return some ⟨nDigests,digests,irs⟩

end Citrusleaf
