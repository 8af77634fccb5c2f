import Citrusleaf.Shash
import Mathlib.Algebra.Ring.Nat

/-! cf_shash.c as one thread uses it, with the flags of the table and the mutexes it takes.
The buckets are those of `Shash`. `none` stands for a call that does not return: its thread
waits for a mutex that it holds already. A callback of a reduce is a function of the pairs
it was given before and of the pair it is given now. -/
namespace Citrusleaf

def shashErr : Int := -1
def shashErrNotfound : Int := -3
def shashErrFound : Int := -4
def shashOk : Int := 0

def shashCrMtBiglock : UInt32 := 0x04
def shashCrMtManylock : UInt32 := 0x08

def shashReduceDeleteRv : Int := 1

/-- The mutexes of a table: `biglock`, or an entry of `lock_table`. -/
inductive ShashLock where
  | biglock
  | bucket (i : Nat)
  deriving DecidableEq

/-- `shash`; `elements` is of type `unsigned int`. -/
structure ShashTable (κ ν : Type) where
  flags : UInt32
  hFn : κ → UInt32
  tableLen : Nat
  elements : Nat
  table : Nat → Bucket κ ν
  held : List ShashLock

abbrev ReduceFn (κ ν : Type) := List (κ × ν) → κ × ν → Int

namespace ShashTable
open Shash

variable {κ ν : Type} [DecidableEq κ]

def shashCreate (hFn : κ → UInt32) (sz : Nat) (flags : UInt32) : Option (ShashTable κ ν) :=
  if flags &&& shashCrMtBiglock ≠ 0 ∧ flags &&& shashCrMtManylock ≠ 0 then none
  else some ⟨flags,hFn,sz,0,fun _ => ⟨none,[]⟩,[]⟩

variable (h : ShashTable κ ν)

def hash (key : κ) : Nat := (h.hFn key).toNat % h.tableLen

/-! ### Mutexes -/

def bigLock : Option ShashLock := if h.flags &&& shashCrMtBiglock ≠ 0 then some .biglock else none

def bucketLock (i : Nat) : Option ShashLock := if h.flags &&& shashCrMtManylock ≠ 0 then some (.bucket i) else none

/-- The mutex of a call on one bucket. -/
def lockOf (i : Nat) : Option ShashLock := h.bigLock.or (h.bucketLock i)

/-- `pthread_mutex_lock`, where there is a mutex. -/
def lock : Option ShashLock → Option (ShashTable κ ν)
  | none => some h
  | some l => if l ∈ h.held then none else some {h with held := l :: h.held}

/-- `pthread_mutex_unlock`, where there is a mutex. -/
def unlock : Option ShashLock → ShashTable κ ν
  | none => h
  | some l => {h with held := h.held.erase l}

/-! ### Calls on one key -/

def setBucket (i : Nat) (b : Bucket κ ν) (elements : Nat) : ShashTable κ ν :=
  {h with table := Function.update h.table i b,elements := elements % 2 ^ 32}

/-- Where the key is there already, only the big lock is given back. -/
def shashPut (key : κ) (value : ν) : Option (Int × ShashTable κ ν) := do
  let l := h.lockOf (h.hash key)
  let h ← h.lock l
  let (b,added) := put (h.table (h.hash key)) key value
  if added then return (shashOk,(h.setBucket (h.hash key) b (h.elements + 1)).unlock l)
  else return (shashOk,(h.setBucket (h.hash key) b h.elements).unlock h.bigLock)

/-- The bucket with a new element, unless its key is there already. -/
def putUnique (b : Bucket κ ν) (key : κ) (value : ν) : Option (Bucket κ ν) :=
  match b.head with
  | none => some {b with head := some (key,value)}
  | some e =>
    if (e :: b.next).any fun e => e.1 = key then none else some {b with next := (key,value) :: b.next}

def shashPutUnique (key : κ) (value : ν) : Option (Int × ShashTable κ ν) := do
  let l := h.lockOf (h.hash key)
  let h ← h.lock l
  match putUnique (h.table (h.hash key)) key value with
  | none => return (shashErrFound,h.unlock l)
  | some b => return (shashOk,(h.setBucket (h.hash key) b (h.elements + 1)).unlock l)

/-- The return value, and what is copied to `value`. -/
def shashGet (key : κ) : Option (Int × Option ν × ShashTable κ ν) := do
  let l := h.lockOf (h.hash key)
  let h ← h.lock l
  match (elems (h.table (h.hash key))).find? fun e => e.1 = key with
  | none => return (shashErrNotfound,none,h.unlock l)
  | some e => return (shashOk,some e.2,h.unlock l)

/-- Take an element out of a chain behind its head. -/
def unlinkNext (key : κ) : List (κ × ν) → Option (ν × List (κ × ν))
  | [] => none
  | e :: next => if e.1 = key then some (e.2,next) else (unlinkNext key next).map fun (value,next) => (value,e :: next)

/-- Take an element out of a bucket; the next one is copied over a head that goes. -/
def unlink (key : κ) (b : Bucket κ ν) : Option (ν × Bucket κ ν) :=
  match b.head with
  | none => none
  | some e =>
    if e.1 = key then
      match b.next with
      | [] => some (e.2,{b with head := none})
      | t :: next => some (e.2,⟨some t,next⟩)
    else (unlinkNext key b.next).map fun (value,next) => (value,{b with next})

/-- What the functions that delete one key share: the value it had, if it was there. -/
def destroyElem (key : κ) : Option ν × ShashTable κ ν :=
  match unlink key (h.table (h.hash key)) with
  | none => (none,h)
  | some (value,b) => (some value,h.setBucket (h.hash key) b (h.elements + (2 ^ 32 - 1)))

def deleteCode (value : Option ν) : Int := if value.isSome then shashOk else shashErrNotfound

def shashDelete (key : κ) : Option (Int × ShashTable κ ν) := do
  let l := h.lockOf (h.hash key)
  let h ← h.lock l
  let (value,h) := h.destroyElem key
  return (deleteCode value,h.unlock l)

def shashDeleteLockfree (key : κ) : Int × ShashTable κ ν :=
  let (value,h) := h.destroyElem key
  (deleteCode value,h)

def shashGetAndDelete (key : κ) : Option (Int × Option ν × ShashTable κ ν) := do
  let l := h.lockOf (h.hash key)
  let h ← h.lock l
  let (value,h) := h.destroyElem key
  return (deleteCode value,value,h.unlock l)

/-! ### Calls on every pair -/

/-- The return value of the last callback, and the pairs visited so far. -/
def reduceElems (f : ReduceFn κ ν) (visited : List (κ × ν)) : List (κ × ν) → Int × List (κ × ν)
  | [] => (0,visited)
  | e :: es => if f visited e ≠ 0 then (f visited e,visited ++ [e]) else reduceElems f (visited ++ [e]) es

/-- The loop of `shash_reduce` over some buckets. -/
def reduceBuckets (f : ReduceFn κ ν) : List Nat → List (κ × ν) → ShashTable κ ν →
    Option (Int × List (κ × ν) × ShashTable κ ν)
  | [],visited,h => some (0,visited,h)
  | i :: is,visited,h => do
    let l := h.bucketLock i
    let h ← h.lock l
    let (rv,visited) := reduceElems f visited (elems (h.table i))
    let h := h.unlock l
    if rv ≠ 0 then return (rv,visited,h) else reduceBuckets f is visited h

def shashReduce (f : ReduceFn κ ν) : Option (Int × List (κ × ν) × ShashTable κ ν) := do
  let l := h.bigLock
  let h ← h.lock l
  let (rv,visited,h) ← reduceBuckets f (List.range h.tableLen) [] h
  return (rv,visited,h.unlock l)

/-- What a reduce does to some elements: the return value, the pairs visited so far and
the elements that stay. -/
structure Reduced (κ ν : Type) where
  rv : Int
  visited : List (κ × ν)
  stay : List (κ × ν)

/-- The loop of `shash_reduce_delete` once `prev_he` is set. -/
def reduceDeleteNext (f : ReduceFn κ ν) (visited : List (κ × ν)) : List (κ × ν) → Reduced κ ν
  | [] => ⟨0,visited,[]⟩
  | e :: next =>
    let rv := f visited e
    if rv = shashReduceDeleteRv then reduceDeleteNext f (visited ++ [e]) next
    else if rv ≠ 0 then ⟨rv,visited ++ [e],e :: next⟩
    else
      let rest := reduceDeleteNext f (visited ++ [e]) next
      {rest with stay := e :: rest.stay}

/-- The loop at the head `e` of a bucket, `prev_he` being null. After a deletion the next
element is the head, and where there is none the bucket is not in use. -/
def reduceDeleteHead (f : ReduceFn κ ν) (visited : List (κ × ν)) (e : κ × ν) : List (κ × ν) →
    Int × List (κ × ν) × Bucket κ ν
  | [] =>
    let rv := f visited e
    if rv = shashReduceDeleteRv then (0,visited ++ [e],⟨none,[]⟩) else (rv,visited ++ [e],⟨some e,[]⟩)
  | t :: next =>
    let rv := f visited e
    if rv = shashReduceDeleteRv then reduceDeleteHead f (visited ++ [e]) t next
    else if rv ≠ 0 then (rv,visited ++ [e],⟨some e,t :: next⟩)
    else
      let rest := reduceDeleteNext f (visited ++ [e]) (t :: next)
      (rest.rv,rest.visited,⟨some e,rest.stay⟩)

def reduceDeleteBucket (f : ReduceFn κ ν) (visited : List (κ × ν)) (b : Bucket κ ν) :
    Int × List (κ × ν) × Bucket κ ν :=
  match b.head with
  | none => (0,visited,b)
  | some e => reduceDeleteHead f visited e b.next

/-- The loop of `shash_reduce_delete` over some buckets. Each element that goes is counted
down from `elements`. -/
def reduceDeleteBuckets (f : ReduceFn κ ν) : List Nat → List (κ × ν) → ShashTable κ ν →
    Option (Int × List (κ × ν) × ShashTable κ ν)
  | [],visited,h => some (0,visited,h)
  | i :: is,visited,h => do
    let l := h.bucketLock i
    let h ← h.lock l
    let (rv,visited,b) := reduceDeleteBucket f visited (h.table i)
    let gone := (elems (h.table i)).length - (elems b).length
    let h := (h.setBucket i b (h.elements + (2 ^ 32 - 1) * gone)).unlock l
    if rv ≠ 0 then return (rv,visited,h) else reduceDeleteBuckets f is visited h

def shashReduceDelete (f : ReduceFn κ ν) : Option (Int × List (κ × ν) × ShashTable κ ν) := do
  let l := h.bigLock
  let h ← h.lock l
  let (rv,visited,h) ← reduceDeleteBuckets f (List.range h.tableLen) [] h
  return (rv,visited,h.unlock l)

end ShashTable
end Citrusleaf
