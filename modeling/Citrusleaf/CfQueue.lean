import Citrusleaf.Lib.Cells

/-! cf_queue.c. A queue is a ring of elements of one size that grows when it is full; its
offsets are of type `unsigned int` and count up until they are unwrapped. Every function
holds the lock of the queue, so it is one step here. `none` stands for an access outside the
bytes of the queue. -/
namespace Citrusleaf
open Lib

def cfQueueAllocsz : Nat := 64

def cfQueueOk : Int := 0
def cfQueueErr : Int := -1
def cfQueueEmpty : Int := -2

def reallocBlock (malloc : Malloc) (old : List UInt8) (n : Nat) : Option (List UInt8) :=
  (mallocBlock malloc n).map fun new => old.take n ++ new.drop old.length

/-- The bytes behind a pointer to an element. -/
abbrev Element (elementsz : Nat) := Vector UInt8 elementsz

structure CfQueue (elementsz : Nat) where
  allocsz : Nat
  writeOffset : Nat
  readOffset : Nat
  queue : List UInt8
  deriving DecidableEq

variable {elementsz : Nat}

namespace CfQueue

/-- `CF_Q_SZ` -/
def sz (q : CfQueue elementsz) : Nat := (q.writeOffset + (2 ^ 32 - q.readOffset)) % 2 ^ 32

/-- `CF_Q_EMPTY` -/
def empty (q : CfQueue elementsz) : Bool := q.writeOffset = q.readOffset

/-- `CF_Q_ELEM_PTR`, from the start of the bytes. -/
def elemPtr (q : CfQueue elementsz) (i : Nat) : Nat := i % q.allocsz * elementsz

end CfQueue

def cfQueueCreate (elementsz : Nat) (malloc : Malloc) : Option (CfQueue elementsz) :=
  (mallocBlock malloc (cfQueueAllocsz * elementsz)).map fun queue => ⟨cfQueueAllocsz,0,0,queue⟩

/-- `cf_queue_resize`, which only works on full queues. -/
def cfQueueResize (malloc : Malloc) (q : CfQueue elementsz) (newSz : Nat) : Option (Int × CfQueue elementsz) :=
  if q.sz ≠ q.allocsz then some (-1,q)
  else if q.readOffset % q.allocsz = 0 then
    match reallocBlock malloc q.queue (newSz * elementsz) with
    | none => some (-1,{q with queue := []})
    | some queue => some (0,{q with queue,readOffset := 0,writeOffset := q.allocsz,allocsz := newSz})
  else
    match mallocBlock malloc (newSz * elementsz) with
    | none => some (-1,q)
    | some newq => do
      let endsz := (q.allocsz - q.readOffset % q.allocsz) * elementsz % 2 ^ 32
      let newq ← writeBytes newq 0 (← readBytes q.queue (q.elemPtr q.readOffset) endsz)
      let newq ← writeBytes newq endsz (← readBytes q.queue 0 (q.allocsz * elementsz - endsz))
      return (0,{q with queue := newq,readOffset := 0,writeOffset := q.allocsz,allocsz := newSz})

def cfQueueUnwrap (q : CfQueue elementsz) : CfQueue elementsz :=
  let readOffset := q.readOffset % q.allocsz
  {q with readOffset,writeOffset := (readOffset + q.sz) % 2 ^ 32}

/-- Grow the queue if it is full. -/
def cfQueueGrow (malloc : Malloc) (q : CfQueue elementsz) : Option (Int × CfQueue elementsz) :=
  if q.sz = q.allocsz then cfQueueResize malloc q ((q.allocsz + cfQueueAllocsz) % 2 ^ 32) else some (0,q)

/-- Copy an element behind the last one. -/
def cfQueueStore (q : CfQueue elementsz) (ptr : Element elementsz) : Option (CfQueue elementsz) := do
  let queue ← writeBytes q.queue (q.elemPtr q.writeOffset) ptr.toList
  let q := {q with queue,writeOffset := (q.writeOffset + 1) % 2 ^ 32}
  return if q.writeOffset &&& 0xC0000000 ≠ 0 then cfQueueUnwrap q else q

def cfQueuePush (malloc : Malloc) (q : CfQueue elementsz) (ptr : Element elementsz) :
    Option (Int × CfQueue elementsz) := do
  let (rv,q) ← cfQueueGrow malloc q
  if rv ≠ 0 then return (-1,q) else return (0,← cfQueueStore q ptr)

def cfQueuePushLimit (malloc : Malloc) (q : CfQueue elementsz) (ptr : Element elementsz) (limit : UInt32) :
    Option (Bool × CfQueue elementsz) := do
  if q.sz ≥ limit.toNat then return (false,q)
  else
    let (rv,q) ← cfQueueGrow malloc q
    if rv ≠ 0 then return (false,q) else return (true,← cfQueueStore q ptr)

/-- `cf_queue_pop` with `CF_QUEUE_NOWAIT`: the return value and what is put into `buf`. -/
def cfQueuePop (q : CfQueue elementsz) : Option (Int × Option (List UInt8) × CfQueue elementsz) := do
  if q.empty then return (cfQueueEmpty,none,q)
  else
    let buf ← readBytes q.queue (q.elemPtr q.readOffset) elementsz
    let q := {q with readOffset := (q.readOffset + 1) % 2 ^ 32}
    return (0,some buf,if q.empty then {q with readOffset := 0,writeOffset := 0} else q)

def cfQueueDeleteOffset (q : CfQueue elementsz) (index : Nat) : Option (CfQueue elementsz) :=
  let index := index % q.allocsz
  let rIndex := q.readOffset % q.allocsz
  let wIndex := q.writeOffset % q.allocsz
  if index = rIndex then some {q with readOffset := (q.readOffset + 1) % 2 ^ 32}
  else if wIndex ≠ 0 ∧ index = wIndex - 1 then some {q with writeOffset := (q.writeOffset + (2 ^ 32 - 1)) % 2 ^ 32}
  else if index > rIndex then do
    let queue ← moveBytes q.queue ((rIndex + 1) * elementsz) (rIndex * elementsz) ((index - rIndex) * elementsz)
    return {q with queue,readOffset := (q.readOffset + 1) % 2 ^ 32}
  else if index < wIndex then do
    let queue ← moveBytes q.queue (index * elementsz) ((index + 1) * elementsz) ((wIndex - index - 1) * elementsz)
    return {q with queue,writeOffset := (q.writeOffset + (2 ^ 32 - 1)) % 2 ^ 32}
  else some q

/-- The loop of `cf_queue_delete` from `i` on, with `found` in the result. A turn brings `i`
nearer to the write offset, so the elements bound the turns. -/
def deleteFrom (buf : Element elementsz) (onlyOne : Bool) :
    Nat → Nat → Bool → CfQueue elementsz → Option (Bool × CfQueue elementsz)
  | 0,_,found,q => some (found,q)
  | turns + 1,i,found,q =>
    if i < q.writeOffset then do
      let element ← readBytes q.queue (q.elemPtr i) elementsz
      if element = buf.toList then
        let q ← cfQueueDeleteOffset q i
        if onlyOne then return (true,q) else deleteFrom buf onlyOne turns ((i + 1) % 2 ^ 32) true q
      else deleteFrom buf onlyOne turns ((i + 1) % 2 ^ 32) found q
    else some (found,q)

def cfQueueDelete (q : CfQueue elementsz) (buf : Element elementsz) (onlyOne : Bool) :
    Option (Int × CfQueue elementsz) := do
  let (found,q) ← deleteFrom buf onlyOne q.sz q.readOffset false q
  return (if found then cfQueueOk else cfQueueEmpty,q)

/-- `cf_queue_reduce_fn`: what a callback returns for an element, and its `udata` afterwards. -/
abbrev CfQueueReduceFn (σ : Type) := List UInt8 → σ → Int × σ

/-- The loop of `cf_queue_reduce` from `i` on. -/
def reduceFrom (cb : CfQueueReduceFn σ) : Nat → Nat → σ → CfQueue elementsz → Option (σ × CfQueue elementsz)
  | 0,_,udata,q => some (udata,q)
  | turns + 1,i,udata,q =>
    if i < q.writeOffset then do
      let element ← readBytes q.queue (q.elemPtr i) elementsz
      let (rv,udata) := cb element udata
      if rv = -1 then return (udata,q)
      else if rv = -2 then return (udata,← cfQueueDeleteOffset q i)
      else reduceFrom cb turns ((i + 1) % 2 ^ 32) udata q
    else some (udata,q)

def cfQueueReduce (q : CfQueue elementsz) (cb : CfQueueReduceFn σ) (udata : σ) :
    Option (Int × σ × CfQueue elementsz) := do
  let (udata,q) ← reduceFrom cb q.sz q.readOffset udata q
  return (0,udata,q)

structure CfQueuePriority (elementsz : Nat) where
  lowQ : CfQueue elementsz
  mediumQ : CfQueue elementsz
  highQ : CfQueue elementsz

def cfQueuePriorityHigh : Int := 1
def cfQueuePriorityMedium : Int := 2
def cfQueuePriorityLow : Int := 3

def cfQueuePriorityPush (malloc : Malloc) (q : CfQueuePriority elementsz) (ptr : Element elementsz) (pri : Int) :
    Option (Int × CfQueuePriority elementsz) :=
  if pri = cfQueuePriorityHigh then
    (cfQueuePush malloc q.highQ ptr).map fun (rv,highQ) => (rv,{q with highQ})
  else if pri = cfQueuePriorityMedium then
    (cfQueuePush malloc q.mediumQ ptr).map fun (rv,mediumQ) => (rv,{q with mediumQ})
  else if pri = cfQueuePriorityLow then
    (cfQueuePush malloc q.lowQ ptr).map fun (rv,lowQ) => (rv,{q with lowQ})
  else some (-1,q)

end Citrusleaf
