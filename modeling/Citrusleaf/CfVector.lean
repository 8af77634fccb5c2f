import Citrusleaf.CfQueue
import Citrusleaf.Lib.Runs

/-! cf_vector.c. A vector packs values of one length. It grows by doubling and may start in
a buffer of its caller, which it leaves at the first growth. `none` stands for an access
outside the bytes of the vector, and for a call that waits for a lock nobody will release. -/
namespace Citrusleaf
open Lib

def vectorFlagBiglock : UInt32 := 0x01
def vectorFlagInitzero : UInt32 := 0x02
def vectorFlagBigresize : UInt32 := 0x04

structure CfVector (valueLen : Nat) where
  flags : UInt32
  allocLen : Nat
  len : Nat
  vector : Option (List UInt8)
  stackVector : Bool
  /-- `LOCK` is taken. -/
  held : Bool

variable {valueLen : Nat}

/-- The bytes behind the pointer; a null pointer has none. -/
def CfVector.block (v : CfVector valueLen) : List UInt8 := v.vector.getD []

/-- The offset of a value, a product of two `uint32_t`. -/
def vectorOffset (valueLen i : Nat) : Nat := i * valueLen % 2 ^ 32

/-! ### Making a vector -/

/-- `memset` to zero. -/
def zeroBytes (mem : List UInt8) (p n : Nat) : Option (List UInt8) := writeBytes mem p (List.replicate n 0)

/-- `cf_vector_init`, and `cf_vector_create` behind the allocation of the structure. `none`
is the failure to allocate. -/
def cfVectorInit (malloc : Malloc) (initSz : Nat) (flags : UInt32) : Option (CfVector valueLen) :=
  if initSz = 0 then some ⟨flags,0,0,none,false,false⟩
  else do
    let vector ← mallocBlock malloc (vectorOffset valueLen initSz)
    let vector ← if flags &&& vectorFlagInitzero ≠ 0 then zeroBytes vector 0 (vectorOffset valueLen initSz) else some vector
    return ⟨flags,initSz,0,some vector,false,false⟩

def cfVectorInitSmalloc (sbuf : List UInt8) (flags : UInt32) : CfVector valueLen :=
  let vector := if flags &&& vectorFlagInitzero ≠ 0 then List.replicate sbuf.length 0 else sbuf
  ⟨flags,sbuf.length / valueLen,0,some vector,true,false⟩

/-! ### Growing -/

/-- The values that are allocated when some are asked for. -/
def resizeLen (flags : UInt32) (newSz : Nat) : Nat :=
  if flags &&& vectorFlagBigresize ≠ 0 then if newSz < 50 then 50 else newSz
  else if newSz = 0 then 2 else newSz

/-- The new block, still without the values of a buffer on the stack. -/
def vectorAlloc (malloc : Malloc) (v : CfVector valueLen) (size : Nat) : Option (List UInt8) :=
  if v.vector.isNone || v.stackVector then mallocBlock malloc size else reallocBlock malloc v.block size

def leaveStack (v : CfVector valueLen) (t : List UInt8) : Option (List UInt8) :=
  if v.stackVector then (readBytes v.block 0 (vectorOffset valueLen v.allocLen)).bind (writeBytes t 0) else some t

def zeroRest (v : CfVector valueLen) (newSz : Nat) (t : List UInt8) : Option (List UInt8) :=
  let more := (newSz + (2 ^ 32 - v.allocLen)) % 2 ^ 32
  if v.flags &&& vectorFlagInitzero ≠ 0 then zeroBytes t (vectorOffset valueLen v.allocLen) (vectorOffset valueLen more)
  else some t

def cfVectorResize (malloc : Malloc) (v : CfVector valueLen) (newSz : Nat) : Option (Int × CfVector valueLen) :=
  let newSz := resizeLen v.flags newSz
  match vectorAlloc malloc v (vectorOffset valueLen newSz) with
  | none => some (-1,v)
  | some t => do
    let t ← zeroRest v newSz (← leaveStack v t)
    return (0,{v with vector := some t,stackVector := false,allocLen := newSz})

/-! ### The calls -/

/-- `VECTOR_LOCK` where the flags ask for it. -/
def vectorLock (v : CfVector valueLen) : Option (CfVector valueLen) :=
  if v.flags &&& vectorFlagBiglock = 0 then some v else if v.held then none else some {v with held := true}

def vectorUnlock (v : CfVector valueLen) : CfVector valueLen :=
  if v.flags &&& vectorFlagBiglock = 0 then v else {v with held := false}

def cfVectorSet (v : CfVector valueLen) (index : UInt32) (value : Element valueLen) :
    Option (Int × CfVector valueLen) := do
  let v ← vectorLock v
  -- the lock is kept on the way out
  if index.toNat ≥ v.allocLen then return (-1,v)
  let vector ← writeBytes v.block (vectorOffset valueLen index.toNat) value.toList
  let len := if index.toNat ≥ v.len then (index.toNat + 1) % 2 ^ 32 else v.len
  return (0,vectorUnlock {v with vector := some vector,len})

def cfVectorAppendLockfree (malloc : Malloc) (v : CfVector valueLen) (value : Element valueLen) :
    Option (Int × CfVector valueLen) := do
  let (rv,v) ← if v.len ≥ v.allocLen then cfVectorResize malloc v (v.len * 2 % 2 ^ 32) else some (0,v)
  if rv ≠ 0 then return (-1,v)
  let vector ← writeBytes v.block (vectorOffset valueLen v.len) value.toList
  return (0,{v with vector := some vector,len := (v.len + 1) % 2 ^ 32})

def cfVectorAppend (malloc : Malloc) (v : CfVector valueLen) (value : Element valueLen) :
    Option (Int × CfVector valueLen) := do
  let (rv,v) ← cfVectorAppendLockfree malloc (← vectorLock v) value
  return (rv,vectorUnlock v)

/-- The loop of `cf_vector_append_unique`, with `_b` as an offset. -/
def findValue (block : List UInt8) (value : Element valueLen) : Nat → Nat → Option Bool
  | 0,_ => some false
  | turns + 1,b => do
    let stored ← readBytes block b valueLen
    if value.toList = stored then return true else findValue block value turns (b + valueLen)

def cfVectorAppendUnique (malloc : Malloc) (v : CfVector valueLen) (value : Element valueLen) :
    Option (Int × CfVector valueLen) := do
  let v ← vectorLock v
  let found ← findValue v.block value v.len 0
  if found then return (0,vectorUnlock v)
  let (rv,v) ← cfVectorAppendLockfree malloc v value
  return (rv,vectorUnlock v)

/-- The return value, and the value that is copied to `value_p`. -/
def cfVectorGet (v : CfVector valueLen) (index : UInt32) :
    Option (Int × Option (List UInt8) × CfVector valueLen) := do
  let v ← vectorLock v
  -- here too
  if index.toNat ≥ v.allocLen then return (-1,none,v)
  let value ← readBytes v.block (vectorOffset valueLen index.toNat) valueLen
  return (0,some value,vectorUnlock v)

/-- The result is the value behind the returned pointer. -/
def cfVectorGetp (v : CfVector valueLen) (index : UInt32) : Option (Option (List UInt8) × CfVector valueLen) := do
  let v ← vectorLock v
  if index.toNat ≥ v.allocLen then return (none,v)
  let r ← readBytes v.block (vectorOffset valueLen index.toNat) valueLen
  return (some r,vectorUnlock v)

/-- The result is the value behind the returned pointer, and whether `*vlock` is set. `!` binds more
tightly than `&`, so only a vector without any flag is turned away. -/
def cfVectorGetpVlock (v : CfVector valueLen) (index : UInt32) :
    Option (Option (List UInt8) × Bool × CfVector valueLen) :=
  if v.flags = 0 then some (none,false,v)
  else if index.toNat ≥ v.allocLen then some (none,false,v)
  else if v.held then none
  else do
    let r ← readBytes v.block (vectorOffset valueLen index.toNat) valueLen
    return (some r,true,{v with held := true})

/-- Move down what lies behind a range, unless the range is the end. -/
def closeGap (v : CfVector valueLen) (idxStart idxEnd : Nat) : Option (CfVector valueLen) := do
  let v ←
    if idxEnd ≠ v.len - 1 then
      (moveBytes v.block (vectorOffset valueLen idxStart) (vectorOffset valueLen (idxEnd + 1))
        (vectorOffset valueLen (v.len - (idxEnd + 1)))).map fun vector => {v with vector := some vector}
    else some v
  return {v with len := v.len - (idxEnd - idxStart + 1)}

def cfVectorDelete (v : CfVector valueLen) (index : UInt32) : Option (Int × CfVector valueLen) := do
  let v ← vectorLock v
  if index.toNat ≥ v.len then return (-1,v)
  return (0,vectorUnlock (← closeGap v index.toNat index.toNat))

def cfVectorDeleteRange (v : CfVector valueLen) (idxStart idxEnd : UInt32) : Option (Int × CfVector valueLen) := do
  let v ← vectorLock v
  if idxStart ≥ idxEnd then return (-1,v)
  if idxStart.toNat ≥ v.len then return (-1,v)
  if idxEnd.toNat ≥ v.len then return (-1,v)
  return (0,vectorUnlock (← closeGap v idxStart.toNat idxEnd.toNat))

/-- The new size is a product of two numbers of values. `realloc` takes only what the allocator gave,
and its answer is stored whatever it is. -/
def cfVectorCompact (malloc : Malloc) (v : CfVector valueLen) : Option (CfVector valueLen) := do
  let v ← vectorLock v
  if v.allocLen ≠ 0 ∧ v.len ≠ v.allocLen then
    if v.stackVector then none
    else
      let vector := reallocBlock malloc v.block (v.len * v.allocLen % 2 ^ 32)
      return vectorUnlock {v with vector,allocLen := v.len}
  else return vectorUnlock v

end Citrusleaf
