import Citrusleaf.Compile
import Citrusleaf.FullMonte
import Citrusleaf.PacketCompression
import Citrusleaf.SocketDisposal
import Citrusleaf.SocketWrite

/-! `cl_do_async_monte` of cl_async.c, with the calls it makes to the outside in their order: the work
item, the buffers of the request, nodes, descriptors and what goes out on them. -/
namespace Citrusleaf.AsyncMonte
open Lib

def clMsgInfo1Verify : UInt32 := 8

/-! ### The arguments -/

/-- `info1` to `udata`; `values` stands for `n_values` with one of the two arrays. -/
structure Submission where
  info1 : UInt32
  info2 : UInt32
  ns : Option CString
  set : Option CString
  key : Option ClObject
  digest : Option CfDigest
  values : Option CompileValues
  clWP : Option (Increment.ClWritePolicy × ClWriteParameters)
  trid : UInt64
  udata : Nat

/-- `wr_buf`: `wr_stack_buf`, the block of `cl_compile`, or that of `cf_packet_compression`. -/
inductive WrBuf where
  | stack
  | compiled
  | compressed
  deriving DecidableEq

/-- A work item by its address, as it is queued. -/
structure AsyncItem where
  item : Nat
  trid : UInt64
  work : AsyncWork
  deriving DecidableEq

inductive AsyncCall where
  /-- A work item from the free pool, or from `malloc`. -/
  | poolPop (item : Nat)
  | itemMalloc (item : Nat)
  /-- Back to either. -/
  | poolPush (item : Nat)
  | itemFree (item : Nat)
  | bufMalloc (wrBuf : WrBuf)
  | bufFree (wrBuf : WrBuf)
  | putCompressionStat (actualSz compressedSz : Nat)
  | nodeGet (node : Nat)
  | nodePut (node : Nat)
  | fdGet (fd : Nat)
  /-- `cf_socket_write_timeout`, with the bytes that go out. -/
  | write (fd : Nat) (sent : List UInt8)
  | close (fd : Nat)
  | asyncPush (item : AsyncItem)
  deriving DecidableEq

/-- What a call finds: the work queue and its limit, the free pool at the test, the item that the
pop then gives if it does not wait forever, the allocator, what is on the stack, the cluster's
compression, the time for the network, the two clocks, and whether the queue takes the item. -/
structure SubmitWorld where
  asyncQSz : Nat
  asyncQSzlimit : Int
  freepoolSz : Nat
  popped : Option Nat
  itemMalloc : Option Nat
  malloc : Malloc
  stack : Nat → UInt8
  compressionThreshold : Int
  zlib : Zlib
  asyncNwProgressTimeout : Nat
  began : Nat
  starttime : Nat
  queuePush : Bool

/-! ### The request -/

/-- The arguments of `cl_compile`. -/
def Submission.compileArgs (s : Submission) : CompileArgs :=
  ⟨s.info1,s.info2,0,s.ns,s.set,s.key,s.digest,s.values.getD (.operations []),s.clWP.map (·.2),s.trid,none⟩

/-- `wr_buf` with its bytes. A block that was freed keeps them. -/
structure Packet where
  wrBuf : WrBuf
  bytes : List UInt8

/-- `wr_stack_buf` as it is found. -/
def SubmitWorld.stackPacket (world : SubmitWorld) : Packet := ⟨.stack,(List.range stackBufSz).map world.stack⟩

/-- `cl_compile`: its return value, what it leaves in `wr_buf`, and the block it takes. `none` stands
for an access outside a buffer. -/
def Submission.compile (s : Submission) (world : SubmitWorld) : Option (Int × Packet × List AsyncCall) :=
  match s.compileArgs.msgSz with
  | none => some (-1,world.stackPacket,[])
  | some msgSz =>
    if msgSz > stackBufSz then
      match world.malloc msgSz with
      | none => some (-1,world.stackPacket,[])
      | some _ => do
        let (rv,bytes) ← clCompile s.compileArgs
        -- `*buf_r` stays where a key of an unknown type has its block freed
        return (rv,⟨.compiled,bytes⟩,.bufMalloc .compiled :: if rv ≠ 0 then [.bufFree .compiled] else [])
    else do
      let (rv,bytes) ← clCompile s.compileArgs
      return (rv,⟨.stack,bytes⟩,[])

/-- The verify bit is cleared on delete verify. -/
def Submission.clearVerify (s : Submission) (packet : Packet) : Packet :=
  if s.info2 &&& FullMonte.clMsgInfo2Delete ≠ 0 ∧ s.info1 &&& clMsgInfo1Verify ≠ 0 then
    {packet with bytes := packet.bytes.modify 9 (· &&& ~~~clMsgInfo1Verify.toUInt8)}
  else packet

def freeWrBuf (wrBuf : WrBuf) : List AsyncCall := if wrBuf ≠ .stack then [.bufFree wrBuf] else []

/-- The request as it is sent, compressed where it is above the threshold. -/
def SubmitWorld.compress (world : SubmitWorld) (packet : Packet) : Option (Packet × List AsyncCall) :=
  if world.compressionThreshold > 0 ∧ packet.bytes.length > world.compressionThreshold then do
    match ← cfPacketCompression world.zlib world.malloc packet.bytes with
    | none => return (packet,[.putCompressionStat packet.bytes.length packet.bytes.length])
    | some bytes =>
      return (⟨.compressed,bytes⟩,.bufMalloc .compressed :: (freeWrBuf packet.wrBuf ++
        [.putCompressionStat packet.bytes.length bytes.length]))
  else some (packet,[])

/-! ### The attempts -/

def Submission.deadlineMs (s : Submission) (world : SubmitWorld) : Nat :=
  match s.clWP with
  | some (_,clWP) => if clWP.timeoutMs ≠ 0 then (world.began + clWP.timeoutMs.toInt).toNat else 0
  | none => 0

def Submission.progressTimeoutMs (s : Submission) (world : SubmitWorld) : Nat :=
  match s.clWP with
  | some (_,clWP) =>
    if clWP.timeoutMs ≠ 0 then
      if clWP.timeoutMs > 700 then (clWP.timeoutMs / 2).toInt.toNat else clWP.timeoutMs.toInt.toNat
    else world.asyncNwProgressTimeout
  | none => world.asyncNwProgressTimeout

/-- What an attempt finds: a node, a descriptor, a connection that takes what is written, and the
clock at `Retry`. -/
structure SubmitTry where
  node : Option Nat
  fd : Option Nat
  write : WriteAttempt
  now : Nat

/-- What all attempts share. -/
structure Sender where
  wPol : Option Increment.ClWritePolicy
  deadlineMs : Nat
  progressTimeoutMs : Nat
  bytes : List UInt8

def Submission.sender (s : Submission) (world : SubmitWorld) (bytes : List UInt8) : Sender :=
  ⟨s.clWP.map (·.1),s.deadlineMs world,s.progressTimeoutMs world,bytes⟩

/-- The label that an attempt goes to, with `node`, `fd`, `network_error` and `rv`. -/
inductive SubmitLabel where
  | retry (node fd : Option Nat) (networkError : Bool) (rv : Int)
  | ok (node fd : Nat)

namespace Sender

def written (c : Sender) (t : SubmitTry) : SocketWrite :=
  cfSocketWriteTimeout c.bytes c.deadlineMs c.progressTimeoutMs t.write

/-- An attempt, as far as its label, given the `fd` and the `rv` of the one before. -/
def label (c : Sender) (fd : Option Nat) (rv : Int) (t : SubmitTry) : SubmitLabel × List AsyncCall :=
  match t.node,t.fd with
  | none,_ => (.retry none fd false rv,[])
  | some node,none => (.retry node none false rv,[.nodeGet node])
  | some node,some fd =>
    let calls := [.nodeGet node,.fdGet fd,.write fd (c.written t).sent]
    if (c.written t).rv ≠ 0 then
      (.retry node fd ((c.written t).rv ≠ (etimedout : Nat)) (c.written t).rv,calls)
    else (.ok node fd,calls)

end Sender

def closeFd (fd : Option Nat) : List AsyncCall := (fd.map .close).toList

def putNode (node : Option Nat) : List AsyncCall := (node.map .nodePut).toList

/-- At `Retry` a descriptor is closed and `fd` set to -1, where the network failed and where there
still is one. -/
def retryFd (fd : Option Nat) (networkError : Bool) : Option Nat × List AsyncCall :=
  let (fd,first) := if networkError then (none,closeFd fd) else (fd,[])
  let (fd,second) := if fd.isSome then (none,closeFd fd) else (fd,[])
  (fd,first ++ second)

/-- Where the loop ends: at `Error` or at `Ok`. -/
inductive LoopEnd where
  | error (fd : Option Nat) (rv : Int)
  | ok (node fd : Nat)

/-- The deadline is over at `Retry`. -/
def Sender.Late (c : Sender) (t : SubmitTry) : Prop := c.deadlineMs ≠ 0 ∧ c.deadlineMs < t.now

instance (c : Sender) (t : SubmitTry) : Decidable (c.Late t) := inferInstanceAs (Decidable (_ ∧ _))

/-- The condition of the loop. -/
def Sender.Retries (c : Sender) : Prop := c.wPol = none ∨ c.wPol = some .retry

instance (c : Sender) : Decidable c.Retries := inferInstanceAs (Decidable (_ ∨ _))

/-- The loop, `none` while it goes on. -/
def Sender.loop (c : Sender) : Option Nat → Int → List SubmitTry → Option (LoopEnd × List AsyncCall)
  | _,_,[] => none
  | fd,rv,t :: tries =>
    match c.label fd rv t with
    | (.ok node fd,calls) => some (.ok node fd,calls)
    | (.retry node fd networkError rv,calls) =>
      let (fd,closed) := retryFd fd networkError
      let calls := calls ++ (closed ++ putNode node)
      if c.Late t then some (.error fd citrusleafFailTimeout,calls)
      else if c.Retries then (c.loop fd rv tries).map fun (last,later) => (last,calls ++ later)
      else some (.error fd rv,calls)

/-! ### A submission -/

structure AsyncReturned where
  rv : Int
  calls : List AsyncCall
  deriving DecidableEq

/-- The work item: `none` while the pop waits, and nothing where there is no memory. -/
def SubmitWorld.workitem (world : SubmitWorld) : Option (Option (Nat × AsyncCall)) :=
  if world.freepoolSz > 0 then world.popped.map fun item => some (item,.poolPop item)
  else some (world.itemMalloc.map fun item => (item,.itemMalloc item))

/-- The item as it goes to the queue. -/
def Submission.asyncItem (s : Submission) (world : SubmitWorld) (item node fd : Nat) : AsyncItem :=
  ⟨item,s.trid,⟨s.deadlineMs world,world.starttime,node,fd,s.udata⟩⟩

/-- From `Error` or `Ok` on. `Error` knows nothing of the work item. -/
def LoopEnd.finish (s : Submission) (world : SubmitWorld) (item : Nat) (wrBuf : WrBuf) (before : List AsyncCall) :
    LoopEnd → AsyncReturned
  | .error fd rv => ⟨rv,before ++ (freeWrBuf wrBuf ++ closeFd fd)⟩
  | .ok node fd =>
    let pushed := if world.queuePush then [.asyncPush (s.asyncItem world item node fd)] else []
    ⟨citrusleafOk,before ++ (pushed ++ freeWrBuf wrBuf)⟩

/-- `none` also while the loop goes on. The return value of `cl_compile` is not looked at. -/
def clDoAsyncMonte (s : Submission) (world : SubmitWorld) (tries : List SubmitTry) : Option AsyncReturned :=
  if world.asyncQSz ≥ world.asyncQSzlimit then some ⟨citrusleafFailAsyncqFull,[]⟩
  else do
    match ← world.workitem with
    | none => return ⟨citrusleafFailClient,[]⟩
    | some (item,taken) =>
      let (_,packet,compiled) ← s.compile world
      let (packet,compressed) ← world.compress (s.clearVerify packet)
      let (last,calls) ← (s.sender world packet.bytes).loop none citrusleafFailClient tries
      return last.finish s world item packet.wrBuf (taken :: (compiled ++ (compressed ++ calls)))

end Citrusleaf.AsyncMonte
