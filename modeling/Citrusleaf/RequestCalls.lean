import Citrusleaf.GetManyDigest
import Citrusleaf.Increment
import Citrusleaf.AsyncReceive
import Citrusleaf.Partition
import Citrusleaf.Lib.Ledger

/-! What the request functions do to nodes and sockets, for every sequence of outcomes of what they
call. A node that `cl_cluster_node_get` and its siblings return is reserved. -/
namespace Citrusleaf.Requests
open Lib Citrusleaf.Partition

inductive RequestCall where
  /-- A node with its "T" reference. -/
  | nodeGet (node : Node)
  | nodePut (node : Node)
  | fdGet (fd : Nat)
  | fdPut (node : Node) (fd : Nat)
  | close (fd : Nat)
  /-- A work item with both goes to `g_cl_async_q`. -/
  | asyncPush (node : Node) (fd : Nat)
  deriving DecidableEq

/-- References on nodes. Whoever is handed a work item gives its reference back. -/
def reservations : Ledger RequestCall Node where
  takes
    | .nodeGet node => some node
    | _ => none
  gives
    | .nodePut node | .asyncPush node _ => some node
    | _ => none

/-- Descriptors, which are closed, pooled or handed on with a work item. -/
def sockets : Ledger RequestCall Nat where
  takes
    | .fdGet fd => some fd
    | _ => none
  gives
    | .fdPut _ fd | .close fd | .asyncPush _ fd => some fd
    | _ => none

structure Returned where
  rv : Int
  calls : List RequestCall
  deriving DecidableEq

/-- The variables `node` and `fd`; null and -1 are `none`. -/
def taken (node : Option Node) (fd : Option Nat) : List RequestCall :=
  (node.map .nodeGet).toList ++ (fd.map .fdGet).toList

/-- `close(fd)` where it is not -1. -/
def closeFd (fd : Option Nat) : List RequestCall := (fd.map .close).toList

def putNode (node : Option Node) : List RequestCall := (node.map .nodePut).toList

/-! ### The loops that retry -/

/-- What a try comes across: `cl_cluster_node_get` and `cl_cluster_node_fd_get`, the results of the
write and both reads, the size of the body and the allocation for it, what the response
holds, and whether the deadline is over at `Retry`. -/
structure MonteTry where
  node : Option Node
  fd : Option Nat
  write : Int
  header : Int
  rdBufSz : Nat
  malloc : Bool
  body : Int
  result : Int
  late : Bool

/-- The label that a try goes to, with `node`, `fd`, `network_error` and `rv`. -/
inductive Label where
  | retry (node : Option Node) (fd : Option Nat) (networkError : Bool) (rv : Int)
  | error (fd : Option Nat) (rv : Int)
  | ok (node : Node) (fd : Nat)

/-- Where a function that retries goes in a try, given the `fd` and the `rv` of the try before, and
what it does at `Ok`. -/
structure RetryLoop where
  label : MonteTry → Option Nat → Int → Label
  ok : MonteTry → Node → Nat → Returned

/-- At `Retry` a descriptor is closed and `fd` set to -1: by the async sender also where the network
failed, and by both where there still is one. -/
def retryFd (fd : Option Nat) (networkError : Bool) : Option Nat × List RequestCall :=
  let (fd,first) := if networkError then (none,closeFd fd) else (fd,[])
  let (fd,second) := if fd.isSome then (none,closeFd fd) else (fd,[])
  (fd,first ++ second)

def MonteTry.taken (t : MonteTry) : List RequestCall := Requests.taken t.node (if t.node.isSome then t.fd else none)

/-- The loop, `none` while it goes on. `cl_w_p == 0` or `CL_WRITE_RETRY` retries. -/
def RetryLoop.run (loop : RetryLoop) (wPol : Option Increment.ClWritePolicy) :
    Option Nat → Int → List MonteTry → Option Returned
  | _,_,[] => none
  | fd,rv,t :: tries =>
    match loop.label t fd rv with
    | .ok node fd =>
      let last := loop.ok t node fd
      some {last with calls := t.taken ++ last.calls}
    | .error fd rv => some ⟨rv,t.taken ++ closeFd fd⟩
    | .retry node fd networkError rv =>
      let (fd,closed) := retryFd fd networkError
      let calls := t.taken ++ (closed ++ putNode node)
      if t.late then some ⟨citrusleafFailTimeout,calls ++ closeFd fd⟩
      else if wPol = none ∨ wPol = some .retry then
        (loop.run wPol fd rv tries).map fun later => {later with calls := calls ++ later.calls}
      else some ⟨rv,calls ++ closeFd fd⟩

/-- Without a node `fd` is left as it is. -/
def fullMonteLabel (t : MonteTry) (fd : Option Nat) (rv : Int) : Label :=
  match t.node,t.fd with
  | none,_ => .retry none fd false rv
  | some node,none => .retry node none false rv
  | some node,some fd =>
    if t.write ≠ 0 then .retry node fd false t.write
    else if t.header ≠ 0 then .retry node fd false t.header
    else if t.rdBufSz > 0 then
      if t.rdBufSz > stackBufSz ∧ t.malloc = false then .error fd (-1)
      else if t.body ≠ 0 then .retry node fd false t.body
      else .ok node fd
    else .ok node fd

def fullMonte : RetryLoop where
  label := fullMonteLabel
  ok t node fd := ⟨t.result,[.fdPut node fd,.nodePut node]⟩

/-- `compiled` is the outcome of `cl_compile`. -/
def doTheFullMonte (compiled : Bool) (wPol : Option Increment.ClWritePolicy) (tries : List MonteTry) : Option Returned :=
  if ¬compiled then some ⟨citrusleafFailClient,[]⟩ else fullMonte.run wPol none citrusleafFailClient tries

def asyncMonteLabel (t : MonteTry) (fd : Option Nat) (rv : Int) : Label :=
  match t.node,t.fd with
  | none,_ => .retry none fd false rv
  | some node,none => .retry node none false rv
  | some node,some fd => if t.write ≠ 0 then .retry node fd (t.write ≠ etimedout.val) t.write else .ok node fd

/-- The result of `cf_queue_push` is not looked at. -/
def asyncMonte (queuePush : Bool) : RetryLoop where
  label := asyncMonteLabel
  ok _ node fd := ⟨citrusleafOk,if queuePush then [.asyncPush node fd] else []⟩

/-- `room` says whether the queue takes more, `workitem` whether there is a work item. -/
def clDoAsyncMonte (room workitem queuePush : Bool) (wPol : Option Increment.ClWritePolicy) (tries : List MonteTry) :
    Option Returned :=
  if ¬room then some ⟨citrusleafFailAsyncqFull,[]⟩
  else if ¬workitem then some ⟨citrusleafFailClient,[]⟩
  else (asyncMonte queuePush).run wPol none citrusleafFailClient tries

/-! ### Scans and batches -/

/-- What `do_batch_monte` does with its socket at each return behind the write. -/
def batchExit (node : Node) (fd : Nat) : StreamExit → List RequestCall
  | .protoUnread => [.close fd]
  | .wrongVersion => [.close fd]
  | .wrongType => [.close fd]
  | .noRdBuf => [.close fd]
  | .bodyUnread => [.close fd]
  | .notDecompressed => [.close fd]
  | .wrongHeaderSz => [.close fd]
  | .noBins => [.close fd]
  | .pooled => [.fdPut node fd]
  | .closed => [.close fd]

/-- `do_batch_monte`, whose caller holds the node. `none` stands for a message that leaves its buffers. -/
def doBatchMonte (compile : Int) (node : Node) (fd : Option Nat) (write : Bool) (inflate : List UInt8 → Option (List UInt8))
    (cb : Bool) (heap : Heap) (stream : List UInt8) : Option Returned :=
  if compile ≠ 0 then some ⟨compile,[]⟩
  else match fd with
  | none => some ⟨-1,[]⟩
  | some fd =>
    if ¬write then some ⟨-1,[.fdGet fd,.close fd]⟩
    else do
      let read ← (Citrusleaf.doBatchMonte inflate cb).result heap stream
      return ⟨read.rv,.fdGet fd :: batchExit node fd read.exit⟩

/-- What `do_scan_monte` does at each return behind the write. It has no other: nothing is
decompressed, and its last return does not look at `rv`. -/
def scanExit (node : Node) (fd : Nat) : StreamExit → List RequestCall
  | .protoUnread => [.close fd]
  | .wrongVersion => [.close fd]
  | .wrongType => [.close fd]
  | .noRdBuf => [.close fd]
  | .bodyUnread => [.close fd]
  | .wrongHeaderSz => [.close fd]
  | .noBins => [.close fd]
  | .pooled => [.fdPut node fd,.nodePut node]
  | .notDecompressed | .closed => []

/-- `do_scan_monte`, with the node that was found by name and reserved, or a random one. -/
def doScanMonte (compiled : Bool) (node : Option Node) (fd : Option Nat) (write : Bool) (operationInfo : UInt32) (heap : Heap)
    (stream : List UInt8) : Option Returned :=
  if ¬compiled then some ⟨-1,[]⟩
  else match node,fd with
  | none,_ => some ⟨-1,[]⟩
  | some node,none => some ⟨-1,[.nodeGet node]⟩
  | some node,some fd =>
    if ¬write then some ⟨-1,[.nodeGet node,.fdGet fd,.close fd]⟩
    else do
      let read ← (Citrusleaf.doScanMonte operationInfo).result heap stream
      return ⟨read.rv,.nodeGet node :: .fdGet fd :: scanExit node fd read.exit⟩

/-- A digest with what `cl_cluster_node_get` and then `cl_cluster_node_get_random` return. -/
structure DigestNodes where
  digest : CfDigest
  node : Option Node
  random : Option Node

def DigestNodes.found (d : DigestNodes) : Option Node := d.node <|> d.random

/-- The nodes of the digests up to the first that gets none, and whether all got one. -/
def assignNodes : List DigestNodes → List (AssignedDigest Node) × Bool
  | [] => ([],true)
  | d :: digests =>
    match d.found with
    | none => ([],false)
    | some node => ((assignNodes digests).1.cons ⟨d.digest,node⟩,(assignNodes digests).2)

/-- `do_get_exists_many_digest`, with the results of its requests in the order in which they come
back. `none` stands for more nodes than the tables have room for. -/
def doGetExistsManyDigest (malloc : Bool) (digests : List DigestNodes) (outcomes : List Int) : Option Returned :=
  if ¬malloc then some ⟨-1,[]⟩
  else
    let (nodes,all) := assignNodes digests
    let calls := nodes.map (.nodeGet ·.node)
    if ¬all then some ⟨-1,calls⟩
    else do
      let _ ← GetManyDigest.requests nodes
      return ⟨GetManyDigest.collect 0 outcomes,calls ++ nodes.map (.nodePut ·.node)⟩

end Citrusleaf.Requests
