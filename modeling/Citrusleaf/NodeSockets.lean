import Citrusleaf.CfQueueFifo
import Citrusleaf.NodeInfo
import Citrusleaf.ShmNodes
import Citrusleaf.Lib.Custody
import Citrusleaf.Lib.Runs

/-! The sockets of a node: those idle in its two queues, those its transactions have, and the one for info
requests. A step is a call of cl_cluster.c; each takes a queue under its lock at most once. -/
namespace Citrusleaf.NodeSockets
open Lib Shm

/-! ### System calls -/

/-- The descriptors that are open, and which of them have `O_NONBLOCK`. `strays` are those that were closed
while they were not open. -/
structure Kernel where
  opened : List Nat
  nonblocking : Nat → Bool
  strays : List Nat

/-- `socket`, which gives an `int` that is not open. -/
def Kernel.socket (k : Kernel) (answer : Option Nat) : Option Nat × Kernel :=
  match answer with
  | none => (none,k)
  | some fd =>
    if fd ∈ k.opened ∨ 2 ^ 31 ≤ fd then (none,k)
    else (some fd,{k with opened := fd :: k.opened,nonblocking := Function.update k.nonblocking fd false})

/-- `fcntl` with `O_NONBLOCK`. -/
def Kernel.setNonblock (k : Kernel) (fd : Nat) : Kernel := {k with nonblocking := Function.update k.nonblocking fd true}

def Kernel.close (k : Kernel) (fd : Nat) : Kernel :=
  if fd ∈ k.opened then {k with opened := k.opened.erase fd} else {k with strays := fd :: k.strays}

inductive ConnectResult where
  | connected
  /-- `EINPROGRESS` -/
  | inProgress
  | failed

/-- What the calls of `cl_cluster_node_fd_create` return: the descriptor, whether `F_SETFL` works before and
behind `connect`, and `connect` for each address. -/
structure FdAnswers where
  socket : Option Nat
  setfl : Bool
  connect : SockaddrIn → ConnectResult
  setflAfter : Bool

/-- "loop over all known IP addresses for the server" -/
def connectLoop (nonblocking : Bool) (answers : FdAnswers) (fd : Nat) : List SockaddrIn → Kernel → Option Nat × Kernel
  | [],k => (none,k.close fd)
  | saIn :: addresses,k =>
    match answers.connect saIn with
    | .connected => if answers.setflAfter then (some fd,k.setNonblock fd) else (none,k.close fd)
    | .inProgress => if nonblocking then (some fd,k) else connectLoop nonblocking answers fd addresses k
    | .failed => connectLoop nonblocking answers fd addresses k

def clClusterNodeFdCreate (addresses : List SockaddrIn) (nonblocking : Bool) (answers : FdAnswers) (k : Kernel) :
    Option Nat × Kernel :=
  match k.socket answers.socket with
  | (none,k) => (none,k)
  | (some fd,k) =>
    if nonblocking then
      if answers.setfl then connectLoop nonblocking answers fd addresses (k.setNonblock fd) else (none,k.close fd)
    else connectLoop nonblocking answers fd addresses k

/-- What the calls of `cf_socket_create_and_connect_nb` return. -/
structure NbAnswers where
  socket : Option Nat
  getfl : Bool
  setfl : Bool
  connect : ConnectResult

def cfSocketCreateNb (answers : NbAnswers) (k : Kernel) : Option Nat × Kernel :=
  match k.socket answers.socket with
  | (none,k) => (none,k)
  | (some fd,k) =>
    if answers.getfl = false then (none,k.close fd)
    else if answers.setfl = false then (none,k.close fd)
    else (some fd,k.setNonblock fd)

/-- Without a socket, `connect` and `close` get -1 and fail. -/
def cfSocketCreateAndConnectNb (answers : NbAnswers) (k : Kernel) : Option Nat × Kernel :=
  match cfSocketCreateNb answers k with
  | (none,k) => (none,k)
  | (some fd,k) =>
    match answers.connect with
    | .connected | .inProgress => (some fd,k)
    | .failed => (none,k.close fd)

/-- The loop of `cl_cluster_node_prep_info_fd`. -/
def infoLoop (answers : SockaddrIn → NbAnswers) : List SockaddrIn → Kernel → Option Nat × Kernel
  | [],k => (none,k)
  | saIn :: addresses,k =>
    match cfSocketCreateAndConnectNb (answers saIn) k with
    | (some fd,k) => (some fd,k)
    | (none,k) => infoLoop answers addresses k

/-! ### Calls on a node -/

/-- What a queue of descriptors does under its lock. -/
structure PoolOps (κ : Type) where
  push : κ → Nat → κ
  pushLimit : κ → Nat → UInt32 → Bool × κ
  pop : κ → Option Nat × κ
  sz : κ → Nat

/-- An `int` in a queue. -/
def fdElement (fd : Nat) : Element 4 := ⟨(leBytes 4 fd).toArray,by simp⟩

/-- The rings of cf_queue.c. -/
def cfQueuePool (malloc : Malloc) : PoolOps (CfQueue 4) where
  push q fd := ((cfQueuePush malloc q (fdElement fd)).map Prod.snd).getD q
  pushLimit q fd limit := (cfQueuePushLimit malloc q (fdElement fd) limit).getD (false,q)
  pop q :=
    match cfQueuePop q with
    | some (_,some buf,q) => (some (leNat buf),q)
    | _ => (none,q)
  sz := CfQueue.sz

/-- Lists, with `Fifo`. -/
def fifoPool : PoolOps (List Nat) where
  push := Fifo.push
  pushLimit l fd limit := Fifo.pushLimit l fd limit.toNat
  pop := Fifo.pop
  sz := List.length

/-- A node, and what its transactions have got from `cl_cluster_node_fd_get`. -/
structure ClClusterNode (κ : Type) where
  sockaddrInV : List SockaddrIn
  connQ : κ
  connQAsyncfd : κ
  infoFd : Option Nat
  held : List Nat
  kernel : Kernel
  /-- The last reference is not released yet. -/
  live : Bool

/-- One info request, as in `clClusterNodeGetInfo`. -/
structure InfoCall where
  malloc : Malloc
  names : List UInt8
  timeoutMs : Nat
  stackBuf : List UInt8
  exchange : InfoExchange
  answers : SockaddrIn → NbAnswers

inductive SocketEvent where
  | fdGet (asyncfd nbconnect : Bool) (answers : FdAnswers)
  | fdPut (fd : Nat) (asyncfd : Bool)
  /-- A transaction fails, and closes its descriptor. -/
  | closeFd (fd : Nat)
  | getInfo (call : InfoCall)
  /-- `cluster_ping_address` finds the node at one more address. -/
  | addAddress (saIn : SockaddrIn)
  /-- `cl_cluster_node_release` of the last reference. -/
  | release

def connLimit : UInt32 := 300

namespace ClClusterNode

variable {κ : Type}

def clClusterNodeCreate (q asyncQ : κ) (saIn : SockaddrIn) : ClClusterNode κ :=
  ⟨[saIn],q,asyncQ,none,[],⟨[],fun _ => false,[]⟩,true⟩

/-- A descriptor, or -1, and what is left of the queue. -/
def popOrCreate (ops : PoolOps κ) (addresses : List SockaddrIn) (nonblocking : Bool) (answers : FdAnswers) (q : κ)
    (k : Kernel) : Option Nat × κ × Kernel :=
  match ops.pop q with
  | (some fd,q) => (some fd,q,k)
  | (none,q) =>
    let (fd,k) := clClusterNodeFdCreate addresses nonblocking answers k
    (fd,q,k)

def clClusterNodeFdGet (ops : PoolOps κ) (cn : ClClusterNode κ) (asyncfd nbconnect : Bool) (answers : FdAnswers) :
    ClClusterNode κ :=
  if asyncfd then
    let (fd,connQAsyncfd,kernel) := popOrCreate ops cn.sockaddrInV true answers cn.connQAsyncfd cn.kernel
    {cn with connQAsyncfd,kernel,held := fd.toList ++ cn.held}
  else
    let (fd,connQ,kernel) := popOrCreate ops cn.sockaddrInV nbconnect answers cn.connQ cn.kernel
    {cn with connQ,kernel,held := fd.toList ++ cn.held}

/-- The return value of `cf_queue_push` is not looked at. -/
def clClusterNodeFdPut (ops : PoolOps κ) (cn : ClClusterNode κ) (fd : Nat) (asyncfd : Bool) : ClClusterNode κ :=
  if asyncfd then {cn with connQAsyncfd := ops.push cn.connQAsyncfd fd,held := cn.held.erase fd}
  else
    match ops.pushLimit cn.connQ fd connLimit with
    | (true,connQ) => {cn with connQ,held := cn.held.erase fd}
    | (false,connQ) => {cn with connQ,held := cn.held.erase fd,kernel := cn.kernel.close fd}

def clClusterNodePrepInfoFd (cn : ClClusterNode κ) (answers : SockaddrIn → NbAnswers) : Bool × ClClusterNode κ :=
  match cn.infoFd with
  | some _ => (true,cn)
  | none =>
    let (infoFd,kernel) := infoLoop answers cn.sockaddrInV cn.kernel
    (infoFd.isSome,{cn with infoFd,kernel})

def clClusterNodeCloseInfoFd (cn : ClClusterNode κ) : ClClusterNode κ :=
  match cn.infoFd with
  | none => cn
  | some fd => {cn with infoFd := none,kernel := cn.kernel.close fd}

/-- The descriptor that an info request leaves open. -/
def getInfo (cn : ClClusterNode κ) (call : InfoCall) : ClClusterNode κ :=
  let (prepared,cn) := cn.clClusterNodePrepInfoFd call.answers
  match clClusterNodeGetInfo call.malloc call.names call.timeoutMs call.stackBuf {call.exchange with prepared} with
  | some r => if r.closed then cn.clClusterNodeCloseInfoFd else cn
  | none => cn

/-- "Drain out the queue and close the FDs" -/
def drain (ops : PoolOps κ) : Nat → κ → Kernel → κ × Kernel
  | 0,q,k => (q,k)
  | turns + 1,q,k =>
    match ops.pop q with
    | (some fd,q) => drain ops turns q (k.close fd)
    | (none,q) => (q,k)

/-- Every turn takes an element, so the elements bound the turns. -/
def clClusterNodeRelease (ops : PoolOps κ) (cn : ClClusterNode κ) : ClClusterNode κ :=
  let (connQ,kernel) := drain ops (ops.sz cn.connQ + 1) cn.connQ cn.kernel
  let (connQAsyncfd,kernel) := drain ops (ops.sz cn.connQAsyncfd + 1) cn.connQAsyncfd kernel
  clClusterNodeCloseInfoFd {cn with connQ,connQAsyncfd,kernel,live := false}

/-- Who has a descriptor of the node has a reference on it, too, so the last release finds none held. -/
def step (ops : PoolOps κ) (cn : ClClusterNode κ) (event : SocketEvent) : ClClusterNode κ :=
  if cn.live = false then cn
  else
    match event with
    | .fdGet asyncfd nbconnect answers => clClusterNodeFdGet ops cn asyncfd nbconnect answers
    | .fdPut fd asyncfd => if fd ∈ cn.held then clClusterNodeFdPut ops cn fd asyncfd else cn
    | .closeFd fd => if fd ∈ cn.held then {cn with held := cn.held.erase fd,kernel := cn.kernel.close fd} else cn
    | .getInfo call => cn.getInfo call
    | .addAddress saIn =>
      if cn.sockaddrInV.any fun other => other = saIn then cn
      else {cn with sockaddrInV := cn.sockaddrInV ++ [saIn]}
    | .release => if cn.held = [] then clClusterNodeRelease ops cn else cn

end ClClusterNode
end Citrusleaf.NodeSockets
