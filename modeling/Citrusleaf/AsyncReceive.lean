import Citrusleaf.Stream
import Citrusleaf.SocketRead

/-! `async_receiver_fn` of cl_async.c, from a work item that it has popped to the end of that turn
of its loop, with both callbacks registered. `rd_buf` is a variable of the whole loop: it goes
into a turn as the turn before has left it. -/
namespace Citrusleaf

/-- `cl_async_work`, as the receiver uses it. -/
structure AsyncWork where
  deadline : Nat
  starttime : Nat
  node : Nat
  fd : Nat
  udata : Nat
  deriving DecidableEq

/-- `rd_buf`: `rd_stack_buf`, null, or a block that `malloc` gave, whether it is freed or not. -/
inductive RdBuf where
  | stack
  | null
  | block (id : Nat)
  deriving DecidableEq

/-- What a turn does outside its own variables, in order. -/
inductive ReceiverEffect where
  | malloc (id : Nat)
  | free (id : Nat)
  /-- A body is read into `rd_buf`. -/
  | readBody (rdBuf : RdBuf)
  /-- `cf_queue_push` on the work queue. -/
  | putBack
  | close (fd : Nat)
  | failCb (udata : Nat) (rv : Int) (starttime : Nat)
  /-- The result is missing where `cl_parse` would leave the body. -/
  | successCb (udata : Nat) (rv : Option Int) (starttime : Nat)
  | fdPut (node fd : Nat)
  | nodePut (node : Nat)
  /-- `cf_queue_push` on the free pool, or `free` of the work item. -/
  | poolPut
  | freeWork
  | retriesIncr
  | dropoutsIncr
  deriving DecidableEq

/-- What happens around a turn: its two reads, `cf_getms` at `Retry`, the allocator, and whether a
push on either queue succeeds. -/
structure ReceiverWorld where
  header : ReadAttempt
  body : ReadAttempt
  now : Nat
  heap : Heap
  queuePush : Bool
  poolPush : Bool

def defaultProgressTimeout : Nat := 50

/-- `sizeof(as_msg)` -/
def asMsgSize : Nat := 30

/-- `cl_proto_swap` and `cl_msg_swap_header`. -/
def swapAsMsg (msg : List UInt8) : Option (ClProto × ClMsg) := do
  let msg ← clProtoSwap msg 0
  let msg ← clMsgSwapHeader msg 8
  return (← readProto msg 0,← readMsg msg 8)

/-- `msg.proto.sz - msg.m.header_sz`, in the 48 bits of `sz`. An `as_msg` has its 30 bytes. -/
def asyncBodySize (msg : List UInt8) : Nat :=
  ((swapAsMsg msg).map fun (proto,m) => (proto.sz + (2 ^ 48 - m.headerSz.toNat)) % 2 ^ 48).getD 0

/-- What the success callback is given. -/
def asyncResult (heap : Heap) (msg body : List UInt8) : Option Int := do
  let (_,m) ← swapAsMsg msg
  let parsed ← clParse heap m body ⟨none,true,false⟩
  return if parsed.rv ≠ 0 then citrusleafFailUnknown else m.resultCode.toNat

/-- Into a null buffer no byte can be read. -/
def ReadAttempt.intoNull (attempt : ReadAttempt) : ReadAttempt :=
  {attempt with turns := attempt.turns.map fun turn => {turn with poll := match turn.poll with
    | .arrived _ => .readFailed efault
    | poll => poll}}

def freeRdBuf : RdBuf → List ReceiverEffect
  | .block id => [.free id]
  | _ => []

/-- From the label `Ok` on; an error has left no descriptor. -/
def asyncOk (work : AsyncWork) (world : ReceiverWorld) (fd : Option Nat) (rdBuf : RdBuf) (rv : Int) (result : Option Int) :
    List ReceiverEffect :=
  (if rdBuf ≠ .null ∧ rv = citrusleafOk then [.successCb work.udata result work.starttime] else []) ++
    ((fd.map (.fdPut work.node)).toList ++
      (.nodePut work.node :: (if world.poolPush then .poolPut else .freeWork) :: freeRdBuf rdBuf))

/-- From the label `Error` on. -/
def asyncError (work : AsyncWork) (world : ReceiverWorld) (rdBuf : RdBuf) (rv : Int) : List ReceiverEffect :=
  .close work.fd :: .dropoutsIncr :: .failCb work.udata rv work.starttime :: asyncOk work world none rdBuf rv none

/-- Past its own deadline a work item is not put back. -/
def overdue (work : AsyncWork) (world : ReceiverWorld) : Prop := work.deadline ≠ 0 ∧ work.deadline < world.now

instance : Decidable (overdue work world) := inferInstanceAs (Decidable (_ ∧ _))

/-- From the label `Retry` on. A push that fails is not noticed. -/
def asyncRetry (work : AsyncWork) (world : ReceiverWorld) (rdBuf : RdBuf) : List ReceiverEffect :=
  if overdue work world then asyncError work world rdBuf citrusleafFailTimeout
  else (if world.queuePush then [.putBack] else []) ++ freeRdBuf rdBuf ++ [.retriesIncr]

/-- After a turn: `rd_buf`, what it did, the header it decoded, and what of the stream is left. -/
structure AsyncTurn where
  rdBuf : RdBuf
  effects : List ReceiverEffect
  header : Option (List UInt8)
  left : List UInt8

/-- The read of the header. -/
def readHeader (work : AsyncWork) (stream : List UInt8) (world : ReceiverWorld) : SocketRead :=
  cfSocketReadTimeout stream asMsgSize work.deadline defaultProgressTimeout world.header

/-- The read of the body. -/
def readBody (work : AsyncWork) (stream : List UInt8) (world : ReceiverWorld) (rdBuf : RdBuf) (msg : List UInt8) : SocketRead :=
  cfSocketReadTimeout stream (asyncBodySize msg) work.deadline defaultProgressTimeout
    (if rdBuf = .null then world.body.intoNull else world.body)

/-- The read of the body, and what follows it. -/
def asyncBody (work : AsyncWork) (world : ReceiverWorld) (rdBuf : RdBuf) (msg stream : List UInt8) : AsyncTurn :=
  let body := readBody work stream world rdBuf msg
  let effects :=
    if body.rv ≠ 0 then asyncError work world rdBuf body.rv
    else asyncOk work world (some work.fd) rdBuf citrusleafOk (asyncResult world.heap msg body.buf)
  ⟨rdBuf,.readBody rdBuf :: effects,some msg,body.left⟩

/-- A turn. `fresh` names the block that `malloc` would give. -/
def asyncReceive (work : AsyncWork) (stream : List UInt8) (world : ReceiverWorld) (rdBuf : RdBuf) (fresh : Nat) : AsyncTurn :=
  let header := readHeader work stream world
  if header.rv ≠ 0 then
    if header.rv ≠ etimedout then ⟨rdBuf,asyncError work world rdBuf header.rv,none,header.left⟩
    else ⟨rdBuf,asyncRetry work world rdBuf,none,header.left⟩
  else
    let rdBufSz := asyncBodySize header.buf
    if rdBufSz > 0 then
      if rdBufSz > stackBufSz then
        match world.heap.malloc rdBufSz with
        | none => ⟨.null,asyncError work world .null (-1),some header.buf,header.left⟩
        | some _ =>
          let visited := asyncBody work world (.block fresh) header.buf header.left
          {visited with effects := .malloc fresh :: visited.effects}
      else asyncBody work world rdBuf header.buf header.left
    else ⟨rdBuf,asyncOk work world (some work.fd) rdBuf citrusleafOk (asyncResult world.heap header.buf []),
      some header.buf,header.left⟩

/-! ### What a turn can do -/

/-- The ways through a turn. -/
inductive Turns (work : AsyncWork) (stream : List UInt8) (world : ReceiverWorld) (rdBuf : RdBuf) (fresh : Nat) :
    AsyncTurn → Prop where
  | failed (rv : Int) (error : (readHeader work stream world).rv ≠ 0)
      (notPut : ¬((readHeader work stream world).rv = etimedout ∧ ¬overdue work world)) (nonzero : rv ≠ 0) :
      Turns work stream world rdBuf fresh ⟨rdBuf,asyncError work world rdBuf rv,none,(readHeader work stream world).left⟩
  | put (timedOut : (readHeader work stream world).rv = etimedout) (time : ¬overdue work world) :
      Turns work stream world rdBuf fresh
        ⟨rdBuf,(if world.queuePush then [.putBack] else []) ++ freeRdBuf rdBuf ++ [.retriesIncr],none,
          (readHeader work stream world).left⟩
  | empty (read : (readHeader work stream world).rv = 0) (size : asyncBodySize (readHeader work stream world).buf = 0) :
      Turns work stream world rdBuf fresh
        ⟨rdBuf,asyncOk work world (some work.fd) rdBuf citrusleafOk
          (asyncResult world.heap (readHeader work stream world).buf []),
          some (readHeader work stream world).buf,(readHeader work stream world).left⟩
  | small (read : (readHeader work stream world).rv = 0) (some : 0 < asyncBodySize (readHeader work stream world).buf)
      (size : asyncBodySize (readHeader work stream world).buf ≤ stackBufSz) :
      Turns work stream world rdBuf fresh
        (asyncBody work world rdBuf (readHeader work stream world).buf (readHeader work stream world).left)
  | large (read : (readHeader work stream world).rv = 0)
      (size : stackBufSz < asyncBodySize (readHeader work stream world).buf) :
      Turns work stream world rdBuf fresh
        {asyncBody work world (.block fresh) (readHeader work stream world).buf (readHeader work stream world).left with
          effects := .malloc fresh :: (asyncBody work world (.block fresh) (readHeader work stream world).buf
            (readHeader work stream world).left).effects}
  | noMemory (read : (readHeader work stream world).rv = 0)
      (size : stackBufSz < asyncBodySize (readHeader work stream world).buf) :
      Turns work stream world rdBuf fresh
        ⟨.null,asyncError work world .null (-1),some (readHeader work stream world).buf,(readHeader work stream world).left⟩

theorem asyncReceive_turns (work : AsyncWork) (stream : List UInt8) (world : ReceiverWorld) (rdBuf : RdBuf) (fresh : Nat) :
    Turns work stream world rdBuf fresh (asyncReceive work stream world rdBuf fresh) := by
  rw [asyncReceive]
  dsimp only
  split
  · rename_i error
    split
    · rename_i other
      exact .failed _ error (fun put => other put.1) (Int.ofNat_ne_zero.mpr error)
    · rename_i timedOut
      rw [asyncRetry]
      split
      · rename_i late
        exact .failed _ error (fun put => put.2 late) (by decide)
      · rename_i time
        exact .put (not_not.mp timedOut) time
  · rename_i read
    replace read := not_not.mp read
    split
    · rename_i some
      split
      · rename_i size
        split
        · exact .noMemory read size
        · exact .large read size
      · rename_i size
        exact .small read some (Nat.not_lt.mp size)
    · rename_i none
      exact .empty read (Nat.eq_zero_of_not_pos none)

end Citrusleaf
