import Citrusleaf.AsyncReceive
import Citrusleaf.Increment

/-! `do_the_full_monte` of citrusleaf.c, behind `cl_compile`: the loop over attempts with what it
carries from one to the next, and what it returns at its three exits. What the cluster, the
connection and the clock do in an attempt is data of the attempt. -/
namespace Citrusleaf.FullMonte

def clMsgInfo2Delete : UInt32 := 2

/-- The arguments: `w_pol` and `timeout_ms` of `cl_w_p`, the arrays, and whether there is a `cl_gen`;
and the clock when the deadline is set. -/
structure MonteCall where
  info2 : UInt32
  clWP : Option (Increment.ClWritePolicy × Int32)
  caller : ParseCaller
  clGen : Bool
  began : Nat

namespace MonteCall

/-- A negative timeout gives a deadline that is over. -/
def deadlineMs (call : MonteCall) : Nat :=
  match call.clWP with
  | some (_,timeoutMs) => if timeoutMs ≠ 0 then (call.began + timeoutMs.toInt).toNat else 0
  | none => 0

def progressTimeoutMs (call : MonteCall) : Nat :=
  match call.clWP with
  | some (_,timeoutMs) =>
    if timeoutMs ≠ 0 then if timeoutMs > 700 then (timeoutMs / 2).toInt.toNat else timeoutMs.toInt.toNat
    else defaultProgressTimeout
  | none => defaultProgressTimeout

/-- The condition of the loop. -/
def retries (call : MonteCall) : Bool :=
  match call.clWP with
  | some (wPol,_) => wPol = .retry
  | none => true

def deletes (call : MonteCall) : Bool := call.info2 &&& clMsgInfo2Delete ≠ 0

end MonteCall

/-- An attempt: whether there is a node and a descriptor, the result of the write, what the server
sends, its two reads, the allocator, and the clock at `Retry`. -/
structure MonteAttempt where
  node : Bool
  fd : Bool
  write : Option Errno
  stream : List UInt8
  header : ReadAttempt
  body : ReadAttempt
  heap : Heap
  now : Nat

/-- The variables that outlive an attempt, and `*cl_gen`. -/
structure MonteState where
  try_ : Nat
  rv : Int
  rdBuf : RdBuf
  clGen : Option UInt32

def MonteState.start : MonteState := ⟨0,-1,.stack,none⟩

structure MonteResult where
  rv : Int
  values : Option Values
  trid : Option UInt64
  setname : Option (List UInt8)
  clGen : Option UInt32

/-- The label that an attempt goes to. -/
inductive MonteLabel where
  | retry (s : MonteState)
  | error (s : MonteState)
  | ok (s : MonteState) (msg body : List UInt8)

def MonteAttempt.headerRead (a : MonteAttempt) (call : MonteCall) : SocketRead :=
  cfSocketReadTimeout a.stream asMsgSize call.deadlineMs call.progressTimeoutMs a.header

/-- `rd_buf_sz` -/
def MonteAttempt.rdBufSz (a : MonteAttempt) (call : MonteCall) : Nat := asyncBodySize (a.headerRead call).buf

def MonteAttempt.bodyRead (a : MonteAttempt) (call : MonteCall) (rdBuf : RdBuf) : SocketRead :=
  cfSocketReadTimeout (a.headerRead call).left (a.rdBufSz call) call.deadlineMs call.progressTimeoutMs
    (if rdBuf = .null then a.body.intoNull else a.body)

/-- The read of the body, and what follows it. -/
def monteBody (call : MonteCall) (a : MonteAttempt) (s : MonteState) : MonteLabel :=
  let body := a.bodyRead call s.rdBuf
  if body.rv ≠ 0 then .retry {s with rv := body.rv,rdBuf := .null}
  else .ok {s with rv := body.rv} (a.headerRead call).buf body.buf

/-- An attempt, as far as its label. A block is named by its attempt. -/
def monteTry (call : MonteCall) (a : MonteAttempt) (s : MonteState) : MonteLabel :=
  let s := {s with try_ := s.try_ + 1}
  if ¬a.node then .retry s
  else if ¬a.fd then .retry s
  else match a.write with
  | some errno => .retry {s with rv := errno.val}
  | none =>
    let header := a.headerRead call
    if header.rv ≠ 0 then .retry {s with rv := header.rv}
    else
      let generation := (swapAsMsg header.buf).map (·.2.generation)
      let s := {s with rv := header.rv,clGen := if call.clGen then generation else s.clGen}
      if a.rdBufSz call > 0 then
        if a.rdBufSz call > stackBufSz then
          match a.heap.malloc (a.rdBufSz call) with
          | none => .error {s with rv := -1,rdBuf := .null}
          | some _ => monteBody call a {s with rdBuf := .block s.try_}
        else monteBody call a s
      else .ok s header.buf []

/-- What is returned without a response. -/
def MonteState.result (s : MonteState) (call : MonteCall) (rv : Int) : MonteResult :=
  ⟨rv,call.caller.values,none,none,s.clGen⟩

/-- From the label `Ok` on. `none` stands for a response in which `cl_parse` leaves its buffer. -/
def monteOk (call : MonteCall) (heap : Heap) (s : MonteState) (msg body : List UInt8) : Option MonteResult :=
  if s.rdBuf = .null then some (s.result call citrusleafFailUnknown)
  else do
    let (_,m) ← swapAsMsg msg
    let parsed ← clParse heap m body call.caller
    let rv : Int :=
      if parsed.rv ≠ 0 then citrusleafFailUnknown
      -- the first of several deletes may have gone through
      else if s.try_ > 1 ∧ m.resultCode = clResultNotfound ∧ call.deletes then 0
      else m.resultCode.toNat
    return ⟨rv,parsed.values,parsed.trid,parsed.setname,s.clGen⟩

/-- The call is over after some attempts, or needs more of them. -/
inductive MonteOutcome where
  | running
  | ended (tries : Nat) (result : Option MonteResult)

/-- The deadline is over at `Retry`. -/
def MonteAttempt.Late (a : MonteAttempt) (call : MonteCall) : Prop := call.deadlineMs ≠ 0 ∧ call.deadlineMs < a.now

instance (a : MonteAttempt) (call : MonteCall) : Decidable (a.Late call) := inferInstanceAs (Decidable (_ ∧ _))

def monteLoop (call : MonteCall) : MonteState → List MonteAttempt → MonteOutcome
  | _,[] => .running
  | s,a :: attempts =>
    match monteTry call a s with
    | .ok s msg body => .ended s.try_ (monteOk call a.heap s msg body)
    | .error s => .ended s.try_ (s.result call s.rv)
    | .retry s =>
      if a.Late call then .ended s.try_ (s.result call citrusleafFailTimeout)
      else if call.retries then monteLoop call s attempts
      else .ended s.try_ (s.result call s.rv)

/-- `compiled` is the outcome of `cl_compile`. -/
def doTheFullMonte (compiled : Bool) (call : MonteCall) (attempts : List MonteAttempt) : MonteOutcome :=
  if ¬compiled then .ended 0 (MonteState.start.result call (-1)) else monteLoop call .start attempts

/-! ### What an attempt comes to -/

/-- The header of the response arrives. -/
structure MonteAttempt.Reached (a : MonteAttempt) (call : MonteCall) : Prop where
  node : a.node
  fd : a.fd
  write : a.write = none
  header : (a.headerRead call).rv = 0

/-- There is a buffer for the body: it is small, or a block is given for it. -/
def MonteAttempt.Buffered (a : MonteAttempt) (call : MonteCall) : Prop :=
  stackBufSz < a.rdBufSz call → (a.heap.malloc (a.rdBufSz call)).isSome

/-- The state behind the header. -/
def MonteState.decoded (s : MonteState) (call : MonteCall) (a : MonteAttempt) : MonteState :=
  ⟨s.try_ + 1,0,s.rdBuf,
    if call.clGen then (swapAsMsg (a.headerRead call).buf).map (·.2.generation) else s.clGen⟩

/-- Where the body goes. -/
def MonteState.bodyBuf (s : MonteState) (call : MonteCall) (a : MonteAttempt) : RdBuf :=
  if stackBufSz < a.rdBufSz call then .block (s.try_ + 1) else s.rdBuf

/-- The ways through an attempt. -/
inductive Tries (call : MonteCall) (a : MonteAttempt) (s : MonteState) : MonteLabel → Prop where
  | unsent (unsent : ¬(a.node ∧ a.fd)) : Tries call a s (.retry {s with try_ := s.try_ + 1})
  /-- The write fails, or the read of the header. -/
  | unanswered (errno : Nat) (sent : a.node ∧ a.fd) (nonzero : errno ≠ 0)
      (failed : a.write.map Subtype.val = some errno ∨ a.write = none ∧ (a.headerRead call).rv = errno) :
      Tries call a s (.retry {s with try_ := s.try_ + 1,rv := errno})
  | noMemory (reached : a.Reached call) (unbuffered : ¬a.Buffered call) :
      Tries call a s (.error {s.decoded call a with rv := -1,rdBuf := .null})
  | cut (reached : a.Reached call) (some : 0 < a.rdBufSz call) (buffered : a.Buffered call)
      (nonzero : (a.bodyRead call (s.bodyBuf call a)).rv ≠ 0) :
      Tries call a s (.retry {s.decoded call a with rv := (a.bodyRead call (s.bodyBuf call a)).rv,rdBuf := .null})
  | whole (reached : a.Reached call) (some : 0 < a.rdBufSz call) (buffered : a.Buffered call)
      (read : (a.bodyRead call (s.bodyBuf call a)).rv = 0) :
      Tries call a s (.ok {s.decoded call a with rdBuf := s.bodyBuf call a} (a.headerRead call).buf
        (a.bodyRead call (s.bodyBuf call a)).buf)
  | empty (reached : a.Reached call) (none : a.rdBufSz call = 0) :
      Tries call a s (.ok (s.decoded call a) (a.headerRead call).buf [])

theorem monteTry_tries (call : MonteCall) (a : MonteAttempt) (s : MonteState) : Tries call a s (monteTry call a s) := by
  rw [monteTry]
  dsimp only
  split
  · rename_i noNode
    exact .unsent fun sent => noNode sent.1
  rename_i node
  split
  · rename_i noFd
    exact .unsent fun sent => noFd sent.2
  rename_i fd
  have sent : a.node ∧ a.fd := ⟨not_not.mp node,not_not.mp fd⟩
  split
  · rename_i errno written
    exact .unanswered errno.val sent (Nat.pos_iff_ne_zero.mp errno.2) (.inl (by rw [written]; rfl))
  rename_i written
  split
  · rename_i failed
    exact .unanswered _ sent failed (.inr ⟨written,rfl⟩)
  rename_i done
  have header := not_not.mp done
  have reached : a.Reached call := ⟨sent.1,sent.2,written,header⟩
  -- the body is read into some buffer
  have body (buffered : a.Buffered call) (some : 0 < a.rdBufSz call) :
      Tries call a s (monteBody call a {s.decoded call a with rdBuf := s.bodyBuf call a}) := by
    rw [monteBody]
    dsimp only
    split
    · rename_i nonzero
      exact .cut reached some buffered nonzero
    · rename_i zero
      rw [not_not.mp zero]
      exact .whole reached some buffered (not_not.mp zero)
  rw [header]
  split
  · rename_i some
    split
    · rename_i large
      rw [MonteState.bodyBuf,if_pos large] at body
      split
      · rename_i none
        refine .noMemory reached fun buffered => ?_
        have given := buffered large
        rw [none] at given
        cases given
      · rename_i given
        exact body (fun _ => by rw [given]; rfl) some
    · rename_i small
      rw [MonteState.bodyBuf,if_neg small] at body
      exact body (fun large => absurd large small) some
  · rename_i none
    exact .empty reached (Nat.eq_zero_of_not_pos none)

end Citrusleaf.FullMonte
