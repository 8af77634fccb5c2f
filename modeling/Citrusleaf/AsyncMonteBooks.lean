import Citrusleaf.AsyncMonte

/-! What a submission leaves behind. Its nodes and descriptors are booked as in `Requests`, whose loop it
refines; the work item is given back by no call that fails, and a request that `cl_compile` rejects is
sent like any other. -/
namespace Citrusleaf.AsyncMonte
open Lib

/-! ### The books -/

/-- Work items, which go to the free pool, to `free` or to the work queue. -/
def items : Ledger AsyncCall Nat where
  takes
    | .poolPop item | .itemMalloc item => some item
    | _ => none
  gives
    | .poolPush item | .itemFree item => some item
    | .asyncPush item => some item.item
    | _ => none

/-- The calls on nodes and descriptors. -/
def requestCall : AsyncCall → Option Requests.RequestCall
  | .nodeGet node => some (.nodeGet node)
  | .nodePut node => some (.nodePut node)
  | .fdGet fd => some (.fdGet fd)
  | .close fd => some (.close fd)
  | .asyncPush item => some (.asyncPush item.work.node item.work.fd)
  | _ => none

def reservations : Ledger AsyncCall Nat := Requests.reservations.comap requestCall

def sockets : Ledger AsyncCall Nat := Requests.sockets.comap requestCall

/-- Nothing is left behind. -/
structure Undone (calls : List AsyncCall) : Prop where
  item : items.Balanced calls
  node : reservations.Balanced calls
  socket : sockets.Balanced calls
  queue : ∀ item, .asyncPush item ∉ calls

/-- `cl_compile` does not return 0. -/
def Submission.Rejected (s : Submission) (world : SubmitWorld) : Prop :=
  ∃ rv packet calls, s.compile world = some (rv,packet,calls) ∧ rv ≠ 0

/-- A call that fails leaves nothing behind; a request that is rejected fails, and is not sent. -/
structure FailsCleanly (s : Submission) (world : SubmitWorld) (r : AsyncReturned) : Prop where
  failed : r.rv ≠ citrusleafOk → Undone r.calls
  rejected : s.Rejected world → r.rv ≠ citrusleafOk ∧ ∀ fd sent, .write fd sent ∈ r.calls → sent = []

/-- The work queue is full, or the free pool is empty and there is no memory. -/
def SubmitWorld.NoItem (world : SubmitWorld) : Prop :=
  world.asyncQSz ≥ world.asyncQSzlimit ∨ world.freepoolSz = 0 ∧ world.itemMalloc = none

/-- The request as it is sent. -/
def Submission.packet (s : Submission) (world : SubmitWorld) : Option Packet := do
  let (_,packet,_) ← s.compile world
  let (packet,_) ← world.compress (s.clearVerify packet)
  return packet

/-- The attempt writes the whole request. -/
def Sender.Through (c : Sender) (t : SubmitTry) : Prop := t.node.isSome ∧ t.fd.isSome ∧ (c.written t).rv = 0

/-- An attempt gets through before the loop ends. -/
def Sender.Sends (c : Sender) : List SubmitTry → Prop
  | [] => False
  | t :: tries => c.Through t ∨ ¬c.Late t ∧ c.Retries ∧ c.Sends tries

variable {s : Submission} {world : SubmitWorld} {c : Sender} {t : SubmitTry} {tries : List SubmitTry} {rv : Int}
  {calls : List AsyncCall} {last : LoopEnd} {r : AsyncReturned}

/-! ### The attempts -/

/-- The ways through an attempt. -/
inductive Labels (c : Sender) (rv : Int) (t : SubmitTry) : SubmitLabel × List AsyncCall → Prop where
  | noNode (missing : t.node = none) : Labels c rv t (.retry none none false rv,[])
  | noFd (node : Nat) (given : t.node = some node) (missing : t.fd = none) :
      Labels c rv t (.retry node none false rv,[.nodeGet node])
  | unsent (node fd : Nat) (given : t.node = some node) (socket : t.fd = some fd) (failed : (c.written t).rv ≠ 0) :
      Labels c rv t (.retry node fd ((c.written t).rv ≠ (etimedout : Nat)) (c.written t).rv,
        [.nodeGet node,.fdGet fd,.write fd (c.written t).sent])
  | sent (node fd : Nat) (given : t.node = some node) (socket : t.fd = some fd) (done : (c.written t).rv = 0) :
      Labels c rv t (.ok node fd,[.nodeGet node,.fdGet fd,.write fd (c.written t).sent])

theorem label_labels (c : Sender) (rv : Int) (t : SubmitTry) : Labels c rv t (c.label none rv t) := by
  rw [Sender.label]
  split
  · rename_i missing
    exact .noNode missing
  · rename_i node given missing
    exact .noFd node given missing
  · rename_i node fd given socket
    dsimp only
    split
    · rename_i failed
      exact .unsent node fd given socket failed
    · rename_i done
      exact .sent node fd given socket (not_not.mp done)

/-- Where the loop ends. -/
inductive Ends (c : Sender) (tries : List SubmitTry) : LoopEnd → Prop where
  | error (rv : Int) (nonzero : rv ≠ 0) (never : ¬c.Sends tries) : Ends c tries (.error none rv)
  | ok (node fd : Nat) (sends : c.Sends tries) : Ends c tries (.ok node fd)

/-- The calls of an attempt. -/
def AsyncCall.ofTry : AsyncCall → Bool
  | .nodeGet _ | .nodePut _ | .fdGet _ | .write _ _ | .close _ => true
  | _ => false

theorem retryFd_none (fd : Option Nat) (networkError : Bool) : (retryFd fd networkError).1 = none := by
  cases fd <;> cases networkError <;> rfl

/-- What `Retry` gives back. -/
def retryCalls (node fd : Option Nat) (networkError : Bool) : List AsyncCall :=
  (retryFd fd networkError).2 ++ putNode node

theorem retryCalls_ofTry (node fd : Option Nat) (networkError : Bool) :
    ∀ call ∈ retryCalls node fd networkError, call.ofTry := by
  cases node <;> cases fd <;> cases networkError <;> simp [retryCalls,retryFd,closeFd,putNode,AsyncCall.ofTry]

/-- What a loop comes to, by its first attempt. -/
theorem loop_cons (given : c.loop none rv (t :: tries) = some (last,calls)) :
    (∃ node fd, c.label none rv t = (.ok node fd,calls) ∧ last = .ok node fd) ∨
    ∃ node fd networkError rv' first, c.label none rv t = (.retry node fd networkError rv',first) ∧
      (c.Late t ∧ last = .error none citrusleafFailTimeout ∧ calls = first ++ retryCalls node fd networkError ∨
        ¬c.Late t ∧ ¬c.Retries ∧ last = .error none rv' ∧ calls = first ++ retryCalls node fd networkError ∨
        ¬c.Late t ∧ c.Retries ∧ ∃ later, c.loop none rv' tries = some (last,later) ∧
          calls = first ++ retryCalls node fd networkError ++ later) := by
  rw [Sender.loop] at given
  split at given
  · rename_i node fd first label
    obtain ⟨rfl,rfl⟩ := Prod.mk.inj (Option.some.inj given)
    exact .inl ⟨node,fd,label,rfl⟩
  · rename_i node fd networkError rv' first label
    refine .inr ⟨node,fd,networkError,rv',first,label,?_⟩
    dsimp only at given
    rw [retryFd_none] at given
    split at given
    · rename_i late
      obtain ⟨rfl,rfl⟩ := Prod.mk.inj (Option.some.inj given)
      exact .inl ⟨late,rfl,rfl⟩
    · rename_i time
      split at given
      · rename_i retries
        obtain ⟨⟨last',later⟩,rest,same⟩ := Option.map_eq_some_iff.mp given
        obtain ⟨rfl,rfl⟩ := Prod.mk.inj same
        exact .inr (.inr ⟨time,retries,later,rest,rfl⟩)
      · rename_i once
        obtain ⟨rfl,rfl⟩ := Prod.mk.inj (Option.some.inj given)
        exact .inr (.inl ⟨time,once,rfl,rfl⟩)

theorem label_retry {node fd : Option Nat} {networkError : Bool} {rv' : Int} {first : List AsyncCall}
    (label : c.label none rv t = (.retry node fd networkError rv',first)) (nonzero : rv ≠ 0) :
    rv' ≠ 0 ∧ ¬c.Through t ∧ ∀ call ∈ first, call.ofTry := by
  have labels := label_labels c rv t
  rw [label] at labels
  cases labels with
  | noNode missing => exact ⟨nonzero,by simp [Sender.Through,missing],nofun⟩
  | noFd node given missing => exact ⟨nonzero,by simp [Sender.Through,missing],by simp [AsyncCall.ofTry]⟩
  | unsent node fd given socket failed =>
    exact ⟨Int.ofNat_ne_zero.mpr failed,fun through => failed through.2.2,by simp [AsyncCall.ofTry]⟩

/-- The loop ends well exactly if an attempt gets through. -/
theorem loop_ends (given : c.loop none rv tries = some (last,calls)) (nonzero : rv ≠ 0) :
    Ends c tries last ∧ ∀ call ∈ calls, call.ofTry := by
  induction tries generalizing rv calls with
  | nil => cases given
  | cons t tries ih =>
    rcases loop_cons given with ⟨node,fd,label,rfl⟩ | ⟨node,fd,networkError,rv',first,label,way⟩
    · have labels := label_labels c rv t
      rw [label] at labels
      cases labels with
      | sent _ _ found socket done =>
        have through : c.Through t := ⟨Option.isSome_of_mem found,Option.isSome_of_mem socket,done⟩
        exact ⟨.ok node fd (.inl through),by simp [AsyncCall.ofTry]⟩
    · obtain ⟨nonzero',unsent,calls'⟩ := label_retry label nonzero
      have both : ∀ call ∈ first ++ retryCalls node fd networkError, call.ofTry := by
        intro call member
        rcases List.mem_append.mp member with member | member
        · exact calls' call member
        · exact retryCalls_ofTry _ _ _ call member
      rcases way with ⟨late,rfl,rfl⟩ | ⟨_,once,rfl,rfl⟩ | ⟨time,retries,later,rest,rfl⟩
      · exact ⟨.error _ (by decide) (not_or.mpr ⟨unsent,fun more => more.1 late⟩),both⟩
      · exact ⟨.error _ nonzero' (not_or.mpr ⟨unsent,fun more => once more.2.1⟩),both⟩
      · obtain ⟨ends,laterCalls⟩ := ih rest nonzero'
        refine ⟨?_,fun call member => ?_⟩
        · cases ends with
          | error rv nonzero never => exact .error rv nonzero (not_or.mpr ⟨unsent,fun more => never more.2.2⟩)
          | ok node fd sends => exact .ok node fd (.inr ⟨time,retries,sends⟩)
        · rcases List.mem_append.mp member with member | member
          · exact both call member
          · exact laterCalls call member

/-! ### The loop of `Requests` -/

/-- An attempt as `Requests` sees it. -/
def Sender.monteTry (c : Sender) (t : SubmitTry) : Requests.MonteTry :=
  ⟨t.node,t.fd,(c.written t).rv,0,0,true,0,0,c.Late t⟩

/-- What `Requests` returns where the loop ends. -/
def LoopEnd.returned (queuePush : Bool) (calls : List AsyncCall) : LoopEnd → Requests.Returned
  | .error fd rv => ⟨rv,calls.filterMap requestCall ++ Requests.closeFd fd⟩
  | .ok node fd => ⟨citrusleafOk,calls.filterMap requestCall ++ if queuePush then [.asyncPush node fd] else []⟩

theorem retryCalls_requests (node fd : Option Nat) (networkError : Bool) :
    (retryCalls node fd networkError).filterMap requestCall =
      (Requests.retryFd fd networkError).2 ++ Requests.putNode node := by
  cases node <;> cases fd <;> cases networkError <;> rfl

/-- The label as `Requests` has it. -/
def SubmitLabel.request : SubmitLabel → Requests.Label
  | .retry node fd networkError rv => .retry node fd networkError rv
  | .ok node fd => .ok node fd

theorem label_refines {label : SubmitLabel} {first : List AsyncCall} (given : c.label none rv t = (label,first))
    (queuePush : Bool) : (Requests.asyncMonte queuePush).label (c.monteTry t) none rv = label.request ∧
      (c.monteTry t).taken = first.filterMap requestCall := by
  change Requests.asyncMonteLabel (c.monteTry t) none rv = _ ∧ _
  have labels := label_labels c rv t
  rw [given] at labels
  cases labels with
  | noNode missing => simp [Requests.asyncMonteLabel,Sender.monteTry,missing,SubmitLabel.request,Requests.MonteTry.taken,Requests.taken]
  | noFd node found missing =>
    simp [Requests.asyncMonteLabel,Sender.monteTry,found,missing,SubmitLabel.request,Requests.MonteTry.taken,Requests.taken,
      requestCall]
  | unsent node fd found socket failed =>
    have same : ((c.written t).rv : Int) = (etimedout.val : Int) ↔ (c.written t).rv = etimedout.val := Int.ofNat_inj
    simp [Requests.asyncMonteLabel,Sender.monteTry,found,socket,failed,same,SubmitLabel.request,Requests.MonteTry.taken,
      Requests.taken,requestCall]
  | sent node fd found socket done =>
    simp [Requests.asyncMonteLabel,Sender.monteTry,found,socket,done,SubmitLabel.request,Requests.MonteTry.taken,
      Requests.taken,requestCall]

/-- The loop refines that of `Requests`. -/
theorem loop_refines (given : c.loop none rv tries = some (last,calls)) (queuePush : Bool) :
    (Requests.asyncMonte queuePush).run c.wPol none rv (tries.map c.monteTry) = some (last.returned queuePush calls) := by
  induction tries generalizing rv calls with
  | nil => cases given
  | cons t tries ih =>
    rw [List.map_cons,Requests.RetryLoop.run]
    rcases loop_cons given with ⟨node,fd,label,rfl⟩ | ⟨node,fd,networkError,rv',first,label,way⟩
    · obtain ⟨same,taken⟩ := label_refines label queuePush
      rw [same,taken]
      rfl
    · obtain ⟨same,taken⟩ := label_refines label queuePush
      have late : (c.monteTry t).late = decide (c.Late t) := rfl
      rw [same,taken]
      dsimp only [SubmitLabel.request]
      rw [late,Requests.retryFd_none,← retryCalls_requests,← List.filterMap_append]
      rcases way with ⟨late,rfl,rfl⟩ | ⟨time,once,rfl,rfl⟩ | ⟨time,retries,later,rest,rfl⟩
      · rw [if_pos (decide_eq_true late)]
        simp [LoopEnd.returned,Requests.closeFd]
      · have once : ¬(c.wPol = none ∨ c.wPol = some .retry) := once
        rw [if_neg (by simpa using time),if_neg once]
        simp [LoopEnd.returned,Requests.closeFd]
      · have retries : c.wPol = none ∨ c.wPol = some .retry := retries
        rw [if_neg (by simpa using time),if_pos retries,ih rest]
        cases last <;> simp [LoopEnd.returned]

/-- A loop that fails has given back its nodes and descriptors. -/
theorem loop_balanced (given : c.loop none rv tries = some (.error none rv',calls)) :
    reservations.Balanced calls ∧ sockets.Balanced calls := by
  have refined := loop_refines given true
  have never : ¬Requests.ComesTo c.wPol Requests.MonteTry.Sent (fun t => t.Sent ∧ true = false) (tries.map c.monteTry) := by
    have none : (fun t : Requests.MonteTry => t.Sent ∧ true = false) = fun _ => False := by simp
    rw [none]
    exact Requests.comesTo_never _
  have nodes := ((Requests.asyncMonte_reservations true).run refined).mpr never
  have descriptors := ((Requests.asyncMonte_sockets true).run refined).mpr never
  simp only [LoopEnd.returned,Requests.closeFd,Option.map_none,Option.toList_none,List.append_nil] at nodes descriptors
  exact ⟨Ledger.balanced_comap.mpr nodes,Ledger.balanced_comap.mpr descriptors⟩

/-! ### A submission -/

/-- The calls for the buffers of the request. -/
def AsyncCall.ofBuffer : AsyncCall → Bool
  | .bufMalloc _ | .bufFree _ | .putCompressionStat _ _ => true
  | _ => false

theorem freeWrBuf_ofBuffer (wrBuf : WrBuf) : ∀ call ∈ freeWrBuf wrBuf, call.ofBuffer := by
  cases wrBuf <;> simp [freeWrBuf,AsyncCall.ofBuffer]

theorem compile_ofBuffer {packet : Packet} (given : s.compile world = some (rv,packet,calls)) :
    ∀ call ∈ calls, call.ofBuffer := by
  rw [Submission.compile] at given
  split at given
  · cases given
    nofun
  split at given
  · split at given
    · cases given
      nofun
    · obtain ⟨out,_,same⟩ := Option.bind_eq_some_iff.mp given
      cases same
      by_cases rejected : out.1 ≠ 0 <;> simp [rejected,AsyncCall.ofBuffer]
  · obtain ⟨out,_,same⟩ := Option.bind_eq_some_iff.mp given
    cases same
    nofun

theorem compress_ofBuffer {packet packet' : Packet} (given : world.compress packet = some (packet',calls)) :
    ∀ call ∈ calls, call.ofBuffer := by
  rw [SubmitWorld.compress] at given
  split at given
  · obtain ⟨out,_,same⟩ := Option.bind_eq_some_iff.mp given
    cases out with
    | none =>
      cases same
      simp [AsyncCall.ofBuffer]
    | some bytes =>
      cases same
      have freed := freeWrBuf_ofBuffer packet.wrBuf
      simp only [List.mem_cons,List.mem_append]
      rintro call (rfl | member | rfl | none)
      · rfl
      · exact freed call member
      · rfl
      · cases none
  · cases given
    nofun

/-- The ways through a submission. -/
inductive Submits (s : Submission) (world : SubmitWorld) (tries : List SubmitTry) : AsyncReturned → Prop where
  | noItem (rv : Int) (nonzero : rv ≠ citrusleafOk) (starved : world.NoItem) : Submits s world tries ⟨rv,[]⟩
  | ran {item : Nat} {taken : AsyncCall} {rv : Int} {first packet : Packet} {compiled compressed calls : List AsyncCall}
      {last : LoopEnd} (gets : ¬world.NoItem) (takes : taken = .poolPop item ∨ taken = .itemMalloc item)
      (compile : s.compile world = some (rv,first,compiled))
      (compress : world.compress (s.clearVerify first) = some (packet,compressed))
      (loop : (s.sender world packet.bytes).loop none citrusleafFailClient tries = some (last,calls)) :
      Submits s world tries (last.finish s world item packet.wrBuf (taken :: (compiled ++ (compressed ++ calls))))

/-- Where a work item is taken there is one, and it comes from the free pool or is allocated. -/
theorem workitem_takes {item : Nat} {taken : AsyncCall} (given : world.workitem = some (some (item,taken))) :
    (world.NoItem → world.asyncQSz ≥ world.asyncQSzlimit) ∧ (taken = .poolPop item ∨ taken = .itemMalloc item) := by
  rw [SubmitWorld.workitem] at given
  split at given
  · rename_i some
    obtain ⟨_,_,same⟩ := Option.map_eq_some_iff.mp given
    cases same
    exact ⟨fun starved => starved.resolve_right fun empty => Nat.ne_of_gt some empty.1,.inl rfl⟩
  · obtain ⟨_,there,same⟩ := Option.map_eq_some_iff.mp (Option.some.inj given)
    cases same
    exact ⟨fun starved => starved.resolve_right fun empty => Option.some_ne_none _ (there.symm.trans empty.2),.inr rfl⟩

theorem submission_submits (returned : clDoAsyncMonte s world tries = some r) : Submits s world tries r := by
  rw [clDoAsyncMonte] at returned
  split at returned
  · rename_i full
    cases returned
    exact .noItem _ (by decide) (.inl full)
  · rename_i room
    obtain ⟨found,workitem,returned⟩ := Option.bind_eq_some_iff.mp returned
    cases found with
    | none =>
      cases returned
      refine .noItem _ (by decide) (.inr ?_)
      rw [SubmitWorld.workitem] at workitem
      split at workitem
      · obtain ⟨item,_,same⟩ := Option.map_eq_some_iff.mp workitem
        cases same
      · rename_i empty
        exact ⟨Nat.eq_zero_of_not_pos empty,Option.map_eq_none_iff.mp (Option.some.inj workitem)⟩
    | some found =>
      obtain ⟨item,taken⟩ := found
      obtain ⟨⟨rv,first,compiled⟩,compile,returned⟩ := Option.bind_eq_some_iff.mp returned
      obtain ⟨⟨packet,compressed⟩,compress,returned⟩ := Option.bind_eq_some_iff.mp returned
      obtain ⟨⟨last,calls⟩,loop,returned⟩ := Option.bind_eq_some_iff.mp returned
      cases returned
      obtain ⟨starves,takes⟩ := workitem_takes workitem
      exact .ran (fun starved => room (starves starved)) takes compile compress loop

/-- What a failed submission keeps: its work item, and nothing else. -/
structure KeepsItem (item : Nat) (calls : List AsyncCall) : Prop where
  item : items.settle [] calls = some [item]
  node : reservations.Balanced calls
  socket : sockets.Balanced calls
  queue : ∀ queued, .asyncPush queued ∉ calls

theorem ofBuffer_neutral {call : AsyncCall} (buffer : call.ofBuffer) :
    items.takes call = none ∧ items.gives call = none ∧ requestCall call = none ∧ ∀ item, call ≠ .asyncPush item := by
  cases call <;> first | exact ⟨rfl,rfl,rfl,nofun⟩ | cases buffer

theorem ofTry_neutral {call : AsyncCall} (attempt : call.ofTry) :
    items.takes call = none ∧ items.gives call = none ∧ ∀ item, call ≠ .asyncPush item := by
  cases call <;> first | exact ⟨rfl,rfl,nofun⟩ | cases attempt

theorem filterMap_ofBuffer (buffers : ∀ call ∈ calls, call.ofBuffer) : calls.filterMap requestCall = [] :=
  List.filterMap_eq_nil_iff.mpr fun call member => (ofBuffer_neutral (buffers call member)).2.2.1

/-- The attempts as `Requests` sees them, with the request as it is sent. -/
def Submission.monteTries (s : Submission) (world : SubmitWorld) (tries : List SubmitTry) : List Requests.MonteTry :=
  match s.packet world with
  | some packet => tries.map (s.sender world packet.bytes).monteTry
  | none => []

/-- In front of the attempts there is no call on a node or a descriptor. -/
theorem started_requests {item : Nat} {taken : AsyncCall} {compiled compressed : List AsyncCall}
    (takes : taken = .poolPop item ∨ taken = .itemMalloc item) (compiledBuffers : ∀ call ∈ compiled, call.ofBuffer)
    (compressedBuffers : ∀ call ∈ compressed, call.ofBuffer) :
    (taken :: (compiled ++ (compressed ++ calls))).filterMap requestCall = calls.filterMap requestCall := by
  have none : requestCall taken = none := by rcases takes with rfl | rfl <;> rfl
  simp [none,filterMap_ofBuffer compiledBuffers,filterMap_ofBuffer compressedBuffers]

theorem finish_requests (last : LoopEnd) (item : Nat) (wrBuf : WrBuf) {before : List AsyncCall}
    (same : before.filterMap requestCall = calls.filterMap requestCall) :
    last.returned world.queuePush calls = ⟨(last.finish s world item wrBuf before).rv,
      (last.finish s world item wrBuf before).calls.filterMap requestCall⟩ := by
  have free := filterMap_ofBuffer (freeWrBuf_ofBuffer wrBuf)
  cases last with
  | error fd rv =>
    have closes : (closeFd fd).filterMap requestCall = Requests.closeFd fd := by cases fd <;> rfl
    simp [LoopEnd.finish,LoopEnd.returned,same,free,closes]
  | ok node fd =>
    cases queue : world.queuePush <;>
      simp [LoopEnd.finish,LoopEnd.returned,queue,same,free,requestCall,Submission.asyncItem]

/-- A submission refines that of `Requests`: it returns the same, and what it does to nodes and
descriptors on the way is what that does. -/
theorem submission_refines (returned : clDoAsyncMonte s world tries = some r) :
    Requests.clDoAsyncMonte (world.asyncQSz < world.asyncQSzlimit) (world.workitem.join.isSome) world.queuePush
      (s.clWP.map (·.1)) (s.monteTries world tries) = some ⟨r.rv,r.calls.filterMap requestCall⟩ := by
  rw [clDoAsyncMonte] at returned
  rw [Requests.clDoAsyncMonte]
  split at returned
  · rename_i full
    cases returned
    rw [if_pos (by simpa using full)]
    rfl
  · rename_i room
    rw [if_neg (by simpa using room)]
    obtain ⟨found,workitem,returned⟩ := Option.bind_eq_some_iff.mp returned
    rw [workitem]
    cases found with
    | none =>
      cases returned
      rfl
    | some found =>
      obtain ⟨item,taken⟩ := found
      obtain ⟨⟨rv,first,compiled⟩,compile,returned⟩ := Option.bind_eq_some_iff.mp returned
      obtain ⟨⟨packet,compressed⟩,compress,returned⟩ := Option.bind_eq_some_iff.mp returned
      obtain ⟨⟨last,calls⟩,loop,returned⟩ := Option.bind_eq_some_iff.mp returned
      have request : s.packet world = some packet := by
        rw [Submission.packet,compile]
        apply bind_given compress
        rfl
      rw [if_neg (by simp),Submission.monteTries,request]
      cases returned
      refine (loop_refines loop world.queuePush).trans (congrArg some (finish_requests last item packet.wrBuf ?_))
      exact started_requests (workitem_takes workitem).2 (compile_ofBuffer compile) (compress_ofBuffer compress)

/-- So its nodes and descriptors are left behind where a request is written and the push of its work
item fails, and nowhere else. -/
theorem submission_books (returned : clDoAsyncMonte s world tries = some r) :
    let left := (world.asyncQSz < world.asyncQSzlimit ∧ world.workitem.join.isSome) ∧
      Requests.ComesTo (s.clWP.map (·.1)) Requests.MonteTry.Sent (fun t => t.Sent ∧ world.queuePush = false)
        (s.monteTries world tries)
    (reservations.Balanced r.calls ↔ ¬left) ∧ (sockets.Balanced r.calls ↔ ¬left) := by
  have refined := submission_refines returned
  have nodes := Requests.clDoAsyncMonte_books (Requests.asyncMonte_reservations world.queuePush) refined
  have descriptors := Requests.clDoAsyncMonte_books (Requests.asyncMonte_sockets world.queuePush) refined
  rw [decide_eq_true_iff] at nodes descriptors
  exact ⟨Ledger.balanced_comap.trans nodes,Ledger.balanced_comap.trans descriptors⟩

/-- An item is taken, and given back by no call behind it. -/
theorem failed_keeps {item : Nat} {taken : AsyncCall} {compiled compressed later : List AsyncCall}
    (takes : taken = .poolPop item ∨ taken = .itemMalloc item) (compiledBuffers : ∀ call ∈ compiled, call.ofBuffer)
    (compressedBuffers : ∀ call ∈ compressed, call.ofBuffer) (laterBuffers : ∀ call ∈ later, call.ofBuffer)
    (tried : ∀ call ∈ calls, call.ofTry) (balanced : reservations.Balanced calls ∧ sockets.Balanced calls) :
    KeepsItem item (taken :: (compiled ++ (compressed ++ calls)) ++ later) := by
  have neutral : ∀ call ∈ compiled ++ (compressed ++ calls) ++ later,
      items.takes call = none ∧ items.gives call = none ∧ ∀ item, call ≠ .asyncPush item := by
    intro call member
    simp only [List.mem_append] at member
    rcases member with (member | member | member) | member
    · exact (ofBuffer_neutral (compiledBuffers call member)).imp_right fun rest => ⟨rest.1,rest.2.2⟩
    · exact (ofBuffer_neutral (compressedBuffers call member)).imp_right fun rest => ⟨rest.1,rest.2.2⟩
    · exact ofTry_neutral (tried call member)
    · exact (ofBuffer_neutral (laterBuffers call member)).imp_right fun rest => ⟨rest.1,rest.2.2⟩
  have requests : (taken :: (compiled ++ (compressed ++ calls)) ++ later).filterMap requestCall = calls.filterMap requestCall := by
    rw [List.filterMap_append,started_requests takes compiledBuffers compressedBuffers,filterMap_ofBuffer laterBuffers,
      List.append_nil]
  refine ⟨?_,?_,?_,fun queued member => ?_⟩
  · have rest : items.settle [item] (compiled ++ (compressed ++ calls) ++ later) = some [item] :=
      Ledger.settle_neutral fun call member => ⟨(neutral call member).1,(neutral call member).2.1⟩
    rcases takes with rfl | rfl <;> exact rest
  · refine Ledger.balanced_comap.mpr ?_
    rw [requests]
    exact Ledger.balanced_comap.mp balanced.1
  · refine Ledger.balanced_comap.mpr ?_
    rw [requests]
    exact Ledger.balanced_comap.mp balanced.2
  · rcases List.mem_cons.mp member with same | member
    · rcases takes with rfl | rfl <;> cases same
    · exact (neutral _ member).2.2 queued rfl

theorem KeepsItem.notUndone {item : Nat} (keeps : KeepsItem item calls) : ¬Undone calls := by
  intro undone
  have none : items.settle [] calls = some [] := undone.item
  rw [keeps.item] at none
  cases none

/-- A submission fails as it should exactly if it fails before it takes a work item, or does not fail
at all: `cl_compile` accepts it, and an attempt writes it whole before the loop ends. -/
theorem fails_cleanly_iff (returned : clDoAsyncMonte s world tries = some r) :
    FailsCleanly s world r ↔ world.NoItem ∨ ¬s.Rejected world ∧
      ∃ packet, s.packet world = some packet ∧ (s.sender world packet.bytes).Sends tries := by
  have submits := submission_submits returned
  cases submits with
  | noItem rv nonzero starved =>
    refine iff_of_true ⟨fun _ => ⟨rfl,rfl,rfl,nofun⟩,fun _ => ⟨nonzero,nofun⟩⟩ (.inl starved)
  | ran gets takes compile compress loop =>
    rename_i item taken rv first packet compiled compressed calls last
    have request : s.packet world = some packet := by
      rw [Submission.packet,compile]
      apply bind_given compress
      rfl
    rw [or_iff_right gets,request]
    obtain ⟨ends,tried⟩ := loop_ends loop (by decide)
    cases ends with
    | error rv' nonzero never =>
      have keeps : KeepsItem item (LoopEnd.finish s world item packet.wrBuf _ (.error none rv')).calls :=
        failed_keeps takes (compile_ofBuffer compile) (compress_ofBuffer compress)
          (by simpa [closeFd] using freeWrBuf_ofBuffer packet.wrBuf) tried (loop_balanced loop)
      refine iff_of_false (fun clean => keeps.notUndone (clean.failed nonzero)) ?_
      rintro ⟨_,packet',same,sends⟩
      obtain rfl := Option.some.inj same
      exact never sends
    | ok node fd sends =>
      have accepted : (∃ packet', some packet = some packet' ∧ (s.sender world packet'.bytes).Sends tries) :=
        ⟨packet,rfl,sends⟩
      rw [and_iff_left accepted]
      constructor
      · intro clean rejected
        exact (clean.rejected rejected).1 rfl
      · intro accepted
        exact ⟨fun failed => absurd rfl failed,fun rejected => absurd rejected accepted⟩

/-- A request of a header only. -/
def sampleSubmission : Submission := ⟨0,1,none,none,none,none,none,some (.oneshot,⟨false,false,false,false,false,0,0,0⟩),0,0⟩

def sampleWorld : SubmitWorld :=
  ⟨0,10,0,none,some 0,fun _ => none,fun _ => 0,0,⟨fun _ _ _ => none,fun _ _ => none,false,fun _ _ => none⟩,1000,0,0,true⟩

/-- A node whose connection takes the request. -/
def sampleTry : SubmitTry := ⟨some 1,some 5,⟨none,0,[⟨0,.took 30⟩]⟩,0⟩

theorem fails_cleanly_iff_sample : ∃ r, clDoAsyncMonte sampleSubmission sampleWorld [sampleTry] = some r ∧
    FailsCleanly sampleSubmission sampleWorld r := by
  obtain ⟨r,returned⟩ := Option.isSome_iff_exists.mp
    (by decide +kernel : (clDoAsyncMonte sampleSubmission sampleWorld [sampleTry]).isSome)
  obtain ⟨packet,request⟩ := Option.isSome_iff_exists.mp
    (by decide +kernel : (sampleSubmission.packet sampleWorld).isSome)
  have length : ((sampleSubmission.packet sampleWorld).map fun packet =>
      ((sampleSubmission.sender sampleWorld packet.bytes).written sampleTry).rv) = some 0 := by decide +kernel
  have compiled : (sampleSubmission.compile sampleWorld).map (·.1) = some 0 := by decide +kernel
  rw [request] at length
  refine ⟨r,returned,(fails_cleanly_iff returned).mpr (.inr ⟨?_,packet,request,.inl ⟨rfl,rfl,Option.some.inj length⟩⟩)⟩
  rintro ⟨rv,first,calls,given,rejected⟩
  rw [given] at compiled
  exact rejected (Option.some.inj compiled)

/-- There is no node. -/
theorem item_lost : clDoAsyncMonte sampleSubmission sampleWorld [{sampleTry with node := none}] = some ⟨-1,[.itemMalloc 0]⟩ ∧
    ¬FailsCleanly sampleSubmission sampleWorld ⟨-1,[.itemMalloc 0]⟩ := by
  refine ⟨by decide +kernel,fun clean => ?_⟩
  have balanced := (clean.failed (by decide)).item
  exact absurd balanced (by decide)

/-! ### What is sent -/

/-- A loop that ends well has sent the whole request on the descriptor it hands on. -/
theorem loop_sent {node fd : Nat} (given : c.loop none rv tries = some (.ok node fd,calls)) : .write fd c.bytes ∈ calls := by
  induction tries generalizing rv calls with
  | nil => cases given
  | cons t tries ih =>
    rcases loop_cons given with ⟨node,fd,label,same⟩ | ⟨node,fd,networkError,rv',first,label,way⟩
    · cases same
      have labels := label_labels c rv t
      rw [label] at labels
      cases labels with
      | sent _ _ found socket done =>
        have writes : Writes c.bytes (c.written t) := socketWrite_writes _ _ _ _
        rw [writes.full done]
        simp
    · rcases way with ⟨_,wrong,_⟩ | ⟨_,_,wrong,_⟩ | ⟨_,_,later,rest,rfl⟩
      · cases wrong
      · cases wrong
      · exact List.mem_append_right _ (ih rest)

/-- A submission that returns `CITRUSLEAF_OK` has sent its whole request on the descriptor of the work
item that it pushes. -/
theorem submitted_sent (returned : clDoAsyncMonte s world tries = some r) (ok : r.rv = citrusleafOk) :
    ∃ packet item node fd, s.packet world = some packet ∧ .write fd packet.bytes ∈ r.calls ∧
      (world.queuePush → .asyncPush (s.asyncItem world item node fd) ∈ r.calls) := by
  have submits := submission_submits returned
  cases submits with
  | noItem rv nonzero _ => exact absurd ok nonzero
  | ran gets takes compile compress loop =>
    rename_i item taken rv first packet compiled compressed calls last
    obtain ⟨ends,_⟩ := loop_ends loop (by decide)
    cases ends with
    | error rv' nonzero _ => exact absurd ok nonzero
    | ok node fd _ =>
      refine ⟨packet,item,node,fd,?_,?_,fun push => ?_⟩
      · rw [Submission.packet,compile]
        apply bind_given compress
        rfl
      · have sent := loop_sent loop
        simp only [LoopEnd.finish,List.cons_append,List.mem_cons,List.mem_append]
        exact .inr (.inl (.inr (.inr sent)))
      · simp [LoopEnd.finish,push]

/-! ### The buffers of the request -/

def buffers : Ledger AsyncCall WrBuf where
  takes
    | .bufMalloc wrBuf => some wrBuf
    | _ => none
  gives
    | .bufFree wrBuf => some wrBuf
    | _ => none

/-- The block that is freed at the end. -/
def WrBuf.owned (wrBuf : WrBuf) : List WrBuf := if wrBuf ≠ .stack then [wrBuf] else []

/-- `cl_compile` rejects a request in a block of its own: by then it has the block freed. -/
def Submission.Dangling (s : Submission) (world : SubmitWorld) : Prop :=
  ∃ rv packet calls, s.compile world = some (rv,packet,calls) ∧ rv ≠ 0 ∧ packet.wrBuf = .compiled

theorem compile_books {packet : Packet} (given : s.compile world = some (rv,packet,calls)) :
    packet.wrBuf ≠ .compressed ∧
      buffers.settle [] calls = some (if packet.wrBuf = .compiled ∧ rv ≠ 0 then [] else packet.wrBuf.owned) := by
  rw [Submission.compile] at given
  split at given
  · cases given
    exact ⟨WrBuf.noConfusion,rfl⟩
  split at given
  · split at given
    · cases given
      exact ⟨WrBuf.noConfusion,rfl⟩
    · obtain ⟨out,_,same⟩ := Option.bind_eq_some_iff.mp given
      cases same
      refine ⟨WrBuf.noConfusion,?_⟩
      by_cases rejected : out.1 ≠ 0 <;> simp [rejected,Ledger.settle,buffers,WrBuf.owned]
  · obtain ⟨out,_,same⟩ := Option.bind_eq_some_iff.mp given
    cases same
    exact ⟨WrBuf.noConfusion,rfl⟩

theorem compress_books {packet packet' : Packet} (given : world.compress packet = some (packet',calls))
    (first : packet.wrBuf ≠ .compressed) :
    buffers.settle packet.wrBuf.owned calls = some packet'.wrBuf.owned ∧ (packet.wrBuf = .compiled →
      buffers.settle [] calls = none ∨ packet'.wrBuf = .compiled ∧ buffers.settle [] calls = some []) := by
  rw [SubmitWorld.compress] at given
  split at given
  · obtain ⟨out,_,same⟩ := Option.bind_eq_some_iff.mp given
    cases out with
    | none =>
      cases same
      refine ⟨?_,fun block => .inr ⟨block,?_⟩⟩ <;> simp [Ledger.settle,buffers]
    | some bytes =>
      cases same
      cases where_ : packet.wrBuf with
      | stack => exact ⟨by simp [WrBuf.owned,freeWrBuf,Ledger.settle,buffers],WrBuf.noConfusion⟩
      | compiled =>
        refine ⟨?_,fun _ => .inl ?_⟩
        · simp [WrBuf.owned,freeWrBuf,Ledger.settle,buffers]
        · simp [freeWrBuf,Ledger.settle,buffers]
      | compressed => exact absurd where_ first
  · cases given
    exact ⟨rfl,fun block => .inr ⟨block,rfl⟩⟩

theorem freeWrBuf_books (wrBuf : WrBuf) : buffers.settle wrBuf.owned (freeWrBuf wrBuf) = some [] := by
  cases wrBuf <;> simp [WrBuf.owned,freeWrBuf,Ledger.settle,buffers]

theorem clearVerify_wrBuf (s : Submission) (packet : Packet) : (s.clearVerify packet).wrBuf = packet.wrBuf := by
  rw [Submission.clearVerify]
  split <;> rfl

/-- Behind the loop only `wr_buf` is freed. -/
theorem finish_books (last : LoopEnd) (item : Nat) (wrBuf : WrBuf) (before : List AsyncCall) :
    buffers.settle [] (last.finish s world item wrBuf before).calls =
      (buffers.settle [] before).bind fun held => buffers.settle held (freeWrBuf wrBuf) := by
  cases last with
  | error fd rv =>
    rw [LoopEnd.finish]
    dsimp only
    rw [Ledger.settle_append]
    refine Option.bind_congr fun held _ => ?_
    rw [Ledger.settle_append]
    -- the close of a file descriptor left open moves no block
    cases fd <;> simp [closeFd,Ledger.settle,buffers]
  | ok node fd =>
    rw [LoopEnd.finish]
    dsimp only
    rw [Ledger.settle_append]
    refine Option.bind_congr fun held _ => ?_
    split
    · simp [Ledger.settle,buffers]
    · rfl

/-- The blocks of a request are freed exactly once unless `cl_compile` rejects it in a block. -/
theorem buffers_balanced_iff (returned : clDoAsyncMonte s world tries = some r) :
    buffers.Balanced r.calls ↔ world.NoItem ∨ ¬s.Dangling world := by
  have submits := submission_submits returned
  cases submits with
  | noItem rv nonzero starved => exact iff_of_true rfl (.inl starved)
  | ran gets takes compile compress loop =>
    rename_i item taken rv first packet compiled compressed calls last
    obtain ⟨_,tried⟩ := loop_ends loop (by decide)
    obtain ⟨own,books⟩ := compile_books compile
    obtain ⟨good,bad⟩ := compress_books compress (by rw [clearVerify_wrBuf]; exact own)
    rw [clearVerify_wrBuf] at good bad
    have neutral (held : List WrBuf) : buffers.settle held calls = some held := by
      refine Ledger.settle_neutral fun call member => ?_
      have attempt := tried call member
      cases call <;> first | exact ⟨rfl,rfl⟩ | cases attempt
    have start (more : List AsyncCall) : buffers.settle [] (taken :: more) = buffers.settle [] more := by
      rcases takes with rfl | rfl <;> rfl
    rw [or_iff_right gets,Ledger.Balanced,finish_books,start,Ledger.settle_append,books,Option.bind_some,Ledger.settle_append]
    simp only [neutral,Option.bind_fun_some]
    by_cases dangling : first.wrBuf = .compiled ∧ rv ≠ 0
    · rw [if_pos dangling]
      refine iff_of_false ?_ (not_not.mpr ⟨rv,first,compiled,compile,dangling.2,dangling.1⟩)
      rcases bad dangling.1 with none | ⟨block,kept⟩
      · rw [none]
        simp
      · rw [kept,Option.bind_some,block]
        simp [freeWrBuf,Ledger.settle,buffers]
    · rw [if_neg dangling,good,Option.bind_some,freeWrBuf_books]
      refine iff_of_true rfl ?_
      rintro ⟨rv',first',calls',again,rejected,block⟩
      rw [compile] at again
      cases again
      exact dangling ⟨block,rejected⟩

end Citrusleaf.AsyncMonte
