import Citrusleaf.RequestBalance

/-! What becomes of the descriptors that the request functions get from `cl_cluster_node_fd_get`.
One that goes into a work item is the receiver's, turn after turn, until it finishes the item. -/
namespace Citrusleaf.Requests
open Lib Citrusleaf.Partition

theorem fullMonte_sockets : fullMonte.Books sockets fullEnds fun _ => False := by
  refine RetryLoop.books fullMonteLabel_of False.elim (·.retry.2.2) (fun node fd _ => ?_) fun node fd _ _ => ?_
  all_goals
    refine iff_of_true ?_ not_false
    simp [fullMonte,Ledger.Balanced,Ledger.settle,sockets]

/-- A work item that does not get on its queue keeps its descriptor. -/
theorem asyncMonte_sockets (queuePush : Bool) :
    (asyncMonte queuePush).Books sockets MonteTry.Sent fun t => t.Sent ∧ queuePush = false := by
  refine RetryLoop.books asyncMonteLabel_of And.left (·.retry.2.2) (fun _ _ => False.elim) fun node fd sent _ => ?_
  cases queuePush <;> simp [asyncMonte,Ledger.Balanced,Ledger.settle,sockets,sent]

theorem comesTo_never {wPol : Option Increment.ClWritePolicy} {ends : MonteTry → Prop} (tries : List MonteTry) :
    ¬ComesTo wPol ends (fun _ => False) tries := by
  induction tries with
  | nil => exact id
  | cons t tries ih => exact fun comes => comes.elim id fun later => ih later.2

/-! ### The receiver -/

/-- The descriptor of a work item, which its receiver closes or pools. -/
def itemSockets : Ledger ReceiverEffect Nat where
  takes _ := none
  gives
    | .close fd | .fdPut _ fd => some fd
    | _ => none

/-- What a turn of a receiver finds. -/
structure ReceiverTurn where
  stream : List UInt8
  world : ReceiverWorld
  rdBuf : RdBuf
  fresh : Nat

def ReceiverTurn.effects (t : ReceiverTurn) (work : AsyncWork) : List ReceiverEffect :=
  (asyncReceive work t.stream t.world t.rdBuf t.fresh).effects

/-- The receiver is done with the work item, and gives up the reference on its node. -/
def Finishes (work : AsyncWork) (effects : List ReceiverEffect) : Prop := .nodePut work.node ∈ effects

instance : Decidable (Finishes work effects) := inferInstanceAs (Decidable (_ ∈ _))

/-- The turns in which a work item is popped, up to the one that finishes it. -/
def visits (work : AsyncWork) : List ReceiverTurn → List ReceiverEffect
  | [] => []
  | t :: turns => if Finishes work (t.effects work) then t.effects work else t.effects work ++ visits work turns

variable {work : AsyncWork} {world : ReceiverWorld} {rdBuf : RdBuf} {rv : Int} {result : Option Int}

theorem freeRdBuf_neutral (rdBuf : RdBuf) : ∀ e ∈ freeRdBuf rdBuf, itemSockets.gives e = none ∧ ∀ node, e ≠ .nodePut node := by
  cases rdBuf <;> simp [freeRdBuf,itemSockets]

/-- `Ok` pools the descriptor it is given, and gives up the node. -/
theorem asyncOk_books (fd : Option Nat) :
    Finishes work (asyncOk work world fd rdBuf rv result) ∧
      itemSockets.settle fd.toList (asyncOk work world fd rdBuf rv result) = some [] := by
  have rest (tail : List ReceiverEffect) (neutral : ∀ e ∈ tail, itemSockets.gives e = none) :
      itemSockets.settle [] tail = some [] := Ledger.settle_neutral fun e member => ⟨rfl,neutral e member⟩
  have free (e : ReceiverEffect) (member : e ∈ freeRdBuf rdBuf) := (freeRdBuf_neutral rdBuf e member).1
  have tail : itemSockets.settle []
      (.nodePut work.node :: (if world.poolPush then .poolPut else .freeWork) :: freeRdBuf rdBuf) = some [] := by
    refine rest _ fun e member => ?_
    rcases List.mem_cons.mp member with rfl | member
    · rfl
    · rcases List.mem_cons.mp member with rfl | member
      · cases world.poolPush <;> rfl
      · exact free e member
  refine ⟨?_,?_⟩
  · simp [Finishes,asyncOk]
  · rw [asyncOk,Ledger.settle_append,Ledger.settle_neutral,Option.bind_some,Ledger.settle_append]
    · cases fd with
      | none => exact tail
      | some fd =>
        rw [show itemSockets.settle (some fd).toList ((some fd).map (.fdPut work.node)).toList = some [] from by
          simp [Ledger.settle,itemSockets]]
        exact tail
    · intro e member
      split at member
      · rw [List.mem_singleton.mp member]
        exact ⟨rfl,rfl⟩
      · cases member

/-- `Error` closes it first. -/
theorem asyncError_books : Finishes work (asyncError work world rdBuf rv) ∧
    itemSockets.settle [work.fd] (asyncError work world rdBuf rv) = some [] := by
  obtain ⟨finishes,books⟩ := @asyncOk_books work world rdBuf rv none none
  refine ⟨List.mem_cons_of_mem _ (List.mem_cons_of_mem _ (List.mem_cons_of_mem _ finishes)),?_⟩
  rw [asyncError,show ReceiverEffect.close work.fd :: .dropoutsIncr :: .failCb work.udata rv work.starttime ::
    asyncOk work world none rdBuf rv none = [.close work.fd,.dropoutsIncr,.failCb work.udata rv work.starttime] ++
    asyncOk work world none rdBuf rv none from rfl,Ledger.settle_append]
  rw [show itemSockets.settle [work.fd] [.close work.fd,.dropoutsIncr,.failCb work.udata rv work.starttime] = some [] from by
    simp [Ledger.settle,itemSockets]]
  exact books

theorem asyncBody_books (msg stream : List UInt8) :
    Finishes work (asyncBody work world rdBuf msg stream).effects ∧
      itemSockets.settle [work.fd] (asyncBody work world rdBuf msg stream).effects = some [] := by
  rw [asyncBody]
  dsimp only
  split
  · obtain ⟨finishes,books⟩ := @asyncError_books work world rdBuf (readBody work stream world rdBuf msg).rv
    exact ⟨List.mem_cons_of_mem _ finishes,books⟩
  · obtain ⟨finishes,books⟩ := @asyncOk_books work world rdBuf citrusleafOk
      (asyncResult world.heap msg (readBody work stream world rdBuf msg).buf) (some work.fd)
    exact ⟨List.mem_cons_of_mem _ finishes,books⟩

/-- A turn closes or pools the descriptor once if it finishes the item, and leaves it alone else. -/
theorem turn_books (t : ReceiverTurn) : itemSockets.settle [work.fd] (t.effects work) =
    some (if Finishes work (t.effects work) then [] else [work.fd]) := by
  have finished {effects : List ReceiverEffect} (books : Finishes work effects ∧ itemSockets.settle [work.fd] effects = some []) :
      itemSockets.settle [work.fd] effects = some (if Finishes work effects then [] else [work.fd]) := by
    rw [if_pos books.1]
    exact books.2
  have turns := asyncReceive_turns work t.stream t.world t.rdBuf t.fresh
  rw [ReceiverTurn.effects]
  generalize asyncReceive work t.stream t.world t.rdBuf t.fresh = turn at turns ⊢
  cases turns with
  | failed rv _ _ _ => exact finished asyncError_books
  | put _ _ =>
    have neutral : ∀ e ∈ (if t.world.queuePush then [.putBack] else []) ++ freeRdBuf t.rdBuf ++ [.retriesIncr],
        itemSockets.gives e = none ∧ ∀ node, e ≠ .nodePut node := by
      intro e member
      simp only [List.mem_append,List.mem_singleton] at member
      rcases member with (put | freed) | rfl
      · split at put
        · rw [List.mem_singleton.mp put]
          exact ⟨rfl,nofun⟩
        · cases put
      · exact freeRdBuf_neutral _ e freed
      · exact ⟨rfl,nofun⟩
    refine (Ledger.settle_neutral fun e member => ⟨rfl,(neutral e member).1⟩).trans (congrArg some ?_)
    exact (if_neg fun finishes => (neutral _ finishes).2 _ rfl).symm
  | empty _ _ => exact finished (asyncOk_books (some work.fd))
  | small _ _ _ => exact finished (asyncBody_books _ _)
  | large _ _ =>
    obtain ⟨finishes,books⟩ := @asyncBody_books work t.world (.block t.fresh) (readHeader work t.stream t.world).buf
      (readHeader work t.stream t.world).left
    exact finished ⟨List.mem_cons_of_mem _ finishes,books⟩
  | noMemory _ _ => exact finished asyncError_books

theorem visits_books (work : AsyncWork) (turns : List ReceiverTurn) : itemSockets.settle [work.fd] (visits work turns) =
    some (if Finishes work (visits work turns) then [] else [work.fd]) := by
  induction turns with
  | nil => rfl
  | cons t turns ih =>
    have turn := @turn_books work t
    rw [visits]
    by_cases finishes : Finishes work (t.effects work)
    · rw [if_pos finishes]
      exact turn
    · rw [if_neg finishes] at turn
      rw [if_neg finishes,Ledger.settle_append,turn,Option.bind_some,ih]
      have same : Finishes work (t.effects work ++ visits work turns) ↔ Finishes work (visits work turns) :=
        List.mem_append.trans (or_iff_right finishes)
      exact congrArg some (if_congr same.symm rfl rfl)

/-! ### Scans and batches -/

theorem batch_sockets {compile : Int} {node : Node} {fd : Option Nat} {write : Bool}
    {inflate : List UInt8 → Option (List UInt8)} {cb : Bool} {heap : Heap} {stream : List UInt8} {r : Returned}
    (returned : doBatchMonte compile node fd write inflate cb heap stream = some r) : sockets.Balanced r.calls := by
  rw [Requests.doBatchMonte.eq_def] at returned
  split at returned
  · cases returned
    rfl
  split at returned
  · cases returned
    rfl
  split at returned
  · cases returned
    simp [Ledger.Balanced,Ledger.settle,sockets]
  obtain ⟨read,_,last⟩ := Option.bind_eq_some_iff.mp returned
  cases last
  cases read.exit <;> simp [batchExit,Ledger.Balanced,Ledger.settle,sockets]

theorem scan_sockets {compiled : Bool} {node : Option Node} {fd : Option Nat} {write : Bool} {operationInfo : UInt32}
    {heap : Heap} {stream : List UInt8} {r : Returned}
    (returned : doScanMonte compiled node fd write operationInfo heap stream = some r) : sockets.Balanced r.calls := by
  rw [Requests.doScanMonte.eq_def] at returned
  split at returned
  · cases returned
    rfl
  split at returned
  · cases returned
    rfl
  · cases returned
    rfl
  split at returned
  · cases returned
    simp [Ledger.Balanced,Ledger.settle,sockets]
  obtain ⟨read,given,last⟩ := Option.bind_eq_some_iff.mp returned
  cases last
  have of := (result_of _ scanStops (doScanMonte_done operationInfo) heap stream).meets given
  by_cases ends : StreamEnds (Citrusleaf.doScanMonte operationInfo) scanStops heap stream
  · rw [of.ended ends]
    simp [ReadLoop.leave,Citrusleaf.doScanMonte,scanExit,Ledger.Balanced,Ledger.settle,sockets]
  · -- a return of -1, and no scan decompresses
    obtain ⟨within,inflates⟩ := of.failed ends
    have plain : read.exit ≠ .notDecompressed := fun made => Bool.false_ne_true (inflates made)
    revert within plain
    cases read.exit <;> simp [scanExit,Ledger.Balanced,Ledger.settle,sockets]

/-! ### All functions -/

/-- Every descriptor is closed once, or pooled once, or goes into one queued work item, except where
an asynchronous request is written and the push of its work item fails; the receiver closes or
pools the descriptor of an item once, in the turn in which it finishes it. -/
theorem sockets_disposed (wPol : Option Increment.ClWritePolicy) (tries : List MonteTry) (heap : Heap) (stream : List UInt8) :
    (∀ compiled r, doTheFullMonte compiled wPol tries = some r → sockets.Balanced r.calls) ∧
    (∀ compile node fd write inflate cb r,
      doBatchMonte compile node fd write inflate cb heap stream = some r → sockets.Balanced r.calls) ∧
    (∀ compiled node fd write operationInfo r,
      doScanMonte compiled node fd write operationInfo heap stream = some r → sockets.Balanced r.calls) ∧
    (∀ room workitem queuePush r, clDoAsyncMonte room workitem queuePush wPol tries = some r →
      (sockets.Balanced r.calls ↔
        ¬((room = true ∧ workitem = true) ∧ ComesTo wPol MonteTry.Sent (fun t => t.Sent ∧ queuePush = false) tries))) ∧
    ∀ work turns, itemSockets.settle [work.fd] (visits work turns) =
      some (if Finishes work (visits work turns) then [] else [work.fd]) := by
  refine ⟨fun compiled r returned => ?_,fun _ _ _ _ _ _ _ => batch_sockets,fun _ _ _ _ _ _ => scan_sockets,
    fun _ _ queuePush _ returned => clDoAsyncMonte_books (asyncMonte_sockets queuePush) returned,visits_books⟩
  rw [doTheFullMonte] at returned
  split at returned
  · cases returned
    rfl
  · exact (fullMonte_sockets.run returned).mpr (comesTo_never tries)

/-- The request is written, and there is no memory for the queue to grow. -/
theorem sockets_left : clDoAsyncMonte true true false none [⟨some 7,some 3,0,0,0,true,0,0,false⟩] =
      some ⟨citrusleafOk,[.nodeGet 7,.fdGet 3]⟩ ∧
    ¬sockets.Balanced [.nodeGet 7,.fdGet 3] :=
  ⟨rfl,by decide⟩

end Citrusleaf.Requests
