import Citrusleaf.RequestCalls
import Citrusleaf.StreamBounds

/-! The books of the request functions. A try that is retried gives back what it took, so only the
last try counts; where a function leaves without its node, the reservation stays. -/
namespace Citrusleaf.Requests
open Lib Citrusleaf.Partition

/-! ### What a try comes to -/

/-- The request is written. -/
def MonteTry.Sent (t : MonteTry) : Prop := t.node.isSome ∧ t.fd.isSome ∧ t.write = 0

/-- There is no memory for the body of the response. -/
def MonteTry.NoMemory (t : MonteTry) : Prop := t.Sent ∧ t.header = 0 ∧ stackBufSz < t.rdBufSz ∧ t.malloc = false

/-- The response is read. -/
def MonteTry.Answered (t : MonteTry) : Prop := t.Sent ∧ t.header = 0 ∧ (0 < t.rdBufSz → t.body = 0)

/-- The function tries again. -/
def MonteTry.Retried (wPol : Option Increment.ClWritePolicy) (ends : MonteTry → Prop) (t : MonteTry) : Prop :=
  ¬ends t ∧ t.late = false ∧ (wPol = none ∨ wPol = some .retry)

/-- The function comes to a try that meets the goal. -/
def ComesTo (wPol : Option Increment.ClWritePolicy) (ends goal : MonteTry → Prop) : List MonteTry → Prop
  | [] => False
  | t :: tries => goal t ∨ t.Retried wPol ends ∧ ComesTo wPol ends goal tries

theorem retryFd_none (fd : Option Nat) (networkError : Bool) : (retryFd fd networkError).1 = none := by
  cases fd <;> cases networkError <;> rfl

/-- The books of one function in a ledger, where no try leaves a descriptor to the next: which tries
end it, and which of those leave something. -/
structure RetryLoop.Books (loop : RetryLoop) (ledger : Ledger RequestCall Nat) (ends goal : MonteTry → Prop) : Prop where
  last : ∀ {t}, goal t → ends t
  retry : ∀ {t rv node fd networkError rv'}, loop.label t none rv = .retry node fd networkError rv' →
    ¬ends t ∧ ledger.Balanced (t.taken ++ ((retryFd fd networkError).2 ++ putNode node))
  error : ∀ {t rv fd rv'}, loop.label t none rv = .error fd rv' →
    ends t ∧ (ledger.Balanced (t.taken ++ closeFd fd) ↔ ¬goal t)
  ok : ∀ {t rv node fd}, loop.label t none rv = .ok node fd →
    ends t ∧ (ledger.Balanced (t.taken ++ (loop.ok t node fd).calls) ↔ ¬goal t)

theorem RetryLoop.Books.run {loop : RetryLoop} {ledger : Ledger RequestCall Nat} {ends goal : MonteTry → Prop}
    (books : loop.Books ledger ends goal) {wPol : Option Increment.ClWritePolicy} {rv : Int} {tries : List MonteTry} {r : Returned}
    (returned : loop.run wPol none rv tries = some r) : ledger.Balanced r.calls ↔ ¬ComesTo wPol ends goal tries := by
  induction tries generalizing rv r with
  | nil => cases returned
  | cons t tries ih =>
    rw [RetryLoop.run] at returned
    rw [ComesTo]
    split at returned
    · rename_i node fd ok
      obtain ⟨ends,balanced⟩ := books.ok ok
      cases returned
      have last : ¬t.Retried wPol _ := fun retried => retried.1 ends
      rw [balanced,or_iff_left fun later => last later.1]
    · rename_i fd rv' error
      obtain ⟨ends,balanced⟩ := books.error error
      cases returned
      have last : ¬t.Retried wPol _ := fun retried => retried.1 ends
      rw [balanced,or_iff_left fun later => last later.1]
    · rename_i node fd networkError rv' retry
      obtain ⟨goes,balanced⟩ := books.retry retry
      dsimp only at returned
      rw [retryFd_none] at returned
      rw [or_iff_right fun met => goes (books.last met)]
      split at returned
      · rename_i late
        cases returned
        refine iff_of_true ?_ fun later => ?_
        · exact balanced.append_iff.mpr rfl
        · exact Bool.noConfusion (late.symm.trans later.1.2.1)
      · rename_i time
        split at returned
        · rename_i policy
          obtain ⟨later,given,rfl⟩ := Option.map_eq_some_iff.mp returned
          have retried : t.Retried wPol _ := ⟨goes,eq_false_of_ne_true time,policy⟩
          rw [and_iff_right retried]
          exact balanced.append_iff.trans (ih given)
        · rename_i policy
          cases returned
          refine iff_of_true ?_ fun later => policy later.1.2.2
          exact balanced.append_iff.mpr rfl

/-! ### The two loops -/

/-- The ways through a try: the variables at its label are what it has taken. -/
inductive TryOf (ends starved : MonteTry → Prop) (t : MonteTry) : Label → Prop where
  | noNode (rv : Int) (goes : ¬ends t) (missing : t.node = none) : TryOf ends starved t (.retry none none false rv)
  | noFd (node : Node) (rv : Int) (goes : ¬ends t) (given : t.node = some node) (missing : t.fd = none) :
      TryOf ends starved t (.retry node none false rv)
  | failed (node : Node) (fd : Nat) (networkError : Bool) (rv : Int) (goes : ¬ends t) (given : t.node = some node)
      (socket : t.fd = some fd) : TryOf ends starved t (.retry node fd networkError rv)
  | noMemory (node : Node) (fd : Nat) (rv : Int) (stays : ends t) (starves : starved t) (given : t.node = some node)
      (socket : t.fd = some fd) : TryOf ends starved t (.error fd rv)
  | ok (node : Node) (fd : Nat) (stays : ends t) (fed : ¬starved t) (given : t.node = some node) (socket : t.fd = some fd) :
      TryOf ends starved t (.ok node fd)

variable {t : MonteTry} {node : Node} {fd : Nat} {ends starved : MonteTry → Prop}

theorem sent_iff (given : t.node = some node) (socket : t.fd = some fd) : t.Sent ↔ t.write = 0 := by
  simp [MonteTry.Sent,given,socket]

/-- The tries that end `do_the_full_monte`. -/
def fullEnds (t : MonteTry) : Prop := t.NoMemory ∨ t.Answered

theorem fullEnds_sent (ends : fullEnds t) : t.Sent := ends.elim And.left And.left

theorem fullMonteLabel_of (t : MonteTry) (rv : Int) : TryOf fullEnds MonteTry.NoMemory t (fullMonteLabel t none rv) := by
  rw [fullMonteLabel]
  split
  · rename_i missing
    exact .noNode rv (fun ends => by simpa [missing] using (fullEnds_sent ends).1) missing
  · rename_i node given missing
    exact .noFd node rv (fun ends => by simpa [missing] using (fullEnds_sent ends).2.1) given missing
  · rename_i node fd given socket
    have sent := sent_iff given socket
    split
    · rename_i failed
      exact .failed node fd false _ (fun ends => failed (sent.mp (fullEnds_sent ends))) given socket
    · rename_i written
      have sent := sent.mpr (not_not.mp written)
      split
      · rename_i failed
        exact .failed node fd false _ (fun ends => failed (ends.elim (·.2.1) (·.2.1))) given socket
      · rename_i read
        have read := not_not.mp read
        split
        · rename_i body
          split
          · rename_i large
            exact .noMemory node fd _ (.inl ⟨sent,read,large⟩) ⟨sent,read,large⟩ given socket
          · rename_i memory
            split
            · rename_i failed
              exact .failed node fd false _ (fun ends => ends.elim (memory ·.2.2) fun answered => failed (answered.2.2 body)) given socket
            · rename_i done
              exact .ok node fd (.inr ⟨sent,read,fun _ => not_not.mp done⟩) (memory ·.2.2) given socket
        · rename_i empty
          exact .ok node fd (.inr ⟨sent,read,fun body => absurd body empty⟩) (empty <| Nat.zero_lt_of_lt ·.2.2.1) given socket

theorem asyncMonteLabel_of (t : MonteTry) (rv : Int) : TryOf MonteTry.Sent (fun _ => False) t (asyncMonteLabel t none rv) := by
  rw [asyncMonteLabel]
  split
  · rename_i missing
    exact .noNode rv (fun sent => by simpa [missing] using sent.1) missing
  · rename_i node given missing
    exact .noFd node rv (fun sent => by simpa [missing] using sent.2.1) given missing
  · rename_i node fd given socket
    have sent := sent_iff given socket
    split
    · rename_i failed
      exact .failed node fd _ _ (fun ends => failed (sent.mp ends)) given socket
    · rename_i written
      exact .ok node fd (sent.mpr (not_not.mp written)) nofun given socket

theorem taken_none (missing : t.node = none) : t.taken = [] := by
  simp [MonteTry.taken,taken,missing]

theorem taken_node (given : t.node = some node) (missing : t.fd = none) : t.taken = [.nodeGet node] := by
  simp [MonteTry.taken,taken,given,missing]

theorem taken_both (given : t.node = some node) (socket : t.fd = some fd) : t.taken = [.nodeGet node,.fdGet fd] := by
  simp [MonteTry.taken,taken,given,socket]

/-- What a try has taken is given back at `Retry`. -/
theorem TryOf.retry {node : Option Node} {fd : Option Nat} {networkError : Bool} {rv : Int}
    (of : TryOf ends starved t (.retry node fd networkError rv)) : ¬ends t ∧
      reservations.Balanced (t.taken ++ ((retryFd fd networkError).2 ++ putNode node)) ∧
      sockets.Balanced (t.taken ++ ((retryFd fd networkError).2 ++ putNode node)) := by
  cases of with
  | noNode _ goes missing =>
    rw [taken_none missing]
    exact ⟨goes,rfl,rfl⟩
  | noFd node _ goes given missing =>
    rw [taken_node given missing]
    refine ⟨goes,?_⟩
    simp [retryFd,putNode,Ledger.Balanced,Ledger.settle,reservations,sockets]
  | failed node fd _ _ goes given socket =>
    rw [taken_both given socket]
    refine ⟨goes,?_⟩
    cases networkError <;> simp [retryFd,closeFd,putNode,Ledger.Balanced,Ledger.settle,reservations,sockets]

/-- The books of a loop whose tries go these ways: at `Retry` they are even, and what is left are its two ends. -/
theorem RetryLoop.books {loop : RetryLoop} {ledger : Ledger RequestCall Nat} {goal : MonteTry → Prop}
    (labels : ∀ t rv, TryOf ends starved t (loop.label t none rv)) (last : ∀ {t}, goal t → ends t)
    (back : ∀ {t node fd networkError rv}, TryOf ends starved t (.retry node fd networkError rv) →
      ledger.Balanced (t.taken ++ ((retryFd fd networkError).2 ++ putNode node)))
    (noMemory : ∀ {t} node fd, starved t → (ledger.Balanced [.nodeGet node,.fdGet fd,.close fd] ↔ ¬goal t))
    (ok : ∀ {t} node fd, ends t → ¬starved t →
      (ledger.Balanced (.nodeGet node :: .fdGet fd :: (loop.ok t node fd).calls) ↔ ¬goal t)) :
    loop.Books ledger ends goal where
  last := last
  retry {t rv _ _ _ _} label := by
    have of := labels t rv
    rw [label] at of
    exact ⟨of.retry.1,back of⟩
  error {t rv _ _} label := by
    have of := labels t rv
    rw [label] at of
    cases of with
    | noMemory node fd _ stays starves given socket =>
      rw [taken_both given socket]
      exact ⟨stays,noMemory node fd starves⟩
  ok {t rv node fd} label := by
    have of := labels t rv
    rw [label] at of
    cases of with
    | ok _ _ stays fed given socket =>
      rw [taken_both given socket]
      exact ⟨stays,ok node fd stays fed⟩

theorem fullMonte_reservations : fullMonte.Books reservations fullEnds MonteTry.NoMemory := by
  refine RetryLoop.books fullMonteLabel_of .inl (·.retry.2.1) (fun node fd starves => ?_) fun node fd _ fed => ?_
  · refine iff_of_false ?_ (not_not.mpr starves)
    simp [Ledger.Balanced,Ledger.settle,reservations]
  · refine iff_of_true ?_ fed
    simp [fullMonte,Ledger.Balanced,Ledger.settle,reservations]

theorem asyncMonte_reservations (queuePush : Bool) :
    (asyncMonte queuePush).Books reservations MonteTry.Sent fun t => t.Sent ∧ queuePush = false := by
  refine RetryLoop.books asyncMonteLabel_of And.left (·.retry.2.1) (fun _ _ => False.elim) fun node fd sent _ => ?_
  cases queuePush <;> simp [asyncMonte,Ledger.Balanced,Ledger.settle,reservations,sent]

/-- The books of an asynchronous request are those of its loop where it takes a work item. -/
theorem clDoAsyncMonte_books {queuePush : Bool} {ledger : Ledger RequestCall Nat}
    (books : (asyncMonte queuePush).Books ledger ends starved) {room workitem : Bool} {wPol : Option Increment.ClWritePolicy}
    {tries : List MonteTry} {r : Returned} (returned : clDoAsyncMonte room workitem queuePush wPol tries = some r) :
    ledger.Balanced r.calls ↔ ¬((room = true ∧ workitem = true) ∧ ComesTo wPol ends starved tries) := by
  rw [clDoAsyncMonte] at returned
  split at returned
  · rename_i full
    cases returned
    exact iff_of_true rfl fun comes => full comes.1.1
  · rename_i room
    split at returned
    · rename_i missing
      cases returned
      exact iff_of_true rfl fun comes => missing comes.1.2
    · rename_i given
      rw [and_iff_right ⟨not_not.mp room,not_not.mp given⟩]
      exact books.run returned

/-! ### Scans and batches -/

theorem assignNodes_all (digests : List DigestNodes) : (assignNodes digests).2 = true ↔ ∀ d ∈ digests, d.found.isSome := by
  induction digests with
  | nil => exact iff_of_true rfl nofun
  | cons d digests ih =>
    rw [assignNodes]
    split
    · rename_i missing
      refine iff_of_false nofun fun all => ?_
      simpa [missing] using all d List.mem_cons_self
    · rename_i node given
      simpa [given] using ih

theorem assignNodes_none (digests : List DigestNodes) : (assignNodes digests).1 = [] ↔ digests.head?.bind DigestNodes.found = none := by
  cases digests with
  | nil => exact iff_of_true rfl rfl
  | cons d digests =>
    rw [assignNodes]
    split
    · rename_i missing
      exact iff_of_true rfl missing
    · rename_i node given
      exact iff_of_false (List.cons_ne_nil _ _) (by simp [given])

theorem getMany_reservations {malloc : Bool} {digests : List DigestNodes} {outcomes : List Int} {r : Returned}
    (returned : doGetExistsManyDigest malloc digests outcomes = some r) : reservations.Balanced r.calls ↔
      malloc = false ∨ (∀ d ∈ digests, d.found.isSome) ∨ digests.head?.bind DigestNodes.found = none := by
  have taken := reservations.settle_takes [] ((assignNodes digests).1.map (·.node)) .nodeGet (fun _ => rfl) fun _ => rfl
  rw [List.map_map,List.append_nil] at taken
  rw [doGetExistsManyDigest] at returned
  split at returned
  · rename_i failed
    cases returned
    exact iff_of_true rfl (.inl (by simpa using failed))
  · rename_i memory
    dsimp only at returned
    rw [or_iff_right (by simpa using memory)]
    split at returned
    · rename_i missing
      cases returned
      rw [assignNodes_all] at missing
      rw [or_iff_right missing,← assignNodes_none]
      refine (iff_of_eq (congrArg (· = some []) taken)).trans ?_
      simp
    · rename_i all
      obtain ⟨_,_,given⟩ := Option.bind_eq_some_iff.mp returned
      cases given
      rw [assignNodes_all,not_not] at all
      refine iff_of_true ?_ (.inl all)
      rw [Ledger.Balanced,Ledger.settle_append]
      refine (congrArg (Option.bind · _) taken).trans ?_
      have given := reservations.settle_gives .nodePut (fun _ => rfl) (fun _ => rfl)
        (List.reverse_perm ((assignNodes digests).1.map (·.node)))
      rwa [List.map_map] at given

theorem scan_reservations {compiled : Bool} {node : Option Node} {fd : Option Nat} {write : Bool} {operationInfo : UInt32} {heap : Heap}
    {stream : List UInt8} {r : Returned} (returned : doScanMonte compiled node fd write operationInfo heap stream = some r) :
    reservations.Balanced r.calls ↔ compiled = false ∨ node = none ∨
      fd.isSome ∧ write = true ∧ StreamEnds (Citrusleaf.doScanMonte operationInfo) scanStops heap stream := by
  rw [Requests.doScanMonte.eq_def] at returned
  split at returned
  · rename_i failed
    cases returned
    exact iff_of_true rfl (.inl (by simpa using failed))
  · rename_i compiles
    rw [or_iff_right (by simpa using compiles)]
    split at returned
    · cases returned
      exact iff_of_true rfl (.inl rfl)
    · cases returned
      exact iff_of_false (by simp [Ledger.Balanced,Ledger.settle,reservations]) (by simp)
    · rename_i node fd
      rw [or_iff_right (Option.some_ne_none node)]
      split at returned
      · rename_i failed
        cases returned
        refine iff_of_false ?_ fun sent => failed sent.2.1
        simp [Ledger.Balanced,Ledger.settle,reservations]
      · rename_i written
        obtain ⟨read,given,last⟩ := Option.bind_eq_some_iff.mp returned
        cases last
        have of := (result_of _ scanStops (doScanMonte_done operationInfo) heap stream).meets given
        rw [and_iff_right (show (some fd).isSome from rfl),and_iff_right (not_not.mp written)]
        by_cases ends : StreamEnds (Citrusleaf.doScanMonte operationInfo) scanStops heap stream
        · refine iff_of_true ?_ ends
          rw [of.ended ends]
          simp [ReadLoop.leave,Citrusleaf.doScanMonte,scanExit,Ledger.Balanced,Ledger.settle,reservations]
        · refine iff_of_false ?_ ends
          have fails := (of.failed ends).within
          revert fails
          cases read.exit <;> simp [scanExit,Ledger.Balanced,Ledger.settle,reservations]

/-- When each request function has given back all reservations of nodes, or handed the one with its
work item on: unless there is no memory for the body of a response; a scan only where it finds
no node or reads to the end of its stream; a batch where all digests get a node or the
first gets none; an asynchronous request unless the push of its work item fails. -/
theorem reservations_balance (compiled : Bool) (wPol : Option Increment.ClWritePolicy) (tries : List MonteTry) :
    (∀ r, doTheFullMonte compiled wPol tries = some r →
      (reservations.Balanced r.calls ↔ ¬(compiled = true ∧ ComesTo wPol fullEnds MonteTry.NoMemory tries))) ∧
    (∀ node fd write operationInfo heap stream r,
      doScanMonte compiled node fd write operationInfo heap stream = some r → (reservations.Balanced r.calls ↔
        compiled = false ∨ node = none ∨
          fd.isSome ∧ write = true ∧ StreamEnds (Citrusleaf.doScanMonte operationInfo) scanStops heap stream)) ∧
    (∀ malloc digests outcomes r, doGetExistsManyDigest malloc digests outcomes = some r → (reservations.Balanced r.calls ↔
      malloc = false ∨ (∀ d ∈ digests, d.found.isSome) ∨ digests.head?.bind DigestNodes.found = none)) ∧
    (∀ room workitem queuePush r, clDoAsyncMonte room workitem queuePush wPol tries = some r → (reservations.Balanced r.calls ↔
      ¬((room = true ∧ workitem = true) ∧ ComesTo wPol MonteTry.Sent (fun t => t.Sent ∧ queuePush = false) tries))) := by
  refine ⟨fun r returned => ?_,fun _ _ _ _ _ _ _ => scan_reservations,fun _ _ _ _ => getMany_reservations,
    fun room workitem queuePush r returned => clDoAsyncMonte_books (asyncMonte_reservations queuePush) returned⟩
  rw [doTheFullMonte] at returned
  split at returned
  · rename_i failed
    cases returned
    exact iff_of_true rfl fun comes => failed comes.1
  · rename_i compiles
    rw [and_iff_right (not_not.mp compiles)]
    exact fullMonte_reservations.run returned

/-- No memory for a body, a scan without a socket, a second digest without a node, and a work item
that does not fit on its queue. -/
theorem reservations_left :
    (∃ r, doTheFullMonte true none [⟨some 7,some 3,0,0,20000,false,0,0,false⟩] = some r ∧ ¬reservations.Balanced r.calls) ∧
    (∃ r, doScanMonte true (some 7) none true 0 sampleHeap [] = some r ∧ ¬reservations.Balanced r.calls) ∧
    (∃ r, doGetExistsManyDigest true [⟨.replicate 20 0,some 7,none⟩,⟨.replicate 20 1,none,none⟩] [] = some r ∧
      ¬reservations.Balanced r.calls) ∧
    ∃ r, clDoAsyncMonte true true false none [⟨some 7,some 3,0,0,0,true,0,0,false⟩] = some r ∧ ¬reservations.Balanced r.calls :=
  ⟨⟨_,rfl,by decide⟩,⟨_,rfl,by decide⟩,⟨_,rfl,by decide⟩,⟨_,rfl,by decide⟩⟩

end Citrusleaf.Requests
