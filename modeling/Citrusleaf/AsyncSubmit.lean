import Citrusleaf.Lib.Runs
import Citrusleaf.Lib.Workers
import Citrusleaf.Fifo

/-! The work items of `cl_do_async_monte`. A submitter tests the size of the free pool and then
pops from it, or allocates; the two calls take the lock of the queue one after the other, and
other threads run between them. A pop from an empty queue waits. -/
namespace Citrusleaf
open Lib

/-- Where a thread is in `cl_do_async_monte`. -/
inductive AsyncSubmitter where
  | outside
  /-- The work queue has room; the size of the free pool is not tested yet. -/
  | testing
  /-- `cf_queue_sz` returned more than zero. -/
  | popping
  /-- In `pthread_cond_wait` of `cf_queue_pop`. -/
  | waiting
  | holding (workitem : Nat)
  deriving DecidableEq

/-- The limit of the work queue, the free pool, how many work items were allocated, the work queue,
the items that receivers visit, and the submitters. -/
structure AsyncSubmits where
  asyncQSzlimit : Int
  freepool : List Nat
  allocated : Nat
  asyncQ : List Nat
  visited : List Nat
  submitters : List AsyncSubmitter

inductive AsyncSubmitEvent where
  | call (thread : Nat)
  | test (thread : Nat) (malloc : Bool)
  | pop (thread : Nat)
  /-- The command is sent and its work item pushed, or the call fails and keeps the item. -/
  | submit (thread : Nat) (sent : Bool)
  | receive
  /-- A receiver puts a work item back, or is through with it and pushes it to the free pool. -/
  | putBack (item : Nat)
  | finish (item : Nat) (pushed : Bool)
  deriving DecidableEq

namespace AsyncSubmits

def start (asyncQSzlimit : Int) (threads : Nat) : AsyncSubmits :=
  ⟨asyncQSzlimit,[],0,[],[],List.replicate threads .outside⟩

def move (s : AsyncSubmits) (thread : Nat) (submitter : AsyncSubmitter) : AsyncSubmits :=
  {s with submitters := s.submitters.set thread submitter}

/-- `cf_queue_sz(g_cl_workitems_freepool_q) > 0`, or `malloc`. -/
def sizeTest (s : AsyncSubmits) (thread : Nat) (malloc : Bool) : AsyncSubmits :=
  if s.freepool.length > 0 then s.move thread .popping
  else if malloc then {s.move thread (.holding s.allocated) with allocated := s.allocated + 1}
  else s.move thread .outside

/-- `cf_queue_pop` on the free pool. -/
def popFree (s : AsyncSubmits) (thread : Nat) : AsyncSubmits :=
  match Fifo.pop s.freepool with
  | (none,_) => s.move thread .waiting
  | (some workitem,freepool) => {s.move thread (.holding workitem) with freepool}

def step (s : AsyncSubmits) : AsyncSubmitEvent → AsyncSubmits
  | .call thread =>
    match s.submitters[thread]? with
    | some .outside => if (s.asyncQ.length : Int) ≥ s.asyncQSzlimit then s else s.move thread .testing
    | _ => s
  | .test thread malloc =>
    match s.submitters[thread]? with
    | some .testing => s.sizeTest thread malloc
    | _ => s
  | .pop thread =>
    match s.submitters[thread]? with
    | some .popping => s.popFree thread
    | some .waiting => s.popFree thread
    | _ => s
  | .submit thread sent =>
    match s.submitters[thread]? with
    | some (.holding workitem) =>
      if sent then {s.move thread .outside with asyncQ := Fifo.push s.asyncQ workitem} else s.move thread .outside
    | _ => s
  | .receive =>
    match Fifo.pop s.asyncQ with
    | (none,_) => s
    | (some workitem,asyncQ) => {s with asyncQ,visited := workitem :: s.visited}
  | .putBack item =>
    match s.visited[item]? with
    | none => s
    | some workitem => {s with visited := s.visited.eraseIdx item,asyncQ := Fifo.push s.asyncQ workitem}
  | .finish item pushed =>
    match s.visited[item]? with
    | none => s
    | some workitem =>
      let s := {s with visited := s.visited.eraseIdx item}
      if pushed then {s with freepool := Fifo.push s.freepool workitem} else s

/-- No submitter waits, and none will in whichever order they go on to pop. -/
def PopsFreely (s : AsyncSubmits) : Prop :=
  ∀ threads : List Nat, .waiting ∉ (run step s (threads.map .pop)).submitters

/-- The submitters between the test and the pop. -/
def pending (s : AsyncSubmits) : Nat := s.submitters.countP (· = .popping)

/-- A test that finds work items in the free pool finds more than submitters on their way to it. -/
def Spare (s : AsyncSubmits) : AsyncSubmitEvent → Prop
  | .test thread _ => s.submitters[thread]? = some .testing → 0 < s.freepool.length → s.pending < s.freepool.length
  | _ => True

/-! ### Room for the submitters -/

/-- No submitter waits, and there is a work item for each that goes on to pop. -/
structure Room (s : AsyncSubmits) : Prop where
  running : .waiting ∉ s.submitters
  enough : s.pending ≤ s.freepool.length

variable {s : AsyncSubmits} {thread : Nat} {old new : AsyncSubmitter}

/-- The submitters on their way, with one thread apart, before and after it moves. -/
theorem pending_move (there : s.submitters[thread]? = some old) (new : AsyncSubmitter) :
    s.pending + (decide (new = .popping)).toNat = (s.move thread new).pending + (decide (old = .popping)).toNat := by
  have before := countP_cons_perm (· = .popping) (thread_perm there)
  have after := countP_cons_perm (· = .popping) (moved_perm there new)
  rw [pending,pending,move]
  dsimp only
  omega

/-- One more is on its way. -/
theorem pending_sets_out (there : s.submitters[thread]? = some old) (stays : old ≠ .popping) :
    (s.move thread .popping).pending = s.pending + 1 := by
  simpa [stays] using (pending_move there .popping).symm

/-- One that was on its way has come through. -/
theorem pending_through (there : s.submitters[thread]? = some .popping) (moves : new ≠ .popping) :
    (s.move thread new).pending + 1 = s.pending := by
  simpa [moves] using (pending_move there new).symm

theorem waiting_move (running : .waiting ∉ s.submitters) (moves : new ≠ .waiting) :
    .waiting ∉ (s.move thread new).submitters := fun member =>
  (List.mem_or_eq_of_mem_set member).elim running fun same => moves same.symm

/-- A thread that is not on its way and does not set out leaves the room as it was. -/
theorem Room.move (room : Room s) (there : s.submitters[thread]? = some old) (new : AsyncSubmitter)
    (stays : old ≠ .popping) (moves : new ≠ .popping) (runs : new ≠ .waiting) : Room (s.move thread new) := by
  have same : s.pending = (s.move thread new).pending := by simpa [stays,moves] using pending_move there new
  exact ⟨waiting_move room.running runs,same ▸ room.enough⟩

theorem popFree_cons {workitem : Nat} {freepool : List Nat} (given : s.freepool = workitem :: freepool) (thread : Nat) :
    s.popFree thread = {s.move thread (.holding workitem) with freepool} := by
  rw [popFree,given]
  rfl

theorem popFree_nil (given : s.freepool = []) (thread : Nat) : s.popFree thread = s.move thread .waiting := by
  rw [popFree,given]
  rfl

/-- A submitter on its way finds a work item. -/
theorem Room.finds (room : Room s) (there : s.submitters[thread]? = some .popping) :
    ∃ workitem freepool, s.freepool = workitem :: freepool := by
  have one : 0 < s.pending := List.countP_pos_iff.mpr ⟨_,List.mem_of_getElem? there,rfl⟩
  exact List.exists_cons_of_length_pos (Nat.lt_of_lt_of_le one room.enough)

theorem Room.popFree (room : Room s) (there : s.submitters[thread]? = some .popping) : Room (s.popFree thread) := by
  obtain ⟨workitem,freepool,given⟩ := room.finds there
  have through : (s.move thread (.holding workitem)).pending + 1 = s.pending := pending_through there (by simp)
  have enough := room.enough
  rw [given,List.length_cons,← through] at enough
  rw [popFree_cons given]
  exact ⟨waiting_move room.running (by simp),Nat.le_of_succ_le_succ enough⟩

theorem Room.pop (room : Room s) (thread : Nat) : Room (s.step (.pop thread)) := by
  rw [step]
  split
  · rename_i there
    exact room.popFree there
  · rename_i there
    exact absurd (List.mem_of_getElem? there) room.running
  · exact room

theorem Room.pops (room : Room s) (threads : List Nat) : Room (run step s (threads.map .pop)) := by
  induction threads generalizing s with
  | nil => exact room
  | cons thread threads ih => exact ih (room.pop thread)

/-- Where the submitters on their way are more than the work items, one of them comes to wait. -/
theorem waits_of_many {items : Nat} (length : s.freepool.length = items) (many : items < s.pending) :
    ∃ threads : List Nat, .waiting ∈ (run step s (threads.map .pop)).submitters := by
  induction items generalizing s with
  | zero =>
    obtain ⟨submitter,member,popping⟩ := List.countP_pos_iff.mp many
    obtain rfl : submitter = .popping := of_decide_eq_true popping
    obtain ⟨thread,inside,there⟩ := List.mem_iff_getElem.mp member
    refine ⟨[thread],?_⟩
    have here := List.getElem?_eq_some_iff.mpr ⟨inside,there⟩
    rw [List.map_singleton,run_cons,run_nil,step,here]
    dsimp only
    rw [popFree_nil (List.eq_nil_of_length_eq_zero length)]
    exact List.mem_set inside .waiting
  | succ items ih =>
    obtain ⟨submitter,member,popping⟩ := List.countP_pos_iff.mp (Nat.lt_of_le_of_lt (Nat.zero_le _) many)
    obtain rfl : submitter = .popping := of_decide_eq_true popping
    obtain ⟨thread,inside,there⟩ := List.mem_iff_getElem.mp member
    have here := List.getElem?_eq_some_iff.mpr ⟨inside,there⟩
    obtain ⟨workitem,freepool,given⟩ := List.exists_cons_of_length_eq_add_one length
    have through : (s.move thread (.holding workitem)).pending + 1 = s.pending := pending_through here (by simp)
    have stepped : s.step (.pop thread) = {s.move thread (.holding workitem) with freepool} := by
      rw [step,here]
      exact popFree_cons given thread
    have fewer : (s.step (.pop thread)).freepool.length = items := by
      rw [given] at length
      rw [stepped]
      exact Nat.succ.inj length
    have still : items < (s.step (.pop thread)).pending := by
      rw [← through] at many
      rw [stepped]
      exact Nat.lt_of_succ_lt_succ many
    obtain ⟨threads,waits⟩ := ih fewer still
    exact ⟨thread :: threads,waits⟩

theorem popsFreely_iff_room : PopsFreely s ↔ Room s := by
  constructor
  · intro freely
    refine ⟨freely [],?_⟩
    by_contra many
    obtain ⟨threads,waits⟩ := waits_of_many rfl (Nat.not_le.mp many)
    exact freely threads waits
  · intro room threads
    exact (room.pops threads).running

theorem Room.step (room : Room s) (event : AsyncSubmitEvent) (spare : s.Spare event) : Room (s.step event) := by
  cases event with
  | call thread =>
    rw [AsyncSubmits.step]
    split
    · rename_i there
      split
      · exact room
      · exact room.move there .testing (by simp) (by simp) (by simp)
    · exact room
  | test thread malloc =>
    rw [AsyncSubmits.step]
    split
    · rename_i there
      rw [sizeTest]
      split
      · rename_i some
        refine ⟨waiting_move room.running (by simp),?_⟩
        rw [pending_sets_out there (by simp)]
        exact spare there some
      · split
        · have holds := room.move there (.holding s.allocated) (by simp) (by simp) (by simp)
          exact ⟨holds.running,holds.enough⟩
        · exact room.move there .outside (by simp) (by simp) (by simp)
    · exact room
  | pop thread => exact room.pop thread
  | submit thread sent =>
    rw [AsyncSubmits.step]
    split
    · rename_i there
      have left := room.move there .outside (by simp) (by simp) (by simp)
      split
      · exact ⟨left.running,left.enough⟩
      · exact left
    · exact room
  | receive =>
    rw [AsyncSubmits.step]
    split
    · exact room
    · exact ⟨room.running,room.enough⟩
  | putBack item =>
    rw [AsyncSubmits.step]
    split
    · exact room
    · exact ⟨room.running,room.enough⟩
  | finish item pushed =>
    rw [AsyncSubmits.step]
    split
    · exact room
    · dsimp only
      split
      · refine ⟨room.running,Nat.le_trans room.enough ?_⟩
        rw [Fifo.push,List.length_append]
        exact Nat.le_add_right _ _
      · exact ⟨room.running,room.enough⟩

/-- A test after which there is room has found more work items than submitters. -/
theorem Room.spare (event : AsyncSubmitEvent) (room : Room (s.step event)) : s.Spare event := by
  cases event with
  | test thread malloc =>
    intro there some
    have enough := room.enough
    rw [AsyncSubmits.step,there] at enough
    dsimp only at enough
    rw [sizeTest,if_pos some,pending_sets_out there (by simp)] at enough
    exact enough
  | _ => trivial

theorem start_room (asyncQSzlimit : Int) (threads : Nat) : Room (start asyncQSzlimit threads) := by
  refine ⟨fun member => ?_,?_⟩
  · cases List.eq_of_mem_replicate member
  · rw [pending,start,List.countP_replicate]
    exact Nat.zero_le 0

end AsyncSubmits

/-- In a run, submitters never wait for a work item and cannot come to wait in any order of their
pops exactly where each test that finds work items finds more than submitters on their way. -/
theorem async_submit_never_waits (asyncQSzlimit : Int) (threads : Nat) (events : List AsyncSubmitEvent) :
    Always AsyncSubmits.step AsyncSubmits.PopsFreely (.start asyncQSzlimit threads) events ↔
      Guarded AsyncSubmits.step AsyncSubmits.Spare (.start asyncQSzlimit threads) events := by
  have holds (s : AsyncSubmits) (room : s.Room) : s.PopsFreely := AsyncSubmits.popsFreely_iff_room.mpr room
  exact always_iff_guarded_free holds
    (fun _ event room spare => AsyncSubmits.Room.step room event spare)
    (fun _ event _ freely => AsyncSubmits.Room.spare event (AsyncSubmits.popsFreely_iff_room.mp freely))
    (AsyncSubmits.start_room asyncQSzlimit threads) events

/-- A work item is used and goes to the free pool; two submitters see it there. -/
def twoSubmitters : List AsyncSubmitEvent :=
  [.call 0,.test 0 true,.submit 0 true,.receive,.finish 0 true,.call 0,.call 1,.test 0 true,.test 1 true,.pop 0,.pop 1]

/-- The second of them waits. -/
theorem async_submit_waits :
    ¬Always AsyncSubmits.step AsyncSubmits.PopsFreely (.start 10 2) twoSubmitters ∧
    (run AsyncSubmits.step (.start 10 2) twoSubmitters).submitters = [.holding 0,.waiting] := by
  have waits : (run AsyncSubmits.step (.start 10 2) twoSubmitters).submitters = [.holding 0,.waiting] := by decide
  refine ⟨fun always => ?_,waits⟩
  have last := (always_iff _ _ _ _).mp always twoSubmitters [] (List.append_nil _).symm
  exact absurd (last []) (not_not.mpr (by rw [List.map_nil,run_nil,waits]; decide))

end Citrusleaf
