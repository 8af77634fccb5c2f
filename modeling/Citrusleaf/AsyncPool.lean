import Citrusleaf.Lib.Runs
import Citrusleaf.Lib.Workers
import Mathlib.Data.List.Nodup
import Mathlib.Data.List.Perm.Subperm

/-! The receiver threads of cl_async.c: `citrusleaf_async_reinit` sets how many there should be,
each thread takes an id when it starts, and leaves after a work item where its id is above
that number. `pthread_create` succeeds: its result is looked at nowhere. -/
namespace Citrusleaf
open Lib

def maxAsyncReceiverThreads : Nat := 32

/-- A thread before `cf_atomic32_incr(&g_thread_count)`, with its `thread_id`, or gone. -/
inductive AsyncReceiver where
  | created
  | running (threadId : Nat)
  | gone
  deriving DecidableEq

/-- `g_async_num_threads`, `g_thread_count`, `g_async_q_szlimit` and every thread so far. -/
structure AsyncPool where
  asyncNumThreads : Nat
  threadCount : Nat
  asyncQSzlimit : Int
  receivers : List AsyncReceiver

inductive AsyncPoolEvent where
  /-- A call of `citrusleaf_async_reinit`. -/
  | reinit (sizeLimit : Int) (numReceiverThreads : Nat)
  /-- A thread takes its id. -/
  | start (thread : Nat)
  /-- A thread is through with a work item, and tests its id. -/
  | finish (thread : Nat)
  deriving DecidableEq

/-- The requested number of threads, of which there are no more than 32. -/
def cappedThreads (numReceiverThreads : Nat) : Nat :=
  if numReceiverThreads > maxAsyncReceiverThreads then maxAsyncReceiverThreads else numReceiverThreads

/-- After `citrusleaf_async_init`. -/
def citrusleafAsyncInit (sizeLimit : Int) (numReceiverThreads : Nat) : AsyncPool :=
  ⟨cappedThreads numReceiverThreads,0,sizeLimit,List.replicate (cappedThreads numReceiverThreads) .created⟩

/-- Where more threads are asked for, they are created. -/
def citrusleafAsyncReinit (s : AsyncPool) (sizeLimit : Int) (numReceiverThreads : Nat) : AsyncPool :=
  let numReceiverThreads := cappedThreads numReceiverThreads
  let s :=
    if numReceiverThreads > s.asyncNumThreads then
      {s with receivers := s.receivers ++ List.replicate (numReceiverThreads - s.asyncNumThreads) .created}
    else {s with asyncNumThreads := numReceiverThreads}
  {s with asyncQSzlimit := sizeLimit}

namespace AsyncPool

def step (s : AsyncPool) : AsyncPoolEvent → AsyncPool
  | .reinit sizeLimit numReceiverThreads => citrusleafAsyncReinit s sizeLimit numReceiverThreads
  | .start thread =>
    match s.receivers[thread]? with
    | some .created =>
      {s with threadCount := s.threadCount + 1,receivers := s.receivers.set thread (.running (s.threadCount + 1))}
    | _ => s
  | .finish thread =>
    match s.receivers[thread]? with
    | some (.running threadId) =>
      if threadId > s.asyncNumThreads then
        {s with threadCount := s.threadCount - 1,receivers := s.receivers.set thread .gone}
      else s
    | _ => s

def live (s : AsyncPool) : Nat := s.receivers.countP (· ≠ .gone)

end AsyncPool

def asyncPoolRun (sizeLimit : Int) (numReceiverThreads : Nat) (events : List AsyncPoolEvent) : AsyncPool :=
  run AsyncPool.step (citrusleafAsyncInit sizeLimit numReceiverThreads) events

/-! ### Ids -/

def AsyncReceiver.threadId : AsyncReceiver → Option Nat
  | running threadId => some threadId
  | _ => none

namespace AsyncPool

/-- The ids of the threads that run. -/
def ids (s : AsyncPool) : List Nat := s.receivers.filterMap AsyncReceiver.threadId

/-- The ids up to the wanted number are those given first, each to one thread that stays; and
there are threads enough. -/
structure Numbered (s : AsyncPool) : Prop where
  counted : s.ids.length = s.threadCount
  positive : ∀ id ∈ s.ids, 0 < id
  once : ∀ id, 0 < id → id ≤ s.asyncNumThreads → s.ids.count id = if id ≤ s.threadCount then 1 else 0
  enough : s.asyncNumThreads ≤ s.live

variable {s : AsyncPool} {thread : Nat} {old : AsyncReceiver}

/-- The ids and the live threads, with one thread apart, before and after it moves. -/
theorem moves (there : s.receivers[thread]? = some old) (new : AsyncReceiver) {t : AsyncPool}
    (receivers : t.receivers = s.receivers.set thread new) :
    ∃ others, s.ids.Perm (old.threadId.toList ++ others) ∧ t.ids.Perm (new.threadId.toList ++ others) ∧
      s.live + (decide (new ≠ .gone)).toNat = t.live + (decide (old ≠ .gone)).toNat := by
  refine ⟨_,filterMap_cons_perm AsyncReceiver.threadId (thread_perm there),?_,?_⟩
  · rw [ids,receivers]
    exact filterMap_cons_perm AsyncReceiver.threadId (moved_perm there new)
  · have before := countP_cons_perm (· ≠ .gone) (thread_perm there)
    have after := countP_cons_perm (· ≠ .gone) (moved_perm there new)
    rw [live,live,receivers]
    omega

theorem init_numbered (sizeLimit : Int) (n : Nat) : Numbered (citrusleafAsyncInit sizeLimit n) := by
  have none : (citrusleafAsyncInit sizeLimit n).ids = [] := List.filterMap_replicate_of_none rfl
  refine ⟨by rw [none]; rfl,fun id member => absurd (none ▸ member) List.not_mem_nil,fun id positive _ => ?_,?_⟩
  · have zero : (citrusleafAsyncInit sizeLimit n).threadCount = 0 := rfl
    rw [none,List.count_nil,zero,if_neg (Nat.not_le.mpr positive)]
  · rw [live,citrusleafAsyncInit]
    simp [List.countP_replicate]

theorem Numbered.reinit (numbered : Numbered s) (sizeLimit : Int) (n : Nat) :
    Numbered (citrusleafAsyncReinit s sizeLimit n) := by
  rw [citrusleafAsyncReinit]
  split
  · have same : (s.receivers ++ List.replicate (cappedThreads n - s.asyncNumThreads) AsyncReceiver.created).filterMap
        AsyncReceiver.threadId = s.ids := by
      rw [List.filterMap_append,List.filterMap_replicate_of_none rfl,List.append_nil]
      rfl
    refine ⟨?_,?_,?_,?_⟩
    · rw [ids,same]
      exact numbered.counted
    · rw [ids,same]
      exact numbered.positive
    · rw [ids,same]
      exact numbered.once
    · rw [live,List.countP_append]
      exact Nat.le_add_right_of_le numbered.enough
  · rename_i less
    exact ⟨numbered.counted,numbered.positive,
      fun id positive below => numbered.once id positive (Nat.le_trans below (Nat.not_lt.mp less)),
      Nat.le_trans (Nat.not_lt.mp less) numbered.enough⟩

theorem Numbered.start (numbered : Numbered s) (there : s.receivers[thread]? = some .created) :
    Numbered {s with threadCount := s.threadCount + 1,
                     receivers := s.receivers.set thread (.running (s.threadCount + 1))} := by
  obtain ⟨others,before,after,alive⟩ := moves there (.running (s.threadCount + 1)) (t := {s with
    threadCount := s.threadCount + 1,receivers := s.receivers.set thread (.running (s.threadCount + 1))}) rfl
  have same : s.ids.Perm others := before
  have added := after.trans (same.symm.cons (s.threadCount + 1))
  refine ⟨?_,?_,?_,?_⟩
  · rw [added.length_eq,List.length_cons,numbered.counted]
  · intro id member
    rcases List.mem_cons.mp (added.mem_iff.mp member) with rfl | old
    · exact Nat.succ_pos _
    · exact numbered.positive id old
  · intro id positive below
    have old := numbered.once id positive below
    rw [added.count_eq,List.count_cons,old]
    by_cases new : s.threadCount + 1 = id
    · rw [if_neg (by omega),if_pos (by simpa using new),if_pos (by dsimp only; omega)]
    · rw [if_neg (c := (s.threadCount + 1 == id) = true) (by simpa using new)]
      dsimp only
      split <;> split <;> omega
  · have enough := numbered.enough
    simp at alive
    dsimp only
    omega

/-- Where a thread leaves, more threads run than are wanted. -/
theorem Numbered.surplus (numbered : Numbered s) (member : threadId ∈ s.ids) (above : s.asyncNumThreads < threadId) :
    s.asyncNumThreads < s.threadCount := by
  by_contra few
  have distinct : (threadId :: List.range' 1 s.threadCount).Nodup := by
    refine List.nodup_cons.mpr ⟨fun inside => ?_,List.nodup_range'⟩
    have range := List.mem_range'_1.mp inside
    omega
  have subset : threadId :: List.range' 1 s.threadCount ⊆ s.ids := by
    intro id inside
    rcases List.mem_cons.mp inside with rfl | given
    · exact member
    · have range := List.mem_range'_1.mp given
      have once := numbered.once id (by omega) (by omega)
      rw [if_pos (by omega)] at once
      exact List.count_pos_iff.mp (by omega)
  have most := (distinct.subperm subset).length_le
  rw [List.length_cons,List.length_range',numbered.counted] at most
  omega

theorem live_of_ids (s : AsyncPool) : s.ids.length ≤ s.live := by
  rw [ids,live,List.length_filterMap_eq_countP]
  apply List.countP_mono_left
  intro receiver _ runs
  cases receiver with
  | gone => cases runs
  | _ => simp

theorem Numbered.finish (numbered : Numbered s) (there : s.receivers[thread]? = some (.running threadId))
    (above : s.asyncNumThreads < threadId) :
    Numbered {s with threadCount := s.threadCount - 1,receivers := s.receivers.set thread .gone} := by
  obtain ⟨others,before,after,alive⟩ := moves there .gone (t := {s with
    threadCount := s.threadCount - 1,receivers := s.receivers.set thread .gone}) rfl
  have same : s.ids.Perm (threadId :: others) := before
  have left : List.Perm _ others := after
  have surplus := numbered.surplus (same.mem_iff.mpr List.mem_cons_self) above
  have counted := numbered.counted
  refine ⟨?_,?_,?_,?_⟩
  · have size := same.length_eq
    rw [List.length_cons] at size
    rw [left.length_eq]
    dsimp only
    omega
  · intro id member
    exact numbered.positive id (same.mem_iff.mpr (List.mem_cons_of_mem _ (left.mem_iff.mp member)))
  · intro id positive below
    dsimp only at below ⊢
    have once := numbered.once id positive below
    rw [same.count_eq,List.count_cons_of_ne (by omega),if_pos (by omega)] at once
    rw [left.count_eq,once,if_pos (by omega)]
  · have most := live_of_ids s
    simp at alive
    dsimp only
    omega

theorem Numbered.step (numbered : Numbered s) (event : AsyncPoolEvent) : Numbered (s.step event) := by
  cases event with
  | reinit sizeLimit n => exact numbered.reinit sizeLimit n
  | start thread =>
    rw [AsyncPool.step]
    split
    · rename_i there
      exact numbered.start there
    · exact numbered
  | finish thread =>
    rw [AsyncPool.step]
    split
    · rename_i threadId there
      split
      · rename_i above
        exact numbered.finish there above
      · exact numbered
    · exact numbered

theorem run_numbered (sizeLimit : Int) (n : Nat) (events : List AsyncPoolEvent) :
    Numbered (asyncPoolRun sizeLimit n events) :=
  run_invariant (fun _ event numbered => numbered.step event) (init_numbered sizeLimit n) events

/-! ### Settling -/

/-- A thread that is gone, or one that may stay. -/
def Stays (target : Nat) (receiver : AsyncReceiver) : Prop :=
  receiver = .gone ∨ ∃ threadId ≤ target, receiver = .running threadId

/-- Once each thread is gone or may stay, there are as many as wanted. -/
theorem Numbered.settled (numbered : Numbered s) (all : ∀ receiver ∈ s.receivers, Stays s.asyncNumThreads receiver) :
    s.live = s.asyncNumThreads := by
  have alive : s.live = s.ids.length := by
    rw [ids,live,List.length_filterMap_eq_countP]
    apply List.countP_congr
    intro receiver member
    rcases all receiver member with rfl | ⟨threadId,_,rfl⟩
    · simp [AsyncReceiver.threadId]
    · simp [AsyncReceiver.threadId]
  have small : ∀ id ∈ s.ids, 0 < id ∧ id ≤ s.asyncNumThreads := by
    intro id member
    refine ⟨numbered.positive id member,?_⟩
    obtain ⟨receiver,there,given⟩ := List.mem_filterMap.mp member
    rcases all receiver there with rfl | ⟨threadId,below,rfl⟩
    · cases given
    · obtain rfl := Option.some.inj given
      exact below
  have distinct : s.ids.Nodup := by
    rw [List.nodup_iff_count_le_one]
    intro id
    by_cases member : id ∈ s.ids
    · rw [numbered.once id (small id member).1 (small id member).2]
      split <;> omega
    · rw [List.count_eq_zero.mpr member]
      exact Nat.zero_le 1
  have subset : s.ids ⊆ List.range' 1 s.asyncNumThreads := by
    intro id member
    have range := small id member
    exact List.mem_range'_1.mpr (by omega)
  have most := (distinct.subperm subset).length_le
  rw [List.length_range'] at most
  have enough := numbered.enough
  omega

/-- A thread that may stay, or is gone, does so until the wanted number changes. -/
theorem step_stays (still : ∀ sizeLimit n, event ≠ AsyncPoolEvent.reinit sizeLimit n) :
    (s.step event).asyncNumThreads = s.asyncNumThreads ∧ (s.step event).receivers.length = s.receivers.length ∧
      ∀ (thread : Nat) (receiver : AsyncReceiver), s.receivers[thread]? = some receiver → Stays s.asyncNumThreads receiver →
        (s.step event).receivers[thread]? = some receiver := by
  cases event with
  | reinit sizeLimit n => exact absurd rfl (still sizeLimit n)
  | start other =>
    rw [AsyncPool.step]
    split
    · rename_i there
      refine ⟨rfl,List.length_set,fun thread receiver given stays => ?_⟩
      have differ : other ≠ thread := by
        rintro rfl
        obtain rfl := Option.some.inj (there.symm.trans given)
        rcases stays with gone | ⟨_,_,running⟩
        · cases gone
        · cases running
      exact (List.getElem?_set_ne differ).trans given
    · exact ⟨rfl,rfl,fun _ _ given _ => given⟩
  | finish other =>
    rw [AsyncPool.step]
    split
    · rename_i threadId there
      split
      · rename_i above
        refine ⟨rfl,List.length_set,fun thread receiver given stays => ?_⟩
        have differ : other ≠ thread := by
          rintro rfl
          obtain rfl := Option.some.inj (there.symm.trans given)
          rcases stays with gone | ⟨_,below,running⟩
          · cases gone
          · obtain rfl := AsyncReceiver.running.inj running
            exact absurd below (Nat.not_le.mpr above)
        exact (List.getElem?_set_ne differ).trans given
      · exact ⟨rfl,rfl,fun _ _ given _ => given⟩
    · exact ⟨rfl,rfl,fun _ _ given _ => given⟩

/-- No thread is asked for or sent away. -/
def Quiet (events : List AsyncPoolEvent) : Prop := ∀ sizeLimit n, .reinit sizeLimit n ∉ events

theorem run_stays {events : List AsyncPoolEvent} (quiet : Quiet events) :
    (run step s events).asyncNumThreads = s.asyncNumThreads ∧ (run step s events).receivers.length = s.receivers.length ∧
      ∀ (thread : Nat) (receiver : AsyncReceiver), s.receivers[thread]? = some receiver → Stays s.asyncNumThreads receiver →
        (run step s events).receivers[thread]? = some receiver := by
  induction events generalizing s with
  | nil => exact ⟨rfl,rfl,fun _ _ given _ => given⟩
  | cons event events ih =>
    have still : ∀ sizeLimit n, event ≠ AsyncPoolEvent.reinit sizeLimit n :=
      fun sizeLimit n same => quiet sizeLimit n (same ▸ List.mem_cons_self)
    obtain ⟨target,length,kept⟩ := step_stays (s := s) still
    obtain ⟨target',length',kept'⟩ := ih (s := s.step event) fun sizeLimit n member => quiet sizeLimit n (List.mem_cons_of_mem _ member)
    refine ⟨target'.trans target,length'.trans length,fun thread receiver given stays => ?_⟩
    exact kept' thread receiver (kept thread receiver given stays) (target ▸ stays)

/-- Each thread that is not gone finishes a work item, and so has started before it. -/
def EachFinishes (s : AsyncPool) (events : List AsyncPoolEvent) : Prop :=
  ∀ (thread : Nat) (receiver : AsyncReceiver), s.receivers[thread]? = some receiver → receiver ≠ .gone → ∃ first later threadId,
    events = first ++ .finish thread :: later ∧ (run step s first).receivers[thread]? = some (.running threadId)

/-- A thread that runs and finishes a work item stays only if it may. -/
theorem finish_stays (there : s.receivers[thread]? = some (.running threadId)) :
    ∃ receiver, (s.step (.finish thread)).receivers[thread]? = some receiver ∧ Stays s.asyncNumThreads receiver := by
  rw [AsyncPool.step,there]
  dsimp only
  split
  · have inside := (List.getElem?_eq_some_iff.mp there).1
    exact ⟨.gone,List.getElem?_set_self inside,.inl rfl⟩
  · rename_i below
    exact ⟨_,there,.inr ⟨threadId,Nat.not_lt.mp below,rfl⟩⟩

theorem run_settles {events : List AsyncPoolEvent} (quiet : Quiet events) (each : EachFinishes s events) :
    ∀ receiver ∈ (run step s events).receivers, Stays (run step s events).asyncNumThreads receiver := by
  obtain ⟨target,length,kept⟩ := run_stays (s := s) quiet
  intro receiver member
  obtain ⟨thread,inside,given⟩ := List.mem_iff_getElem.mp member
  replace given := (List.getElem?_eq_some_iff.mpr ⟨inside,given⟩)
  rw [target]
  have first := List.getElem?_eq_getElem (length ▸ inside)
  by_cases gone : s.receivers[thread] = .gone
  · have same := kept thread _ first (.inl gone)
    obtain rfl := Option.some.inj (same.symm.trans given)
    exact .inl gone
  · obtain ⟨before,after,threadId,rfl,running⟩ := each thread _ first gone
    have early : Quiet before := fun sizeLimit n member => quiet sizeLimit n (List.mem_append_left _ member)
    have late : Quiet after := fun sizeLimit n member =>
      quiet sizeLimit n (List.mem_append_right _ (List.mem_cons_of_mem _ member))
    obtain ⟨unchanged,_,_⟩ := run_stays (s := s) early
    obtain ⟨after',there,stays⟩ := finish_stays running
    have target' : ((run step s before).step (.finish thread)).asyncNumThreads = (run step s before).asyncNumThreads :=
      (step_stays fun _ _ => AsyncPoolEvent.noConfusion).1
    obtain ⟨_,_,last⟩ := run_stays (s := (run step s before).step (.finish thread)) late
    have same := last thread after' there (target'.symm ▸ stays)
    rw [run_append,run_cons] at given
    obtain rfl := Option.some.inj (same.symm.trans given)
    rwa [unchanged] at stays

theorem reinit_target (s : AsyncPool) (sizeLimit : Int) (n : Nat) :
    (citrusleafAsyncReinit s sizeLimit n).asyncNumThreads = min n 32 ↔ min n 32 ≤ s.asyncNumThreads := by
  have capped : cappedThreads n = min n 32 := by
    rw [cappedThreads,maxAsyncReceiverThreads]
    split <;> omega
  rw [citrusleafAsyncReinit,capped]
  dsimp only
  split
  · rename_i more
    dsimp only
    omega
  · rename_i less
    exact iff_of_true rfl (Nat.not_lt.mp less)

end AsyncPool

/-- The wanted number is what each call asks for, and as many threads are left once each has
finished a work item. -/
structure PoolSized (sizeLimit : Int) (numReceiverThreads : Nat) (events : List AsyncPoolEvent) : Prop where
  target : ∀ first limit n later, events = first ++ .reinit limit n :: later →
    (asyncPoolRun sizeLimit numReceiverThreads (first ++ [.reinit limit n])).asyncNumThreads = min n 32
  settles : ∀ first middle later, events = first ++ (middle ++ later) → AsyncPool.Quiet middle →
    AsyncPool.EachFinishes (asyncPoolRun sizeLimit numReceiverThreads first) middle →
    (asyncPoolRun sizeLimit numReceiverThreads (first ++ middle)).live =
      (asyncPoolRun sizeLimit numReceiverThreads (first ++ middle)).asyncNumThreads

/-- A call that asks for more threads creates them and leaves the wanted number as it was. -/
theorem async_pool_size (sizeLimit : Int) (numReceiverThreads : Nat) (events : List AsyncPoolEvent) :
    PoolSized sizeLimit numReceiverThreads events ↔ ∀ first limit n later, events = first ++ .reinit limit n :: later →
      min n 32 ≤ (asyncPoolRun sizeLimit numReceiverThreads first).asyncNumThreads := by
  have called (first : List AsyncPoolEvent) (limit : Int) (n : Nat) :
      asyncPoolRun sizeLimit numReceiverThreads (first ++ [.reinit limit n]) =
        citrusleafAsyncReinit (asyncPoolRun sizeLimit numReceiverThreads first) limit n := by
    rw [asyncPoolRun,run_append]
    rfl
  constructor
  · intro sized first limit n later split
    have target := sized.target first limit n later split
    rw [called] at target
    exact (AsyncPool.reinit_target _ limit n).mp target
  · intro fewer
    refine ⟨fun first limit n later split => ?_,fun first middle later _ quiet each => ?_⟩
    · rw [called]
      exact (AsyncPool.reinit_target _ limit n).mpr (fewer first limit n later split)
    · have numbered := AsyncPool.run_numbered sizeLimit numReceiverThreads (first ++ middle)
      rw [asyncPoolRun,run_append] at numbered ⊢
      exact numbered.settled (AsyncPool.run_settles quiet each)

/-- One thread, and a call that asks for two: a second one is created, but one is wanted. -/
theorem async_pool_grows : ¬PoolSized 10 1 [.reinit 10 2] ∧
    (asyncPoolRun 10 1 [.reinit 10 2]).live = 2 ∧ (asyncPoolRun 10 1 [.reinit 10 2]).asyncNumThreads = 1 := by
  refine ⟨fun sized => ?_,rfl,rfl⟩
  exact absurd (sized.target [] 10 2 [] rfl) (by decide)

end Citrusleaf
