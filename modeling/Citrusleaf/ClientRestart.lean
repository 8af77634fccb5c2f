import Citrusleaf.Lib.Runs

/-! `citrusleaf_init` and `citrusleaf_shutdown` with the threads behind them: the tender of
cl_cluster.c, and the queue and workers of cl_batch.c. All calls are made in one process, without
async work or shared memory, and `pthread_create` succeeds: its result is looked at nowhere. -/
namespace Citrusleaf
open Lib

def maxBatchThreads : Nat := 6

/-- `g_initialized`, `g_clust_initialized`, whether the tender thread runs, `batch_initialized`,
whether `g_batch_q` is a queue, `g_batch_thread_count`, and the worker threads that run. No step
reads how many shutdowns took effect. -/
structure ClientGlobals where
  initialized : Bool
  clustInitialized : Bool
  tender : Bool
  batchInitialized : Nat
  batchQ : Bool
  batchThreadCount : Nat
  workers : Nat
  shutdowns : Nat
  deriving DecidableEq

/-- A process that used a null queue or joined a thread twice is gone; was the client initialised? -/
inductive ClientProcess where
  | running (s : ClientGlobals)
  | crashed (initialized : Bool)
  deriving DecidableEq

inductive LifecycleCall where
  | init
  | shutdown
  /-- `citrusleaf_batch_init`, in which `cf_queue_create` may fail. -/
  | batchInit (nThreads : Int) (created : Bool)
  /-- A call of `do_get_exists_many_digest` that has work for so many nodes. -/
  | batch (created : Bool) (nodes : Nat)
  deriving DecidableEq

namespace ClientGlobals

def start : ClientGlobals := ⟨false,false,false,0,false,0,0,0⟩

/-- The thread is created once; nothing sets the flag back. -/
def citrusleafClusterInit (s : ClientGlobals) : ClientGlobals :=
  if s.clustInitialized then s else {s with clustInitialized := true,tender := true}

def citrusleafInit (s : ClientGlobals) : ClientGlobals :=
  {s.citrusleafClusterInit with initialized := true}

/-- At least one thread, and 6 at most. -/
def batchThreads (nThreads : Int) : Nat :=
  if nThreads ≤ 0 then 1 else if nThreads > maxBatchThreads then maxBatchThreads else nThreads.toNat

def citrusleafBatchInit (s : ClientGlobals) (nThreads : Int) (created : Bool) : ClientGlobals :=
  let s := {s with batchInitialized := s.batchInitialized + 1}
  if s.batchInitialized ≠ 1 then s
  else {s with batchQ := created,batchThreadCount := batchThreads nThreads,workers := s.workers + batchThreads nThreads}

/-- Joins the tender thread. -/
def citrusleafClusterShutdown (s : ClientGlobals) : Option ClientGlobals :=
  if s.tender then some {s with tender := false} else none

/-- Sends each worker away and joins it. -/
def citrusleafBatchShutdown (s : ClientGlobals) : Option ClientGlobals :=
  if s.batchThreadCount = 0 then some s
  else if s.batchQ ∧ s.batchThreadCount ≤ s.workers then
    some {s with batchQ := false,workers := s.workers - s.batchThreadCount}
  else none

def citrusleafShutdown (s : ClientGlobals) : Option ClientGlobals :=
  if ¬s.initialized then some s
  else do
    let s ← s.citrusleafClusterShutdown
    let s ← s.citrusleafBatchShutdown
    return {s with initialized := false,shutdowns := s.shutdowns + 1}

/-- The batch threads are set up by the first batch call. -/
def lazyBatchInit (s : ClientGlobals) (created : Bool) : ClientGlobals :=
  if s.batchInitialized = 0 then s.citrusleafBatchInit maxBatchThreads created else s

/-- One work item is pushed for each node. -/
def doGetExistsManyDigest (s : ClientGlobals) (created : Bool) (nodes : Nat) : Option ClientGlobals :=
  let s := s.lazyBatchInit created
  if 0 < nodes ∧ ¬s.batchQ then none else some s

def call (s : ClientGlobals) : LifecycleCall → Option ClientGlobals
  | .init => some s.citrusleafInit
  | .shutdown => s.citrusleafShutdown
  | .batchInit nThreads created => some (s.citrusleafBatchInit nThreads created)
  | .batch created nodes => s.doGetExistsManyDigest created nodes

end ClientGlobals

def ClientProcess.step : ClientProcess → LifecycleCall → ClientProcess
  | .running s,call =>
    match s.call call with
    | some s => .running s
    | none => .crashed s.initialized
  | .crashed initialized,_ => .crashed initialized

/-- The tender thread runs, and where batch is set up there is a queue that workers serve. -/
structure ClientGlobals.Served (s : ClientGlobals) : Prop where
  tender : s.tender = true
  batch : s.batchInitialized ≠ 0 → s.batchQ = true ∧ 0 < s.workers

/-- While the client is initialised it is served, and it does not crash. -/
def ClientProcess.Works : ClientProcess → Prop
  | running s => s.initialized = true → s.Served
  | crashed initialized => initialized = false

/-- No shutdown has come before an init. Where the queue for batch is created before the init, or
while the client is initialised, it is there. -/
def ClientProcess.Fresh : ClientProcess → LifecycleCall → Prop
  | running s,.init => s.shutdowns = 0 ∧ (s.batchInitialized ≠ 0 → s.batchQ = true)
  | running s,.batchInit _ created => s.initialized = true → s.batchInitialized = 0 → created = true
  | running s,.batch created _ => s.initialized = true → s.batchInitialized = 0 → created = true
  | _,_ => True

namespace ClientGlobals

/-- The tender runs from the first init to a shutdown, and there are workers for the queue. -/
structure Sound (s : ClientGlobals) : Prop where
  served : s.initialized = true → s.Served
  tender : s.shutdowns = 0 → s.tender = s.clustInitialized
  down : s.shutdowns ≠ 0 → s.clustInitialized = true ∧ s.tender = false ∧ s.initialized = false
  threads : s.batchThreadCount ≠ 0 → s.batchInitialized ≠ 0
  workers : s.batchQ = true → 0 < s.workers ∧ s.batchThreadCount ≤ s.workers

theorem batchThreads_pos (nThreads : Int) : 0 < batchThreads nThreads := by
  rw [batchThreads]
  split
  · exact Nat.one_pos
  · split
    · decide
    · omega

theorem start_sound : Sound start := ⟨nofun,fun _ => rfl,fun down => absurd rfl down,fun some => absurd rfl some,nofun⟩

variable {s : ClientGlobals}

/-- What init does where the tender runs or was never created. -/
theorem citrusleafInit_tender (tender : s.tender = s.clustInitialized) :
    s.citrusleafInit = {s with initialized := true,clustInitialized := true,tender := true} := by
  rw [citrusleafInit,citrusleafClusterInit]
  split
  · rename_i flag
    rw [tender.trans flag,flag]
  · rfl

/-- After a shutdown init leaves the tender as it is. -/
theorem citrusleafInit_down (flag : s.clustInitialized = true) : s.citrusleafInit = {s with initialized := true} := by
  rw [citrusleafInit,citrusleafClusterInit,if_pos flag]

theorem Sound.init (sound : Sound s) (up : s.shutdowns = 0) (queue : s.batchInitialized ≠ 0 → s.batchQ = true) :
    Sound s.citrusleafInit := by
  rw [citrusleafInit_tender (sound.tender up)]
  exact ⟨fun _ => ⟨rfl,fun some => ⟨queue some,(sound.workers (queue some)).1⟩⟩,fun _ => rfl,
    fun down => absurd up down,sound.threads,sound.workers⟩

/-- A queue that is set up gets at least one worker. -/
theorem Sound.batchInit (sound : Sound s) (nThreads : Int) {created : Bool}
    (queue : s.initialized = true → s.batchInitialized = 0 → created = true) :
    Sound (s.citrusleafBatchInit nThreads created) := by
  have some := batchThreads_pos nThreads
  rw [citrusleafBatchInit]
  dsimp only
  split
  · rename_i later
    have before : s.batchInitialized ≠ 0 := fun zero => later (congrArg Nat.succ zero)
    refine ⟨fun up => ⟨(sound.served up).tender,fun _ => (sound.served up).batch before⟩,sound.tender,sound.down,
      fun _ => Nat.succ_ne_zero _,sound.workers⟩
  · rename_i first
    have none : s.batchInitialized = 0 := Nat.succ.inj (not_not.mp first)
    refine ⟨fun up => ⟨(sound.served up).tender,fun _ => ⟨queue up none,?_⟩⟩,sound.tender,sound.down,
      fun _ => Nat.succ_ne_zero _,fun _ => ⟨?_,?_⟩⟩
    · dsimp only
      omega
    · dsimp only
      omega
    · exact Nat.le_add_left _ _

/-- A shutdown finds the tender and the workers that it joins. -/
theorem Sound.shutdown (sound : Sound s) : ∃ t, s.citrusleafShutdown = some t ∧ Sound t := by
  rw [citrusleafShutdown]
  split
  · exact ⟨s,rfl,sound⟩
  · rename_i up
    replace up : s.initialized = true := not_not.mp up
    have served := sound.served up
    have clust : s.clustInitialized = true := by
      by_cases first : s.shutdowns = 0
      · exact (sound.tender first).symm.trans served.tender
      · exact (sound.down first).1
    rw [citrusleafClusterShutdown,if_pos served.tender,Option.bind_eq_bind,Option.bind_some,citrusleafBatchShutdown]
    dsimp only
    split
    · exact ⟨_,rfl,nofun,nofun,fun _ => ⟨clust,rfl,rfl⟩,sound.threads,sound.workers⟩
    · rename_i some
      obtain ⟨queue,_⟩ := served.batch (sound.threads some)
      rw [if_pos ⟨queue,(sound.workers queue).2⟩]
      exact ⟨_,rfl,nofun,nofun,fun _ => ⟨clust,rfl,rfl⟩,sound.threads,nofun⟩

/-- The first init of batch sets up its queue. -/
theorem batchInit_first (none : s.batchInitialized = 0) (nThreads : Int) (created : Bool) :
    s.citrusleafBatchInit nThreads created = {s with
      batchInitialized := 1,batchQ := created,batchThreadCount := batchThreads nThreads,
      workers := s.workers + batchThreads nThreads} := by
  rw [citrusleafBatchInit,none]
  rfl

theorem Sound.lazyBatchInit (sound : Sound s) {created : Bool}
    (queue : s.initialized = true → s.batchInitialized = 0 → created = true) :
    Sound (s.lazyBatchInit created) ∧ (s.lazyBatchInit created).initialized = s.initialized ∧
      (s.lazyBatchInit created).batchInitialized ≠ 0 := by
  have inits := sound.batchInit maxBatchThreads queue
  rw [ClientGlobals.lazyBatchInit]
  split
  · rename_i none
    refine ⟨inits,?_,?_⟩
    · rw [batchInit_first none]
    · rw [batchInit_first none]
      exact Nat.one_ne_zero
  · rename_i some
    exact ⟨sound,rfl,some⟩

end ClientGlobals

namespace ClientProcess

/-- A process that is sound, or that crashed while the client was not initialised. -/
def Stands : ClientProcess → Prop
  | running s => s.Sound
  | crashed initialized => initialized = false

variable {p : ClientProcess}

theorem Stands.works (stands : p.Stands) : p.Works := by
  cases p with
  | running s => exact stands.served
  | crashed initialized => exact stands

theorem Stands.step (stands : p.Stands) (call : LifecycleCall) (fresh : p.Fresh call) : (p.step call).Stands := by
  cases p with
  | crashed initialized => exact stands
  | running s =>
    cases call with
    | init => exact ClientGlobals.Sound.init stands fresh.1 fresh.2
    | shutdown =>
      obtain ⟨t,down,sound⟩ := ClientGlobals.Sound.shutdown stands
      rw [ClientProcess.step,ClientGlobals.call,down]
      exact sound
    | batchInit nThreads created => exact ClientGlobals.Sound.batchInit stands nThreads fresh
    | batch created nodes =>
      obtain ⟨sound,same,some⟩ := ClientGlobals.Sound.lazyBatchInit stands fresh
      rw [ClientProcess.step,ClientGlobals.call,ClientGlobals.doGetExistsManyDigest]
      split
      · rename_i t called
        split at called
        · cases called
        · obtain rfl := Option.some.inj called
          exact sound
      · rename_i called
        split at called
        · rename_i missing
          -- an initialised client would have a queue
          change s.initialized = false
          by_contra up
          have queue := (sound.served (same.trans (eq_true_of_ne_false up))).batch some
          exact missing.2 queue.1
        · cases called

/-- A call after which the client works was fresh. -/
theorem Stands.fresh (stands : p.Stands) (call : LifecycleCall) (works : (p.step call).Works) : p.Fresh call := by
  cases p with
  | crashed initialized => cases call <;> trivial
  | running s =>
    cases call with
    | init =>
      have served : s.citrusleafInit.Served := works rfl
      have up : s.shutdowns = 0 := by
        by_contra again
        obtain ⟨flag,tender,_⟩ := ClientGlobals.Sound.down stands again
        rw [ClientGlobals.citrusleafInit_down flag] at served
        exact Bool.false_ne_true (tender.symm.trans served.tender)
      rw [ClientGlobals.citrusleafInit_tender (ClientGlobals.Sound.tender stands up)] at served
      exact ⟨up,fun some => (served.batch some).1⟩
    | shutdown => trivial
    | batchInit nThreads created =>
      intro up none
      have served := works
      rw [ClientProcess.step,ClientGlobals.call] at served
      dsimp only at served
      rw [ClientGlobals.batchInit_first none] at served
      exact ((served up).batch Nat.one_ne_zero).1
    | batch created nodes =>
      intro up none
      rw [ClientProcess.step,ClientGlobals.call,ClientGlobals.doGetExistsManyDigest,ClientGlobals.lazyBatchInit,if_pos none,
        ClientGlobals.batchInit_first none] at works
      dsimp only at works
      by_contra missing
      split at works
      · rename_i t called
        split at called
        · cases called
        · obtain rfl := Option.some.inj called
          exact missing ((works up).batch Nat.one_ne_zero).1
      · exact absurd (works.symm.trans up) Bool.false_ne_true

end ClientProcess

/-- In a run of calls an initialised client always has its tender and, once batch is set up, a
queue that is served, exactly where no init comes after a shutdown and the queue is created. -/
theorem client_restarts (calls : List LifecycleCall) :
    Always ClientProcess.step ClientProcess.Works (.running .start) calls ↔
      Guarded ClientProcess.step ClientProcess.Fresh (.running .start) calls := by
  have holds (p : ClientProcess) (stands : p.Stands) : p.Works := stands.works
  have initial : (ClientProcess.running .start).Stands := ClientGlobals.start_sound
  exact always_iff_guarded_free holds
    (fun _ call stands fresh => ClientProcess.Stands.step stands call fresh)
    (fun _ call stands works => ClientProcess.Stands.fresh stands call works) initial calls

/-- The second init starts no tender, and the batch call behind it pushes to a null queue. -/
theorem client_not_restarted :
    ¬Always ClientProcess.step ClientProcess.Works (.running .start) [.init,.batch true 1,.shutdown,.init,.batch true 1] ∧
    run ClientProcess.step (.running .start) [.init,.batch true 1,.shutdown,.init] =
      .running ⟨true,true,false,1,false,6,0,1⟩ ∧
    run ClientProcess.step (.running .start) [.init,.batch true 1,.shutdown,.init,.batch true 1] = .crashed true := by
  have crash : run ClientProcess.step (.running .start) [.init,.batch true 1,.shutdown,.init,.batch true 1] = .crashed true := by
    decide
  refine ⟨fun always => ?_,by decide,crash⟩
  have works := (always_iff _ _ _ _).mp always _ [] (List.append_nil _).symm
  rw [crash] at works
  exact Bool.noConfusion works

end Citrusleaf
