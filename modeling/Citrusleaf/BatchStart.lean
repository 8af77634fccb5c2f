import Citrusleaf.ClientRestart
import Citrusleaf.Lib.Workers

/-! The lazy start of the batch queue in `do_get_exists_many_digest`. A thread reads
`batch_initialized`, increments it in `citrusleaf_batch_init`, creates `g_batch_q` and the worker
threads where its increment was the first, and pushes one work item for each node. Other threads
run between any two of these steps. `pthread_create` succeeds. -/
namespace Citrusleaf
open Lib

/-- Where a thread is in a batch call that has work for so many nodes. -/
inductive BatchCaller where
  | outside
  /-- `cf_atomic32_get(batch_initialized)` gave zero. -/
  | initialising (nodes : Nat)
  /-- Its increment gave one; `g_batch_q` is created next. -/
  | creating (nodes : Nat)
  /-- In the loop of `pthread_create`, with so many turns left. -/
  | spawning (left nodes : Nat)
  /-- Behind the lazy start. -/
  | dispatching (nodes : Nat)
  deriving DecidableEq

def BatchCaller.creates : BatchCaller → Nat
  | creating _ => 1
  | _ => 0

def BatchCaller.turns : BatchCaller → Nat
  | spawning left _ => left
  | _ => 0

/-- `batch_initialized`, `g_batch_q` with the callers whose work is on it, how many queues and
worker threads were created, whether a push found a null queue, and the callers. -/
structure BatchStart where
  batchInitialized : UInt32
  batchQ : Option (List Nat)
  queues : Nat
  workers : Nat
  nullPush : Bool
  callers : List BatchCaller
  deriving DecidableEq

inductive BatchStartEvent where
  | call (thread nodes : Nat)
  | incr (thread : Nat)
  /-- `cf_queue_create`, which may fail. -/
  | create (thread : Nat) (created : Bool)
  | spawn (thread : Nat)
  | push (thread : Nat)
  /-- A worker takes the first work item. -/
  | pop
  | finish (thread : Nat)
  deriving DecidableEq

namespace BatchStart

def start (threads : Nat) : BatchStart := ⟨0,none,0,0,false,List.replicate threads .outside⟩

def move (s : BatchStart) (thread : Nat) (caller : BatchCaller) : BatchStart :=
  {s with callers := s.callers.set thread caller}

/-- `cf_atomic32_incr(&batch_initialized) != 1` leaves `citrusleaf_batch_init`. -/
def incr (s : BatchStart) (thread nodes : Nat) : BatchStart :=
  let batchInitialized := s.batchInitialized + 1
  if batchInitialized ≠ 1 then {s.move thread (.dispatching nodes) with batchInitialized}
  else {s.move thread (.creating nodes) with batchInitialized}

def create (s : BatchStart) (thread nodes : Nat) (created : Bool) : BatchStart :=
  let s := s.move thread (.spawning (ClientGlobals.batchThreads maxBatchThreads) nodes)
  if created then {s with batchQ := some [],queues := s.queues + 1} else {s with batchQ := none}

/-- A turn of the loop of `pthread_create`, or its end. -/
def spawn (s : BatchStart) (thread nodes : Nat) : Nat → BatchStart
  | 0 => s.move thread (.dispatching nodes)
  | left + 1 => {s.move thread (.spawning left nodes) with workers := s.workers + 1}

/-- `cf_queue_push` on `g_batch_q`. -/
def push (s : BatchStart) (thread nodes : Nat) : BatchStart :=
  let s := s.move thread (.dispatching nodes)
  match s.batchQ with
  | none => {s with nullPush := true}
  | some works => {s with batchQ := some (works ++ [thread])}

def step (s : BatchStart) : BatchStartEvent → BatchStart
  | .call thread nodes =>
    match s.callers[thread]? with
    | some .outside =>
      if s.batchInitialized = 0 then s.move thread (.initialising nodes) else s.move thread (.dispatching nodes)
    | _ => s
  | .incr thread =>
    match s.callers[thread]? with
    | some (.initialising nodes) => s.incr thread nodes
    | _ => s
  | .create thread created =>
    match s.callers[thread]? with
    | some (.creating nodes) => s.create thread nodes created
    | _ => s
  | .spawn thread =>
    match s.callers[thread]? with
    | some (.spawning left nodes) => s.spawn thread nodes left
    | _ => s
  | .push thread =>
    match s.callers[thread]? with
    | some (.dispatching (nodes + 1)) => s.push thread nodes
    | _ => s
  | .pop => {s with batchQ := s.batchQ.map List.tail}
  | .finish thread =>
    match s.callers[thread]? with
    | some (.dispatching 0) => s.move thread .outside
    | _ => s

/-- The threads that are about to create the queue. -/
def creators (s : BatchStart) : Nat := (s.callers.map BatchCaller.creates).sum

/-- The worker threads still to be created by the loops under way. -/
def turnsLeft (s : BatchStart) : Nat := (s.callers.map BatchCaller.turns).sum

/-- No push has found a null queue and none is about to, and from the first increment on one
thread creates the queue and the six workers, for good. -/
structure StartsOnce (s : BatchStart) : Prop where
  pushed : s.nullPush = false
  ready : ∀ nodes, .dispatching (nodes + 1) ∈ s.callers → s.batchQ.isSome
  creators : s.creators + s.queues = if s.batchInitialized = 0 then 0 else 1
  workers : s.workers + s.turnsLeft = 6 * s.queues

/-- Who goes past the lazy start with work to push finds the queue, which can be created; the
counter does not wrap. -/
def Ready (s : BatchStart) : BatchStartEvent → Prop
  | .call thread nodes =>
    s.callers[thread]? = some .outside → s.batchInitialized ≠ 0 → 0 < nodes → s.batchQ.isSome
  | .incr thread => ∀ nodes, s.callers[thread]? = some (.initialising nodes) →
    s.batchInitialized + 1 ≠ 0 ∧ (s.batchInitialized ≠ 0 → 0 < nodes → s.batchQ.isSome)
  | .create thread created => ∀ nodes, s.callers[thread]? = some (.creating nodes) → created = true
  | _ => True

/-! ### One step -/

/-- A thread in the loop of `pthread_create` has created the queue. -/
structure Inv (s : BatchStart) : Prop extends StartsOnce s where
  spawning : ∀ left nodes, .spawning left nodes ∈ s.callers → s.batchQ.isSome

variable {s : BatchStart} {thread : Nat} {old new : BatchCaller}

theorem creators_move (there : s.callers[thread]? = some old) (new : BatchCaller) :
    (s.move thread new).creators + old.creates = s.creators + new.creates := sum_moved _ there new

theorem turnsLeft_move (there : s.callers[thread]? = some old) (new : BatchCaller) :
    (s.move thread new).turnsLeft + old.turns = s.turnsLeft + new.turns := sum_moved _ there new

theorem mem_move (there : s.callers[thread]? = some old) (new : BatchCaller) : new ∈ (s.move thread new).callers :=
  List.mem_set (List.getElem?_eq_some_iff.mp there).1 new

theorem of_mem_move {caller : BatchCaller} (member : caller ∈ (s.move thread new).callers) : caller ∈ s.callers ∨ caller = new :=
  List.mem_or_eq_of_mem_set member

/-- A thread that is not about to create anything, before or after, moves on. -/
theorem Inv.move (inv : Inv s) (there : s.callers[thread]? = some old) (new : BatchCaller)
    (creates : old.creates = new.creates) (turns : old.turns = new.turns)
    (ready : ∀ nodes, new = .dispatching (nodes + 1) → s.batchQ.isSome)
    (spawning : ∀ left nodes, new = .spawning left nodes → s.batchQ.isSome) : Inv (s.move thread new) := by
  have creators : (s.move thread new).creators = s.creators :=
    Nat.add_right_cancel ((creators_move there new).trans (congrArg _ creates.symm))
  have turnsLeft : (s.move thread new).turnsLeft = s.turnsLeft :=
    Nat.add_right_cancel ((turnsLeft_move there new).trans (congrArg _ turns.symm))
  refine ⟨⟨inv.pushed,fun nodes member => ?_,?_,?_⟩,fun left nodes member => ?_⟩
  · exact (of_mem_move member).elim (inv.ready nodes) fun same => ready nodes same.symm
  · rw [creators]
    exact inv.creators
  · rw [turnsLeft]
    exact inv.workers
  · exact (of_mem_move member).elim (inv.spawning left nodes) fun same => spawning left nodes same.symm

theorem Inv.call (inv : Inv s) (there : s.callers[thread]? = some .outside) (nodes : Nat)
    (ready : s.batchInitialized ≠ 0 → 0 < nodes → s.batchQ.isSome) : Inv (s.step (.call thread nodes)) := by
  rw [step,there]
  dsimp only
  split
  · exact inv.move there (.initialising nodes) rfl rfl nofun nofun
  · rename_i set
    refine inv.move there (.dispatching nodes) rfl rfl (fun left same => ready set ?_) nofun
    rw [BatchCaller.dispatching.inj same]
    exact Nat.succ_pos left

/-- The first increment makes its thread the creator, any other one lets it pass. -/
theorem Inv.incr (inv : Inv s) (there : s.callers[thread]? = some (.initialising nodes))
    (stays : s.batchInitialized + 1 ≠ 0) (ready : s.batchInitialized ≠ 0 → 0 < nodes → s.batchQ.isSome) :
    Inv (s.incr thread nodes) := by
  have creators := inv.creators
  rw [BatchStart.incr]
  dsimp only
  split
  · rename_i later
    have set : s.batchInitialized ≠ 0 := fun zero => later (by rw [zero]; rfl)
    have moved := inv.move there (.dispatching nodes) rfl rfl (fun left same => ready set (by
      rw [BatchCaller.dispatching.inj same]
      exact Nat.succ_pos left)) nofun
    exact ⟨⟨moved.pushed,moved.ready,moved.creators.trans ((if_neg set).trans (if_neg stays).symm),moved.workers⟩,
      moved.spawning⟩
  · rename_i first
    have zero : s.batchInitialized = 0 := (UInt32.add_left_inj 1).mp (not_not.mp first)
    have counted : (s.move thread (.creating nodes)).creators = s.creators + 1 := creators_move there (.creating nodes)
    have turns : (s.move thread (.creating nodes)).turnsLeft = s.turnsLeft := turnsLeft_move there (.creating nodes)
    rw [if_pos zero] at creators
    refine ⟨⟨inv.pushed,fun left member => ?_,Eq.trans ?_ (if_neg stays).symm,?_⟩,fun left more member => ?_⟩
    · exact (of_mem_move member).elim (inv.ready left) nofun
    · change (s.move thread (.creating nodes)).creators + s.queues = 1
      omega
    · change s.workers + (s.move thread (.creating nodes)).turnsLeft = 6 * s.queues
      rw [turns]
      exact inv.workers
    · exact (of_mem_move member).elim (inv.spawning left more) nofun

/-- The creator leaves a queue and the turns for its workers. -/
theorem Inv.create (inv : Inv s) (there : s.callers[thread]? = some (.creating nodes)) : Inv (s.create thread nodes true) := by
  have counted : (s.move thread (.spawning 6 nodes)).creators + 1 = s.creators := creators_move there (.spawning 6 nodes)
  have turns : (s.move thread (.spawning 6 nodes)).turnsLeft = s.turnsLeft + 6 := turnsLeft_move there (.spawning 6 nodes)
  refine ⟨⟨inv.pushed,fun _ _ => rfl,Eq.trans ?_ inv.creators,?_⟩,fun _ _ _ => rfl⟩
  · change (s.move thread (.spawning 6 nodes)).creators + (s.queues + 1) = s.creators + s.queues
    omega
  · change s.workers + (s.move thread (.spawning 6 nodes)).turnsLeft = 6 * (s.queues + 1)
    have workers := inv.workers
    omega

theorem Inv.spawn (inv : Inv s) (there : s.callers[thread]? = some (.spawning left nodes)) : Inv (s.spawn thread nodes left) := by
  have queue := inv.spawning left nodes (List.mem_of_getElem? there)
  cases left with
  | zero => exact inv.move there (.dispatching nodes) rfl rfl (fun _ _ => queue) nofun
  | succ left =>
    have counted : (s.move thread (.spawning left nodes)).creators = s.creators := creators_move there (.spawning left nodes)
    have turns : (s.move thread (.spawning left nodes)).turnsLeft + (left + 1) = s.turnsLeft + left :=
      turnsLeft_move there (.spawning left nodes)
    have workers := inv.workers
    refine ⟨⟨inv.pushed,fun _ _ => queue,?_,?_⟩,fun _ _ _ => queue⟩
    · change (s.move thread (.spawning left nodes)).creators + s.queues = _
      rw [counted]
      exact inv.creators
    · change s.workers + 1 + (s.move thread (.spawning left nodes)).turnsLeft = 6 * s.queues
      omega

theorem Inv.push (inv : Inv s) (there : s.callers[thread]? = some (.dispatching (nodes + 1))) : Inv (s.push thread nodes) := by
  have queue := inv.ready nodes (List.mem_of_getElem? there)
  have moved := inv.move there (.dispatching nodes) rfl rfl (fun _ _ => queue) nofun
  obtain ⟨works,given⟩ := Option.isSome_iff_exists.mp queue
  have pushed : s.push thread nodes = {s.move thread (.dispatching nodes) with batchQ := some (works ++ [thread])} := by
    rw [BatchStart.push,show (s.move thread (.dispatching nodes)).batchQ = some works from given]
  rw [pushed]
  exact ⟨⟨moved.pushed,fun _ _ => rfl,moved.creators,moved.workers⟩,fun _ _ _ => rfl⟩

theorem Inv.step (inv : Inv s) (event : BatchStartEvent) (ready : s.Ready event) : Inv (s.step event) := by
  cases event with
  | call thread nodes =>
    by_cases there : s.callers[thread]? = some .outside
    · exact inv.call there nodes (ready there)
    · rw [BatchStart.step]
      split
      · exact absurd ‹_› there
      · exact inv
  | incr thread =>
    rw [BatchStart.step]
    split
    · rename_i nodes there
      obtain ⟨stays,queue⟩ := ready nodes there
      exact inv.incr there stays queue
    · exact inv
  | create thread created =>
    rw [BatchStart.step]
    split
    · rename_i nodes there
      rw [ready nodes there]
      exact inv.create there
    · exact inv
  | spawn thread =>
    rw [BatchStart.step]
    split
    · rename_i there
      exact inv.spawn there
    · exact inv
  | push thread =>
    rw [BatchStart.step]
    split
    · rename_i there
      exact inv.push there
    · exact inv
  | pop =>
    have kept (queue : s.batchQ.isSome) : (s.batchQ.map List.tail).isSome := by rwa [Option.isSome_map]
    exact ⟨⟨inv.pushed,fun nodes member => kept (inv.ready nodes member),inv.creators,inv.workers⟩,
      fun left nodes member => kept (inv.spawning left nodes member)⟩
  | finish thread =>
    rw [BatchStart.step]
    split
    · rename_i there
      exact inv.move there .outside rfl rfl nofun nofun
    · exact inv

/-- A step after which the start is still once and for all was ready. -/
theorem Inv.ready_of (inv : Inv s) (event : BatchStartEvent) (after : StartsOnce (s.step event)) : s.Ready event := by
  cases event with
  | call thread nodes =>
    intro there set some
    obtain ⟨left,rfl⟩ := Nat.exists_eq_succ_of_ne_zero (Nat.pos_iff_ne_zero.mp some)
    have queue := after.ready left
    rw [BatchStart.step,there] at queue
    dsimp only at queue
    rw [if_neg set] at queue
    exact queue (mem_move there _)
  | incr thread =>
    intro nodes there
    rw [BatchStart.step,there] at after
    dsimp only at after
    rw [BatchStart.incr] at after
    dsimp only at after
    have before := inv.creators
    constructor
    · intro wraps
      have set : s.batchInitialized ≠ 0 := fun zero => by
        rw [zero] at wraps
        exact absurd wraps (by decide)
      have later : s.batchInitialized + 1 ≠ 1 := fun one => absurd (wraps.symm.trans one) (by decide)
      rw [if_pos later] at after
      have counted : (s.move thread (.dispatching nodes)).creators = s.creators := creators_move there (.dispatching nodes)
      have zero : (s.move thread (.dispatching nodes)).creators + s.queues = 0 := after.creators.trans (if_pos wraps)
      rw [counted,before,if_neg set] at zero
      exact absurd zero Nat.one_ne_zero
    · intro set some
      obtain ⟨left,rfl⟩ := Nat.exists_eq_succ_of_ne_zero (Nat.pos_iff_ne_zero.mp some)
      have later : s.batchInitialized + 1 ≠ 1 := fun one => set ((UInt32.add_left_inj 1).mp one)
      rw [if_pos later] at after
      exact after.ready left (mem_move there _)
  | create thread created =>
    intro nodes there
    by_contra failed
    rw [BatchStart.step,there,eq_false_of_ne_true failed] at after
    have counted : (s.move thread (.spawning 6 nodes)).creators + 1 = s.creators := creators_move there (.spawning 6 nodes)
    have creators : (s.move thread (.spawning 6 nodes)).creators + s.queues = s.creators + s.queues :=
      after.creators.trans inv.creators.symm
    omega
  | _ => trivial

theorem start_inv (threads : Nat) : Inv (start threads) := by
  have outside {caller : BatchCaller} (member : caller ∈ (start threads).callers) : caller = .outside :=
    List.eq_of_mem_replicate member
  have creators : (start threads).creators = 0 := by
    rw [BatchStart.creators,start,List.map_replicate,List.sum_replicate_nat]
    exact Nat.mul_zero threads
  have turns : (start threads).turnsLeft = 0 := by
    rw [turnsLeft,start,List.map_replicate,List.sum_replicate_nat]
    exact Nat.mul_zero threads
  refine ⟨⟨rfl,fun nodes member => ?_,?_,?_⟩,fun left nodes member => ?_⟩
  · cases outside member
  · rw [creators]
    rfl
  · rw [turns]
    rfl
  · cases outside member

end BatchStart

/-- In a run of first batch calls no push finds a null queue, nor is any about to, and the queue
and its workers are created once, exactly where who passes the lazy start finds the queue. -/
theorem batch_starts_once (threads : Nat) (events : List BatchStartEvent) :
    Always BatchStart.step BatchStart.StartsOnce (.start threads) events ↔
      Guarded BatchStart.step BatchStart.Ready (.start threads) events := by
  have holds (s : BatchStart) (inv : BatchStart.Inv s) : s.StartsOnce := inv.toStartsOnce
  exact always_iff_guarded_free holds
    (fun _ event inv ready => BatchStart.Inv.step inv event ready)
    (fun _ event inv after => BatchStart.Inv.ready_of inv event after)
    (BatchStart.start_inv threads) events

/-- The second thread calls between the increment of the first and its `cf_queue_create`. -/
theorem batch_starts_late :
    ¬Always BatchStart.step BatchStart.StartsOnce (.start 2) [.call 0 1,.incr 0,.call 1 1,.push 1] ∧
    (run BatchStart.step (.start 2) [.call 0 1,.incr 0,.call 1 1,.push 1]).nullPush = true := by
  have null : (run BatchStart.step (.start 2) [.call 0 1,.incr 0,.call 1 1,.push 1]).nullPush = true := by decide
  refine ⟨fun always => ?_,null⟩
  have last := (always_iff _ _ _ _).mp always _ [] (List.append_nil _).symm
  exact Bool.noConfusion (null.symm.trans last.pushed)

end Citrusleaf
