import Citrusleaf.AsyncAccounting
import Citrusleaf.AsyncFraming
import Citrusleaf.Lib.Pool

/-! The receiver threads of cl_async.c on their queue: work items that submissions push, receivers that visit them and
may put them back, and `citrusleaf_async_shutdown`. -/
namespace Citrusleaf.AsyncQueue
open Lib ReceiverEffect

/-- Work items by the order of their submissions. `turns` has each visit of one with what it did, and `crashed` is a
submission to `g_cl_async_q` when it is null again. -/
structure AsyncThreads where
  pool : Pool Nat
  works : List AsyncWork
  receivers : List ReceiverThread
  turns : List (Nat × List ReceiverEffect)
  shutdown : PoolOwner
  crashed : Bool

inductive AsyncEvent where
  /-- `cl_do_async_monte` pushes a work item whose command is sent. -/
  | submit (work : AsyncWork)
  | take (thread : Nat)
  | turn (thread : Nat) (stream : List UInt8) (world : ReceiverWorld)
  | shutdown
  /-- The thread in `citrusleaf_async_shutdown` goes on. -/
  | proceed

namespace AsyncThreads

def start (threads : Nat) : AsyncThreads :=
  ⟨Pool.start threads,[],List.replicate threads .start,[],.before,false⟩

def submit (s : AsyncThreads) (work : AsyncWork) : AsyncThreads :=
  match s.shutdown with
  | .closed => {s with crashed := true}
  | _ => {s with pool := s.pool.step (.push s.works.length),works := s.works ++ [work]}

/-- What the thread has to visit, and its variables. -/
def held (s : AsyncThreads) (thread : Nat) : Option (Nat × AsyncWork × ReceiverThread) :=
  match s.pool.threads[thread]? with
  | some (.busy n) =>
    match s.works[n]?,s.receivers[thread]? with
    | some work,some receiver => some (n,work,receiver)
    | _,_ => none
  | _ => none

/-- An item that is not put back is done, or lost when the push fails. -/
def turn (s : AsyncThreads) (thread : Nat) (stream : List UInt8) (world : ReceiverWorld) : AsyncThreads :=
  match s.held thread with
  | none => s
  | some (n,work,receiver) =>
    let visit : ReceiverVisit := ⟨work,stream,world⟩
    let effects := (receiver.visited visit).effects
    {s with
      pool := s.pool.step (if .putBack ∈ effects then .putBack thread else .finish thread)
      receivers := s.receivers.set thread (receiver.step visit)
      turns := s.turns ++ [(n,effects)]}

def step (s : AsyncThreads) (event : AsyncEvent) : AsyncThreads :=
  if s.crashed then s
  else
    match event with
    | .submit work => s.submit work
    | .take thread => {s with pool := s.pool.step (.take thread)}
    | .turn thread stream world => s.turn thread stream world
    | .shutdown => {s with shutdown := s.pool.close s.shutdown}
    | .proceed => {s with pool := (s.pool.proceed s.shutdown).1,shutdown := (s.pool.proceed s.shutdown).2}

/-- An event is a step that a receiver can take. -/
def moves (s : AsyncThreads) : AsyncEvent → Bool
  | .take thread => !s.crashed && s.pool.moves (.take thread)
  | .turn thread _ _ => !s.crashed && s.pool.moves (.finish thread)
  | _ => false

/-- The items that were submitted and are not done. -/
def unfinished (s : AsyncThreads) : List Nat := s.pool.busy ++ s.pool.queue.filterMap id

/-- What holds of the queue and its threads in every state. -/
structure Sound (s : AsyncThreads) : Prop where
  /-- An item is in one place. -/
  once : ∀ n, (s.unfinished ++ s.pool.ended).count n = if n < s.works.length then 1 else 0
  /-- While a receiver is left, `pthread_join` does not wait in vain. -/
  joins : ∀ left, s.shutdown = .joining left → s.pool.goneThreads < s.pool.threads.length →
    ∃ thread, ∀ stream world, s.moves (.take thread) = true ∨ s.moves (.turn thread stream world) = true
  bounded : ∀ left later, s.shutdown = .joining left → counted step moves s later ≤ s.pool.weight
  /-- What `citrusleaf_async_shutdown` leaves was pushed, or put back, behind its last message. -/
  closed : s.shutdown = .closed → s.pool.goneThreads = s.pool.threads.length ∧ (0 < s.pool.threads.length →
    ∃ first last, s.pool.pushed = first ++ none :: last ∧ Pool.signs last = 0 ∧
      ∀ n < s.works.length, n ∈ s.pool.ended ∨ some n ∈ last)

/-- What the visits of an item did in the end. -/
def visitsOf (s : AsyncThreads) (n : Nat) : List (List ReceiverEffect) :=
  (s.turns.filter fun turn => turn.1 = n).map fun turn => turn.2.filter ends

end AsyncThreads

/-- The submitter is told, the node is released, and the item goes to the free pool. -/
inductive Reported (work : AsyncWork) : List ReceiverEffect → Prop where
  | failed (rv : Int) : Reported work [.failCb work.udata rv work.starttime,.nodePut work.node,.poolPut]
  | succeeded (rv : Option Int) : Reported work [.successCb work.udata rv work.starttime,.nodePut work.node,.poolPut]

/-- The visits of an item: it is put back some times, and reported once when it is done. -/
inductive Told (work : AsyncWork) : Bool → List (List ReceiverEffect) → Prop where
  | waits (putBacks : Nat) : Told work false (List.replicate putBacks [.putBack])
  | done (putBacks : Nat) (reported : Reported work effects) : Told work true (List.replicate putBacks [.putBack] ++ [effects])

namespace AsyncThreads
variable {s : AsyncThreads} {thread n : Nat} {work : AsyncWork} {receiver : ReceiverThread}

/-- What a turn finds fits its thread. -/
def Fits (s : AsyncThreads) : AsyncEvent → Prop
  | .turn thread stream world => ∀ n work receiver, s.held thread = some (n,work,receiver) → receiver.Fits ⟨work,stream,world⟩
  | _ => True

/-- Every item is told, and every receiver frees what it allocates. -/
structure Reports (s : AsyncThreads) : Prop where
  told : ∀ n work, s.works[n]? = some work → Told work (s.pool.ended.contains n) (s.visitsOf n)
  accounted : ∀ receiver ∈ s.receivers, receiver.Accounted

/-! ### The queue -/

structure Inv (s : AsyncThreads) : Prop where
  owned : s.pool.Owned s.shutdown
  pushed : ∀ n, (s.pool.pushed.filterMap id).count n = (if n < s.works.length then 1 else 0) + s.pool.returned.count n
  receivers : s.receivers.length = s.pool.threads.length
  crashed : s.crashed = true → s.shutdown = .closed

theorem start_inv (threads : Nat) : Inv (start threads) := by
  refine ⟨Pool.start_owned threads,fun n => ?_,?_,nofun⟩
  · simp [start,Pool.start]
  · simp [start,Pool.start]

theorem Inv.once (inv : Inv s) (n : Nat) : (s.unfinished ++ s.pool.ended).count n = if n < s.works.length then 1 else 0 := by
  have works := inv.owned.kept.works.count_eq n
  rw [inv.pushed] at works
  rw [unfinished]
  simp only [List.count_append] at works ⊢
  omega

/-- A thread that is not idle has an item. -/
theorem Inv.held (inv : Inv s) (there : s.pool.threads[thread]? = some (.busy n)) :
    ∃ work receiver, s.works[n]? = some work ∧ s.receivers[thread]? = some receiver ∧ s.held thread = some (n,work,receiver) := by
  have busy : n ∈ s.unfinished ++ s.pool.ended :=
    List.mem_append_left _ (List.mem_append_left _ (List.mem_filterMap.mpr ⟨_,List.mem_of_getElem? there,rfl⟩))
  have one := List.count_pos_iff.mpr busy
  rw [inv.once] at one
  have submitted : n < s.works.length := by
    by_contra outside
    rw [if_neg outside] at one
    exact Nat.lt_irrefl 0 one
  have inside : thread < s.receivers.length := inv.receivers ▸ (List.getElem?_eq_some_iff.mp there).1
  refine ⟨s.works[n],s.receivers[thread],List.getElem?_eq_getElem submitted,List.getElem?_eq_getElem inside,?_⟩
  rw [AsyncThreads.held,there]
  dsimp only
  rw [List.getElem?_eq_getElem submitted,List.getElem?_eq_getElem inside]

theorem held_cases (held : s.held thread = some (n,work,receiver)) :
    s.pool.threads[thread]? = some (.busy n) ∧ s.works[n]? = some work ∧ s.receivers[thread]? = some receiver := by
  unfold AsyncThreads.held at held
  split at held
  · rename_i there
    split at held
    · rename_i foundWork foundReceiver
      cases held
      exact ⟨there,foundWork,foundReceiver⟩
    · cases held
  · cases held

/-- What a turn does to the queue. -/
theorem turn_pool (held : s.held thread = some (n,work,receiver)) (stream : List UInt8) (world : ReceiverWorld) :
    (.putBack ∈ (receiver.visited ⟨work,stream,world⟩).effects ∧ (s.turn thread stream world).pool = s.pool.step (.putBack thread)) ∨
    (.putBack ∉ (receiver.visited ⟨work,stream,world⟩).effects ∧ (s.turn thread stream world).pool = s.pool.step (.finish thread)) := by
  rw [turn,held]
  dsimp only
  by_cases put : .putBack ∈ (receiver.visited ⟨work,stream,world⟩).effects
  · exact .inl ⟨put,by rw [if_pos put]⟩
  · exact .inr ⟨put,by rw [if_neg put]⟩

theorem putBack_pool (there : s.pool.threads[thread]? = some (.busy n)) : s.pool.step (.putBack thread) =
    ({s.pool with returned := s.pool.returned ++ [n]}.add (some n)).move thread .idle := by
  rw [Pool.step,Pool.putBack,there]

theorem finish_pool (there : s.pool.threads[thread]? = some (.busy n)) : s.pool.step (.finish thread) =
    {s.pool with ended := s.pool.ended ++ [n]}.move thread .idle := by
  rw [Pool.step,Pool.finish,there]

theorem Inv.submit (inv : Inv s) (live : s.crashed = false) (work : AsyncWork) : Inv (s.submit work) := by
  unfold AsyncThreads.submit
  split
  · rename_i closed
    exact ⟨inv.owned,inv.pushed,inv.receivers,fun _ => closed⟩
  · refine ⟨inv.owned.step (.push s.works.length) nofun,fun n => ?_,?_,fun crashed => absurd (live.symm.trans crashed) Bool.false_ne_true⟩
    · have pushed : (s.pool.step (.push s.works.length)).pushed.filterMap id = s.pool.pushed.filterMap id ++ [s.works.length] := by
        rw [Pool.step,Pool.add,List.filterMap_append]
        rfl
      have returned : (s.pool.step (.push s.works.length)).returned = s.pool.returned := rfl
      rw [pushed,returned,List.count_append,inv.pushed,List.length_append,List.length_singleton,List.count_singleton]
      simp only [beq_iff_eq]
      split <;> split <;> split <;> omega
    · exact inv.receivers.trans (s.pool.step_threads _).symm

theorem Inv.turn (inv : Inv s) (live : s.crashed = false) (thread : Nat) (stream : List UInt8) (world : ReceiverWorld) :
    Inv (s.turn thread stream world) := by
  cases held : s.held thread with
  | none =>
    rw [AsyncThreads.turn,held]
    exact inv
  | some found =>
    obtain ⟨n,work,receiver⟩ := found
    obtain ⟨there,_,_⟩ := held_cases held
    have rest : (s.turn thread stream world).works = s.works ∧ (s.turn thread stream world).shutdown = s.shutdown ∧
        (s.turn thread stream world).receivers.length = s.receivers.length ∧ (s.turn thread stream world).crashed = s.crashed := by
      rw [AsyncThreads.turn,held]
      exact ⟨rfl,rfl,List.length_set ..,rfl⟩
    obtain ⟨works,shutdown,receivers,crashed⟩ := rest
    refine ⟨?_,fun m => ?_,?_,fun now => absurd (live.symm.trans (crashed.symm.trans now)) Bool.false_ne_true⟩
    · rw [shutdown]
      rcases turn_pool held stream world with ⟨_,after⟩ | ⟨_,after⟩
      · rw [after]
        exact inv.owned.step _ nofun
      · rw [after]
        exact inv.owned.step _ nofun
    · rw [works]
      rcases turn_pool held stream world with ⟨_,after⟩ | ⟨_,after⟩
      · rw [after,putBack_pool there]
        change ((s.pool.pushed ++ [some n]).filterMap id).count m = _ + (s.pool.returned ++ [n]).count m
        rw [List.filterMap_append,List.count_append,List.count_append,inv.pushed,Nat.add_assoc]
        rfl
      · rw [after,finish_pool there]
        exact inv.pushed m
    · rw [receivers,inv.receivers]
      rcases turn_pool held stream world with ⟨_,after⟩ | ⟨_,after⟩
      · rw [after,Pool.step_threads]
      · rw [after,Pool.step_threads]

theorem Inv.step (inv : Inv s) (event : AsyncEvent) : Inv (s.step event) := by
  unfold AsyncThreads.step
  split
  · exact inv
  · rename_i live
    have live : s.crashed = false := Bool.not_eq_true _ ▸ live
    have still {t : AsyncThreads} (same : t.crashed = s.crashed) (now : t.crashed = true) : t.shutdown = .closed :=
      absurd (live.symm.trans (same.symm.trans now)) Bool.false_ne_true
    cases event with
    | submit work => exact inv.submit live work
    | take thread =>
      obtain ⟨pushed,_,returned⟩ := s.pool.take_history thread
      refine ⟨inv.owned.step (.take thread) nofun,fun n => ?_,inv.receivers.trans (s.pool.step_threads _).symm,still rfl⟩
      change ((s.pool.take thread).pushed.filterMap id).count n = _ + (s.pool.take thread).returned.count n
      rw [pushed,returned]
      exact inv.pushed n
    | turn thread stream world => exact inv.turn live thread stream world
    | shutdown => exact ⟨inv.owned.close,inv.pushed,inv.receivers,still rfl⟩
    | proceed =>
      obtain ⟨works,_,returned,threads⟩ := s.pool.proceed_works s.shutdown
      refine ⟨inv.owned.proceed,fun n => ?_,?_,still rfl⟩
      · rw [works,returned]
        exact inv.pushed n
      · rw [threads]
        exact inv.receivers

/-- A step of a receiver lowers what is left for the receivers to do, and no other step raises it. -/
theorem Inv.weigh (inv : Inv s) (joining : s.shutdown.Joins) (event : AsyncEvent) :
    (s.moves event).toNat + (s.step event).pool.weight = s.pool.weight ∧ (s.step event).shutdown.Joins := by
  have moved (event : PoolEvent Nat) (more : event ≠ .quit) := inv.owned.kept.weight_step (inv.owned.closing joining) event more
  cases crashed : s.crashed with
  | true =>
    have same : s.step event = s := by rw [AsyncThreads.step.eq_def,if_pos crashed]
    have idle : s.moves event = false := by cases event <;> simp [moves,crashed]
    rw [same,idle]
    exact ⟨Nat.zero_add _,joining⟩
  | false =>
    have live : ¬s.crashed = true := by rw [crashed]; exact Bool.false_ne_true
    rw [AsyncThreads.step.eq_def,if_neg live]
    cases event with
    | submit work =>
      have idle : s.moves (.submit work) = false := rfl
      dsimp only
      rw [idle,AsyncThreads.submit]
      split
      · exact ⟨Nat.zero_add _,joining⟩
      · exact ⟨(Nat.zero_add _).trans (moved (.push s.works.length) nofun),joining⟩
    | take thread =>
      rw [moves,crashed,Nat.add_comm]
      exact ⟨moved (.take thread) nofun,joining⟩
    | turn thread stream world =>
      dsimp only
      rw [moves,crashed]
      cases held : s.held thread with
      | none =>
        have stuck : s.pool.moves (.finish thread) = false := by
          rcases s.pool.finish_cases thread with ⟨n,_,there,_⟩ | ⟨stuck,_⟩
          · obtain ⟨_,_,_,_,some⟩ := inv.held there
            cases held.symm.trans some
          · exact stuck
        rw [stuck,AsyncThreads.turn,held]
        exact ⟨Nat.zero_add _,joining⟩
      | some found =>
        obtain ⟨n,work,receiver⟩ := found
        have same : (s.turn thread stream world).shutdown = s.shutdown := by rw [AsyncThreads.turn,held]
        refine ⟨?_,same ▸ joining⟩
        rw [Nat.add_comm]
        rcases turn_pool held stream world with ⟨_,after⟩ | ⟨_,after⟩
        · rw [after]
          exact moved (.putBack thread) nofun
        · rw [after]
          exact moved (.finish thread) nofun
    | shutdown => exact ⟨Nat.zero_add _,Pool.close_joins joining⟩
    | proceed =>
      obtain ⟨joins,same⟩ := s.pool.proceed_joins joining
      exact ⟨(Nat.zero_add _).trans same,joins⟩

theorem Inv.sound (inv : Inv s) : Sound s := by
  refine ⟨inv.once,fun left joining some => ?_,fun left later joining => ?_,fun closed => ?_⟩
  · have live : s.crashed = false := by
      cases crashed : s.crashed with
      | false => rfl
      | true => cases joining.symm.trans (inv.crashed crashed)
    obtain ⟨thread,moves⟩ := inv.owned.kept.moves (inv.owned.closing (.inl ⟨left,joining⟩)) some
    refine ⟨thread,fun stream world => ?_⟩
    rw [AsyncThreads.moves,AsyncThreads.moves,live]
    exact moves
  · refine counted_le (fun s => s.pool.weight) (fun s => Inv s ∧ s.shutdown.Joins) (fun t event here => ?_)
      ⟨inv,.inl ⟨left,joining⟩⟩ later
    obtain ⟨same,joins⟩ := here.1.weigh here.2 event
    exact ⟨Nat.le_of_eq same,here.1.step event,joins⟩
  · have owned := inv.owned
    rw [closed] at owned
    refine ⟨owned.gone,fun some => ?_⟩
    obtain ⟨first,last,parts,noSign,behind⟩ := owned.leaves some
    refine ⟨first,last,parts,noSign,fun n submitted => ?_⟩
    have one := inv.once n
    rw [if_pos submitted,unfinished,Pool.busy_gone owned.gone,List.nil_append] at one
    have member : n ∈ s.pool.queue.filterMap id ++ s.pool.ended := List.count_pos_iff.mp (by omega)
    rcases List.mem_append.mp member with left | ended
    · exact .inr (behind n left)
    · exact .inl ended

/-! ### The items -/

structure Heard (s : AsyncThreads) : Prop where
  told : ∀ n work, s.works[n]? = some work → Told work (s.pool.ended.contains n) (s.visitsOf n)
  turns : ∀ turn ∈ s.turns, turn.1 < s.works.length
  receivers : ∀ receiver ∈ s.receivers, receiver.Sound

theorem start_heard (threads : Nat) : Heard (start threads) := by
  refine ⟨nofun,nofun,fun receiver member => ?_⟩
  rw [List.eq_of_mem_replicate member]
  exact ReceiverThread.start_sound

/-- Nothing has happened to an item that is not submitted yet. -/
theorem Heard.fresh (heard : Heard s) : s.visitsOf s.works.length = [] := by
  refine List.map_eq_nil_iff.mpr (List.filter_eq_nil_iff.mpr fun turn member => ?_)
  have inside := heard.turns turn member
  simpa using Nat.ne_of_lt inside

theorem Inv.unended (inv : Inv s) (one : 0 < s.unfinished.count n ∨ s.works.length ≤ n) : s.pool.ended.contains n = false := by
  have placed := inv.once n
  rw [List.count_append] at placed
  have none : s.pool.ended.count n = 0 := by
    rcases one with there | outside
    · split at placed <;> omega
    · rw [if_neg (Nat.not_lt.mpr outside)] at placed
      omega
  simpa using List.count_eq_zero.mp none

/-- In a turn that fits, the item is put back, or its submitter is told. -/
theorem visited_told {visit : ReceiverVisit} (fits : receiver.Fits visit) :
    (.putBack ∈ (receiver.visited visit).effects → (receiver.visited visit).effects.filter ends = [.putBack]) ∧
    (.putBack ∉ (receiver.visited visit).effects → Reported visit.work ((receiver.visited visit).effects.filter ends)) := by
  have ended := fits.good.1
  have same : .putBack ∈ (receiver.visited visit).effects.filter ends ↔ .putBack ∈ (receiver.visited visit).effects := by
    rw [List.mem_filter]
    exact and_iff_left rfl
  rw [← same]
  generalize (receiver.visited visit).effects.filter ends = effects at ended
  cases ended with
  | putBack => exact ⟨fun _ => rfl,fun other => absurd (List.mem_singleton.mpr rfl) other⟩
  | failed rv => exact ⟨fun member => absurd member (by simp),fun _ => .failed rv⟩
  | succeeded rv => exact ⟨fun member => absurd member (by simp),fun _ => .succeeded rv⟩

theorem Told.putBack (told : Told work false visits) : Told work false (visits ++ [[.putBack]]) := by
  cases told with
  | waits putBacks =>
    rw [← List.replicate_succ']
    exact .waits (putBacks + 1)

theorem Told.report (told : Told work false visits) (reported : Reported work effects) : Told work true (visits ++ [effects]) := by
  cases told with
  | waits putBacks => exact .done putBacks reported

theorem Heard.submit (heard : Heard s) (inv : Inv s) (work : AsyncWork) : Heard (s.submit work) := by
  unfold AsyncThreads.submit
  split
  · exact ⟨heard.told,heard.turns,heard.receivers⟩
  · refine ⟨fun n other found => ?_,fun turn member => ?_,heard.receivers⟩
    · change Told other (s.pool.ended.contains n) (s.visitsOf n)
      rcases Nat.lt_trichotomy n s.works.length with old | rfl | outside
      · rw [List.getElem?_append_left old] at found
        exact heard.told n other found
      · rw [inv.unended (.inr (Nat.le_refl _)),heard.fresh]
        exact .waits 0
      · rw [List.getElem?_eq_none_iff.mpr (by rw [List.length_append]; exact outside)] at found
        cases found
    · rw [List.length_append]
      exact Nat.lt_add_right 1 (heard.turns turn member)

theorem Heard.turn (heard : Heard s) (inv : Inv s) (stream : List UInt8) (world : ReceiverWorld)
    (fits : s.Fits (.turn thread stream world)) : Heard (s.turn thread stream world) := by
  cases held : s.held thread with
  | none =>
    rw [AsyncThreads.turn,held]
    exact heard
  | some found =>
    obtain ⟨n,work,receiver⟩ := found
    obtain ⟨there,submitted,found⟩ := held_cases held
    have fits := fits n work receiver held
    have inside := (List.getElem?_eq_some_iff.mp submitted).1
    have works : (s.turn thread stream world).works = s.works := by rw [AsyncThreads.turn,held]
    have turns : (s.turn thread stream world).turns = s.turns ++ [(n,(receiver.visited ⟨work,stream,world⟩).effects)] := by
      rw [AsyncThreads.turn,held]
    have receivers : (s.turn thread stream world).receivers = s.receivers.set thread (receiver.step ⟨work,stream,world⟩) := by
      rw [AsyncThreads.turn,held]
    have busy : 0 < s.unfinished.count n :=
      List.count_pos_iff.mpr (List.mem_append_left _ (List.mem_filterMap.mpr ⟨_,List.mem_of_getElem? there,rfl⟩))
    have before := heard.told n work submitted
    rw [inv.unended (.inl busy)] at before
    obtain ⟨puts,reports⟩ := visited_told fits
    refine ⟨fun m other known => ?_,fun turn member => ?_,fun thread member => ?_⟩
    · rw [works] at known
      by_cases here : m = n
      · subst here
        obtain rfl := Option.some.inj (submitted.symm.trans known)
        have visits : (s.turn thread stream world).visitsOf m =
            s.visitsOf m ++ [(receiver.visited ⟨work,stream,world⟩).effects.filter ends] := by
          rw [visitsOf,visitsOf,turns]
          simp
        rw [visits]
        rcases turn_pool held stream world with ⟨put,after⟩ | ⟨done,after⟩
        · rw [after,putBack_pool there,puts put]
          change Told work (s.pool.ended.contains m) _
          rw [inv.unended (.inl busy)]
          exact Told.putBack before
        · rw [after,finish_pool there]
          have ended : (s.pool.ended ++ [m]).contains m = true := by simp
          change Told work ((s.pool.ended ++ [m]).contains m) _
          rw [ended]
          exact Told.report before (reports done)
      · have visits : (s.turn thread stream world).visitsOf m = s.visitsOf m := by
          rw [visitsOf,visitsOf,turns]
          simp [Ne.symm here]
        have ended : (s.turn thread stream world).pool.ended.contains m = s.pool.ended.contains m := by
          rcases turn_pool held stream world with ⟨_,after⟩ | ⟨_,after⟩
          · rw [after,putBack_pool there]
            rfl
          · rw [after,finish_pool there]
            change (s.pool.ended ++ [n]).contains m = _
            simp [here]
        rw [visits,ended]
        exact heard.told m other known
    · rw [turns] at member
      rw [works]
      rcases List.mem_append.mp member with old | new
      · exact heard.turns turn old
      · rw [List.mem_singleton.mp new]
        exact inside
    · rw [receivers] at member
      rcases List.mem_or_eq_of_mem_set member with old | rfl
      · exact heard.receivers thread old
      · exact (heard.receivers receiver (List.mem_of_getElem? found)).step fits

theorem Heard.step (heard : Heard s) (inv : Inv s) (event : AsyncEvent) (fits : s.Fits event) : Heard (s.step event) := by
  unfold AsyncThreads.step
  split
  · exact heard
  · cases event with
    | submit work => exact heard.submit inv work
    | take thread =>
      obtain ⟨_,ended,_⟩ := s.pool.take_history thread
      refine ⟨fun n work found => ?_,heard.turns,heard.receivers⟩
      change Told work ((s.pool.take thread).ended.contains n) (s.visitsOf n)
      rw [ended]
      exact heard.told n work found
    | turn thread stream world => exact heard.turn inv stream world fits
    | shutdown => exact ⟨heard.told,heard.turns,heard.receivers⟩
    | proceed =>
      obtain ⟨_,ended,_⟩ := s.pool.proceed_works s.shutdown
      refine ⟨fun n work found => ?_,heard.turns,heard.receivers⟩
      change Told work ((s.pool.proceed s.shutdown).1.ended.contains n) (s.visitsOf n)
      rw [ended]
      exact heard.told n work found

/-- Two items: one whose response has no body, and one whose response does not come. -/
def sampleAsyncEvents : List AsyncEvent :=
  [.submit ⟨0,0,0,5,0⟩,.submit ⟨0,0,1,6,1⟩,.take 0,.take 1,
    .turn 0 ([2,3,0,0,0,0,0,22,22] ++ List.replicate 21 0) (sampleVisit []).world,.turn 1 [] (sampleVisit []).world]

end AsyncThreads
end Citrusleaf.AsyncQueue
