import Citrusleaf.CfQueueFifo
import Citrusleaf.Lib.Runs
import Citrusleaf.Lib.Workers

/-! Threads that call `cf_queue_push` and `cf_queue_pop` with `CF_QUEUE_FOREVER` on one thread-safe
queue. A step is what a thread does between taking the lock of the queue and giving it back,
which `pthread_cond_wait` does too; allocations succeed. -/
namespace Citrusleaf
open Lib

inductive QueueThread where
  | outside
  /-- In `pthread_cond_wait`, and not signalled. -/
  | waiting
  /-- Woken, and still to take the lock. -/
  | woken
  deriving DecidableEq

def QueueThread.isWoken : QueueThread → Bool
  | woken => true
  | _ => false

def QueueThread.wake (threads : List QueueThread) (thread : Nat) : List QueueThread :=
  if threads[thread]? = some .waiting then threads.set thread .woken else threads

/-- `pthread_cond_signal`, which reaches some threads. -/
def QueueThread.signal (threads : List QueueThread) (woken : List Nat) : List QueueThread := woken.foldl wake threads

/-- What a queue does under its lock: push, and pop where `none` stands for an empty queue. -/
structure QueueOps (κ α β : Type) where
  push : κ → α → κ
  pop : κ → Option β × κ

/-- The ring of cf_queue.c. -/
def cfQueueOps (elementsz : Nat) (malloc : Malloc) : QueueOps (CfQueue elementsz) (Element elementsz) (List UInt8) where
  push q ptr := ((cfQueuePush malloc q ptr).map Prod.snd).getD q
  pop q := ((cfQueuePop q).map Prod.snd).getD (none,q)

/-- A list, with `Fifo`. -/
def fifoOps (α : Type) : QueueOps (List α) α α := ⟨Fifo.push,Fifo.pop⟩

/-- The queue, the threads, and what was pushed and popped so far, in order. -/
structure QueueThreads (κ α β : Type) where
  queue : κ
  threads : List QueueThread
  pushed : List α
  popped : List β

inductive QueueThreadEvent (α : Type) where
  /-- A push, whose signal wakes some threads. -/
  | push (thread : Nat) (e : α) (woken : List Nat)
  | pop (thread : Nat)
  /-- A woken thread gets the lock and looks at the queue again. -/
  | run (thread : Nat)
  | spurious (thread : Nat)

namespace QueueThreads

variable {κ α β : Type}

def start (queue : κ) (threads : Nat) : QueueThreads κ α β := ⟨queue,List.replicate threads .outside,[],[]⟩

def move (s : QueueThreads κ α β) (thread : Nat) (new : QueueThread) : QueueThreads κ α β :=
  {s with threads := s.threads.set thread new}

/-- A signal wakes at least one thread if one waits. -/
def Wakes (s : QueueThreads κ α β) (woken : List Nat) : Prop :=
  .waiting ∈ s.threads → ∃ i ∈ woken, s.threads[i]? = some .waiting

instance : Decidable (Wakes s woken) := inferInstanceAs (Decidable (_ → _))

/-- The loop of `cf_queue_pop`, up to its wait or its end. -/
def take (ops : QueueOps κ α β) (s : QueueThreads κ α β) (thread : Nat) : QueueThreads κ α β :=
  match ops.pop s.queue with
  | (none,_) => s.move thread .waiting
  | (some e,queue) => {s.move thread .outside with queue,popped := s.popped ++ [e]}

def step (ops : QueueOps κ α β) (s : QueueThreads κ α β) : QueueThreadEvent α → QueueThreads κ α β
  | .push thread e woken =>
    if s.threads[thread]? = some .outside ∧ s.Wakes woken then
      {s with queue := ops.push s.queue e,threads := QueueThread.signal s.threads woken,pushed := s.pushed ++ [e]}
    else s
  | .pop thread => if s.threads[thread]? = some .outside then s.take ops thread else s
  | .run thread => if s.threads[thread]? = some .woken then s.take ops thread else s
  | .spurious thread => {s with threads := QueueThread.wake s.threads thread}

/-- What is popped was pushed first, in that order, and where an element is left and a thread waits,
a woken one has yet to run. -/
structure HandsOver (value : α → β) (empty : κ → Prop) (s : QueueThreads κ α β) : Prop where
  pops : s.popped <+: s.pushed.map value
  wakes : ¬empty s.queue → .waiting ∈ s.threads → .woken ∈ s.threads

end QueueThreads

/-! ### Signals -/

namespace QueueThread

variable {threads : List QueueThread} {thread : Nat}

/-- The threads that are woken and still to run. -/
def count (threads : List QueueThread) : Nat := threads.countP isWoken

theorem mem_woken : woken ∈ threads ↔ 0 < count threads := by
  rw [count,List.countP_pos_iff]
  constructor
  · intro member
    exact ⟨woken,member,rfl⟩
  · rintro ⟨t,member,is⟩
    cases t with
    | woken => exact member
    | outside | waiting => cases is

theorem wake_count (there : threads[thread]? = some waiting) : count (wake threads thread) = count threads + 1 := by
  rw [wake,if_pos there]
  exact countP_moved isWoken there woken

/-- Waking makes no thread wait, and lets none sleep on. -/
theorem wake_keeps (threads : List QueueThread) (thread : Nat) :
    (waiting ∈ wake threads thread → waiting ∈ threads) ∧ count threads ≤ count (wake threads thread) := by
  by_cases there : threads[thread]? = some waiting
  · refine ⟨fun member => ?_,by rw [wake_count there]; exact Nat.le_succ _⟩
    rw [wake,if_pos there] at member
    exact (List.mem_or_eq_of_mem_set member).resolve_right nofun
  · rw [wake,if_neg there]
    exact ⟨id,Nat.le_refl _⟩

theorem signal_keeps (threads : List QueueThread) (woken : List Nat) :
    (waiting ∈ signal threads woken → waiting ∈ threads) ∧ count threads ≤ count (signal threads woken) := by
  induction woken generalizing threads with
  | nil => exact ⟨id,Nat.le_refl _⟩
  | cons thread woken ih =>
    obtain ⟨waits,counts⟩ := wake_keeps threads thread
    obtain ⟨later,more⟩ := ih (wake threads thread)
    exact ⟨fun member => waits (later member),Nat.le_trans counts more⟩

/-- A signal that reaches a thread that waits. -/
theorem signal_count {woken : List Nat} (reached : ∃ i ∈ woken, threads[i]? = some waiting) :
    count threads < count (signal threads woken) := by
  induction woken generalizing threads with
  | nil =>
    obtain ⟨i,none,_⟩ := reached
    cases none
  | cons thread woken ih =>
    change count threads < count (signal (wake threads thread) woken)
    by_cases first : threads[thread]? = some waiting
    · have more := wake_count first
      have rest := (signal_keeps (wake threads thread) woken).2
      omega
    · rw [wake,if_neg first]
      refine ih ?_
      obtain ⟨i,member,there⟩ := reached
      exact ⟨i,(List.mem_cons.mp member).resolve_left fun same => first (same ▸ there),there⟩

end QueueThread

/-! ### The list -/

namespace QueueThreads

variable {s : QueueThreads (List α) α α} {thread : Nat} {old : QueueThread}

/-- While a thread waits there are as many woken ones as elements. -/
structure Inv (s : QueueThreads (List α) α α) : Prop where
  parts : s.popped ++ s.queue = s.pushed
  enough : .waiting ∈ s.threads → s.queue.length ≤ QueueThread.count s.threads

theorem Inv.wakes (inv : Inv s) (left : s.queue ≠ []) (waits : .waiting ∈ s.threads) : .woken ∈ s.threads :=
  QueueThread.mem_woken.mpr (Nat.lt_of_lt_of_le (List.length_pos_iff.mpr left) (inv.enough waits))

theorem take_nil (left : s.queue = []) : s.take (fifoOps α) thread = s.move thread .waiting := by
  rw [take,left]
  rfl

theorem take_cons {e : α} {rest : List α} (left : s.queue = e :: rest) :
    s.take (fifoOps α) thread = {s.move thread .outside with queue := rest,popped := s.popped ++ [e]} := by
  rw [take,left]
  rfl

/-- A thread that has the lock takes an element, or waits on an empty queue. -/
theorem Inv.take (inv : Inv s) (there : s.threads[thread]? = some old) : Inv (s.take (fifoOps α) thread) := by
  have parts := inv.parts
  cases left : s.queue with
  | nil =>
    rw [take_nil left]
    refine ⟨parts,fun _ => ?_⟩
    rw [show (s.move thread .waiting).queue = [] from left]
    exact Nat.zero_le _
  | cons e rest =>
    rw [take_cons left]
    rw [left] at parts
    refine ⟨(List.append_assoc ..).trans parts,fun waits => ?_⟩
    have enough := inv.enough ((List.mem_or_eq_of_mem_set waits).resolve_right nofun)
    have moved : QueueThread.count (s.threads.set thread .outside) + old.isWoken.toNat = QueueThread.count s.threads :=
      countP_moved _ there .outside
    have one := old.isWoken.toNat_le
    rw [left,List.length_cons] at enough
    change rest.length ≤ QueueThread.count (s.threads.set thread .outside)
    omega

/-- A push brings one element, and wakes a thread more if one waits. -/
theorem Inv.push (inv : Inv s) (e : α) {woken : List Nat} (wakes : s.Wakes woken) :
    Inv {s with queue := Fifo.push s.queue e,threads := QueueThread.signal s.threads woken,pushed := s.pushed ++ [e]} := by
  refine ⟨?_,fun waits => ?_⟩
  · change s.popped ++ (s.queue ++ [e]) = s.pushed ++ [e]
    rw [← List.append_assoc,inv.parts]
  · have before : .waiting ∈ s.threads := (QueueThread.signal_keeps s.threads woken).1 waits
    have enough := inv.enough before
    have more := QueueThread.signal_count (wakes before)
    change (s.queue ++ [e]).length ≤ QueueThread.count (QueueThread.signal s.threads woken)
    rw [List.length_append,List.length_singleton]
    omega

theorem Inv.step (inv : Inv s) (event : QueueThreadEvent α) : Inv (s.step (fifoOps α) event) := by
  cases event with
  | push thread e woken =>
    rw [QueueThreads.step]
    split
    · rename_i calls
      exact inv.push e calls.2
    · exact inv
  | pop thread =>
    rw [QueueThreads.step]
    split
    · rename_i there
      exact inv.take there
    · exact inv
  | run thread =>
    rw [QueueThreads.step]
    split
    · rename_i there
      exact inv.take there
    · exact inv
  | spurious thread =>
    obtain ⟨waits,counts⟩ := QueueThread.wake_keeps s.threads thread
    exact ⟨inv.parts,fun member => Nat.le_trans (inv.enough (waits member)) counts⟩

theorem start_inv (threads : Nat) : Inv (start ([] : List α) threads) :=
  ⟨rfl,fun waits => nomatch List.eq_of_mem_replicate waits⟩

/-! ### The ring -/

/-- The ring holds the elements of a list, and the threads are where they are with the list. -/
structure Follows (r : QueueThreads (CfQueue elementsz) (Element elementsz) (List UInt8))
    (s : QueueThreads (List (Element elementsz)) (Element elementsz) (Element elementsz)) : Prop where
  queue : r.queue.Ready s.queue
  threads : r.threads = s.threads
  pushed : r.pushed = s.pushed
  popped : r.popped = s.popped.map Vector.toList

variable {r : QueueThreads (CfQueue elementsz) (Element elementsz) (List UInt8)}
  {t : QueueThreads (List (Element elementsz)) (Element elementsz) (Element elementsz)} {malloc : Malloc}

theorem Follows.take (follows : Follows r t) (thread : Nat) :
    Follows (r.take (cfQueueOps elementsz malloc) thread) (t.take (fifoOps _) thread) := by
  obtain ⟨after,popped,ready,_⟩ := CfQueue.pop_holds follows.queue
  have threads (new : QueueThread) : (r.move thread new).threads = (t.move thread new).threads := by
    rw [move,move,follows.threads]
  rw [QueueThreads.take,cfQueueOps]
  dsimp only
  rw [popped]
  cases left : t.queue with
  | nil =>
    rw [take_nil left]
    exact ⟨follows.queue,threads .waiting,follows.pushed,follows.popped⟩
  | cons e rest =>
    rw [take_cons left]
    rw [left] at ready
    refine ⟨ready,threads .outside,follows.pushed,?_⟩
    change r.popped ++ [e.toList] = (t.popped ++ [e]).map Vector.toList
    rw [List.map_append,follows.popped]
    rfl

/-- While the ring is small, its threads follow those with the list. -/
theorem Follows.step (gives : ∀ n, (malloc n).isSome) (positive : 0 < elementsz) (follows : Follows r t)
    (small : r.queue.allocsz * elementsz < 2 ^ 30) (event : QueueThreadEvent (Element elementsz)) :
    Follows (r.step (cfQueueOps elementsz malloc) event) (t.step (fifoOps _) event) := by
  have less : r.queue.allocsz < 2 ^ 30 := Nat.lt_of_le_of_lt (Nat.le_mul_of_pos_right _ positive) small
  cases event with
  | push thread e woken =>
    obtain ⟨after,pushed,ready,_⟩ := CfQueue.push_holds gives follows.queue small less e
    have same : (cfQueueOps elementsz malloc).push r.queue e = after := by
      rw [cfQueueOps]
      dsimp only
      rw [pushed]
      rfl
    have wakes : r.Wakes woken ↔ t.Wakes woken := by
      rw [Wakes,Wakes,follows.threads]
    have calls := and_congr_right fun _ : t.threads[thread]? = some .outside => wakes
    rw [QueueThreads.step,QueueThreads.step,follows.threads]
    by_cases called : t.threads[thread]? = some .outside ∧ t.Wakes woken
    · rw [if_pos called,if_pos (calls.mpr called),same]
      exact ⟨ready,rfl,congrArg (· ++ [e]) follows.pushed,follows.popped⟩
    · rw [if_neg called,if_neg fun ring => called (calls.mp ring)]
      exact follows
  | pop thread =>
    rw [QueueThreads.step,QueueThreads.step,follows.threads]
    split
    · exact follows.take thread
    · exact follows
  | run thread =>
    rw [QueueThreads.step,QueueThreads.step,follows.threads]
    split
    · exact follows.take thread
    · exact follows
  | spurious thread =>
    exact ⟨follows.queue,congrArg (QueueThread.wake · thread) follows.threads,follows.pushed,follows.popped⟩

theorem Follows.handsOver (follows : Follows r t) (inv : Inv t) : HandsOver Vector.toList (fun q => q.empty = true) r := by
  constructor
  · rw [follows.popped,follows.pushed,← inv.parts,List.map_append]
    exact List.prefix_append _ _
  · intro left waits
    rw [follows.threads] at waits ⊢
    exact inv.wakes (fun none => left (follows.queue.empty.mpr none)) waits

theorem Follows.always (gives : ∀ n, (malloc n).isSome) (positive : 0 < elementsz) (follows : Follows r t) (inv : Inv t)
    (events : List (QueueThreadEvent (Element elementsz)))
    (small : Guarded (QueueThreads.step (cfQueueOps elementsz malloc)) (fun s _ => s.queue.allocsz * elementsz < 2 ^ 30) r events) :
    Always (QueueThreads.step (cfQueueOps elementsz malloc)) (HandsOver Vector.toList fun q => q.empty = true) r events := by
  induction events generalizing r t with
  | nil => exact follows.handsOver inv
  | cons event events ih =>
    obtain ⟨now,later⟩ := small
    exact ⟨follows.handsOver inv,ih (follows.step gives positive now event) (inv.step event) later⟩

end QueueThreads

/-- In every run, pops hand over a prefix of what was pushed, in order, and where an element is left
and a thread waits unsignalled, a woken one has yet to run. It is so with a queue that grows
without bound, and with the ring of cf_queue.c as long as its bytes are less than 2 ^ 30. -/
theorem queue_hands_over :
    (∀ (α : Type) (threads : Nat) (events : List (QueueThreadEvent α)),
      Always (QueueThreads.step (fifoOps α)) (QueueThreads.HandsOver id fun l => l = []) (.start [] threads) events) ∧
    ∀ (elementsz : Nat) (malloc : Malloc) (q : CfQueue elementsz) (threads : Nat) (events : List (QueueThreadEvent (Element elementsz))),
      (∀ n, (malloc n).isSome) → 0 < elementsz → cfQueueCreate elementsz malloc = some q →
      Guarded (QueueThreads.step (cfQueueOps elementsz malloc)) (fun s _ => s.queue.allocsz * elementsz < 2 ^ 30) (.start q threads)
        events →
      Always (QueueThreads.step (cfQueueOps elementsz malloc)) (QueueThreads.HandsOver Vector.toList fun q => q.empty = true)
        (.start q threads) events := by
  refine ⟨fun α threads events => ?_,fun elementsz malloc q threads events gives positive created small => ?_⟩
  · have kept (s : QueueThreads (List α) α α) (event : QueueThreadEvent α) (inv : s.Inv) : (s.step (fifoOps α) event).Inv :=
      inv.step event
    refine (always_iff _ _ _ _).mpr fun first _ _ => ?_
    have inv := run_invariant kept (QueueThreads.start_inv threads) first
    refine ⟨?_,inv.wakes⟩
    rw [List.map_id]
    exact ⟨_,inv.parts⟩
  · obtain ⟨new,given,ready⟩ := @CfQueue.create_holds elementsz malloc gives
    obtain rfl := Option.some.inj (given.symm.trans created)
    have follows : QueueThreads.Follows (.start new threads) (.start [] threads) := ⟨ready,rfl,rfl,rfl⟩
    exact follows.always gives positive (QueueThreads.start_inv threads) events small

end Citrusleaf
