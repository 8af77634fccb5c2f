import Citrusleaf.Lib.Runs
import Mathlib.Algebra.Ring.Nat
import Mathlib.Data.List.Perm.Basic

/-! Worker threads that take work from one queue and call a callback for each record of it.
The steps of a callback are those on the state that the threads share, in any order between
threads. A fact about the callbacks under way and the records still to come holds in every
run once a call and a step of a callback keep it. -/
namespace Citrusleaf.Lib

/-- Where a call of the callback starts, and its next step from a place. A step goes to another
place or returns; `none` is a step that cannot be taken. -/
structure Callback (ρ γ σ ε : Type) where
  enter : ρ → γ
  step : ε → σ → γ → Option (σ × Option γ)

inductive Worker (ρ γ : Type) where
  | waiting
  | working (records : List ρ)
  | calling (place : γ) (records : List ρ)

structure Workers (ρ γ σ : Type) where
  queue : List (List ρ)
  workers : List (Worker ρ γ)
  complete : Nat
  shared : σ

variable {ρ γ σ ε : Type}

def Workers.start (works : List (List ρ)) (threads : Nat) (shared : σ) : Workers ρ γ σ :=
  ⟨works,List.replicate threads .waiting,0,shared⟩

namespace Worker

def afterStep (records : List ρ) : Option γ → Worker ρ γ
  | none => working records
  | some place => calling place records

def place : Worker ρ γ → Option γ
  | calling place _ => some place
  | _ => none

/-- The records a worker has left. -/
def records : Worker ρ γ → List ρ
  | waiting => []
  | working records => records
  | calling _ records => records

def busy : Worker ρ γ → Bool
  | waiting => false
  | _ => true

end Worker

/-- A step of one thread. A thread that cannot move stays where it is. -/
def Callback.move (callback : Callback ρ γ σ ε) (s : Workers ρ γ σ) (event : Nat × ε) : Workers ρ γ σ :=
  match s.workers[event.1]? with
  | none => s
  | some .waiting =>
    match s.queue with
    | [] => s
    | work :: queue => {s with queue,workers := s.workers.set event.1 (.working work)}
  | some (.working []) => {s with complete := s.complete + 1,workers := s.workers.set event.1 .waiting}
  | some (.working (r :: records)) => {s with workers := s.workers.set event.1 (.calling (callback.enter r) records)}
  | some (.calling place records) =>
    match callback.step event.2 s.shared place with
    | none => s
    | some (shared,next) => {s with shared,workers := s.workers.set event.1 (.afterStep records next)}

/-! ### One of several threads -/

variable {τ : Type} {threads others : List τ} {thread : τ} {i : Nat}

/-- A thread and the others. -/
theorem thread_perm (there : threads[i]? = some thread) : threads.Perm (thread :: threads.eraseIdx i) := by
  obtain ⟨inside,rfl⟩ := List.getElem?_eq_some_iff.mp there
  exact (List.getElem_cons_eraseIdx_perm inside).symm

/-- A thread that moves, and the others. -/
theorem moved_perm (there : threads[i]? = some thread) (moved : τ) :
    (threads.set i moved).Perm (moved :: threads.eraseIdx i) :=
  List.set_perm_cons_eraseIdx (List.getElem?_eq_some_iff.mp there).1 moved

theorem filterMap_cons_perm {β : Type} (f : τ → Option β) (same : threads.Perm (thread :: others)) :
    (threads.filterMap f).Perm ((f thread).toList ++ others.filterMap f) := by
  have mapped := same.filterMap f
  rw [List.filterMap_cons] at mapped
  cases given : f thread <;> simpa [given] using mapped

theorem countP_cons_perm (p : τ → Bool) (same : threads.Perm (thread :: others)) :
    threads.countP p = others.countP p + (p thread).toNat := by
  rw [same.countP_eq p,List.countP_cons]
  cases p thread <;> rfl

theorem countP_moved (p : τ → Bool) (there : threads[i]? = some thread) (moved : τ) :
    (threads.set i moved).countP p + (p thread).toNat = threads.countP p + (p moved).toNat := by
  have before := countP_cons_perm p (thread_perm there)
  have after := countP_cons_perm p (moved_perm there moved)
  omega

/-- A sum over the threads, where one of them moves. -/
theorem sum_moved (f : τ → Nat) (there : threads[i]? = some thread) (moved : τ) :
    ((threads.set i moved).map f).sum + f thread = (threads.map f).sum + f moved := by
  have before := ((thread_perm there).map f).sum_nat
  have after := ((moved_perm there moved).map f).sum_nat
  rw [List.map_cons,List.sum_cons] at before after
  omega

/-! ### Facts about the callbacks under way -/

namespace Workers

/-- The callbacks under way. -/
def places (s : Workers ρ γ σ) : List γ := s.workers.filterMap Worker.place

/-- The records to come, of a worker or on the queue. -/
def rest (s : Workers ρ γ σ) : List ρ := s.workers.flatMap Worker.records ++ s.queue.flatten

end Workers

/-- A fact about the shared state, the callbacks under way and the records to come, both in no
order, that calls and allowed steps of callbacks keep. -/
structure Callback.Keeps (callback : Callback ρ γ σ ε) (allowed : ε → Prop) (fact : σ → List γ → List ρ → Prop) : Prop where
  perm : ∀ {shared places places' rest rest'},
    fact shared places rest → places.Perm places' → rest.Perm rest' → fact shared places' rest'
  enter : ∀ {shared places r rest},
    fact shared places (r :: rest) → fact shared (callback.enter r :: places) rest
  step : ∀ {shared place places rest event shared' next},
    fact shared (place :: places) rest → allowed event → callback.step event shared place = some (shared',next) →
    fact shared' (next.toList ++ places) rest

variable {callback : Callback ρ γ σ ε} {allowed : ε → Prop} {fact : σ → List γ → List ρ → Prop} {s : Workers ρ γ σ}
  {works : List (List ρ)}

/-- The places and the records to come, with those of one worker apart. -/
theorem places_perm {workers : List (Worker ρ γ)} (same : s.workers.Perm (worker :: workers)) :
    s.places.Perm (worker.place.toList ++ workers.filterMap Worker.place) ∧
      s.rest.Perm (worker.records ++ (workers.flatMap Worker.records ++ s.queue.flatten)) := by
  constructor
  · exact filterMap_cons_perm Worker.place same
  · have records := (same.flatMap_right Worker.records).append_right s.queue.flatten
    rwa [List.flatMap_cons,List.append_assoc] at records

theorem Callback.Keeps.move (keeps : callback.Keeps allowed fact) (holds : fact s.shared s.places s.rest)
    {event : Nat × ε} (allow : allowed event.2) : fact (callback.move s event).shared (callback.move s event).places (callback.move s event).rest := by
  -- where worker `old` goes on as `new`, only their places and records differ
  have moved {old : Worker ρ γ} (there : s.workers[event.1]? = some old) (new : Worker ρ γ) {t : Workers ρ γ σ}
      (workers : t.workers = s.workers.set event.1 new)
      (change : ∀ places rest, fact s.shared (old.place.toList ++ places) (old.records ++ (rest ++ s.queue.flatten)) →
        fact t.shared (new.place.toList ++ places) (new.records ++ (rest ++ t.queue.flatten))) :
      fact t.shared t.places t.rest := by
    obtain ⟨places,rest⟩ := places_perm (thread_perm there)
    obtain ⟨places',rest'⟩ := places_perm (workers ▸ moved_perm there new)
    exact keeps.perm (change _ _ (keeps.perm holds places rest)) places'.symm rest'.symm
  rw [Callback.move]
  split
  · exact holds
  · rename_i there
    split
    · exact holds
    · rename_i work queue waiting
      refine moved there (.working work) rfl fun places rest holds => ?_
      rw [waiting,List.flatten_cons] at holds
      exact keeps.perm holds (List.Perm.refl _) (List.perm_append_comm_assoc rest work queue.flatten)
  · rename_i there
    exact moved there .waiting rfl fun _ _ => id
  · rename_i r records there
    exact moved there (.calling (callback.enter r) records) rfl fun _ _ => keeps.enter
  · rename_i place records there
    split
    · exact holds
    · rename_i shared next taken
      refine moved there (.afterStep records next) rfl fun places rest holds => ?_
      have stepped := keeps.step holds allow taken
      cases next <;> exact stepped

/-- Each work is on the queue, at a worker or through. -/
def Counts (works : List (List ρ)) (s : Workers ρ γ σ) : Prop :=
  s.complete + s.queue.length + s.workers.countP Worker.busy = works.length

theorem move_counts (counts : Counts works s) (event : Nat × ε) : Counts works (callback.move s event) := by
  have moved {old : Worker ρ γ} (there : s.workers[event.1]? = some old) (new : Worker ρ γ) {t : Workers ρ γ σ}
      (workers : t.workers = s.workers.set event.1 new)
      (change : t.complete + t.queue.length + new.busy.toNat = s.complete + s.queue.length + old.busy.toNat) :
      Counts works t := by
    have before := countP_cons_perm Worker.busy (thread_perm there)
    have after := countP_cons_perm Worker.busy (moved_perm there new)
    rw [Counts] at counts
    rw [Counts,workers]
    omega
  rw [Callback.move]
  split
  · exact counts
  · rename_i there
    split
    · exact counts
    · rename_i work queue waiting
      refine moved there (.working work) rfl ?_
      rw [waiting]
      exact (Nat.add_assoc ..).trans (congrArg _ rfl)
  · rename_i there
    refine moved there .waiting rfl ?_
    simp only [Worker.busy,Bool.toNat_true,Bool.toNat_false]
    omega
  · rename_i r records there
    exact moved there (.calling (callback.enter r) records) rfl rfl
  · rename_i place records there
    split
    · exact counts
    · rename_i shared next _
      refine moved there (.afterStep records next) rfl ?_
      cases next <;> rfl

theorem Callback.Keeps.moves (keeps : callback.Keeps allowed fact) (holds : fact s.shared s.places s.rest)
    (counts : Counts works s) {events : List (Nat × ε)} (allow : ∀ event ∈ events, allowed event.2) :
    let after := run callback.move s events
    fact after.shared after.places after.rest ∧ Counts works after := by
  induction events generalizing s with
  | nil => exact ⟨holds,counts⟩
  | cons event events ih =>
    obtain ⟨now,later⟩ := List.forall_mem_cons.mp allow
    exact ih (keeps.move holds now) (move_counts counts event) later

/-- What holds of all records before any work is taken holds in every run of it. -/
theorem Callback.Keeps.run (keeps : callback.Keeps allowed fact) (threads : Nat) {shared : σ}
    (start : fact shared [] works.flatten) {events : List (Nat × ε)} (allow : ∀ event ∈ events, allowed event.2) :
    let s := run callback.move (.start works threads shared) events
    fact s.shared s.places s.rest ∧ Counts works s := by
  refine keeps.moves ?_ ?_ allow
  · have places : (Workers.start works threads shared : Workers ρ γ σ).places = [] := List.filterMap_replicate_of_none rfl
    have idle : (List.replicate threads (.waiting : Worker ρ γ)).flatMap Worker.records = [] := by
      rw [List.flatMap_eq_nil_iff]
      intro worker member
      rw [List.eq_of_mem_replicate member]
      rfl
    have rest : (Workers.start works threads shared : Workers ρ γ σ).rest = works.flatten := by
      rw [Workers.rest,Workers.start,idle]
      rfl
    rw [places,rest]
    exact start
  · have idle : (List.replicate threads (.waiting : Worker ρ γ)).countP Worker.busy = 0 := by
      rw [List.countP_eq_zero]
      intro worker member
      rw [List.eq_of_mem_replicate member]
      exact Bool.false_ne_true
    rw [Counts,Workers.start,idle]
    simp

/-- Once each work is through, no callback is under way and no record is to come. -/
theorem Counts.through (counts : Counts works s) (complete : s.complete = works.length) : s.places = [] ∧ s.rest = [] := by
  rw [Counts] at counts
  have queue : s.queue = [] := List.length_eq_zero_iff.mp (by omega)
  have none : s.workers.countP Worker.busy = 0 := by omega
  have idle : ∀ worker ∈ s.workers, worker = .waiting := by
    intro worker member
    have still := List.countP_eq_zero.mp none worker member
    cases worker with
    | waiting => rfl
    | working => exact absurd rfl still
    | calling => exact absurd rfl still
  constructor
  · rw [Workers.places,List.filterMap_eq_nil_iff]
    intro worker member
    rw [idle worker member]
    rfl
  · rw [Workers.rest,queue,List.flatten_nil,List.append_nil,List.flatMap_eq_nil_iff]
    intro worker member
    rw [idle worker member]
    rfl

end Citrusleaf.Lib
