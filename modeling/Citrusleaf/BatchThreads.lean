import Citrusleaf.GetManyDigest
import Citrusleaf.Lib.Pool

/-! The threads of cl_batch.c: calls that dispatch one work item for each node and collect as many results, workers that
take the items, and `citrusleaf_batch_shutdown`, which pushes items without digests and joins the workers. -/
namespace Citrusleaf.BatchPool
open Lib GetManyDigest

/-- A `digest_work`: the call that dispatched it, and its `index`. -/
structure QueuedWork where
  call : Nat
  index : Nat
  deriving DecidableEq

/-- A call of `do_get_exists_many_digest` behind the search for nodes, with all results that workers pushed for it. It has
returned when its `complete_q` is destroyed. -/
structure BatchCall where
  nNodes : Nat
  dispatched : Nat
  collected : Nat
  completeQ : List Int
  retval : Int
  results : List Int
  returned : Bool

/-- `stray` is a result for a call that has returned, and `crashed` a push to `g_batch_q` when it is null again. The
owner of the pool is the thread in `citrusleaf_batch_shutdown`. -/
structure BatchThreads where
  pool : Pool QueuedWork
  calls : List BatchCall
  shutdown : PoolOwner
  stray : Bool
  crashed : Bool

inductive BatchEvent where
  | begin (nNodes : Nat)
  | dispatch (call : Nat)
  | collect (call : Nat)
  | leave (call : Nat)
  | take (thread : Nat)
  /-- `do_batch_monte` returns. -/
  | finish (thread : Nat) (anInt : Int)
  | shutdown
  /-- The thread in `citrusleaf_batch_shutdown` goes on. -/
  | proceed

namespace BatchCall

def start (nNodes : Nat) : BatchCall := ⟨nNodes,0,0,[],0,[],false⟩

/-- A pop from an empty queue waits. -/
def collect (call : BatchCall) : BatchCall :=
  if call.dispatched = call.nNodes ∧ call.collected < call.nNodes then
    match call.completeQ with
    | [] => call
    | z :: completeQ =>
      {call with completeQ,collected := call.collected + 1,retval := if z ≠ 0 then z else call.retval}
  else call

def leave (call : BatchCall) : BatchCall :=
  if call.dispatched = call.nNodes ∧ call.collected = call.nNodes then {call with returned := true} else call

def push (call : BatchCall) (anInt : Int) : BatchCall :=
  {call with completeQ := call.completeQ ++ [anInt],results := call.results ++ [anInt]}

end BatchCall

namespace BatchThreads

def start (threads : Nat) : BatchThreads := ⟨Pool.start threads,[],.before,false,false⟩

def gBatchThreadCount (s : BatchThreads) : Nat := s.pool.threads.length

def dispatch (s : BatchThreads) (i : Nat) : BatchThreads :=
  match s.calls[i]? with
  | none => s
  | some call =>
    if call.dispatched < call.nNodes then
      match s.shutdown with
      | .closed => {s with crashed := true}
      | _ => {s with
          pool := s.pool.step (.push ⟨i,call.dispatched⟩)
          calls := s.calls.set i {call with dispatched := call.dispatched + 1}}
    else s

def finish (s : BatchThreads) (thread : Nat) (anInt : Int) : BatchThreads :=
  match s.pool.threads[thread]? with
  | some (.busy work) =>
    match s.calls[work.call]? with
    | none => s
    | some call => {s with
        pool := s.pool.step (.finish thread)
        calls := s.calls.set work.call (call.push anInt)
        stray := s.stray || call.returned}
  | _ => s

/-- `citrusleaf_batch_shutdown`. After it, `g_batch_thread_count` is what it was. -/
def citrusleafBatchShutdown (s : BatchThreads) : BatchThreads :=
  if 0 < s.gBatchThreadCount then
    match s.shutdown with
    | .closed => {s with crashed := true}
    | _ => {s with shutdown := s.pool.close s.shutdown}
  else s

def proceed (s : BatchThreads) : BatchThreads :=
  {s with pool := (s.pool.proceed s.shutdown).1,shutdown := (s.pool.proceed s.shutdown).2}

def step (s : BatchThreads) (event : BatchEvent) : BatchThreads :=
  if s.crashed then s
  else
    match event with
    | .begin nNodes => {s with calls := s.calls ++ [.start nNodes]}
    | .dispatch i => s.dispatch i
    | .collect i => {s with calls := s.calls.modify i .collect}
    | .leave i => {s with calls := s.calls.modify i .leave}
    | .take thread => {s with pool := s.pool.step (.take thread)}
    | .finish thread anInt => s.finish thread anInt
    | .shutdown => s.citrusleafBatchShutdown
    | .proceed => s.proceed

/-- An event is a step that a worker can take. -/
def works (s : BatchThreads) : BatchEvent → Bool
  | .take thread => !s.crashed && s.pool.moves (.take thread)
  | .finish thread _ => !s.crashed && s.pool.moves (.finish thread)
  | _ => false

/-- The works that were dispatched and are not done. -/
def unfinished (s : BatchThreads) : List QueuedWork := s.pool.busy ++ s.pool.queue.filterMap id

def dispatchedOf (s : BatchThreads) (i : Nat) : Nat := ((s.calls[i]?).map BatchCall.dispatched).getD 0

def resultsOf (s : BatchThreads) (i : Nat) : List Int := ((s.calls[i]?).map BatchCall.results).getD []

/-- What holds of the workers and the calls in every state. -/
structure Sound (s : BatchThreads) : Prop where
  /-- A work is in one place. -/
  once : ∀ work, (s.unfinished ++ s.pool.ended).count work = if work.index < s.dispatchedOf work.call then 1 else 0
  /-- A call returns when all its works are done, with the last failure. -/
  returned : ∀ (i : Nat) (call : BatchCall), s.calls[i]? = some call → call.returned = true → call.results.length = call.nNodes ∧
    call.retval = collect 0 call.results ∧ ∀ j < call.nNodes, s.pool.ended.count ⟨i,j⟩ = 1
  stray : s.stray = false
  /-- No call waits for a result when the workers have nothing to do. -/
  quiet : s.unfinished = [] → ∀ (i : Nat) (call : BatchCall), s.calls[i]? = some call → call.results.length = call.dispatched
  /-- While a worker is left, `pthread_join` does not wait in vain. -/
  joins : ∀ left, s.shutdown = .joining left → s.pool.goneThreads < s.gBatchThreadCount → ∃ event, s.works event = true
  bounded : ∀ left later, s.shutdown = .joining left → counted step works s later ≤ s.pool.weight
  /-- What `citrusleaf_batch_shutdown` leaves was dispatched behind its last item. -/
  closed : s.shutdown = .closed → s.pool.goneThreads = s.gBatchThreadCount ∧ ∃ first last, s.pool.pushed = first ++ none :: last ∧
    Pool.signs last = 0 ∧ (∀ work, some work ∈ first → work ∈ s.pool.ended) ∧ ∀ work ∈ s.unfinished, some work ∈ last

end BatchThreads

/-! ### Calls -/

/-- What a call has collected are its first results. -/
structure BatchCall.Ok (call : BatchCall) : Prop where
  bound : call.dispatched ≤ call.nNodes
  few : call.collected ≤ call.nNodes
  taken : ∃ taken, call.results = taken ++ call.completeQ ∧ taken.length = call.collected ∧ call.retval = GetManyDigest.collect 0 taken
  waits : 0 < call.collected → call.dispatched = call.nNodes
  done : call.returned = true → call.dispatched = call.nNodes ∧ call.collected = call.nNodes

theorem collect_append (retval : Int) (outcomes : List Int) (z : Int) :
    GetManyDigest.collect retval (outcomes ++ [z]) = if z ≠ 0 then z else GetManyDigest.collect retval outcomes := by
  induction outcomes generalizing retval with
  | nil => rfl
  | cons first outcomes ih => exact ih _

namespace BatchCall.Ok
variable {call : BatchCall}

theorem start (nNodes : Nat) : (BatchCall.start nNodes).Ok :=
  ⟨Nat.zero_le _,Nat.zero_le _,⟨[],rfl,rfl,rfl⟩,fun some => absurd some (Nat.lt_irrefl 0),nofun⟩

theorem dispatch (ok : call.Ok) (more : call.dispatched < call.nNodes) : {call with dispatched := call.dispatched + 1}.Ok := by
  refine ⟨more,ok.few,ok.taken,fun some => ?_,fun done => ?_⟩
  · exact absurd (ok.waits some) (Nat.ne_of_lt more)
  · exact absurd (ok.done done).1 (Nat.ne_of_lt more)

theorem push (ok : call.Ok) (anInt : Int) : (call.push anInt).Ok := by
  obtain ⟨taken,parts,count,retval⟩ := ok.taken
  refine ⟨ok.bound,ok.few,⟨taken,?_,count,retval⟩,ok.waits,ok.done⟩
  rw [BatchCall.push,parts,List.append_assoc]

theorem collect (ok : call.Ok) : call.collect.Ok := by
  unfold BatchCall.collect
  split
  · rename_i ready
    split
    · exact ok
    · rename_i z completeQ front
      obtain ⟨taken,parts,count,retval⟩ := ok.taken
      refine ⟨ok.bound,ready.2,⟨taken ++ [z],?_,?_,?_⟩,fun _ => ready.1,fun done => ?_⟩
      · rw [parts,front,List.append_assoc]
        rfl
      · rw [List.length_append,count]
        rfl
      · rw [collect_append,retval]
      · exact absurd (ok.done done).2 (Nat.ne_of_lt ready.2)
  · exact ok

theorem leave (ok : call.Ok) : call.leave.Ok := by
  unfold BatchCall.leave
  split
  · rename_i both
    exact ⟨ok.bound,ok.few,ok.taken,ok.waits,fun _ => both⟩
  · exact ok

end BatchCall.Ok

/-! ### The invariant -/

namespace BatchThreads
variable {s : BatchThreads}

structure Inv (s : BatchThreads) : Prop where
  owned : s.pool.Owned s.shutdown
  returned : s.pool.returned = []
  pushed : ∀ work, (s.pool.pushed.filterMap id).count work = if work.index < s.dispatchedOf work.call then 1 else 0
  total : ∀ i, (s.pool.pushed.filterMap id).countP (fun work => work.call = i) = s.dispatchedOf i
  results : ∀ i, s.pool.ended.countP (fun work => work.call = i) = (s.resultsOf i).length
  calls : ∀ (i : Nat) (call : BatchCall), s.calls[i]? = some call → call.Ok
  stray : s.stray = false
  started : s.shutdown ≠ .before → 0 < s.gBatchThreadCount
  crashed : s.crashed = true → s.shutdown = .closed

theorem start_inv (threads : Nat) : Inv (start threads) := by
  refine ⟨Pool.start_owned threads,rfl,fun work => ?_,fun i => ?_,fun i => ?_,nofun,rfl,fun other => absurd rfl other,nofun⟩
  · simp [start,Pool.start,dispatchedOf]
  · simp [start,Pool.start,dispatchedOf]
  · simp [start,Pool.start,resultsOf]

/-- All works, by where they are. -/
theorem Inv.places (inv : Inv s) : (s.unfinished ++ s.pool.ended).Perm (s.pool.pushed.filterMap id) := by
  have works := inv.owned.kept.works
  rw [inv.returned,List.append_nil] at works
  rw [unfinished,List.append_assoc]
  exact works

theorem dispatchedOf_set (there : s.calls[i]? = some old) (new : BatchCall) (t : BatchThreads) (calls : t.calls = s.calls.set i new)
    (j : Nat) : t.dispatchedOf j = if j = i then new.dispatched else s.dispatchedOf j := by
  have inside := (List.getElem?_eq_some_iff.mp there).1
  unfold dispatchedOf
  rw [calls,List.getElem?_set]
  by_cases same : j = i
  · rw [if_pos same,if_pos same.symm,if_pos inside]
    rfl
  · rw [if_neg same,if_neg (Ne.symm same)]

theorem resultsOf_set (there : s.calls[i]? = some old) (new : BatchCall) (t : BatchThreads) (calls : t.calls = s.calls.set i new)
    (j : Nat) : t.resultsOf j = if j = i then new.results else s.resultsOf j := by
  have inside := (List.getElem?_eq_some_iff.mp there).1
  unfold resultsOf
  rw [calls,List.getElem?_set]
  by_cases same : j = i
  · rw [if_pos same,if_pos same.symm,if_pos inside]
    rfl
  · rw [if_neg same,if_neg (Ne.symm same)]

theorem set_ok (oks : ∀ (j : Nat) (call : BatchCall), s.calls[j]? = some call → call.Ok) (ok : new.Ok) (i j : Nat) (call : BatchCall)
    (found : (s.calls.set i new)[j]? = some call) : call.Ok := by
  rcases List.mem_or_eq_of_mem_set (List.mem_of_getElem? found) with member | rfl
  · obtain ⟨k,there⟩ := List.mem_iff_getElem?.mp member
    exact oks k call there
  · exact ok

theorem Inv.begin (inv : Inv s) (nNodes : Nat) : Inv {s with calls := s.calls ++ [.start nNodes]} := by
  have last (i : Nat) (outside : ¬i < s.calls.length) : (s.calls ++ [BatchCall.start nNodes])[i]? = none ∨
      (s.calls ++ [BatchCall.start nNodes])[i]? = some (.start nNodes) := by
    rw [List.getElem?_append_right (Nat.le_of_not_lt outside),List.getElem?_singleton]
    split
    · exact .inr rfl
    · exact .inl rfl
  have dispatched (i : Nat) : dispatchedOf {s with calls := s.calls ++ [.start nNodes]} i = s.dispatchedOf i := by
    unfold dispatchedOf
    by_cases inside : i < s.calls.length
    · rw [List.getElem?_append_left inside]
    · rw [List.getElem?_eq_none_iff.mpr (Nat.le_of_not_lt inside)]
      rcases last i inside with none | new
      · rw [none]
      · rw [new]
        rfl
  have results (i : Nat) : resultsOf {s with calls := s.calls ++ [.start nNodes]} i = s.resultsOf i := by
    unfold resultsOf
    by_cases inside : i < s.calls.length
    · rw [List.getElem?_append_left inside]
    · rw [List.getElem?_eq_none_iff.mpr (Nat.le_of_not_lt inside)]
      rcases last i inside with none | new
      · rw [none]
      · rw [new]
        rfl
  refine ⟨inv.owned,inv.returned,fun work => ?_,fun i => ?_,fun i => ?_,fun i call found => ?_,inv.stray,inv.started,inv.crashed⟩
  · rw [dispatched]
    exact inv.pushed work
  · rw [dispatched]
    exact inv.total i
  · rw [results]
    exact inv.results i
  · by_cases inside : i < s.calls.length
    · rw [List.getElem?_append_left inside] at found
      exact inv.calls i call found
    · rcases last i inside with none | new
      · cases found.symm.trans none
      · rw [← Option.some.inj (new.symm.trans found)]
        exact .start nNodes

theorem Inv.dispatch (inv : Inv s) (i : Nat) : Inv (s.dispatch i) := by
  unfold BatchThreads.dispatch
  split
  · exact inv
  · rename_i call there
    split
    · rename_i more
      have live (fresh : s.shutdown ≠ .closed) : Inv {s with
          pool := s.pool.step (.push ⟨i,call.dispatched⟩)
          calls := s.calls.set i {call with dispatched := call.dispatched + 1}} := by
        have dispatched := dispatchedOf_set there {call with dispatched := call.dispatched + 1} {s with
          pool := s.pool.step (.push ⟨i,call.dispatched⟩)
          calls := s.calls.set i {call with dispatched := call.dispatched + 1}} rfl
        have results := resultsOf_set there {call with dispatched := call.dispatched + 1} {s with
          pool := s.pool.step (.push ⟨i,call.dispatched⟩)
          calls := s.calls.set i {call with dispatched := call.dispatched + 1}} rfl
        have now : s.dispatchedOf i = call.dispatched := by rw [dispatchedOf,there]; rfl
        have before : s.resultsOf i = call.results := by rw [resultsOf,there]; rfl
        have pushed : (s.pool.step (.push ⟨i,call.dispatched⟩)).pushed.filterMap id =
            s.pool.pushed.filterMap id ++ [⟨i,call.dispatched⟩] := by
          rw [Pool.step,Pool.add,List.filterMap_append]
          rfl
        refine ⟨inv.owned.step (.push ⟨i,call.dispatched⟩) (by simp),inv.returned,fun work => ?_,fun j => ?_,fun j => ?_,
          set_ok inv.calls ((inv.calls i call there).dispatch more) i,inv.stray,inv.started,
          fun crashed => absurd (inv.crashed crashed) fresh⟩
        · rw [dispatched,pushed,List.count_append,inv.pushed,List.count_singleton]
          obtain ⟨j,k⟩ := work
          dsimp only
          by_cases same : j = i
          · subst same
            rw [if_pos rfl,now]
            by_cases own : k = call.dispatched
            · subst own
              simp
            · have other : ¬((⟨j,call.dispatched⟩ : QueuedWork) == ⟨j,k⟩) = true := by simpa using Ne.symm own
              rw [if_neg other,Nat.add_zero]
              by_cases old : k < call.dispatched
              · rw [if_pos old,if_pos (Nat.lt_succ_of_lt old)]
              · rw [if_neg old,if_neg (by omega)]
          · have other : ¬((⟨i,call.dispatched⟩ : QueuedWork) == ⟨j,k⟩) = true := by simpa using fun own => absurd own.symm same
            rw [if_neg same,if_neg other,Nat.add_zero]
        · rw [dispatched,pushed,List.countP_append,inv.total,List.countP_singleton]
          by_cases same : j = i
          · rw [if_pos same,same,now,if_pos (by simp)]
          · rw [if_neg same,if_neg (by simpa using Ne.symm same),Nat.add_zero]
        · rw [results]
          by_cases same : j = i
          · rw [if_pos same,same,← before]
            exact inv.results i
          · rw [if_neg same]
            exact inv.results j
      split
      · rename_i closed
        exact ⟨inv.owned,inv.returned,inv.pushed,inv.total,inv.results,inv.calls,inv.stray,inv.started,fun _ => closed⟩
      · rename_i fresh
        exact live fresh
    · exact inv

/-- What a call does on its own. -/
theorem Inv.modify (inv : Inv s) (i : Nat) {f : BatchCall → BatchCall} (dispatched : ∀ call, (f call).dispatched = call.dispatched)
    (results : ∀ call, (f call).results = call.results) (ok : ∀ call : BatchCall, call.Ok → (f call).Ok) :
    Inv {s with calls := s.calls.modify i f} := by
  have sameDispatched (j : Nat) : dispatchedOf {s with calls := s.calls.modify i f} j = s.dispatchedOf j := by
    unfold dispatchedOf
    rw [List.getElem?_modify]
    cases s.calls[j]? with
    | none => rfl
    | some call => by_cases here : i = j <;> simp [here,dispatched]
  have sameResults (j : Nat) : resultsOf {s with calls := s.calls.modify i f} j = s.resultsOf j := by
    unfold resultsOf
    rw [List.getElem?_modify]
    cases s.calls[j]? with
    | none => rfl
    | some call => by_cases here : i = j <;> simp [here,results]
  refine ⟨inv.owned,inv.returned,fun work => ?_,fun j => ?_,fun j => ?_,fun j call found => ?_,inv.stray,inv.started,inv.crashed⟩
  · rw [sameDispatched]
    exact inv.pushed work
  · rw [sameDispatched]
    exact inv.total j
  · rw [sameResults]
    exact inv.results j
  · rw [List.getElem?_modify] at found
    obtain ⟨old,there,rfl⟩ := Option.map_eq_some_iff.mp found
    by_cases here : i = j
    · rw [if_pos here]
      exact ok old (inv.calls j old there)
    · rw [if_neg here]
      exact inv.calls j old there

theorem Inv.take (inv : Inv s) (thread : Nat) : Inv {s with pool := s.pool.step (.take thread)} := by
  obtain ⟨pushed,ended,returned⟩ := s.pool.take_history thread
  have threads := s.pool.step_threads (.take thread)
  refine ⟨inv.owned.step (.take thread) (by simp),returned.trans inv.returned,fun work => ?_,fun i => ?_,fun i => ?_,inv.calls,inv.stray,
    fun other => ?_,inv.crashed⟩
  · rw [Pool.step,pushed]
    exact inv.pushed work
  · rw [Pool.step,pushed]
    exact inv.total i
  · rw [Pool.step,ended]
    exact inv.results i
  · rw [gBatchThreadCount,threads]
    exact inv.started other

/-- A call with a work under way has not collected all results. -/
theorem Inv.waited (inv : Inv s) {thread : Nat} {work : QueuedWork} {call : BatchCall}
    (there : s.pool.threads[thread]? = some (.busy work)) (found : s.calls[work.call]? = some call) :
    call.returned = false ∧ call.results.length < call.dispatched := by
  have all := inv.places.countP_eq fun other => other.call = work.call
  rw [inv.total,unfinished,List.countP_append,List.countP_append,inv.results] at all
  have dispatched : s.dispatchedOf work.call = call.dispatched := by rw [dispatchedOf,found]; rfl
  have results : s.resultsOf work.call = call.results := by rw [resultsOf,found]; rfl
  have busy : work ∈ s.pool.busy := List.mem_filterMap.mpr ⟨_,List.mem_of_getElem? there,rfl⟩
  have some : 0 < s.pool.busy.countP fun other => other.call = work.call := List.countP_pos_iff.mpr ⟨work,busy,by simp⟩
  rw [dispatched,results] at all
  obtain ⟨bound,few,⟨taken,parts,count,_⟩,_,done⟩ := inv.calls _ call found
  have length := congrArg List.length parts
  rw [List.length_append] at length
  refine ⟨?_,by omega⟩
  cases returned : call.returned with
  | false => rfl
  | true =>
    have ended := done returned
    omega

theorem Inv.finish (inv : Inv s) (thread : Nat) (anInt : Int) : Inv (s.finish thread anInt) := by
  unfold BatchThreads.finish
  split
  · rename_i work there
    split
    · exact inv
    · rename_i call found
      have after : s.pool.step (.finish thread) = {s.pool with ended := s.pool.ended ++ [work]}.move thread .idle := by
        rw [Pool.step,Pool.finish,there]
      obtain ⟨live,_⟩ := inv.waited there found
      have dispatched := dispatchedOf_set found (call.push anInt) {s with
        pool := s.pool.step (.finish thread)
        calls := s.calls.set work.call (call.push anInt)
        stray := s.stray || call.returned} rfl
      have results := resultsOf_set found (call.push anInt) {s with
        pool := s.pool.step (.finish thread)
        calls := s.calls.set work.call (call.push anInt)
        stray := s.stray || call.returned} rfl
      have now : s.dispatchedOf work.call = call.dispatched := by rw [dispatchedOf,found]; rfl
      have before : s.resultsOf work.call = call.results := by rw [resultsOf,found]; rfl
      have same (i : Nat) : (if i = work.call then (call.push anInt).dispatched else s.dispatchedOf i) = s.dispatchedOf i := by
        by_cases here : i = work.call
        · rw [if_pos here,here,now]
          rfl
        · rw [if_neg here]
      have threads := s.pool.step_threads (.finish thread)
      refine ⟨inv.owned.step (.finish thread) (by simp),?_,fun other => ?_,fun i => ?_,fun i => ?_,
        set_ok inv.calls ((inv.calls _ call found).push anInt) _,?_,fun other => ?_,inv.crashed⟩
      · rw [after]
        exact inv.returned
      · rw [dispatched,same,after]
        exact inv.pushed other
      · rw [dispatched,same,after]
        exact inv.total i
      · rw [results,after]
        change (s.pool.ended ++ [work]).countP _ = _
        rw [List.countP_append,inv.results,List.countP_singleton]
        by_cases here : i = work.call
        · rw [if_pos here,here,before,if_pos (by simp),BatchCall.push,List.length_append]
          rfl
        · rw [if_neg here,if_neg (by simpa using Ne.symm here),Nat.add_zero]
      · change (s.stray || call.returned) = false
        rw [inv.stray,live]
        rfl
      · rw [gBatchThreadCount,threads]
        exact inv.started other
  · exact inv

theorem Inv.citrusleafBatchShutdown (inv : Inv s) (live : s.crashed = false) : Inv s.citrusleafBatchShutdown := by
  unfold BatchThreads.citrusleafBatchShutdown
  split
  · rename_i some
    split
    · rename_i closed
      exact ⟨inv.owned,inv.returned,inv.pushed,inv.total,inv.results,inv.calls,inv.stray,inv.started,fun _ => closed⟩
    · exact ⟨inv.owned.close,inv.returned,inv.pushed,inv.total,inv.results,inv.calls,inv.stray,fun _ => some,
        fun crashed => absurd (live.symm.trans crashed) Bool.false_ne_true⟩
  · exact inv

theorem Inv.proceed (inv : Inv s) (live : s.crashed = false) : Inv s.proceed := by
  obtain ⟨works,ended,returned,threads⟩ := s.pool.proceed_works s.shutdown
  refine ⟨inv.owned.proceed,returned.trans inv.returned,fun work => ?_,fun i => ?_,fun i => ?_,inv.calls,inv.stray,fun other => ?_,
    fun crashed => absurd (live.symm.trans crashed) Bool.false_ne_true⟩
  · rw [BatchThreads.proceed,works]
    exact inv.pushed work
  · rw [BatchThreads.proceed,works]
    exact inv.total i
  · rw [BatchThreads.proceed,ended]
    exact inv.results i
  · rw [BatchThreads.proceed,gBatchThreadCount,threads]
    refine inv.started fun before => other ?_
    rw [BatchThreads.proceed,before]
    rfl

theorem Inv.step (inv : Inv s) (event : BatchEvent) : Inv (s.step event) := by
  unfold BatchThreads.step
  split
  · exact inv
  · rename_i live
    cases event with
    | begin nNodes => exact inv.begin nNodes
    | dispatch i => exact inv.dispatch i
    | collect i =>
      refine inv.modify i (fun call => ?_) (fun call => ?_) fun call ok => ok.collect
      · unfold BatchCall.collect
        split
        · split <;> rfl
        · rfl
      · unfold BatchCall.collect
        split
        · split <;> rfl
        · rfl
    | leave i =>
      refine inv.modify i (fun call => ?_) (fun call => ?_) fun call ok => ok.leave
      · unfold BatchCall.leave
        split <;> rfl
      · unfold BatchCall.leave
        split <;> rfl
    | take thread => exact inv.take thread
    | finish thread anInt => exact inv.finish thread anInt
    | shutdown => exact inv.citrusleafBatchShutdown (Bool.not_eq_true _ ▸ live)
    | proceed => exact inv.proceed (Bool.not_eq_true _ ▸ live)

/-! ### What the invariant says -/

theorem Inv.live (inv : Inv s) (joining : s.shutdown = .joining left) : s.crashed = false := by
  cases crashed : s.crashed with
  | false => rfl
  | true => cases joining.symm.trans (inv.crashed crashed)

/-- A step of a worker lowers what is left for the workers to do, and no other step raises it. -/
theorem Inv.weigh (inv : Inv s) (joining : s.shutdown.Joins) (event : BatchEvent) :
    (s.works event).toNat + (s.step event).pool.weight = s.pool.weight ∧ (s.step event).shutdown.Joins := by
  have moved (event : PoolEvent QueuedWork) (more : event ≠ .quit) := inv.owned.kept.weight_step (inv.owned.closing joining) event more
  cases crashed : s.crashed with
  | true =>
    have same : s.step event = s := by rw [BatchThreads.step.eq_def,if_pos crashed]
    have idle : s.works event = false := by cases event <;> simp [works,crashed]
    rw [same,idle]
    exact ⟨Nat.zero_add _,joining⟩
  | false =>
    have live : ¬s.crashed = true := by rw [crashed]; exact Bool.false_ne_true
    rw [BatchThreads.step.eq_def,if_neg live]
    cases event with
    | begin nNodes => exact ⟨Nat.zero_add _,joining⟩
    | collect i => exact ⟨Nat.zero_add _,joining⟩
    | leave i => exact ⟨Nat.zero_add _,joining⟩
    | dispatch i =>
      have idle : s.works (.dispatch i) = false := rfl
      dsimp only
      rw [idle,BatchThreads.dispatch]
      split
      · exact ⟨Nat.zero_add _,joining⟩
      · split
        · split
          · exact ⟨Nat.zero_add _,joining⟩
          · rename_i call there _ _ _
            have push := moved (.push ⟨i,call.dispatched⟩) nofun
            exact ⟨(Nat.zero_add _).trans push,joining⟩
        · exact ⟨Nat.zero_add _,joining⟩
    | take thread =>
      have take := moved (.take thread) nofun
      rw [works,crashed,Nat.add_comm]
      exact ⟨take,joining⟩
    | finish thread anInt =>
      have done := moved (.finish thread) nofun
      dsimp only
      rw [works,crashed,BatchThreads.finish]
      split
      · rename_i work there
        split
        · rename_i absent
          have busy : work ∈ s.unfinished ++ s.pool.ended :=
            List.mem_append_left _ (List.mem_append_left _ (List.mem_filterMap.mpr ⟨_,List.mem_of_getElem? there,rfl⟩))
          have some := List.count_pos_iff.mpr busy
          rw [inv.places.count_eq,inv.pushed,dispatchedOf,absent] at some
          exact absurd some (Nat.lt_irrefl 0)
        · rw [Nat.add_comm]
          exact ⟨done,joining⟩
      · rename_i other
        have stuck : s.pool.moves (.finish thread) = false := by
          rcases s.pool.finish_cases thread with ⟨work,_,there,_⟩ | ⟨stuck,_⟩
          · exact absurd there (other work)
          · exact stuck
        rw [stuck]
        exact ⟨Nat.zero_add _,joining⟩
    | shutdown =>
      have idle : s.works .shutdown = false := rfl
      dsimp only
      rw [idle,BatchThreads.citrusleafBatchShutdown]
      split
      · split
        · exact ⟨Nat.zero_add _,joining⟩
        · exact ⟨Nat.zero_add _,Pool.close_joins joining⟩
      · exact ⟨Nat.zero_add _,joining⟩
    | proceed =>
      obtain ⟨joins,same⟩ := s.pool.proceed_joins joining
      exact ⟨(Nat.zero_add _).trans same,joins⟩

theorem Inv.sound (inv : Inv s) : Sound s := by
  have once (work : QueuedWork) : (s.unfinished ++ s.pool.ended).count work = if work.index < s.dispatchedOf work.call then 1 else 0 :=
    (inv.places.count_eq work).trans (inv.pushed work)
  have split (i : Nat) (call : BatchCall) (found : s.calls[i]? = some call) :
      (s.unfinished.countP fun work => work.call = i) + call.results.length = call.dispatched := by
    have all := inv.places.countP_eq fun work => work.call = i
    rw [inv.total,List.countP_append,inv.results,dispatchedOf,resultsOf,found] at all
    exact all
  refine ⟨once,fun i call found returned => ?_,inv.stray,fun none i call found => ?_,fun left joining some => ?_,
    fun left later joining => ?_,fun closed => ?_⟩
  · obtain ⟨bound,few,⟨taken,parts,count,retval⟩,_,done⟩ := inv.calls i call found
    obtain ⟨dispatched,collected⟩ := done returned
    have all := split i call found
    have length := congrArg List.length parts
    rw [List.length_append] at length
    have empty : call.completeQ = [] := List.length_eq_zero_iff.mp (by omega)
    refine ⟨by omega,?_,fun j inside => ?_⟩
    · rw [parts,empty,List.append_nil]
      exact retval
    · have own := once ⟨i,j⟩
      have now : s.dispatchedOf i = call.dispatched := by rw [dispatchedOf,found]; rfl
      have absent : s.unfinished.count ⟨i,j⟩ = 0 := by
        refine List.count_eq_zero.mpr fun member => ?_
        have some : 0 < s.unfinished.countP fun work => work.call = i := List.countP_pos_iff.mpr ⟨_,member,by simp⟩
        omega
      rw [List.count_append,absent,Nat.zero_add,now,dispatched,if_pos inside] at own
      exact own
  · have all := split i call found
    rw [none] at all
    simpa using all
  · obtain ⟨thread,moves⟩ := inv.owned.kept.moves (inv.owned.closing (.inl ⟨left,joining⟩)) some
    have live := inv.live joining
    rcases moves with take | finish
    · exact ⟨.take thread,by rw [works,live,take]; rfl⟩
    · exact ⟨.finish thread 0,by rw [works,live,finish]; rfl⟩
  · refine counted_le (fun s => s.pool.weight) (fun s => Inv s ∧ s.shutdown.Joins) (fun t event here => ?_)
      ⟨inv,.inl ⟨left,joining⟩⟩ later
    obtain ⟨same,joins⟩ := here.1.weigh here.2 event
    exact ⟨Nat.le_of_eq same,here.1.step event,joins⟩
  · have owned := inv.owned
    rw [closed] at owned
    obtain ⟨first,last,parts,noSign,behind⟩ := owned.leaves (inv.started (by rw [closed]; nofun))
    have busy := Pool.busy_gone owned.gone
    have left (work : QueuedWork) (member : work ∈ s.unfinished) : some work ∈ last := by
      rw [unfinished,busy,List.nil_append] at member
      exact behind work member
    refine ⟨owned.gone,first,last,parts,noSign,fun work member => ?_,left⟩
    -- a work is pushed once, so one in front of the last sign is not behind it
    have pushed := inv.pushed work
    rw [parts,List.filterMap_append,List.count_append] at pushed
    have inFirst : 0 < (first.filterMap id).count work := List.count_pos_iff.mpr (List.mem_filterMap.mpr ⟨_,member,rfl⟩)
    have place := once work
    rw [List.count_append] at place
    by_contra missing
    have notEnded : s.pool.ended.count work = 0 := List.count_eq_zero.mpr missing
    have same := place.trans pushed.symm
    have once : (first.filterMap id).count work + ((none :: last).filterMap id).count work ≤ 1 := by
      rw [pushed]
      split
      · exact Nat.le_refl 1
      · exact Nat.zero_le 1
    have placed : 0 < s.unfinished.count work := by omega
    have again : 0 < ((none :: last).filterMap id).count work :=
      List.count_pos_iff.mpr (List.mem_filterMap.mpr ⟨_,List.mem_cons_of_mem _ (left work (List.count_pos_iff.mp placed)),rfl⟩)
    omega

/-- Batch calls and the shutdown of the workers, in any interleaving: a work is done once, a call returns with all its
results, and the shutdown ends, with nothing lost that was dispatched in front of its last item. -/
theorem batch_threads_sound (threads : Nat) (events : List BatchEvent) : Sound (run step (start threads) events) :=
  Inv.sound (run_invariant (fun _ event inv => inv.step event) (start_inv threads) events)

/-- A call that comes during the shutdown may wait for ever. -/
example : (run step (start 1) [.begin 1,.begin 1,.dispatch 0,.shutdown,.proceed,.dispatch 1,.proceed,.take 0,.finish 0 0,.take 0,
    .proceed,.proceed]).unfinished = [⟨1,0⟩] := by decide +kernel

end BatchThreads
end Citrusleaf.BatchPool
