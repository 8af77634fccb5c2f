import Citrusleaf.Lib.Runs
import Citrusleaf.Object
import Mathlib.Algebra.BigOperators.Group.List.Basic
import Mathlib.Data.BitVec

/-! `citrusleaf_operate` calls that increment one bin. `do_the_full_monte` sends the request
again when an attempt fails and the write policy allows it; the server applies every request
that reaches it. How the server adds is a parameter. -/
namespace Citrusleaf.Increment
open Lib

inductive ClWritePolicy where
  | async | oneshot | retry | assured
  deriving DecidableEq

abbrev Call := Nat

/-- A request, which names no transaction: `trid` is 0. -/
structure Attempt where
  call : Call
  try_ : Nat
  deriving DecidableEq

/-- Where `do_the_full_monte` is, and the value of `try`. -/
inductive Phase where
  /-- At the head of the loop. -/
  | sending (try_ : Nat)
  /-- The request is written; its response is read from the same socket. -/
  | reading (try_ : Nat)
  | returned (rv : Int) (try_ : Nat)
  deriving DecidableEq

def Phase.tries : Phase → Nat
  | .sending try_ | .reading try_ | .returned _ try_ => try_

structure IncrState (α : Type) where
  bin : α
  /-- What the server has applied, for the record only. -/
  applied : List Attempt
  phase : Call → Phase
  requests : List Attempt
  responses : List Attempt

def IncrState.start (bin : α) : IncrState α := ⟨bin,[],fun _ => .sending 0,[],[]⟩

/-- `late` says that the deadline is over when the attempt fails. -/
inductive IncrEvent where
  | noNodeOrFd (call : Call) (late : Bool)
  | write (call : Call) (rv : Int) (late : Bool)
  /-- A read of the header or the body fails. -/
  | readFails (call : Call) (rv : Int) (late : Bool)
  /-- No memory for the body. -/
  | noMemory (call : Call)
  | arrive (i : Nat)
  | loseRequest (i : Nat)
  /-- A whole response is read. -/
  | respond (i : Nat) (parsed : Bool)

/-- The label `Retry` and the condition of the loop. -/
def retry (wPol : ClWritePolicy) (late : Bool) (rv : Int) (try_ : Nat) : Phase :=
  if late then .returned citrusleafFailTimeout try_
  else if wPol = .retry then .sending try_
  else .returned rv try_

def setPhase (s : IncrState α) (call : Call) (phase : Phase) : IncrState α :=
  {s with phase := fun other => if other = call then phase else s.phase other}

section
variable [AddCommMonoid α] (delta : Call → α) (wPol : Call → ClWritePolicy)

def incrStep (s : IncrState α) : IncrEvent → IncrState α
  | .noNodeOrFd call late =>
    match s.phase call with
    | .sending try_ => setPhase s call (retry (wPol call) late citrusleafFailClient (try_ + 1))
    | _ => s
  | .write call rv late =>
    match s.phase call with
    | .sending try_ =>
      if rv ≠ 0 then setPhase s call (retry (wPol call) late rv (try_ + 1))
      else {setPhase s call (.reading (try_ + 1)) with requests := ⟨call,try_ + 1⟩ :: s.requests}
    | _ => s
  | .readFails call rv late =>
    match s.phase call with
    | .reading try_ => if rv ≠ 0 then setPhase s call (retry (wPol call) late rv try_) else s
    | _ => s
  | .noMemory call =>
    match s.phase call with
    | .reading try_ => setPhase s call (.returned citrusleafFailClient try_)
    | _ => s
  | .arrive i =>
    match s.requests[i]? with
    | none => s
    | some r =>
      {s with
        bin := s.bin + delta r.call
        applied := r :: s.applied
        requests := s.requests.eraseIdx i
        responses := r :: s.responses}
  | .loseRequest i => {s with requests := s.requests.eraseIdx i}
  | .respond i parsed =>
    match s.responses[i]? with
    | none => s
    | some r =>
      -- the socket of an earlier attempt is closed
      if s.phase r.call = .reading r.try_ then
        setPhase s r.call (.returned (if parsed then citrusleafOk else citrusleafFailUnknown) r.try_)
      else s

/-- How often the server has applied the increment of a call. -/
def IncrState.appliedBy (s : IncrState α) (call : Call) : Nat := s.applied.countP (·.call = call)

/-- What the bin would hold if nothing had been applied for the call. -/
def binWithout (start : α) (s : IncrState α) (call : Call) : α :=
  start + ((s.applied.filter (·.call ≠ call)).map fun a => delta a.call).sum

/-! ### Attempts are told apart by their number -/

/-- A call that may try once has not tried yet or is in its first attempt. -/
def Phase.Single (phase : Phase) : Prop := phase = .sending 0 ∨ phase = .reading 1 ∨ ∃ rv, phase = .returned rv 1

structure Inv (start : α) (s : IncrState α) : Prop where
  bin : s.bin = start + (s.applied.map fun a => delta a.call).sum
  distinct : (s.applied ++ s.requests).Nodup
  numbered : ∀ a ∈ s.applied ++ s.requests, 1 ≤ a.try_ ∧ a.try_ ≤ (s.phase a.call).tries
  answered : ∀ a ∈ s.responses, a ∈ s.applied
  returned : ∀ call try_, s.phase call = .returned citrusleafOk try_ → ⟨call,try_⟩ ∈ s.applied
  single : ∀ call, wPol call ≠ .retry → (s.phase call).Single

theorem retry_tries : (retry policy late rv try_).tries = try_ := by
  unfold retry
  split
  · rfl
  · split <;> rfl

theorem retry_failed (failed : rv ≠ 0) : retry policy late rv try_ ≠ .returned citrusleafOk other := by
  unfold retry
  split
  · simp [citrusleafFailTimeout,citrusleafOk]
  · split
    · simp
    · simp [citrusleafOk,failed]

theorem retry_single (once : policy ≠ .retry) : (retry policy late rv 1).Single := by
  unfold retry
  split
  · exact .inr (.inr ⟨_,rfl⟩)
  · exact .inr (.inr ⟨_,rfl⟩)

variable {delta wPol}
variable {initial : α} {s : IncrState α}

/-- A call moves on without undoing an attempt. -/
theorem Inv.setPhase (inv : Inv delta wPol initial s) (later : (s.phase call).tries ≤ phase.tries)
    (ok : ∀ try_, phase = .returned citrusleafOk try_ → ⟨call,try_⟩ ∈ s.applied)
    (single : wPol call ≠ .retry → phase.Single) : Inv delta wPol initial (setPhase s call phase) := by
  refine ⟨inv.bin,inv.distinct,?_,inv.answered,?_,?_⟩
  · intro a member
    obtain ⟨one,most⟩ := inv.numbered a member
    simp only [Increment.setPhase]
    split
    · rename_i same
      subst same
      exact ⟨one,most.trans later⟩
    · exact ⟨one,most⟩
  · intro other try_ done
    simp only [Increment.setPhase] at done ⊢
    split at done
    · rename_i same
      subst same
      exact ok try_ done
    · exact inv.returned other try_ done
  · intro other once
    simp only [Increment.setPhase]
    split
    · rename_i same
      subst same
      exact single once
    · exact inv.single other once

/-- Back to the head of the loop, or out of it with a failure. -/
theorem Inv.retry (inv : Inv delta wPol initial s) (failed : rv ≠ 0) (later : (s.phase call).tries ≤ try_)
    (first : wPol call ≠ .retry → try_ = 1) :
    Inv delta wPol initial (Increment.setPhase s call (Increment.retry (wPol call) late rv try_)) := by
  apply inv.setPhase
  · rw [retry_tries]
    exact later
  · intro other done
    exact absurd done (retry_failed failed)
  · intro once
    rw [first once]
    exact retry_single once

theorem Inv.first_sending (inv : Inv delta wPol initial s) (at_ : s.phase call = .sending try_)
    (once : wPol call ≠ .retry) : try_ = 0 := by
  simpa [Phase.Single,at_] using inv.single call once

theorem Inv.first_reading (inv : Inv delta wPol initial s) (at_ : s.phase call = .reading try_)
    (once : wPol call ≠ .retry) : try_ = 1 := by
  simpa [Phase.Single,at_] using inv.single call once

/-- The request of a new attempt is none that was sent before. -/
theorem Inv.send (inv : Inv delta wPol initial s) (at_ : s.phase call = .sending try_) :
    Inv delta wPol initial
      {Increment.setPhase s call (.reading (try_ + 1)) with requests := ⟨call,try_ + 1⟩ :: s.requests} := by
  have tries : (s.phase call).tries = try_ := by rw [at_]; rfl
  have moved : Inv delta wPol initial (Increment.setPhase s call (.reading (try_ + 1))) := by
    apply inv.setPhase
    · simp [at_,Phase.tries]
    · exact nofun
    · intro once
      rw [inv.first_sending at_ once]
      exact .inr (.inl rfl)
  have fresh : ⟨call,try_ + 1⟩ ∉ s.applied ++ s.requests := by
    intro member
    have most := (inv.numbered _ member).2
    simp only [tries] at most
    omega
  refine ⟨inv.bin,?_,?_,inv.answered,moved.returned,moved.single⟩
  · have swapped : (s.applied ++ ⟨call,try_ + 1⟩ :: s.requests).Perm (⟨call,try_ + 1⟩ :: (s.applied ++ s.requests)) :=
      List.perm_middle
    exact swapped.nodup_iff.mpr (List.nodup_cons.mpr ⟨fresh,inv.distinct⟩)
  · intro a member
    rcases List.mem_cons.mp (List.perm_middle.mem_iff.mp member) with rfl | old
    · simp [Increment.setPhase,Phase.tries]
    · exact moved.numbered a old

theorem Inv.arrive (inv : Inv delta wPol initial s) (found : s.requests[i]? = some r) :
    Inv delta wPol initial {s with
      bin := s.bin + delta r.call
      applied := r :: s.applied
      requests := s.requests.eraseIdx i
      responses := r :: s.responses} := by
  obtain ⟨inside,rfl⟩ := List.getElem?_eq_some_iff.mp found
  have moved : (s.requests[i] :: s.applied ++ s.requests.eraseIdx i).Perm (s.applied ++ s.requests) := by
    rw [List.cons_append]
    exact List.perm_middle.symm.trans ((List.getElem_cons_eraseIdx_perm inside).append_left _)
  refine ⟨?_,moved.nodup_iff.mpr inv.distinct,?_,?_,?_,inv.single⟩
  · simp only [inv.bin,List.map_cons,List.sum_cons]
    rw [add_assoc,add_comm (List.sum _)]
  · intro a member
    exact inv.numbered a (moved.mem_iff.mp member)
  · intro a member
    rcases List.mem_cons.mp member with rfl | old
    · exact List.mem_cons_self
    · exact List.mem_cons_of_mem _ (inv.answered a old)
  · intro call try_ done
    exact List.mem_cons_of_mem _ (inv.returned call try_ done)

theorem Inv.loseRequest (inv : Inv delta wPol initial s) (i : Nat) :
    Inv delta wPol initial {s with requests := s.requests.eraseIdx i} := by
  have fewer : (s.applied ++ s.requests.eraseIdx i).Sublist (s.applied ++ s.requests) :=
    (List.eraseIdx_sublist s.requests i).append_left s.applied
  exact ⟨inv.bin,inv.distinct.sublist fewer,fun a member => inv.numbered a (fewer.subset member),
    inv.answered,inv.returned,inv.single⟩

theorem Inv.step (inv : Inv delta wPol initial s) (event : IncrEvent) :
    Inv delta wPol initial (incrStep delta wPol s event) := by
  cases event with
  | noNodeOrFd call late =>
    cases at_ : s.phase call with
    | sending try_ =>
      simp only [incrStep,at_]
      apply inv.retry
      · decide
      · simp [at_,Phase.tries]
      · intro once
        simp [inv.first_sending at_ once]
    | _ => simpa only [incrStep,at_] using inv
  | write call rv late =>
    cases at_ : s.phase call with
    | sending try_ =>
      simp only [incrStep,at_]
      split
      · rename_i failed
        apply inv.retry failed
        · simp [at_,Phase.tries]
        · intro once
          simp [inv.first_sending at_ once]
      · exact inv.send at_
    | _ => simpa only [incrStep,at_] using inv
  | readFails call rv late =>
    cases at_ : s.phase call with
    | reading try_ =>
      simp only [incrStep,at_]
      split
      · rename_i failed
        apply inv.retry failed
        · simp [at_,Phase.tries]
        · exact inv.first_reading at_
      · exact inv
    | _ => simpa only [incrStep,at_] using inv
  | noMemory call =>
    cases at_ : s.phase call with
    | reading try_ =>
      simp only [incrStep,at_]
      apply inv.setPhase
      · simp [at_,Phase.tries]
      · simp [citrusleafFailClient,citrusleafOk]
      · intro once
        rw [inv.first_reading at_ once]
        exact .inr (.inr ⟨_,rfl⟩)
    | _ => simpa only [incrStep,at_] using inv
  | arrive i =>
    cases found : s.requests[i]? with
    | none => simpa only [incrStep,found] using inv
    | some r => simpa only [incrStep,found] using inv.arrive found
  | loseRequest i => exact inv.loseRequest i
  | respond i parsed =>
    cases found : s.responses[i]? with
    | none => simpa only [incrStep,found] using inv
    | some r =>
      simp only [incrStep,found]
      split
      · rename_i at_
        have applied := inv.answered r (List.mem_of_getElem? found)
        apply inv.setPhase
        · simp [at_,Phase.tries]
        · intro try_ done
          obtain ⟨_,rfl⟩ := Phase.returned.inj done
          exact applied
        · intro once
          rw [inv.first_reading at_ once]
          exact .inr (.inr ⟨_,rfl⟩)
      · exact inv

theorem Inv.start (initial : α) : Inv delta wPol initial (.start initial) := by
  refine ⟨?_,List.nodup_nil,nofun,nofun,nofun,fun _ _ => .inl rfl⟩
  simp [IncrState.start]

theorem Inv.run (events : List IncrEvent) :
    Inv delta wPol initial (run (incrStep delta wPol) (.start initial) events) := by
  have preserved : ∀ s event, Inv delta wPol initial s → Inv delta wPol initial (incrStep delta wPol s event) :=
    fun s event inv => inv.step event
  exact run_invariant preserved (Inv.start initial) events

/-! ### What a call adds -/

theorem sum_applied (delta : Call → α) (applied : List Attempt) (call : Call) :
    (applied.map fun a => delta a.call).sum =
      ((applied.filter (·.call ≠ call)).map fun a => delta a.call).sum +
        applied.countP (·.call = call) • delta call := by
  induction applied with
  | nil => simp
  | cons a applied ih =>
    by_cases own : a.call = call
    · simp [own,ih,add_nsmul,one_nsmul,add_assoc,add_comm]
    · simp [own,ih,add_assoc]

/-- A call's applied attempts have different numbers, up to its last. -/
theorem Inv.appliedBy_le (inv : Inv delta wPol initial s) (call : Call) :
    s.appliedBy call ≤ (s.phase call).tries := by
  have own : ∀ a ∈ s.applied.filter (·.call = call), a.call = call := by
    intro a member
    simpa using (List.mem_filter.mp member).2
  have numbers : ((s.applied.filter (·.call = call)).map Attempt.try_).Nodup := by
    apply List.Nodup.map_on
    · rintro ⟨a,n⟩ ha ⟨b,m⟩ hb same
      have first : a = call := own _ ha
      have second : b = call := own _ hb
      simpa [first,second] using same
    · exact (List.nodup_append.mp inv.distinct).1.filter _
  have inside : (s.applied.filter (·.call = call)).map Attempt.try_ ⊆ List.range' 1 (s.phase call).tries := by
    intro n member
    obtain ⟨a,kept,rfl⟩ := List.mem_map.mp member
    have numbered := inv.numbered a (List.mem_append_left _ (List.mem_filter.mp kept).1)
    rw [own a kept] at numbered
    rw [List.mem_range'_1]
    omega
  have fewer := (numbers.subperm inside).length_le
  rwa [List.length_map,List.length_range',← List.countP_eq_length_filter] at fewer

/-- Whatever the schedule, a call that returned OK has added its value once for each of its
requests that was applied: at least once, at most as often as it tried, and once where the
write policy does not send again. -/
theorem increments_applied (delta : Call → α) (wPol : Call → ClWritePolicy) (initial : α)
    (events : List IncrEvent) (call : Call) (tries : Nat)
    (ok : (run (incrStep delta wPol) (.start initial) events).phase call = .returned citrusleafOk tries) :
    let s := run (incrStep delta wPol) (.start initial) events
    s.bin = binWithout delta initial s call + s.appliedBy call • delta call ∧
      1 ≤ s.appliedBy call ∧ s.appliedBy call ≤ tries ∧ (wPol call ≠ .retry → s.appliedBy call = 1) := by
  intro s
  have inv : Inv delta wPol initial s := Inv.run events
  have answered := inv.returned call tries ok
  have some_applied : 1 ≤ s.appliedBy call := List.countP_pos_iff.mpr ⟨_,answered,by simp⟩
  have most : s.appliedBy call ≤ tries := by
    have bound := inv.appliedBy_le call
    rwa [ok] at bound
  refine ⟨?_,some_applied,most,?_⟩
  · rw [inv.bin,sum_applied delta s.applied call,binWithout,IncrState.appliedBy,add_assoc]
  · intro once
    have single : Phase.Single (.returned citrusleafOk tries) := ok ▸ inv.single call once
    have first : tries = 1 := by simpa [Phase.Single] using single
    omega

end

/-- The response to the first request is lost after the server has applied it. -/
def lostResponse : List IncrEvent :=
  [.write 0 0 false,.arrive 0,.readFails 0 110 false,.write 0 0 false,.arrive 0,.respond 0 true]

theorem increments_applied_lost :
    let s := run (incrStep (fun _ => 5#64) fun _ => .retry) (.start 0#64) lostResponse
    s.bin = binWithout (fun _ => 5#64) 0 s 0 + s.appliedBy 0 • 5#64 ∧ 1 ≤ s.appliedBy 0 ∧ s.appliedBy 0 ≤ 2 ∧
      (ClWritePolicy.retry ≠ .retry → s.appliedBy 0 = 1) :=
  increments_applied (fun _ => 5#64) (fun _ => .retry) 0 lostResponse 0 2 (by decide)

/-- The request sent again adds a second time. -/
theorem increment_applied_twice : ¬∀ events tries,
    (run (incrStep (fun _ => 5#64) fun _ => .retry) (.start 0#64) events).phase 0 =
      .returned citrusleafOk tries →
    (run (incrStep (fun _ => 5#64) fun _ => .retry) (.start 0#64) events).bin = 0#64 + 5#64 := by
  intro exact_
  exact absurd (exact_ lostResponse 2 (by decide)) (by decide)

end Citrusleaf.Increment
