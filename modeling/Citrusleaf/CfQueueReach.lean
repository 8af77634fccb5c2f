import Citrusleaf.CfQueueFifo
import Mathlib.Data.Set.List

/-! The states that the functions of cf_queue.c reach, whatever the allocator answers. The
buffer is there, or a growth in place has lost it from a full queue; the offsets, which come
round at `2 ^ 32`, are never further apart than the slots. -/
namespace Citrusleaf
open Lib

namespace CfQueue

inductive Reached {elementsz : Nat} : CfQueue elementsz → Prop where
  | create {malloc : Malloc} {q : CfQueue elementsz} (created : cfQueueCreate elementsz malloc = some q) : Reached q
  | push {malloc : Malloc} {q after : CfQueue elementsz} (reached : Reached q)
      (pushed : cfQueuePush malloc q ptr = some (rv,after)) : Reached after
  | pushLimit {malloc : Malloc} {q after : CfQueue elementsz} (reached : Reached q)
      (pushed : cfQueuePushLimit malloc q ptr limit = some (done,after)) : Reached after
  | pop {q after : CfQueue elementsz} (reached : Reached q) (popped : cfQueuePop q = some (rv,buf,after)) : Reached after
  | delete {q after : CfQueue elementsz} (reached : Reached q)
      (deleted : cfQueueDelete q buf onlyOne = some (rv,after)) : Reached after
  | reduce {σ : Type} {cb : CfQueueReduceFn σ} {udata left : σ} {q after : CfQueue elementsz} (reached : Reached q)
      (reduced : cfQueueReduce q cb udata = some (rv,left,after)) : Reached after

variable {elementsz : Nat} {q after : CfQueue elementsz} {malloc : Malloc}

def Owned (q : CfQueue elementsz) : Prop := q.queue.length = q.allocsz * elementsz

/-- `realloc` failed, and its null pointer was stored. -/
structure Lost (q : CfQueue elementsz) : Prop where
  null : q.queue = []
  full : q.sz = q.allocsz
  aligned : q.readOffset % q.allocsz = 0

structure Valid (q : CfQueue elementsz) : Prop where
  positive : 0 < q.allocsz
  multiple : cfQueueAllocsz ∣ q.allocsz
  word : q.allocsz < 2 ^ 32
  buffer : q.Owned ∨ q.Lost
  read : q.readOffset < 2 ^ 32
  write : q.writeOffset < 2 ^ 32
  room : q.sz ≤ q.allocsz

/-! ### Pushing -/

/-- All a resize can do. -/
theorem resize_cases (resized : cfQueueResize malloc q n = some (rv,after)) :
    (rv = 0 ∧ after = ⟨n,q.allocsz,0,after.queue⟩ ∧ after.Owned) ∨ (rv = -1 ∧ (after = q ∨
      q.sz = q.allocsz ∧ q.readOffset % q.allocsz = 0 ∧ after = {q with queue := []})) := by
  rw [cfQueueResize] at resized
  split at resized
  · obtain ⟨rfl,rfl⟩ := Prod.mk.inj (Option.some.inj resized)
    exact .inr ⟨rfl,.inl rfl⟩
  rename_i full
  split at resized
  · rename_i aligned
    cases given : reallocBlock malloc q.queue (n * elementsz) with
    | none =>
      rw [given] at resized
      obtain ⟨rfl,rfl⟩ := Prod.mk.inj (Option.some.inj resized)
      exact .inr ⟨rfl,.inr ⟨not_not.mp full,aligned,rfl⟩⟩
    | some block =>
      rw [given] at resized
      obtain ⟨rfl,rfl⟩ := Prod.mk.inj (Option.some.inj resized)
      obtain ⟨new,got,rfl⟩ := Option.map_eq_some_iff.mp given
      refine .inl ⟨rfl,rfl,?_⟩
      rw [Owned,List.length_append,List.length_take,List.length_drop,mallocBlock_length got]
      dsimp only
      omega
  · cases given : mallocBlock malloc (n * elementsz) with
    | none =>
      rw [given] at resized
      obtain ⟨rfl,rfl⟩ := Prod.mk.inj (Option.some.inj resized)
      exact .inr ⟨rfl,.inl rfl⟩
    | some block =>
      rw [given] at resized
      obtain ⟨front,_,resized⟩ := Option.bind_eq_some_iff.mp resized
      obtain ⟨one,wroteOne,resized⟩ := Option.bind_eq_some_iff.mp resized
      obtain ⟨back,_,resized⟩ := Option.bind_eq_some_iff.mp resized
      obtain ⟨two,wroteTwo,resized⟩ := Option.bind_eq_some_iff.mp resized
      obtain ⟨rfl,rfl⟩ := Prod.mk.inj (Option.some.inj resized)
      refine .inl ⟨rfl,rfl,?_⟩
      rw [Owned,← (writeBytes_agree wroteTwo).size,← (writeBytes_agree wroteOne).size]
      exact mallocBlock_length given

/-- A store needs a buffer, and takes a slot. -/
theorem store_cases (positive : 0 < elementsz) (stored : cfQueueStore q ptr = some after) :
    after.allocsz = q.allocsz ∧ after.queue.length = q.queue.length ∧ q.queue ≠ [] ∧
      (0 < q.allocsz → q.allocsz < 2 ^ 32 → q.readOffset < 2 ^ 32 → q.sz < q.allocsz →
        after.readOffset < 2 ^ 32 ∧ after.writeOffset < 2 ^ 32 ∧ after.sz ≤ q.allocsz) := by
  obtain ⟨block,written,stored⟩ := Option.bind_eq_some_iff.mp stored
  obtain rfl := Option.some.inj stored
  have size := (writeBytes_agree written).size
  have some : q.queue ≠ [] := by
    intro null
    rw [null,writeBytes,Vector.length_toList,List.length_nil,if_neg (by omega)] at written
    cases written
  refine ⟨?_,?_,some,fun slots word read space => ?_⟩
  · split <;> rfl
  · split
    · exact size.symm
    · exact size.symm
  · have start := Nat.mod_lt q.readOffset slots
    rw [CfQueue.sz] at space
    split
    · refine ⟨?_,?_,?_⟩
      all_goals
        simp only [cfQueueUnwrap,CfQueue.sz]
        omega
    · refine ⟨read,?_,?_⟩
      all_goals
        simp only [CfQueue.sz]
        omega

/-- A slot is left, or no buffer where the number of slots wrapped to zero. -/
def Roomy (q : CfQueue elementsz) : Prop := q.queue = [] ∨ (q.Valid ∧ q.sz < q.allocsz)

theorem grow_valid (valid : q.Valid) (grown : cfQueueGrow malloc q = some (rv,after)) :
    if rv = 0 then after.Roomy else after.Valid := by
  have word := valid.word
  have room := valid.room
  rw [cfQueueGrow] at grown
  split at grown
  · rename_i full
    rcases resize_cases grown with ⟨rfl,shape,owned⟩ | ⟨rfl,rfl | ⟨_,aligned,rfl⟩⟩
    · obtain ⟨slots,multiple⟩ := valid.multiple
      rw [cfQueueAllocsz] at shape multiple
      rw [Owned] at owned
      by_cases fits : q.allocsz + 64 < 2 ^ 32
      · rw [Nat.mod_eq_of_lt fits] at shape
        have size : after.allocsz = q.allocsz + 64 := by rw [shape]
        have first : after.readOffset = 0 := by rw [shape]
        have last : after.writeOffset = q.allocsz := by rw [shape]
        have held : after.sz = q.allocsz := by
          rw [CfQueue.sz,first,last]
          omega
        refine .inr ⟨⟨by omega,⟨slots + 1,?_⟩,by omega,.inl owned,by omega,by omega,by omega⟩,by omega⟩
        rw [size,multiple,Nat.mul_succ,cfQueueAllocsz]
      · have none : (q.allocsz + 64) % 2 ^ 32 = 0 := by omega
        have size : after.allocsz = 0 := by rw [shape,none]
        rw [size,Nat.zero_mul] at owned
        exact .inl (List.eq_nil_of_length_eq_zero owned)
    · exact valid
    · exact ⟨valid.positive,valid.multiple,word,.inr ⟨rfl,full,aligned⟩,valid.read,valid.write,room⟩
  · rename_i space
    obtain ⟨rfl,rfl⟩ := Prod.mk.inj (Option.some.inj grown)
    exact .inr ⟨valid,by omega⟩

theorem store_valid (positive : 0 < elementsz) (roomy : q.Roomy) (stored : cfQueueStore q ptr = some after) :
    after.Valid := by
  obtain ⟨same,length,some,offsets⟩ := store_cases positive stored
  rcases roomy with null | ⟨valid,slot⟩
  · exact absurd null some
  obtain ⟨read,write,room⟩ := offsets valid.positive valid.word valid.read slot
  refine ⟨same ▸ valid.positive,same ▸ valid.multiple,same ▸ valid.word,?_,read,write,same ▸ room⟩
  rcases valid.buffer with owned | lost
  · exact .inl (by rw [Owned,length,same]; exact owned)
  · exact absurd lost.null some

/-- What the two push functions do once they go on. -/
theorem grow_store_valid (positive : 0 < elementsz) (valid : q.Valid) {failed done : β}
    (pushed : ((cfQueueGrow malloc q).bind fun (rv,q) =>
      if rv ≠ 0 then some (failed,q) else (cfQueueStore q ptr).bind fun q => some (done,q)) = some (result,after)) : after.Valid := by
  obtain ⟨⟨code,next⟩,grown,pushed⟩ := Option.bind_eq_some_iff.mp pushed
  have grown := grow_valid valid grown
  dsimp only at pushed
  split at pushed
  · rename_i failed
    obtain ⟨_,rfl⟩ := Prod.mk.inj (Option.some.inj pushed)
    rwa [if_neg failed] at grown
  · rename_i done
    obtain ⟨last,stored,pushed⟩ := Option.bind_eq_some_iff.mp pushed
    obtain ⟨_,rfl⟩ := Prod.mk.inj (Option.some.inj pushed)
    rw [if_pos (not_not.mp done)] at grown
    exact store_valid positive grown stored

theorem push_valid (positive : 0 < elementsz) (valid : q.Valid) (pushed : cfQueuePush malloc q ptr = some (rv,after)) :
    after.Valid :=
  grow_store_valid positive valid pushed

theorem push_limit_valid (positive : 0 < elementsz) (valid : q.Valid)
    (pushed : cfQueuePushLimit malloc q ptr limit = some (done,after)) : after.Valid := by
  rw [cfQueuePushLimit] at pushed
  split at pushed
  · obtain ⟨_,rfl⟩ := Prod.mk.inj (Option.some.inj pushed)
    exact valid
  · exact grow_store_valid positive valid pushed

theorem create_valid (created : cfQueueCreate elementsz malloc = some q) : q.Valid := by
  obtain ⟨block,given,rfl⟩ := Option.map_eq_some_iff.mp created
  exact ⟨by simp [cfQueueAllocsz],⟨1,rfl⟩,by simp [cfQueueAllocsz],.inl (mallocBlock_length given),by simp,by simp,
    by simp [CfQueue.sz]⟩

/-! ### Popping and deleting -/

/-- An element can only be read where there is a buffer. -/
theorem Valid.read_owned (positive : 0 < elementsz) (valid : q.Valid)
    (got : readBytes q.queue p elementsz = some element) : q.Owned := by
  rcases valid.buffer with owned | lost
  · exact owned
  · rw [lost.null,readBytes,List.length_nil,if_neg (by omega)] at got
    cases got

/-- Offsets that move towards each other keep a queue valid. -/
theorem Valid.moved (valid : q.Valid) (owned : q.Owned) (same : after.allocsz = q.allocsz)
    (length : after.queue.length = q.queue.length) (read : after.readOffset < 2 ^ 32) (write : after.writeOffset < 2 ^ 32)
    (less : after.sz ≤ q.sz) : after.Valid :=
  ⟨same ▸ valid.positive,same ▸ valid.multiple,same ▸ valid.word,.inl (by rw [Owned,length,same]; exact owned),
    read,write,same ▸ Nat.le_trans less valid.room⟩

theorem pop_valid (positive : 0 < elementsz) (valid : q.Valid) (popped : cfQueuePop q = some (rv,buf,after)) :
    after.Valid := by
  rw [cfQueuePop] at popped
  split at popped
  · obtain ⟨_,same⟩ := Prod.mk.inj (Option.some.inj popped)
    obtain ⟨_,rfl⟩ := Prod.mk.inj same
    exact valid
  · rename_i some
    obtain ⟨element,got,popped⟩ := Option.bind_eq_some_iff.mp popped
    obtain ⟨_,same⟩ := Prod.mk.inj (Option.some.inj popped)
    obtain ⟨_,rfl⟩ := Prod.mk.inj same
    have owned := valid.read_owned positive got
    have read := valid.read
    have write := valid.write
    simp only [CfQueue.empty,decide_eq_true_eq] at some
    split
    · exact valid.moved owned rfl rfl (by simp) (by simp) (by simp [CfQueue.sz])
    · refine valid.moved owned rfl rfl ?_ write ?_
      all_goals
        simp only [CfQueue.sz]
        omega

/-- A deletion between the offsets. -/
theorem delete_offset_valid (valid : q.Valid) (owned : q.Owned) (inside : q.readOffset < q.writeOffset)
    (deleted : cfQueueDeleteOffset q i = some after) : after.Valid ∧ after.readOffset ≤ q.readOffset + 1 := by
  have write := valid.write
  have moves : after.allocsz = q.allocsz ∧ after.queue.length = q.queue.length ∧
      (after.readOffset = (q.readOffset + 1) % 2 ^ 32 ∧ after.writeOffset = q.writeOffset ∨
        after.readOffset = q.readOffset ∧ after.writeOffset = (q.writeOffset + (2 ^ 32 - 1)) % 2 ^ 32 ∨
        after.readOffset = q.readOffset ∧ after.writeOffset = q.writeOffset) := by
    rw [cfQueueDeleteOffset] at deleted
    split at deleted
    · obtain rfl := Option.some.inj deleted
      exact ⟨rfl,rfl,.inl ⟨rfl,rfl⟩⟩
    split at deleted
    · obtain rfl := Option.some.inj deleted
      exact ⟨rfl,rfl,.inr (.inl ⟨rfl,rfl⟩)⟩
    split at deleted
    · obtain ⟨block,moved,deleted⟩ := Option.bind_eq_some_iff.mp deleted
      obtain ⟨_,_,written⟩ := Option.bind_eq_some_iff.mp moved
      obtain rfl := Option.some.inj deleted
      exact ⟨rfl,(writeBytes_agree written).size.symm,.inl ⟨rfl,rfl⟩⟩
    split at deleted
    · obtain ⟨block,moved,deleted⟩ := Option.bind_eq_some_iff.mp deleted
      obtain ⟨_,_,written⟩ := Option.bind_eq_some_iff.mp moved
      obtain rfl := Option.some.inj deleted
      exact ⟨rfl,(writeBytes_agree written).size.symm,.inr (.inl ⟨rfl,rfl⟩)⟩
    · obtain rfl := Option.some.inj deleted
      exact ⟨rfl,rfl,.inr (.inr ⟨rfl,rfl⟩)⟩
  obtain ⟨same,length,offsets⟩ := moves
  refine ⟨valid.moved owned same length (by omega) (by omega) ?_,by omega⟩
  simp only [CfQueue.sz]
  omega

/-- The offset of the next turn of a loop that deletes. -/
theorem Valid.next_turn (valid : q.Valid) (before : i < q.writeOffset) : (i + 1) % 2 ^ 32 = i + 1 :=
  Nat.mod_eq_of_lt (Nat.lt_of_le_of_lt before valid.write)

theorem delete_from_valid (positive : 0 < elementsz) (valid : q.Valid) (inside : q.readOffset ≤ i)
    (deleted : deleteFrom buf onlyOne turns i found q = some (result,after)) : after.Valid := by
  induction turns generalizing i found q with
  | zero =>
    obtain ⟨_,rfl⟩ := Prod.mk.inj (Option.some.inj deleted)
    exact valid
  | succ turns ih =>
    rw [deleteFrom] at deleted
    split at deleted
    · rename_i before
      obtain ⟨element,got,deleted⟩ := Option.bind_eq_some_iff.mp deleted
      have owned := valid.read_owned positive got
      rw [valid.next_turn before] at deleted
      split at deleted
      · obtain ⟨gone,one,deleted⟩ := Option.bind_eq_some_iff.mp deleted
        obtain ⟨kept,read⟩ := delete_offset_valid valid owned (Nat.lt_of_le_of_lt inside before) one
        split at deleted
        · obtain ⟨_,rfl⟩ := Prod.mk.inj (Option.some.inj deleted)
          exact kept
        · exact ih kept (Nat.le_trans read (Nat.succ_le_succ inside)) deleted
      · exact ih valid (Nat.le_succ_of_le inside) deleted
    · obtain ⟨_,rfl⟩ := Prod.mk.inj (Option.some.inj deleted)
      exact valid

theorem reduce_from_valid (positive : 0 < elementsz) (valid : q.Valid) (inside : q.readOffset ≤ i)
    (reduced : reduceFrom cb turns i udata q = some (left,after)) : after.Valid := by
  induction turns generalizing i udata with
  | zero =>
    obtain ⟨_,rfl⟩ := Prod.mk.inj (Option.some.inj reduced)
    exact valid
  | succ turns ih =>
    rw [reduceFrom] at reduced
    split at reduced
    · rename_i before
      obtain ⟨element,got,reduced⟩ := Option.bind_eq_some_iff.mp reduced
      dsimp only at reduced
      split at reduced
      · obtain ⟨_,rfl⟩ := Prod.mk.inj (Option.some.inj reduced)
        exact valid
      split at reduced
      · obtain ⟨gone,one,reduced⟩ := Option.bind_eq_some_iff.mp reduced
        obtain ⟨_,rfl⟩ := Prod.mk.inj (Option.some.inj reduced)
        exact (delete_offset_valid valid (valid.read_owned positive got) (Nat.lt_of_le_of_lt inside before) one).1
      · rw [valid.next_turn before] at reduced
        exact ih (Nat.le_succ_of_le inside) reduced
    · obtain ⟨_,rfl⟩ := Prod.mk.inj (Option.some.inj reduced)
      exact valid

theorem Reached.valid (positive : 0 < elementsz) (reached : q.Reached) : q.Valid := by
  induction reached with
  | create created => exact create_valid created
  | push _ pushed ih => exact push_valid positive ih pushed
  | pushLimit _ pushed ih => exact push_limit_valid positive ih pushed
  | pop _ popped ih => exact pop_valid positive ih popped
  | delete _ deleted ih =>
    obtain ⟨⟨found,last⟩,search,deleted⟩ := Option.bind_eq_some_iff.mp deleted
    obtain ⟨_,rfl⟩ := Prod.mk.inj (Option.some.inj deleted)
    exact delete_from_valid positive ih (Nat.le_refl _) search
  | reduce _ reduced ih =>
    obtain ⟨⟨udata,last⟩,search,reduced⟩ := Option.bind_eq_some_iff.mp reduced
    obtain ⟨_,same⟩ := Prod.mk.inj (Option.some.inj reduced)
    obtain ⟨_,rfl⟩ := Prod.mk.inj same
    exact reduce_from_valid positive ih (Nat.le_refl _) search

theorem calls_reached (reached : q.Reached) {calls : List (QueueCall elementsz)}
    (made : queueCalls malloc q calls = some (results,after)) : after.Reached := by
  induction calls generalizing q results with
  | nil =>
    obtain ⟨_,rfl⟩ := Prod.mk.inj (Option.some.inj made)
    exact reached
  | cons call calls ih =>
    obtain ⟨⟨result,next⟩,one,made⟩ := Option.bind_eq_some_iff.mp made
    obtain ⟨⟨results,last⟩,others,made⟩ := Option.bind_eq_some_iff.mp made
    obtain ⟨_,rfl⟩ := Prod.mk.inj (Option.some.inj made)
    refine ih ?_ others
    cases call with
    | push ptr =>
      obtain ⟨_,pushed,same⟩ := Option.map_eq_some_iff.mp one
      cases same
      exact .push reached pushed
    | pushLimit ptr limit =>
      obtain ⟨_,pushed,same⟩ := Option.map_eq_some_iff.mp one
      cases same
      exact .pushLimit reached pushed
    | pop =>
      obtain ⟨_,popped,same⟩ := Option.map_eq_some_iff.mp one
      cases same
      exact .pop reached popped
    | delete buf =>
      obtain ⟨_,deleted,same⟩ := Option.map_eq_some_iff.mp one
      cases same
      exact .delete reached deleted

/-- What a run of calls on a new queue leaves. -/
theorem run_reached (malloc : Malloc) (calls : List (QueueCall elementsz))
    (made : (queueRun malloc calls).map Prod.snd = some q) : q.Reached := by
  obtain ⟨⟨results,after⟩,ran,rfl⟩ := Option.map_eq_some_iff.mp made
  obtain ⟨new,created,called⟩ := Option.bind_eq_some_iff.mp ran
  exact calls_reached (.create created) called

/-- A queue with its buffer holds some elements, where its offsets have not come round. -/
theorem Valid.spans (valid : q.Valid) (owned : q.Owned) (order : q.readOffset ≤ q.writeOffset) : ∃ l, q.Spans l := by
  have width : ∀ cell ∈ window (cellAt elementsz q.queue) q.allocsz q.readOffset q.sz,
      cell ∈ Set.range (Vector.toList : Element elementsz → List UInt8) := by
    intro cell member
    obtain ⟨k,_,rfl⟩ := List.mem_map.mp member
    have length := @cells_length elementsz q.allocsz 1 ((q.readOffset + k) % q.allocsz) q.queue
      (Nat.le_of_eq owned.symm) (Nat.mod_lt _ valid.positive)
    rw [Nat.one_mul] at length
    exact ⟨⟨⟨cellAt elementsz q.queue ((q.readOffset + k) % q.allocsz)⟩,length⟩,rfl⟩
  obtain ⟨l,elements⟩ := (Set.range_list_map (Vector.toList : Element elementsz → List UInt8)).symm.subset width
  have length := congrArg List.length elements
  rw [List.length_map,window_length] at length
  have room := valid.room
  have write := valid.write
  have apart : q.writeOffset = q.readOffset + q.sz := by
    rw [CfQueue.sz]
    omega
  rw [← length] at apart room elements
  exact ⟨l,owned,valid.positive,apart,write,room,elements.symm⟩

/-! ### Growth that fails -/

/-- The queue is as if a call had not been made, with its buffer. -/
structure Intact (before after : CfQueue elementsz) : Prop where
  owned : after.Owned
  contents : after.contents = before.contents
  state : after = before

end CfQueue

variable {elementsz : Nat} {q : CfQueue elementsz} {malloc : Malloc}

/-- The queue that a priority stands for. -/
def CfQueuePriority.queueAt (p : CfQueuePriority elementsz) (pri : Int) : Option (CfQueue elementsz) :=
  if pri = cfQueuePriorityHigh then some p.highQ
  else if pri = cfQueuePriorityMedium then some p.mediumQ
  else if pri = cfQueuePriorityLow then some p.lowQ
  else none

/-- Each of the three functions reports that it did not push, and leaves the queues as they were. -/
def FailedPushKeeps (malloc : Malloc) (q : CfQueue elementsz) (ptr : Element elementsz) (limit : UInt32) : Prop :=
  (∃ after, cfQueuePush malloc q ptr = some (-1,after) ∧ q.Intact after) ∧
  (∃ after, cfQueuePushLimit malloc q ptr limit = some (false,after) ∧ q.Intact after) ∧
  ∀ (p : CfQueuePriority elementsz) (pri : Int), p.queueAt pri = some q →
    ∃ after new, cfQueuePriorityPush malloc p ptr pri = some (-1,after) ∧ after.queueAt pri = some new ∧ q.Intact new ∧
      ∀ other ≠ pri, after.queueAt other = p.queueAt other

theorem grow_fails (full : q.sz = q.allocsz) (fails : malloc ((q.allocsz + cfQueueAllocsz) % 2 ^ 32 * elementsz) = none) :
    cfQueueGrow malloc q = some (-1,if q.readOffset % q.allocsz = 0 then {q with queue := []} else q) := by
  have nothing : mallocBlock malloc ((q.allocsz + cfQueueAllocsz) % 2 ^ 32 * elementsz) = none := by
    rw [mallocBlock,fails,Option.map_none]
  rw [cfQueueGrow,if_pos full,cfQueueResize,if_neg (not_not.mpr full),reallocBlock,nothing]
  split <;> rfl

theorem failed_push (full : q.sz = q.allocsz)
    (fails : malloc ((q.allocsz + cfQueueAllocsz) % 2 ^ 32 * elementsz) = none) (ptr : Element elementsz) :
    cfQueuePush malloc q ptr = some (-1,if q.readOffset % q.allocsz = 0 then {q with queue := []} else q) := by
  rw [cfQueuePush,grow_fails full fails]
  rfl

theorem failed_push_limit (full : q.sz = q.allocsz)
    (fails : malloc ((q.allocsz + cfQueueAllocsz) % 2 ^ 32 * elementsz) = none) (ptr : Element elementsz)
    (more : q.sz < limit.toNat) :
    cfQueuePushLimit malloc q ptr limit =
      some (false,if q.readOffset % q.allocsz = 0 then {q with queue := []} else q) := by
  rw [cfQueuePushLimit,if_neg (Nat.not_le.mpr more),grow_fails full fails]
  rfl

/-- A push to a priority queue is a push to one of its queues. -/
theorem priority_push {p : CfQueuePriority elementsz} (at_pri : p.queueAt pri = some q)
    (pushed : cfQueuePush malloc q ptr = some (rv,after)) :
    ∃ last, cfQueuePriorityPush malloc p ptr pri = some (rv,last) ∧ last.queueAt pri = some after ∧
      ∀ other ≠ pri, last.queueAt other = p.queueAt other := by
  rw [CfQueuePriority.queueAt] at at_pri
  rw [cfQueuePriorityPush]
  split at at_pri
  · rename_i high
    obtain rfl := Option.some.inj at_pri
    refine ⟨{p with highQ := after},by rw [if_pos high,pushed]; rfl,by rw [CfQueuePriority.queueAt,if_pos high],
      fun other ne => ?_⟩
    simp only [CfQueuePriority.queueAt,if_neg (high ▸ ne)]
  rename_i high
  split at at_pri
  · rename_i medium
    obtain rfl := Option.some.inj at_pri
    refine ⟨{p with mediumQ := after},by rw [if_neg high,if_pos medium,pushed]; rfl,
      by rw [CfQueuePriority.queueAt,if_neg high,if_pos medium],fun other ne => ?_⟩
    simp only [CfQueuePriority.queueAt,if_neg (medium ▸ ne)]
  rename_i medium
  split at at_pri
  · rename_i low
    obtain rfl := Option.some.inj at_pri
    refine ⟨{p with lowQ := after},by rw [if_neg high,if_neg medium,if_pos low,pushed]; rfl,
      by rw [CfQueuePriority.queueAt,if_neg high,if_neg medium,if_pos low],fun other ne => ?_⟩
    simp only [CfQueuePriority.queueAt,if_neg (low ▸ ne)]
  · cases at_pri

/-- A push whose growth fails leaves the queue as it was exactly if the growth was to copy the
elements. Where the first of them lies at the start of the buffer, it was to grow in place. -/
theorem failed_push_iff (positive : 0 < elementsz) (reached : q.Reached) (full : q.sz = q.allocsz)
    (fails : malloc ((q.allocsz + cfQueueAllocsz) % 2 ^ 32 * elementsz) = none) (ptr : Element elementsz)
    (more : q.sz < limit.toNat) :
    FailedPushKeeps malloc q ptr limit ↔ q.readOffset % q.allocsz ≠ 0 := by
  have valid := reached.valid positive
  have slots := Nat.mul_pos valid.positive positive
  have push := failed_push full fails ptr
  constructor
  · rintro ⟨⟨after,pushed,intact⟩,_⟩ aligned
    rw [if_pos aligned] at push
    obtain ⟨_,rfl⟩ := Prod.mk.inj (Option.some.inj (push.symm.trans pushed))
    have owned := intact.owned
    rw [CfQueue.Owned,List.length_nil] at owned
    dsimp only at owned
    omega
  · intro copies
    have owned : q.Owned := by
      rcases valid.buffer with owned | lost
      · exact owned
      · exact absurd lost.aligned copies
    have intact : q.Intact q := ⟨owned,rfl,rfl⟩
    have limited := failed_push_limit full fails ptr more
    rw [if_neg copies] at push limited
    refine ⟨⟨q,push,intact⟩,⟨q,limited,intact⟩,fun p pri at_pri => ?_⟩
    obtain ⟨after,pushed,new,others⟩ := priority_push at_pri push
    exact ⟨after,q,pushed,new,intact,others⟩

theorem failed_push_iff_sample :
    FailedPushKeeps (fun _ => none) (⟨64,65,1,List.replicate 64 0⟩ : CfQueue 1) #v[7] 100 := by
  have reached : CfQueue.Reached (⟨64,65,1,List.replicate 64 0⟩ : CfQueue 1) :=
    CfQueue.run_reached (fun _ => some fun _ => 0) (List.replicate 64 (.push #v[0]) ++ [.pop,.push #v[0]]) (by decide +kernel)
  exact (failed_push_iff (by decide) reached rfl rfl #v[7] (by decide)).mpr (by decide)

theorem failed_push_loses :
    ∃ q : CfQueue 1, q.Reached ∧ q.sz = q.allocsz ∧ ¬FailedPushKeeps (fun _ => none) q #v[7] 100 := by
  refine ⟨⟨64,64,0,List.replicate 64 0⟩,CfQueue.run_reached (fun _ => some fun _ => 0)
    (List.replicate 64 (.push #v[0])) (by decide +kernel),rfl,?_⟩
  rintro ⟨⟨after,pushed,intact⟩,_⟩
  obtain ⟨_,rfl⟩ := Prod.mk.inj (Option.some.inj ((failed_push rfl rfl #v[7]).symm.trans pushed))
  cases intact.owned

end Citrusleaf
