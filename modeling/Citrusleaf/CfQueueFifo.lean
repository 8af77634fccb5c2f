import Citrusleaf.CfQueue
import Citrusleaf.Fifo
import Citrusleaf.Lib.Ring
import Mathlib.Data.List.InsertIdx

/-! cf_queue.c keeps a first-in first-out list. The elements are the window of the ring
between the offsets; each function moves the window or its cells as the list operation
it stands for does. -/
namespace Citrusleaf
open Lib

variable {elementsz : Nat}

/-- The elements of a queue, oldest first. -/
structure CfQueue.Holds (q : CfQueue elementsz) (l : List (Element elementsz)) : Prop where
  bytes : q.queue.length = q.allocsz * elementsz
  positive : 0 < q.allocsz
  allocated : q.allocsz < 2 ^ 30 + 64
  order : q.writeOffset = q.readOffset + l.length
  word : q.writeOffset < 2 ^ 32
  room : l.length ≤ q.allocsz
  elements : window (cellAt elementsz q.queue) q.allocsz q.readOffset l.length = l.map Vector.toList

/-- The elements of a queue of any size whose offsets have not come round. -/
structure CfQueue.Spans (q : CfQueue elementsz) (l : List (Element elementsz)) : Prop where
  bytes : q.queue.length = q.allocsz * elementsz
  positive : 0 < q.allocsz
  order : q.writeOffset = q.readOffset + l.length
  word : q.writeOffset < 2 ^ 32
  room : l.length ≤ q.allocsz
  elements : window (cellAt elementsz q.queue) q.allocsz q.readOffset l.length = l.map Vector.toList

/-- Between two calls the write offset can count up once more. -/
structure CfQueue.Ready (q : CfQueue elementsz) (l : List (Element elementsz)) : Prop extends q.Holds l where
  spare : q.writeOffset + 1 < 2 ^ 32

namespace CfQueue

variable {q : CfQueue elementsz} {l : List (Element elementsz)}

theorem Holds.spans (holds : Holds q l) : q.Spans l :=
  ⟨holds.bytes,holds.positive,holds.order,holds.word,holds.room,holds.elements⟩

theorem Spans.sz (spans : Spans q l) : q.sz = l.length := by
  have order := spans.order
  have word := spans.word
  rw [CfQueue.sz]
  omega

theorem Holds.sz (holds : Holds q l) : q.sz = l.length := holds.spans.sz

theorem Holds.empty (holds : Holds q l) : q.empty ↔ l = [] := by
  rw [CfQueue.empty,decide_eq_true_eq,holds.order,← List.length_eq_zero_iff]
  omega

theorem Spans.cell (spans : Spans q l) (inside : k < l.length) :
    cellAt elementsz q.queue ((q.readOffset + k) % q.allocsz) = l[k].toList := by
  have same := congrArg (·[k]?) spans.elements
  simp only [window_getElem?,inside,if_true,List.getElem?_map,List.getElem?_eq_getElem,Option.map_some] at same
  exact Option.some.inj same

/-- The element at a position of the list. -/
theorem Spans.read (spans : Spans q l) (inside : k < l.length) :
    readBytes q.queue (q.elemPtr (q.readOffset + k)) elementsz = some l[k].toList := by
  rw [CfQueue.elemPtr,readBytes_cell (Nat.le_of_eq spans.bytes.symm) (Nat.mod_lt _ spans.positive),spans.cell inside]

theorem Holds.read (holds : Holds q l) (inside : k < l.length) :
    readBytes q.queue (q.elemPtr (q.readOffset + k)) elementsz = some l[k].toList := holds.spans.read inside

theorem create_holds {malloc : Malloc} (gives : ∀ n, (malloc n).isSome) :
    ∃ q, cfQueueCreate elementsz malloc = some q ∧ q.Ready [] := by
  obtain ⟨queue,given,length⟩ := mallocBlock_gives gives (cfQueueAllocsz * elementsz)
  refine ⟨_,by rw [cfQueueCreate,given]; rfl,⟨length,?_,?_,rfl,?_,Nat.zero_le _,rfl⟩,?_⟩
  all_goals simp [cfQueueAllocsz]

/-! ### Growing -/

/-- The cells of a full queue after it was laid out from its first element on. -/
theorem Holds.straighten (holds : Holds q l) (full : l.length = q.allocsz) (larger : q.allocsz ≤ n)
    (small : n < 2 ^ 30 + 64) (size : block.length = n * elementsz)
    (same : ∀ k < q.allocsz, cellAt elementsz block k =
      cellAt elementsz q.queue ((q.readOffset + k) % q.allocsz)) :
    Ready (⟨n,q.allocsz,0,block⟩ : CfQueue elementsz) l := by
  have positive := holds.positive
  refine ⟨⟨size,?_,small,by simp [full],?_,?_,?_⟩,?_⟩
  case refine_4 =>
    rw [← holds.elements]
    apply window_congr
    intro k inside
    dsimp only
    rw [Nat.zero_add,Nat.mod_eq_of_lt (by omega)]
    exact same k (by omega)
  all_goals
    dsimp only
    omega

theorem resize_holds {malloc : Malloc} (gives : ∀ n, (malloc n).isSome) (holds : Holds q l)
    (small : q.allocsz * elementsz < 2 ^ 30) (full : l.length = q.allocsz) (larger : q.allocsz ≤ n)
    (less : n < 2 ^ 30 + 64) :
    ∃ block, cfQueueResize malloc q n = some (0,⟨n,q.allocsz,0,block⟩) ∧
      Ready (⟨n,q.allocsz,0,block⟩ : CfQueue elementsz) l := by
  obtain ⟨block,given,length⟩ := mallocBlock_gives gives (n * elementsz)
  have positive := holds.positive
  have fits : q.allocsz * elementsz ≤ n * elementsz := Nat.mul_le_mul_right _ larger
  have bytes := holds.bytes
  rw [cfQueueResize,if_neg (by simp [holds.sz,full])]
  by_cases aligned : q.readOffset % q.allocsz = 0
  · rw [if_pos aligned,reallocBlock,given]
    refine ⟨_,rfl,holds.straighten full larger less ?_ fun k inside => ?_⟩
    · simp only [List.length_append,List.length_take,List.length_drop]
      omega
    · have whole : q.queue.take (n * elementsz) = q.queue := List.take_of_length_le (by omega)
      rw [whole,cellAt_append holds.bytes,if_pos inside,← Nat.mod_add_mod,aligned,Nat.zero_add,
        Nat.mod_eq_of_lt inside]
  · have start := Nat.mod_lt q.readOffset positive
    have cut : (q.allocsz - q.readOffset % q.allocsz) * elementsz + q.readOffset % q.allocsz * elementsz =
        q.allocsz * elementsz := by
      rw [← Nat.add_mul,Nat.sub_add_cancel (by omega)]
    have endsz : (q.allocsz - q.readOffset % q.allocsz) * elementsz % 2 ^ 32 =
        (q.allocsz - q.readOffset % q.allocsz) * elementsz := Nat.mod_eq_of_lt (by omega)
    have rest : q.allocsz * elementsz - (q.allocsz - q.readOffset % q.allocsz) * elementsz =
        q.readOffset % q.allocsz * elementsz := by omega
    -- the elements up to the end of the old ring, then those that had wrapped
    obtain ⟨front,one,back,two,tail,wroteOne,head,wroteTwo,size,cells⟩ :=
      rotateBytes_cells (Nat.le_of_eq bytes.symm) (Nat.le_of_eq length.symm) (Nat.le_of_lt start) larger
    rw [if_neg aligned,given]
    refine ⟨two,?_,holds.straighten full larger less (size.trans length) fun k inside => ?_⟩
    · simp only [CfQueue.elemPtr,endsz,rest,tail,head,wroteOne,wroteTwo,Option.bind_eq_bind,Option.bind_some,
        Option.pure_def]
    · rw [cells k inside,ring_index (Nat.le_of_lt inside) positive]

theorem grow_holds {malloc : Malloc} (gives : ∀ n, (malloc n).isSome) (holds : Ready q l)
    (small : q.allocsz * elementsz < 2 ^ 30) (less : q.allocsz < 2 ^ 30) :
    ∃ after, cfQueueGrow malloc q = some (0,after) ∧ after.Ready l ∧ l.length < after.allocsz ∧
      after.allocsz ≤ q.allocsz + cfQueueAllocsz := by
  have room := holds.room
  rw [cfQueueGrow,holds.sz]
  by_cases full : l.length = q.allocsz
  · have more : (q.allocsz + cfQueueAllocsz) % 2 ^ 32 = q.allocsz + cfQueueAllocsz := by
      rw [cfQueueAllocsz]
      omega
    have larger : q.allocsz < q.allocsz + cfQueueAllocsz := by rw [cfQueueAllocsz]; omega
    rw [if_pos full,more]
    obtain ⟨block,resized,after⟩ := resize_holds (n := q.allocsz + cfQueueAllocsz) gives holds.toHolds small full (Nat.le_of_lt larger)
      (by rw [cfQueueAllocsz]; omega)
    exact ⟨_,resized,after,by dsimp only; omega,Nat.le_refl _⟩
  · rw [if_neg full]
    exact ⟨q,rfl,holds,by omega,Nat.le_add_right _ _⟩

/-! ### Pushing -/

/-- An offset without the two high bits is below them. -/
theorem low_offset (n : Nat) (word : n < 2 ^ 32) (clear : n &&& 0xC0000000 = 0) : n < 2 ^ 30 := by
  apply Nat.lt_pow_two_of_testBit
  intro i high
  by_cases inside : i < 32
  · have both := congrArg (·.testBit i) clear
    have mask : Nat.testBit 0xC0000000 i = true := by
      have two : i = 30 ∨ i = 31 := by omega
      rcases two with rfl | rfl <;> decide
    simpa [Nat.testBit_and,mask] using both
  · exact Nat.testBit_lt_two_pow (Nat.lt_of_lt_of_le word (Nat.pow_le_pow_right (by omega) (Nat.not_lt.mp inside)))

theorem unwrap_holds (holds : Holds q l) : (cfQueueUnwrap q).Ready l := by
  have positive := holds.positive
  have allocated := holds.allocated
  have room := holds.room
  have start := Nat.mod_lt q.readOffset positive
  have order : (q.readOffset % q.allocsz + l.length) % 2 ^ 32 = q.readOffset % q.allocsz + l.length :=
    Nat.mod_eq_of_lt (by omega)
  refine ⟨⟨holds.bytes,positive,allocated,?_,?_,room,?_⟩,?_⟩
  · simp only [cfQueueUnwrap,holds.sz,order]
  · simp only [cfQueueUnwrap,holds.sz,order]
    omega
  · simp only [cfQueueUnwrap,window_mod]
    exact holds.elements
  · simp only [cfQueueUnwrap,holds.sz,order]
    omega

theorem store_holds (holds : Ready q l) (room : l.length < q.allocsz) (e : Element elementsz) :
    ∃ after, cfQueueStore q e = some after ∧ after.Ready (Fifo.push l e) ∧ after.allocsz = q.allocsz := by
  have next : (q.writeOffset + 1) % 2 ^ 32 = q.writeOffset + 1 := Nat.mod_eq_of_lt holds.spare
  obtain ⟨block,written,length,cells⟩ := writeBytes_cells (a := q.writeOffset % q.allocsz) (m := 1) (Nat.le_of_eq holds.bytes.symm)
    (by rw [Vector.length_toList,Nat.one_mul] : e.toList.length = 1 * elementsz) (Nat.mod_lt _ holds.positive)
  have same : cellAt elementsz e.toList 0 = e.toList := by
    rw [cellAt,Nat.zero_mul,List.drop_zero,List.take_of_length_le (by simp)]
  have stored : Holds (⟨q.allocsz,q.writeOffset + 1,q.readOffset,block⟩ : CfQueue elementsz) (Fifo.push l e) := by
    refine ⟨length.trans holds.bytes,holds.positive,holds.allocated,?_,holds.spare,?_,?_⟩
    · simp only [Fifo.push,List.length_append,List.length_singleton,holds.order]
      omega
    · simp only [Fifo.push,List.length_append,List.length_singleton]
      exact room
    · simp only [Fifo.push,List.length_append,List.length_singleton,List.map_append,List.map_singleton]
      rw [← holds.elements]
      apply window_push room
      intro j
      rw [cells,holds.order]
      split
      · rename_i here
        obtain rfl : j = (q.readOffset + l.length) % q.allocsz := by omega
        rw [if_pos rfl,Nat.sub_self,same]
      · rename_i elsewhere
        rw [if_neg (by omega)]
  rw [cfQueueStore,CfQueue.elemPtr,written]
  simp only [Option.bind_eq_bind,Option.bind_some,next,Option.pure_def]
  by_cases clear : (q.writeOffset + 1) &&& 0xC0000000 = 0
  · have low := low_offset _ holds.spare clear
    rw [if_neg (by simpa using clear)]
    exact ⟨_,rfl,⟨stored,by dsimp only; omega⟩,rfl⟩
  · rw [if_pos clear]
    exact ⟨_,rfl,unwrap_holds stored,rfl⟩

theorem push_holds {malloc : Malloc} (gives : ∀ n, (malloc n).isSome) (holds : Ready q l)
    (small : q.allocsz * elementsz < 2 ^ 30) (less : q.allocsz < 2 ^ 30) (e : Element elementsz) :
    ∃ after, cfQueuePush malloc q e = some (0,after) ∧ after.Ready (Fifo.push l e) ∧
      after.allocsz ≤ q.allocsz + cfQueueAllocsz := by
  obtain ⟨grown,grow,ready,room,bound⟩ := grow_holds gives holds small less
  obtain ⟨after,stored,done,same⟩ := store_holds ready room e
  exact ⟨after,by simp [cfQueuePush,grow,stored],done,same ▸ bound⟩

theorem push_limit_holds {malloc : Malloc} (gives : ∀ n, (malloc n).isSome) (holds : Ready q l)
    (small : q.allocsz * elementsz < 2 ^ 30) (less : q.allocsz < 2 ^ 30) (e : Element elementsz)
    (limit : UInt32) :
    ∃ after, cfQueuePushLimit malloc q e limit = some ((Fifo.pushLimit l e limit.toNat).1,after) ∧
      after.Ready (Fifo.pushLimit l e limit.toNat).2 ∧ after.allocsz ≤ q.allocsz + cfQueueAllocsz := by
  by_cases below : l.length < limit.toNat
  · obtain ⟨grown,grow,ready,room,bound⟩ := grow_holds gives holds small less
    obtain ⟨after,stored,done,same⟩ := store_holds ready room e
    refine ⟨after,?_,?_,same ▸ bound⟩
    · simp [cfQueuePushLimit,holds.sz,Nat.not_le.mpr below,grow,stored,Fifo.pushLimit,below]
    · rw [Fifo.pushLimit,if_pos below]
      exact done
  · refine ⟨q,?_,?_,Nat.le_add_right _ _⟩
    · simp [cfQueuePushLimit,holds.sz,Nat.not_lt.mp below,Fifo.pushLimit,below]
    · rw [Fifo.pushLimit,if_neg below]
      exact holds

/-! ### Popping -/

theorem pop_holds (holds : Ready q l) :
    ∃ after, cfQueuePop q = some (if l = [] then cfQueueEmpty else cfQueueOk,(Fifo.pop l).1.map Vector.toList,after) ∧
      after.Ready (Fifo.pop l).2 ∧ after.allocsz = q.allocsz := by
  cases l with
  | nil =>
    have empty := holds.empty.mpr rfl
    exact ⟨q,by simp [cfQueuePop,empty,Fifo.pop],holds,rfl⟩
  | cons e l =>
    have full : ¬q.empty := mt holds.empty.mp (List.cons_ne_nil e l)
    have read := holds.read (k := 0) (Nat.zero_lt_succ _)
    have order := holds.order
    have word := holds.word
    have room := holds.room
    have elements := holds.elements
    rw [List.length_cons] at order room elements
    have next : (q.readOffset + 1) % 2 ^ 32 = q.readOffset + 1 := Nat.mod_eq_of_lt (by omega)
    rw [window_head,List.map_cons] at elements
    have rest := List.cons.inj elements
    have popped : Ready (⟨q.allocsz,q.writeOffset,q.readOffset + 1,q.queue⟩ : CfQueue elementsz) l := by
      refine ⟨⟨holds.bytes,holds.positive,holds.allocated,?_,word,?_,rest.2⟩,holds.spare⟩
      · dsimp only
        omega
      · dsimp only
        omega
    simp only [cfQueuePop,full,Bool.false_eq_true,if_false,Nat.add_zero] at read ⊢
    simp only [read,next,Option.bind_eq_bind,Option.bind_some,Option.pure_def,List.cons_ne_nil,if_false,Fifo.pop,
      Option.map_some,List.getElem_cons_zero]
    refine ⟨_,rfl,?_⟩
    split
    · rename_i empty
      obtain rfl := popped.empty.mp empty
      exact ⟨⟨⟨holds.bytes,holds.positive,holds.allocated,rfl,by simp,Nat.zero_le _,rfl⟩,by simp⟩,rfl⟩
    · exact ⟨popped,rfl⟩

/-! ### Deleting -/

/-- The window after one of its elements is gone; the offsets tell at which end. -/
theorem Spans.erase (spans : Spans q l) (inside : k < l.length) (size : block.length = q.queue.length)
    (order : last = first + (l.length - 1)) (later : last ≤ q.writeOffset)
    (elements : window (cellAt elementsz block) q.allocsz first (l.length - 1) =
      (window (cellAt elementsz q.queue) q.allocsz q.readOffset l.length).eraseIdx k) :
    Spans (⟨q.allocsz,last,first,block⟩ : CfQueue elementsz) (l.eraseIdx k) := by
  have room := spans.room
  have word := spans.word
  have less : (l.eraseIdx k).length = l.length - 1 := List.length_eraseIdx_of_lt inside
  refine ⟨size.trans spans.bytes,spans.positive,?_,?_,?_,?_⟩
  · rw [less]
    exact order
  · dsimp only
    omega
  · dsimp only
    omega
  · rw [less,elements,spans.elements,List.eraseIdx_map]

/-- The four branches of `cf_queue_delete_offset` remove the element they are given. In front of
the last one, one that has not wrapped moves the read offset. -/
theorem delete_offset_spans (spans : Spans q l) (inside : k < l.length) :
    ∃ after, cfQueueDeleteOffset q (q.readOffset + k) = some after ∧ after.Spans (l.eraseIdx k) ∧
      after.allocsz = q.allocsz ∧ after.writeOffset ≤ q.writeOffset ∧ (k + 1 < l.length →
        after.readOffset = if q.readOffset % q.allocsz + k < q.allocsz then q.readOffset + 1 else q.readOffset) := by
  have positive := spans.positive
  have order := spans.order
  have room := spans.room
  have word := spans.word
  have start := Nat.mod_lt q.readOffset positive
  have index := @ring_index q.allocsz q.readOffset k (by omega) positive
  have stop := @ring_index q.allocsz q.readOffset l.length room positive
  have next : (q.readOffset + 1) % 2 ^ 32 = q.readOffset + 1 := Nat.mod_eq_of_lt (by omega)
  have back : (q.writeOffset + (2 ^ 32 - 1)) % 2 ^ 32 = q.writeOffset - 1 := by omega
  rw [← order] at stop
  rw [cfQueueDeleteOffset,next,back]
  by_cases first : (q.readOffset + k) % q.allocsz = q.readOffset % q.allocsz
  · obtain rfl : k = 0 := by
      rw [index] at first
      split at first <;> omega
    rw [if_pos first]
    refine ⟨_,rfl,spans.erase inside rfl (by omega) (Nat.le_refl _) ?_,rfl,Nat.le_refl _,fun _ => (if_pos start).symm⟩
    obtain ⟨len,some⟩ : ∃ len, l.length = len + 1 := ⟨l.length - 1,by omega⟩
    rw [some,window_head]
    rfl
  rw [if_neg first]
  by_cases last : q.writeOffset % q.allocsz ≠ 0 ∧ (q.readOffset + k) % q.allocsz = q.writeOffset % q.allocsz - 1
  · obtain rfl : k = l.length - 1 := by
      rw [index,stop] at last
      split at last <;> split at last <;> omega
    rw [if_pos last]
    refine ⟨_,rfl,spans.erase inside rfl (by omega) (Nat.sub_le _ _) ?_,rfl,Nat.sub_le _ _,fun before => by omega⟩
    obtain ⟨len,some⟩ : ∃ len, l.length = len + 1 := ⟨l.length - 1,by omega⟩
    rw [some,window_succ,Nat.add_sub_cancel,List.eraseIdx_append_of_length_le (by simp)]
    simp
  rw [if_neg last]
  by_cases unwrapped : q.readOffset % q.allocsz + k < q.allocsz
  · -- the elements before the removed one lie before it in the ring too
    rw [if_pos unwrapped] at index
    obtain ⟨block,moved,size,cells⟩ := moveBytes_cells (a := q.readOffset % q.allocsz + 1)
      (b := q.readOffset % q.allocsz) (m := k) (Nat.le_of_eq spans.bytes.symm) (by omega) (by omega)
    have distance : (q.readOffset + k) % q.allocsz - q.readOffset % q.allocsz = k := by omega
    rw [if_pos (by omega),distance,moved]
    refine ⟨_,rfl,spans.erase inside size (by omega) (Nat.le_refl _) ?_,rfl,Nat.le_refl _,
      fun _ => (if_pos unwrapped).symm⟩
    refine window_move_up room inside unwrapped fun j => ?_
    rw [cells]
    split
    · exact congrArg (cellAt elementsz q.queue) (by omega)
    · rfl
  · -- the removed element has wrapped, and so have those behind it
    rw [if_neg unwrapped] at index
    rw [if_neg (by omega)] at stop
    clear first last next back
    obtain ⟨block,moved,size,cells⟩ := moveBytes_cells (a := q.readOffset % q.allocsz + k - q.allocsz)
      (b := q.readOffset % q.allocsz + k - q.allocsz + 1) (m := l.length - k - 1) (Nat.le_of_eq spans.bytes.symm) (by omega) (by omega)
    have distance : q.writeOffset % q.allocsz - (q.readOffset + k) % q.allocsz - 1 = l.length - k - 1 := by omega
    rw [if_neg (by omega),if_pos (by omega),distance,index,moved]
    refine ⟨_,rfl,spans.erase inside size (by omega) (Nat.sub_le _ _) ?_,rfl,Nat.sub_le _ _,
      fun _ => (if_neg unwrapped).symm⟩
    refine window_move_down room inside (Nat.not_lt.mp unwrapped) fun j => ?_
    rw [cells]
    split
    · exact congrArg (cellAt elementsz q.queue) (by omega)
    · rfl

theorem delete_offset_holds (holds : Ready q l) (inside : k < l.length) :
    ∃ after, cfQueueDeleteOffset q (q.readOffset + k) = some after ∧ after.Ready (l.eraseIdx k) ∧
      after.allocsz = q.allocsz := by
  obtain ⟨after,deleted,spans,same,less,_⟩ := delete_offset_spans holds.spans inside
  refine ⟨after,deleted,⟨⟨spans.bytes,spans.positive,?_,spans.order,spans.word,spans.room,spans.elements⟩,?_⟩,same⟩
  · rw [same]
    exact holds.allocated
  · exact Nat.lt_of_le_of_lt (Nat.succ_le_succ less) holds.spare

/-- The search from a position on deletes the first equal element it meets. -/
theorem delete_from (holds : Ready q l) (e : Element elementsz) (left : j + turns = l.length) :
    deleteFrom e true turns (q.readOffset + j) false q =
      if e ∈ l.drop j then (cfQueueDeleteOffset q (q.readOffset + (j + (l.drop j).idxOf e))).map fun q => (true,q)
      else some (false,q) := by
  have order := holds.order
  have word := holds.word
  induction turns generalizing j with
  | zero =>
    have done : l.drop j = [] := List.drop_eq_nil_of_le (by omega)
    simp [deleteFrom,done]
  | succ turns ih =>
    have inside : j < l.length := by omega
    have next : (q.readOffset + j + 1) % 2 ^ 32 = q.readOffset + (j + 1) := Nat.mod_eq_of_lt (by omega)
    rw [deleteFrom,if_pos (by omega),holds.read inside,List.drop_eq_getElem_cons inside]
    simp only [Option.bind_eq_bind,Option.bind_some,Vector.toList_inj]
    by_cases here : l[j] = e
    · simp only [here,if_true,List.mem_cons,true_or,List.idxOf_cons_self,Nat.add_zero,Option.map_eq_bind]
      rfl
    · rw [if_neg here,next,ih (by omega)]
      simp only [List.mem_cons,Ne.symm here,false_or,List.idxOf_cons_ne _ here]
      congr 3
      omega

theorem delete_holds (holds : Ready q l) (e : Element elementsz) :
    ∃ after, cfQueueDelete q e true =
        some (if (Fifo.delete l e).1 then cfQueueOk else cfQueueEmpty,after) ∧
      after.Ready (Fifo.delete l e).2 ∧ after.allocsz = q.allocsz := by
  have search := delete_from holds e (Nat.zero_add l.length)
  rw [Nat.add_zero,List.drop_zero,Nat.zero_add] at search
  rw [cfQueueDelete,holds.sz,search]
  by_cases member : e ∈ l
  · obtain ⟨after,deleted,ready,same⟩ := delete_offset_holds holds (List.idxOf_lt_length_of_mem member)
    refine ⟨after,by simp [member,deleted,Fifo.delete],?_,same⟩
    dsimp only [Fifo.delete]
    rw [List.erase_eq_eraseIdx_of_idxOf rfl]
    exact ready
  · refine ⟨q,by simp [member,Fifo.delete],?_,rfl⟩
    dsimp only [Fifo.delete]
    rw [List.erase_of_not_mem member]
    exact holds

/-! ### Sequences of calls -/

/-- The elements between the offsets, as `cf_queue_pop` would copy them. -/
def contents (q : CfQueue elementsz) : List (List UInt8) :=
  (List.range q.sz).map fun k => (q.queue.drop (q.elemPtr (q.readOffset + k))).take elementsz

theorem Holds.contents (holds : Holds q l) : q.contents = l.map Vector.toList := by
  rw [CfQueue.contents,holds.sz]
  exact holds.elements

end CfQueue

inductive QueueCall (elementsz : Nat) where
  | push (ptr : Element elementsz)
  | pushLimit (ptr : Element elementsz) (limit : UInt32)
  | pop
  /-- With `only_one` set. -/
  | delete (buf : Element elementsz)

/-- What a call returns, and for `cf_queue_pop` what it puts into its buffer. -/
inductive QueueResult where
  | code (rv : Int)
  | pushed (done : Bool)
  | popped (rv : Int) (buf : Option (List UInt8))

def queueCall (malloc : Malloc) (q : CfQueue elementsz) :
    QueueCall elementsz → Option (QueueResult × CfQueue elementsz)
  | .push ptr => (cfQueuePush malloc q ptr).map fun (rv,q) => (.code rv,q)
  | .pushLimit ptr limit => (cfQueuePushLimit malloc q ptr limit).map fun (done,q) => (.pushed done,q)
  | .pop => (cfQueuePop q).map fun (rv,buf,q) => (.popped rv buf,q)
  | .delete buf => (cfQueueDelete q buf true).map fun (rv,q) => (.code rv,q)

/-- The same call on a list. -/
def fifoCall (l : List (Element elementsz)) : QueueCall elementsz → QueueResult × List (Element elementsz)
  | .push ptr => (.code cfQueueOk,Fifo.push l ptr)
  | .pushLimit ptr limit => (.pushed (Fifo.pushLimit l ptr limit.toNat).1,(Fifo.pushLimit l ptr limit.toNat).2)
  | .pop => (.popped (if l = [] then cfQueueEmpty else cfQueueOk) ((Fifo.pop l).1.map Vector.toList),(Fifo.pop l).2)
  | .delete buf => (.code (if (Fifo.delete l buf).1 then cfQueueOk else cfQueueEmpty),(Fifo.delete l buf).2)

def queueCalls (malloc : Malloc) : CfQueue elementsz → List (QueueCall elementsz) →
    Option (List QueueResult × CfQueue elementsz)
  | q,[] => some ([],q)
  | q,call :: calls => do
    let (result,q) ← queueCall malloc q call
    let (results,q) ← queueCalls malloc q calls
    return (result :: results,q)

def fifoCalls : List (Element elementsz) → List (QueueCall elementsz) → List QueueResult × List (Element elementsz)
  | l,[] => ([],l)
  | l,call :: calls =>
    let (result,l) := fifoCall l call
    let (results,l) := fifoCalls l calls
    (result :: results,l)

/-- The calls on a new queue. -/
def queueRun (malloc : Malloc) (calls : List (QueueCall elementsz)) :
    Option (List QueueResult × CfQueue elementsz) := do
  queueCalls malloc (← cfQueueCreate elementsz malloc) calls

variable {q : CfQueue elementsz} {l : List (Element elementsz)}

theorem call_holds {malloc : Malloc} (gives : ∀ n, (malloc n).isSome) (holds : q.Ready l)
    (positive : 0 < elementsz) (small : q.allocsz * elementsz < 2 ^ 30) (call : QueueCall elementsz) :
    ∃ after, queueCall malloc q call = some ((fifoCall l call).1,after) ∧ after.Ready (fifoCall l call).2 ∧
      after.allocsz ≤ q.allocsz + cfQueueAllocsz := by
  have less : q.allocsz < 2 ^ 30 := Nat.lt_of_le_of_lt (Nat.le_mul_of_pos_right _ positive) small
  cases call with
  | push ptr =>
    obtain ⟨after,pushed,ready,grown⟩ := CfQueue.push_holds gives holds small less ptr
    exact ⟨after,by rw [queueCall,pushed]; rfl,ready,grown⟩
  | pushLimit ptr limit =>
    obtain ⟨after,pushed,ready,grown⟩ := CfQueue.push_limit_holds gives holds small less ptr limit
    exact ⟨after,by rw [queueCall,pushed]; rfl,ready,grown⟩
  | pop =>
    obtain ⟨after,popped,ready,same⟩ := CfQueue.pop_holds holds
    exact ⟨after,by rw [queueCall,popped]; rfl,ready,same ▸ Nat.le_add_right _ _⟩
  | delete buf =>
    obtain ⟨after,deleted,ready,same⟩ := CfQueue.delete_holds holds buf
    exact ⟨after,by rw [queueCall,deleted]; rfl,ready,same ▸ Nat.le_add_right _ _⟩

/-- The bytes of the queue stay below a gigabyte, after every call of a run. -/
def StaysSmall (malloc : Malloc) (q : CfQueue elementsz) (calls : List (QueueCall elementsz)) : Prop :=
  ∀ first later, calls = first ++ later → ∀ results after, queueCalls malloc q first = some (results,after) →
    after.allocsz * elementsz < 2 ^ 30

theorem calls_hold {malloc : Malloc} (gives : ∀ n, (malloc n).isSome) (positive : 0 < elementsz)
    (holds : q.Ready l) (calls : List (QueueCall elementsz)) (small : StaysSmall malloc q calls) :
    ∃ after, queueCalls malloc q calls = some ((fifoCalls l calls).1,after) ∧
      after.Ready (fifoCalls l calls).2 := by
  induction calls generalizing q l with
  | nil => exact ⟨q,rfl,holds⟩
  | cons call calls ih =>
    obtain ⟨next,made,ready,_⟩ := call_holds gives holds positive (small [] _ rfl _ _ rfl) call
    have rest : StaysSmall malloc next calls := by
      intro first later parts results after done
      refine small (call :: first) later (by rw [parts,List.cons_append]) ((fifoCall l call).1 :: results) after ?_
      simp [queueCalls,made,done]
    obtain ⟨after,done,last⟩ := ih ready rest
    exact ⟨after,by simp [queueCalls,made,done,fifoCalls],last⟩

/-- Some millions of calls do not fill a gigabyte. -/
theorem stays_small {malloc : Malloc} (gives : ∀ n, (malloc n).isSome) (positive : 0 < elementsz)
    (holds : q.Ready l) (calls : List (QueueCall elementsz))
    (few : (q.allocsz + cfQueueAllocsz * calls.length) * elementsz < 2 ^ 30) : StaysSmall malloc q calls := by
  induction calls generalizing q l with
  | nil =>
    rintro first later parts results after done
    obtain ⟨rfl,rfl⟩ := List.append_eq_nil_iff.mp parts.symm
    obtain ⟨_,rfl⟩ := Prod.mk.inj (Option.some.inj done)
    exact few
  | cons call calls ih =>
    have now : q.allocsz * elementsz < 2 ^ 30 :=
      Nat.lt_of_le_of_lt (Nat.mul_le_mul_right _ (Nat.le_add_right _ _)) few
    rintro first later parts results after done
    cases first with
    | nil =>
      obtain ⟨_,rfl⟩ := Prod.mk.inj (Option.some.inj done)
      exact now
    | cons same first =>
      obtain ⟨rfl,rfl⟩ := List.cons.inj parts
      obtain ⟨next,made,ready,grown⟩ := call_holds gives holds positive now call
      have less : (next.allocsz + cfQueueAllocsz * (first ++ later).length) * elementsz < 2 ^ 30 := by
        refine Nat.lt_of_le_of_lt (Nat.mul_le_mul_right _ ?_) few
        change _ ≤ q.allocsz + cfQueueAllocsz * ((first ++ later).length + 1)
        rw [Nat.mul_succ]
        omega
      obtain ⟨⟨_,next'⟩,again,done⟩ := Option.bind_eq_some_iff.mp done
      obtain ⟨_,rfl⟩ := Prod.mk.inj (Option.some.inj (made.symm.trans again))
      obtain ⟨⟨_,last⟩,rest,done⟩ := Option.bind_eq_some_iff.mp done
      obtain ⟨_,rfl⟩ := Prod.mk.inj (Option.some.inj done)
      exact ih ready less first later rfl _ _ rest

/-- A sequence of calls on a new queue returns what the same calls on an empty list return,
and leaves the elements of that list. -/
theorem queue_is_fifo {malloc : Malloc} (gives : ∀ n, (malloc n).isSome) (positive : 0 < elementsz)
    (calls : List (QueueCall elementsz))
    (small : ∀ q, cfQueueCreate elementsz malloc = some q → StaysSmall malloc q calls) :
    ∃ after, queueRun malloc calls = some ((fifoCalls [] calls).1,after) ∧
      after.contents = (fifoCalls [] calls).2.map Vector.toList := by
  obtain ⟨q,created,ready⟩ := @CfQueue.create_holds elementsz _ gives
  obtain ⟨after,done,last⟩ := calls_hold gives positive ready calls (small q created)
  exact ⟨after,by rw [queueRun,created]; exact done,last.toHolds.contents⟩

theorem queue_is_fifo_sample :
    ∃ after, queueRun (fun _ => some fun _ => 0) [.push #v[1,2],.push #v[3,4],.pop,.delete #v[3,4],.pop] =
        some ([.code 0,.code 0,.popped 0 (some [1,2]),.code 0,.popped (-2) none],after) ∧
      after.contents = [] := by
  apply queue_is_fifo (fun _ => rfl) (by decide)
  intro q created
  obtain ⟨new,same,ready⟩ := @CfQueue.create_holds 2 (fun _ => some fun _ => 0) fun _ => rfl
  obtain rfl := Option.some.inj (same.symm.trans created)
  apply stays_small (fun _ => rfl) (by decide) ready
  obtain rfl := Option.some.inj same
  decide

end Citrusleaf
