import Citrusleaf.CfQueueReach
import Mathlib.Data.List.Chain

/-! The two loops of cf_queue.c that delete where they are. The index of `cf_queue_delete` goes
up by one after every deletion, as the read offset does for elements that have not wrapped;
behind an element that has wrapped, the next one is passed over. `cf_queue_reduce` ends with
its first deletion. -/
namespace Citrusleaf
open Lib

/-! ### Deleting as the loop does it, on a list -/

section Lists

variable {α : Type} [DecidableEq α] {e : α} {l : List α} {n r k : Nat}

/-- Removes equal elements and passes over the element behind each. -/
def skipping (e : α) : List α → List α
  | [] => []
  | [x] => if x = e then [] else [x]
  | x :: next :: rest => if x = e then next :: skipping e rest else x :: skipping e (next :: rest)

/-- The same in a ring of `n` cells with the first element in cell `r`, from position `k` on. As
long as the elements have not wrapped, the window moves instead. -/
def sweep (n : Nat) (e : α) : Nat → Nat → List α → List α
  | _,_,[] => []
  | _,_,[x] => if x = e then [] else [x]
  | r,k,x :: next :: rest =>
    if x = e then
      if r + k < n then sweep n e ((r + 1) % n) k (next :: rest) else next :: sweep n e r (k + 1) rest
    else x :: sweep n e r (k + 1) (next :: rest)

def NotBoth (e x y : α) : Prop := ¬(x = e ∧ y = e)

/-- Every equal element is gone exactly if no two of them are neighbours. -/
theorem skipping_iff : skipping e l = l.filter (· ≠ e) ↔ l.IsChain (NotBoth e) := by
  induction l using skipping.induct e with
  | case1 => simp [skipping]
  | case2 => simp [skipping]
  | case3 x ne => simp [skipping,ne]
  | case4 next rest ih =>
    rw [List.isChain_cons_cons]
    by_cases same : next = e
    · -- the passed over element is one of them
      have kept : next ∈ skipping e (e :: next :: rest) := by simp [skipping]
      constructor
      · intro all
        rw [all,List.mem_filter,same] at kept
        simp at kept
      · rintro ⟨apart,_⟩
        exact absurd ⟨rfl,same⟩ apart
    · have alone : (next :: rest).IsChain (NotBoth e) ↔ rest.IsChain (NotBoth e) := by
        rw [List.isChain_cons]
        simp [NotBoth,same]
      rw [alone,← ih]
      simp [skipping,same,NotBoth]
  | case5 x next rest ne ih =>
    rw [List.isChain_cons_cons,← ih]
    simp [skipping,ne,NotBoth]

theorem sweep_wrapped (wrapped : n ≤ r + k) : sweep n e r k l = skipping e l := by
  induction l using skipping.induct e generalizing k with
  | case1 => simp [sweep,skipping]
  | case2 => simp [sweep,skipping]
  | case3 x h => simp [sweep,skipping,h]
  | case4 next rest ih => simp [sweep,skipping,Nat.not_lt.mpr wrapped,ih (k := k + 1) (by omega)]
  | case5 x next rest ne ih => simp [sweep,skipping,ne,ih (k := k + 1) (by omega)]

/-- Nothing wraps. -/
theorem sweep_straight (fits : r + k + l.length ≤ n) : sweep n e r k l = l.filter (· ≠ e) := by
  induction l generalizing r k with
  | nil => simp [sweep]
  | cons x rest ih =>
    cases rest with
    | nil => by_cases same : x = e <;> simp [sweep,same]
    | cons next rest =>
      simp only [List.length_cons] at fits ih
      by_cases same : x = e
      · have index : (r + 1) % n = r + 1 := Nat.mod_eq_of_lt (by omega)
        have gone := @List.filter_cons_of_neg _ (· ≠ e) x (next :: rest) (by simpa using same)
        rw [sweep,if_pos same,if_pos (by omega),index,ih (by omega),gone]
      · have kept := @List.filter_cons_of_pos _ (· ≠ e) x (next :: rest) (by simpa using same)
        rw [sweep,if_neg same,ih (by omega),kept]

/-- With an element kept in front, the window does not come round. -/
theorem sweep_behind (front : 0 < k) (before : r + k ≤ n) :
    sweep n e r k l = (l.take (n - (r + k))).filter (· ≠ e) ++ skipping e (l.drop (n - (r + k))) := by
  induction l generalizing r k with
  | nil => simp [sweep,skipping]
  | cons x rest ih =>
    by_cases last : r + k = n
    · rw [sweep_wrapped (Nat.le_of_eq last.symm),last]
      simp
    have one : n - (r + k) = n - (r + k + 1) + 1 := by omega
    rw [one,List.take_succ_cons,List.drop_succ_cons]
    cases rest with
    | nil => by_cases same : x = e <;> simp [sweep,skipping,same]
    | cons next rest =>
      by_cases same : x = e
      · have index : (r + 1) % n = r + 1 := Nat.mod_eq_of_lt (by omega)
        have later : r + 1 + k = r + k + 1 := by omega
        rw [sweep,if_pos same,if_pos (by omega),index,ih front (by omega),later]
        simp [same]
      · rw [sweep,if_neg same,ih (Nat.succ_pos k) (by omega),Nat.add_assoc]
        simp [same]

/-- The whole loop. Where all elements that have not wrapped are deleted, the others come to lie
straight before it reaches them. -/
theorem sweep_front (inside : r < n) (room : l.length ≤ n) :
    sweep n e r 0 l = if ∀ x ∈ l.take (n - r), x = e then l.filter (· ≠ e)
      else (l.take (n - r)).filter (· ≠ e) ++ skipping e (l.drop (n - r)) := by
  induction l generalizing r with
  | nil => simp [sweep]
  | cons x rest ih =>
    have one : n - r = n - (r + 1) + 1 := by omega
    rw [one,List.take_succ_cons,List.drop_succ_cons]
    cases rest with
    | nil => by_cases same : x = e <;> simp [sweep,skipping,same]
    | cons next rest =>
      simp only [List.length_cons] at room ih
      by_cases same : x = e
      · by_cases last : r + 1 = n
        · rw [sweep,if_pos same,if_pos (by omega),last,Nat.mod_self,sweep_straight (by simp; omega)]
          simp [same]
        · rw [sweep,if_pos same,if_pos (by omega),Nat.mod_eq_of_lt (by omega),ih (by omega) (by omega)]
          simp [same]
      · rw [sweep,if_neg same,sweep_behind (by decide) (by omega),if_neg]
        · simp [same]
        · intro all
          exact same (all x (by simp))

theorem sweep_iff (inside : r < n) (room : l.length ≤ n) :
    sweep n e r 0 l = l.filter (· ≠ e) ↔
      (∀ x ∈ l.take (n - r), x = e) ∨ (l.drop (n - r)).IsChain (NotBoth e) := by
  rw [sweep_front inside room]
  split
  · rename_i all
    exact iff_of_true rfl (.inl all)
  · rename_i some
    have parts : l.filter (· ≠ e) = (l.take (n - r)).filter (· ≠ e) ++ (l.drop (n - r)).filter (· ≠ e) := by
      rw [← List.filter_append,List.take_append_drop]
    rw [parts,List.append_cancel_left_eq,skipping_iff]
    simp only [some,false_or]

end Lists

/-! ### cf_queue_delete of all -/

variable {elementsz : Nat} {q : CfQueue elementsz} {l front rest : List (Element elementsz)} {e : Element elementsz}

theorem delete_from_every (holds : q.Spans (front ++ rest)) (enough : rest.length ≤ turns) :
    ∃ after, deleteFrom e false turns (q.readOffset + front.length) found q = some (found || rest.contains e,after) ∧
      after.Spans (front ++ sweep q.allocsz e (q.readOffset % q.allocsz) front.length rest) := by
  induction turns generalizing front rest found q with
  | zero =>
    obtain rfl := List.eq_nil_of_length_eq_zero (Nat.le_zero.mp enough)
    exact ⟨q,by simp [deleteFrom],by simpa [sweep] using holds⟩
  | succ turns ih =>
    have order := holds.order
    have word := holds.word
    cases rest with
    | nil =>
      rw [List.append_nil] at order
      exact ⟨q,by rw [deleteFrom,if_neg (by omega)]; simp,by simpa [sweep] using holds⟩
    | cons x rest =>
      simp only [List.length_append,List.length_cons] at order enough
      have before : front.length < (front ++ x :: rest).length := by
        rw [List.length_append,List.length_cons]
        omega
      have next : (q.readOffset + front.length + 1) % 2 ^ 32 = q.readOffset + front.length + 1 :=
        Nat.mod_eq_of_lt (by omega)
      have here : (front ++ x :: rest)[front.length] = x := List.getElem_of_append rfl rfl
      have gone : (front ++ x :: rest).eraseIdx front.length = front ++ rest := by
        rw [List.eraseIdx_append_of_length_le (Nat.le_refl _),Nat.sub_self,List.eraseIdx_cons_zero]
      rw [deleteFrom,if_pos (by omega),holds.read before,here]
      simp only [Option.bind_eq_bind,Option.bind_some,Vector.toList_inj,next]
      by_cases same : x = e
      · obtain ⟨after,deleted,ready,slots,less,moves⟩ := CfQueue.delete_offset_spans holds before
        rw [gone] at ready
        rw [if_pos same,deleted]
        cases rest with
        | nil =>
          rw [List.length_nil] at order
          refine ⟨after,?_,by simpa [sweep,same] using ready⟩
          have stops : deleteFrom e false turns (q.readOffset + front.length + 1) true after = some (true,after) := by
            cases turns with
            | zero => rfl
            | succ => rw [deleteFrom,if_neg (by omega)]
          simp [stops,same]
        | cons y rest =>
          have moved := moves (by simp)
          by_cases straight : q.readOffset % q.allocsz + front.length < q.allocsz
          · -- the window has moved on by one, and the next element is at the same position
            rw [if_pos straight] at moved
            have turn : q.readOffset + front.length + 1 = after.readOffset + front.length := by omega
            obtain ⟨last,done,left⟩ := @ih _ _ _ true ready (by simpa using enough)
            refine ⟨last,?_,?_⟩
            · rw [turn]
              simpa [same] using done
            · rw [sweep,if_pos same,if_pos straight,Nat.mod_add_mod,← moved,← slots]
              exact left
          · -- the next element has moved to where the loop has been
            rw [if_neg straight] at moved
            have turn : q.readOffset + front.length + 1 = after.readOffset + (front ++ [y]).length := by
              simp
              omega
            have split : front ++ y :: rest = (front ++ [y]) ++ rest := by simp
            rw [split] at ready
            obtain ⟨last,done,left⟩ := @ih _ _ _ true ready (by simp at enough; omega)
            refine ⟨last,?_,?_⟩
            · rw [turn]
              simpa [same] using done
            · rw [sweep,if_pos same,if_neg straight,← moved,← slots]
              simpa using left
      · have split : front ++ x :: rest = (front ++ [x]) ++ rest := by simp
        rw [split] at holds
        obtain ⟨after,done,left⟩ := @ih _ _ _ found holds (by omega)
        rw [List.length_append,List.length_singleton,← Nat.add_assoc] at done
        have unequal : ¬e = x := fun same' => same same'.symm
        refine ⟨after,?_,?_⟩
        · rw [if_neg same,done]
          simp [unequal]
        · cases rest with
          | nil => simpa [sweep,same] using left
          | cons y rest =>
            rw [sweep,if_neg same]
            simpa using left

namespace CfQueue

/-- The elements as `cf_queue_pop` would copy them one after the other: its offset comes round. -/
def popOrder (q : CfQueue elementsz) : List (List UInt8) :=
  (List.range q.sz).map fun k => (q.queue.drop (q.elemPtr ((q.readOffset + k) % 2 ^ 32))).take elementsz

theorem Spans.popOrder (spans : q.Spans l) : q.popOrder = l.map Vector.toList := by
  have order := spans.order
  have word := spans.word
  rw [CfQueue.popOrder,spans.sz,← spans.elements,window]
  refine List.map_congr_left fun k member => ?_
  have inside := List.mem_range.mp member
  rw [Nat.mod_eq_of_lt (by omega),CfQueue.elemPtr,cellAt]

/-- The elements that lie behind the first one in the buffer, and those that have wrapped. -/
def unwrapped (q : CfQueue elementsz) : List (List UInt8) := q.popOrder.take (q.allocsz - q.readOffset % q.allocsz)

def wrapped (q : CfQueue elementsz) : List (List UInt8) := q.popOrder.drop (q.allocsz - q.readOffset % q.allocsz)

/-- What `cf_queue_delete` returns and leaves is what deleting from a list does. -/
def DeletesAll (q : CfQueue elementsz) (buf : Element elementsz) : Prop :=
  ∃ after, cfQueueDelete q buf false =
      some (if (Fifo.deleteAll q.popOrder buf.toList).1 then cfQueueOk else cfQueueEmpty,after) ∧
    after.popOrder = (Fifo.deleteAll q.popOrder buf.toList).2

end CfQueue

/-- The result code is that of the list, in every queue with its buffer whose offsets have not come round. -/
theorem delete_every (spans : q.Spans l) (buf : Element elementsz) :
    ∃ after, cfQueueDelete q buf false =
        some (if (Fifo.deleteAll q.popOrder buf.toList).1 then cfQueueOk else cfQueueEmpty,after) ∧
      after.popOrder = (sweep q.allocsz buf (q.readOffset % q.allocsz) 0 l).map Vector.toList := by
  have whole : q.Spans ([] ++ l) := spans
  obtain ⟨after,deleted,ready⟩ := @delete_from_every _ _ _ _ buf _ false whole (Nat.le_of_eq spans.sz.symm)
  refine ⟨after,?_,ready.popOrder⟩
  have same : (l.map Vector.toList).contains buf.toList = l.contains buf := by
    rw [Bool.eq_iff_iff]
    simp [Vector.toList_inj]
  rw [List.length_nil,Nat.add_zero] at deleted
  rw [cfQueueDelete,deleted,Fifo.deleteAll,spans.popOrder,same]
  rfl

/-- Where the write offset has come round alone, the loop takes no turn. -/
theorem delete_none (round : q.writeOffset < q.readOffset) (buf : Element elementsz) :
    cfQueueDelete q buf false = some (cfQueueEmpty,q) := by
  have stops : deleteFrom buf false q.sz q.readOffset false q = some (false,q) := by
    cases q.sz with
    | zero => rfl
    | succ turns => rw [deleteFrom,if_neg (Nat.lt_asymm round)]
  rw [cfQueueDelete,stops]
  rfl

/-- Without its buffer a queue is full, and its first element cannot be read. -/
theorem lost_read (positive : 0 < elementsz) (valid : q.Valid) (order : q.readOffset ≤ q.writeOffset) (lost : q.Lost) :
    ¬q.Owned ∧ (∃ turns, q.sz = turns + 1) ∧ q.readOffset < q.writeOffset ∧
      ∀ p, readBytes q.queue p elementsz = none := by
  have slots := valid.positive
  have full := lost.full
  have write := valid.write
  have size : q.sz = q.writeOffset - q.readOffset := by
    rw [CfQueue.sz]
    omega
  refine ⟨?_,⟨q.sz - 1,by omega⟩,by omega,fun p => ?_⟩
  · have bytes := Nat.mul_pos slots positive
    rw [CfQueue.Owned,lost.null,List.length_nil]
    omega
  · rw [lost.null,readBytes,List.length_nil,if_neg (by omega)]

/-- All equal elements are deleted exactly if those that have not wrapped are all equal, or no two
neighbours of those that have wrapped are; or, where the write offset has come round, if there is none. -/
theorem deletes_all_iff (positive : 0 < elementsz) (reached : q.Reached) (buf : Element elementsz) :
    q.DeletesAll buf ↔
      if q.readOffset ≤ q.writeOffset then
        q.Owned ∧ ((∀ x ∈ q.unwrapped, x = buf.toList) ∨ q.wrapped.IsChain (NotBoth buf.toList))
      else buf.toList ∉ q.popOrder := by
  have valid := reached.valid positive
  by_cases order : q.readOffset ≤ q.writeOffset
  · rw [if_pos order]
    rcases valid.buffer with owned | lost
    · obtain ⟨l,spans⟩ := valid.spans owned order
      obtain ⟨last,deleted,left⟩ := delete_every spans buf
      have contents := spans.popOrder
      have injective := List.map_injective_iff.mpr fun (x y : Element elementsz) => Vector.toList_inj.mp
      have wanted : (Fifo.deleteAll q.popOrder buf.toList).2 = (l.filter (· ≠ buf)).map Vector.toList := by
        rw [Fifo.deleteAll,contents,List.filter_map]
        refine congrArg (List.map Vector.toList) (List.filter_congr fun x _ => ?_)
        rw [Bool.eq_iff_iff]
        simp [Vector.toList_inj]
      have all : (∀ x ∈ q.unwrapped, x = buf.toList) ↔ ∀ x ∈ l.take (q.allocsz - q.readOffset % q.allocsz), x = buf := by
        rw [CfQueue.unwrapped,contents,← List.map_take,List.forall_mem_map]
        simp only [Vector.toList_inj]
      have apart : q.wrapped.IsChain (NotBoth buf.toList) ↔
          (l.drop (q.allocsz - q.readOffset % q.allocsz)).IsChain (NotBoth buf) := by
        have same : (fun x y : Element elementsz => NotBoth buf.toList x.toList y.toList) = NotBoth buf := by
          funext x y
          simp only [NotBoth,Vector.toList_inj]
        rw [CfQueue.wrapped,contents,← List.map_drop,List.isChain_map,same]
      rw [all,apart,← sweep_iff (Nat.mod_lt _ valid.positive) spans.room,← injective.eq_iff,← left,← wanted]
      constructor
      · rintro ⟨after,done,same⟩
        obtain ⟨_,rfl⟩ := Prod.mk.inj (Option.some.inj (deleted.symm.trans done))
        exact ⟨owned,same⟩
      · rintro ⟨_,same⟩
        exact ⟨last,deleted,same⟩
    · obtain ⟨gone,⟨turns,some⟩,before,unread⟩ := lost_read positive valid order lost
      refine iff_of_false ?_ fun met => gone met.1
      rintro ⟨after,done,_⟩
      rw [cfQueueDelete,some,deleteFrom,if_pos before,unread] at done
      cases done
  · rw [if_neg order,CfQueue.DeletesAll,delete_none (Nat.not_le.mp order),Fifo.deleteAll]
    by_cases member : buf.toList ∈ q.popOrder
    · refine iff_of_false ?_ (not_not.mpr member)
      rintro ⟨after,done,_⟩
      rw [if_pos (by simpa using member)] at done
      cases done
    · refine iff_of_true ⟨q,by simp [member],?_⟩ member
      refine (List.filter_eq_self.mpr fun x inside => ?_).symm
      have other : x ≠ buf.toList := fun same => member (same ▸ inside)
      simpa using other

/-- Two bytes that have wrapped, behind zeros. -/
def wrappedPair : CfQueue 1 := ⟨64,66,2,1 :: 1 :: List.replicate 62 0⟩

theorem wrapped_pair_reached : wrappedPair.Reached :=
  CfQueue.run_reached (fun _ => some fun _ => 0)
    (List.replicate 64 (.push #v[0]) ++ [.pop,.pop,.push #v[1],.push #v[1]]) (by decide +kernel)

theorem deletes_all_iff_sample : wrappedPair.DeletesAll #v[0] :=
  (deletes_all_iff (by decide) wrapped_pair_reached #v[0]).mpr (by
    rw [if_pos (by decide)]
    exact ⟨rfl,.inl (by decide +kernel)⟩)

theorem wrapped_pair_kept : wrappedPair.Reached ∧ ¬wrappedPair.DeletesAll #v[1] := by
  refine ⟨wrapped_pair_reached,?_⟩
  rintro ⟨after,deleted,contents⟩
  have one : cfQueueDelete wrappedPair #v[1] false = some (0,{wrappedPair with writeOffset := 65}) := by decide +kernel
  obtain ⟨_,rfl⟩ := Prod.mk.inj (Option.some.inj (one.symm.trans deleted))
  revert contents
  decide +kernel

/-! ### cf_queue_reduce -/

section Reduce

variable {α σ : Type}

/-- What the loop leaves of a list, which ends with its first removal. -/
def removeOnce (cb : α → σ → Int × σ) : List α → σ → σ × List α
  | [],udata => (udata,[])
  | x :: l,udata =>
    if (cb x udata).1 = -1 then ((cb x udata).2,x :: l)
    else if (cb x udata).1 = -2 then ((cb x udata).2,l)
    else ((removeOnce cb l (cb x udata).2).1,x :: (removeOnce cb l (cb x udata).2).2)

/-- The callback, called on one element after another until it first answers -1 or -2, answers -2
for the last one only. -/
def RemovesLast (cb : α → σ → Int × σ) : List α → σ → Prop
  | [],_ => True
  | x :: l,udata =>
    if (cb x udata).1 = -1 then True
    else if (cb x udata).1 = -2 then l = []
    else RemovesLast cb l (cb x udata).2

/-- The callback that also notes what it is given. -/
def noting (cb : α → σ → Int × σ) (x : α) (udata : σ × List α) : Int × σ × List α :=
  ((cb x udata.1).1,(cb x udata.1).2,udata.2 ++ [x])

/-- The first element is shown to the callback. -/
theorem reduce_shows {l : List α} (cb : α → σ → Int × σ) (some : l ≠ []) (udata : σ) : (Fifo.reduce cb l udata).2.1 ≠ [] := by
  cases l with
  | nil => exact absurd rfl some
  | cons x l =>
    rw [Fifo.reduce]
    split <;> simp

theorem remove_once_iff (cb : α → σ → Int × σ) (l : List α) (udata : σ) (shown : List α) :
    removeOnce (noting cb) l (udata,shown) =
        (((Fifo.reduce cb l udata).1,shown ++ (Fifo.reduce cb l udata).2.1),(Fifo.reduce cb l udata).2.2) ↔
      RemovesLast cb l udata := by
  induction l generalizing udata shown with
  | nil => simp [removeOnce,Fifo.reduce,RemovesLast]
  | cons x l ih =>
    by_cases stop : (cb x udata).1 = -1
    · simp [removeOnce,Fifo.reduce,RemovesLast,noting,stop]
    by_cases remove : (cb x udata).1 = -2
    · cases l with
      | nil => simp [removeOnce,Fifo.reduce,RemovesLast,noting,remove]
      | cons y rest =>
        -- the next element is shown to the callback on the list
        have more := reduce_shows cb (List.cons_ne_nil y rest) (cb x udata).2
        simp [removeOnce,Fifo.reduce,RemovesLast,noting,remove] at more ⊢
        intro _ none
        exact absurd none more
    · simp only [removeOnce,Fifo.reduce,RemovesLast,noting,stop,remove,if_false]
      rw [← ih (cb x udata).2 (shown ++ [x])]
      simp [Prod.ext_iff]

end Reduce

variable {σ : Type}

theorem reduce_from (holds : q.Spans l) (cb : CfQueueReduceFn σ) (udata : σ) (left : k + turns = l.length) :
    ∃ after, reduceFrom cb turns (q.readOffset + k) udata q =
        some ((removeOnce cb ((l.drop k).map Vector.toList) udata).1,after) ∧
      after.popOrder = (l.take k).map Vector.toList ++ (removeOnce cb ((l.drop k).map Vector.toList) udata).2 := by
  have order := holds.order
  have word := holds.word
  have contents := holds.popOrder
  induction turns generalizing k udata with
  | zero =>
    have done : l.drop k = [] := List.drop_eq_nil_of_le (by omega)
    have whole : l.take k = l := List.take_of_length_le (by omega)
    exact ⟨q,by simp [reduceFrom,done,removeOnce],by simp [done,whole,removeOnce,contents]⟩
  | succ turns ih =>
    have inside : k < l.length := by omega
    rw [reduceFrom,if_pos (by omega),holds.read inside,List.drop_eq_getElem_cons inside]
    simp only [Option.bind_eq_bind,Option.bind_some,List.map_cons,removeOnce]
    split
    · refine ⟨q,rfl,?_⟩
      rw [contents,← List.map_cons,← List.drop_eq_getElem_cons inside,← List.map_append,List.take_append_drop]
    split
    · obtain ⟨after,deleted,spans,_⟩ := CfQueue.delete_offset_spans holds inside
      refine ⟨after,by rw [deleted]; rfl,?_⟩
      rw [spans.popOrder,List.eraseIdx_eq_take_drop_succ,List.map_append]
    · cases turns with
      | zero =>
        have done : l.drop (k + 1) = [] := List.drop_eq_nil_of_le (by omega)
        refine ⟨q,by simp [reduceFrom,done,removeOnce],?_⟩
        have whole : l.take (k + 1) = l := List.take_of_length_le (by omega)
        rw [done,contents,List.map_nil,removeOnce,← List.map_singleton,← List.map_append,← List.take_succ_eq_append_getElem inside,whole]
      | succ turns =>
        have next : (q.readOffset + k + 1) % 2 ^ 32 = q.readOffset + (k + 1) := Nat.mod_eq_of_lt (by omega)
        obtain ⟨after,done,kept⟩ := ih (cb l[k].toList udata).2 (k := k + 1) (by omega)
        refine ⟨after,by rw [next]; exact done,?_⟩
        rw [kept,List.take_succ_eq_append_getElem inside,List.map_append,List.append_assoc]
        rfl

/-- Where the write offset has come round alone, no element is shown. -/
theorem reduce_none (round : q.writeOffset < q.readOffset) (cb : CfQueueReduceFn σ) (udata : σ) :
    cfQueueReduce q cb udata = some (0,udata,q) := by
  have stops : reduceFrom cb q.sz q.readOffset udata q = some (udata,q) := by
    cases q.sz with
    | zero => rfl
    | succ turns => rw [reduceFrom,if_neg (Nat.lt_asymm round)]
  rw [cfQueueReduce,stops]
  rfl

/-- `cf_queue_reduce` shows the callback the elements and leaves those that a list would be left with. -/
def CfQueue.ReducesAll (q : CfQueue elementsz) (cb : CfQueueReduceFn σ) (udata : σ) : Prop :=
  ∃ after, cfQueueReduce q (noting cb) (udata,[]) =
      some (0,((Fifo.reduce cb q.popOrder udata).1,(Fifo.reduce cb q.popOrder udata).2.1),after) ∧
    after.popOrder = (Fifo.reduce cb q.popOrder udata).2.2

/-- The queue is reduced as a list is exactly if its write offset has not come round alone and the
first element to be removed, before the callback stops, is the last of the queue. -/
theorem reduces_all_iff (positive : 0 < elementsz) (reached : q.Reached) (cb : CfQueueReduceFn σ) (udata : σ) :
    q.ReducesAll cb udata ↔ q.readOffset ≤ q.writeOffset ∧ q.Owned ∧ RemovesLast cb q.popOrder udata := by
  have valid := reached.valid positive
  by_cases order : q.readOffset ≤ q.writeOffset
  · rcases valid.buffer with owned | lost
    · obtain ⟨l,spans⟩ := valid.spans owned order
      obtain ⟨last,reduced,left⟩ := reduce_from spans (noting cb) (udata,[]) (Nat.zero_add l.length)
      rw [Nat.add_zero,List.drop_zero,← spans.popOrder] at reduced
      rw [List.take_zero,List.drop_zero,← spans.popOrder,List.map_nil,List.nil_append] at left
      have done : cfQueueReduce q (noting cb) (udata,[]) =
          some (0,(removeOnce (noting cb) q.popOrder (udata,[])).1,last) := by
        rw [cfQueueReduce,spans.sz,reduced]
        rfl
      rw [← remove_once_iff cb q.popOrder udata [],List.nil_append]
      constructor
      · rintro ⟨after,same,contents⟩
        obtain ⟨_,rest⟩ := Prod.mk.inj (Option.some.inj (done.symm.trans same))
        obtain ⟨shown,rfl⟩ := Prod.mk.inj rest
        exact ⟨order,owned,Prod.ext shown (left.symm.trans contents)⟩
      · rintro ⟨_,_,same⟩
        rw [same] at done left
        exact ⟨last,done,left⟩
    · obtain ⟨gone,⟨turns,some⟩,before,unread⟩ := lost_read positive valid order lost
      refine iff_of_false ?_ fun met => gone met.2.1
      rintro ⟨after,done,_⟩
      rw [cfQueueReduce,some,reduceFrom,if_pos before,unread] at done
      cases done
  · refine iff_of_false ?_ fun met => order met.1
    rintro ⟨after,done,_⟩
    rw [reduce_none (Nat.not_le.mp order)] at done
    obtain ⟨_,rest⟩ := Prod.mk.inj (Option.some.inj done)
    obtain ⟨_,shown⟩ := Prod.mk.inj (Prod.mk.inj rest).1
    have elements : q.popOrder ≠ [] := by
      have read := valid.read
      have write := valid.write
      have some : q.sz ≠ 0 := by
        rw [CfQueue.sz]
        omega
      simpa [CfQueue.popOrder] using some
    exact reduce_shows cb elements udata shown.symm

def threeBytes : CfQueue 1 := ⟨64,3,0,[1,2,3] ++ List.replicate 61 0⟩

theorem three_bytes_reached : threeBytes.Reached :=
  CfQueue.run_reached (fun _ => some fun _ => 0) [.push #v[1],.push #v[2],.push #v[3]] (by decide +kernel)

/-- A callback that counts its calls and removes elements of at least some value. -/
def purgeFrom (bound : UInt8) : CfQueueReduceFn Nat := fun element calls =>
  (if element.headD 0 ≥ bound then -2 else 0,calls + 1)

theorem reduces_all_iff_sample : threeBytes.ReducesAll (purgeFrom 3) 0 := by
  refine (reduces_all_iff (by decide) three_bytes_reached (purgeFrom 3) 0).mpr ⟨by decide,rfl,?_⟩
  simp [show threeBytes.popOrder = [[1],[2],[3]] by decide +kernel,RemovesLast,purgeFrom]

theorem purge_stops : threeBytes.Reached ∧ ¬threeBytes.ReducesAll (purgeFrom 2) 0 := by
  refine ⟨three_bytes_reached,?_⟩
  rintro ⟨after,reduced,_⟩
  have one : cfQueueReduce threeBytes (noting (purgeFrom 2)) (0,[]) =
      some (0,(2,[[1],[2]]),⟨64,3,1,[1,1,3] ++ List.replicate 61 0⟩) := by decide +kernel
  have two : (Fifo.reduce (purgeFrom 2) threeBytes.popOrder 0).1 = 3 := by decide +kernel
  rw [one,two] at reduced
  cases reduced

end Citrusleaf
