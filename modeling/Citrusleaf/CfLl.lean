import Citrusleaf.Lib.Links

/-! The list of cf_ll.c as cl_cluster.c uses it, without a lock or a destruction function of its
own. An element that is deleted keeps its links. `none` stands for a null pointer that is followed.
What is done to `sz` is a parameter: here it has no bound, in `CfLlCalls` it is an `uint32_t`. -/
namespace Citrusleaf
open Lib

/-- `cf_ll`, with the links of all elements. -/
structure CfLl (α : Type) where
  head : Option α
  tail : Option α
  sz : Nat
  next : α → Option α
  prev : α → Option α

variable {α : Type}

def cfLlInit (next prev : α → Option α) : CfLl α := ⟨none,none,0,next,prev⟩

def cfLlGetHead (ll : CfLl α) : Option α := ll.head

def cfLlGetNext (ll : CfLl α) (e : α) : Option α := ll.next e

/-- The elements of the list, in order. -/
structure CfLl.Holds (ll : CfLl α) (l : List α) : Prop extends Linked ll.next ll.prev l where
  head : ll.head = l.head?
  tail : ll.tail = l.getLast?
  sz : ll.sz = l.length

theorem cfLlInit_holds (next prev : α → Option α) : (cfLlInit next prev).Holds [] := ⟨.nil next prev,rfl,rfl,rfl⟩

variable [DecidableEq α]

/-- `cf_ll_append_lockfree`; `up` is `sz++`. -/
def llAppend (up : Nat → Nat) (ll : CfLl α) (e : α) : Option (CfLl α) :=
  if ll.head.isNone then
    some ⟨some e,some e,up ll.sz,Function.update ll.next e none,Function.update ll.prev e none⟩
  else do
    let tail ← ll.tail
    return {ll with
      tail := some e
      sz := up ll.sz
      next := Function.update (Function.update ll.next e none) tail (some e)
      prev := Function.update ll.prev e ll.tail}

/-- `cf_ll_delete_lockfree` as far as `sz--`, which is `down`. -/
def llUnlink (down : Nat → Nat) (ll : CfLl α) (e : α) : Option (CfLl α) :=
  if ll.sz = 1 then some {ll with head := none,tail := none,sz := down ll.sz}
  else if ll.head = some e then do
    let next ← ll.next e
    return {ll with head := some next,sz := down ll.sz,prev := Function.update ll.prev next none}
  else if ll.tail = some e then do
    let prev ← ll.prev e
    return {ll with tail := some prev,sz := down ll.sz,next := Function.update ll.next prev none}
  else do
    let prev ← ll.prev e
    let next ← ll.next e
    return {ll with
      sz := down ll.sz
      next := Function.update ll.next prev (some next)
      prev := Function.update ll.prev next (some prev)}

/-- `cf_ll_append`, with a counter that has no bound. -/
def cfLlAppend (ll : CfLl α) (e : α) : Option (CfLl α) := llAppend (· + 1) ll e

/-- `cf_ll_delete`, likewise. -/
def cfLlDelete (ll : CfLl α) (e : α) : Option (CfLl α) :=
  if ll.sz = 0 then some ll else llUnlink (· - 1) ll e

variable {ll : CfLl α} {l first later : List α} {e : α}

theorem llAppend_holds (up : Nat → Nat) (holds : ll.Holds l) (fresh : e ∉ l) (size : up l.length = l.length + 1) :
    ∃ after, llAppend up ll e = some after ∧ after.Holds (l ++ [e]) ∧ after.next = pushNext ll.next l e := by
  have linked := holds.toLinked.push fresh
  have size : up ll.sz = (l ++ [e]).length := by rw [holds.sz,size,List.length_append,List.length_singleton]
  rw [llAppend]
  cases l with
  | nil =>
    rw [if_pos (by rw [holds.head]; rfl)]
    have next : Function.update ll.next e none = pushNext ll.next [] e := by
      funext a
      rw [Function.update_apply,pushNext]
      rfl
    exact ⟨_,rfl,⟨next ▸ linked,rfl,rfl,size⟩,next⟩
  | cons first rest =>
    obtain ⟨tail,last⟩ : ∃ tail, (first :: rest).getLast? = some tail := ⟨_,List.getLast?_eq_some_getLast (List.cons_ne_nil _ _)⟩
    have given := holds.tail.trans last
    have differ : e ≠ tail := fun same => fresh (same ▸ List.mem_of_getLast? last)
    rw [if_neg (by rw [holds.head]; simp),given]
    have next : Function.update (Function.update ll.next e none) tail (some e) = pushNext ll.next (first :: rest) e := by
      funext a
      rw [Function.update_apply,Function.update_apply,pushNext,last]
      by_cases new : a = e
      · rw [if_pos new,if_pos new,if_neg (new ▸ differ)]
      · rw [if_neg new,if_neg new]
        exact if_congr (eq_comm.trans (Option.some_inj.symm)) rfl rfl
    rw [last] at linked
    refine ⟨_,rfl,⟨next ▸ linked,?_,?_,size⟩,next⟩
    · exact holds.head
    · exact (List.getLast?_concat ..).symm

theorem cfLlAppend_holds (holds : ll.Holds l) (fresh : e ∉ l) :
    ∃ after, cfLlAppend ll e = some after ∧ after.Holds (l ++ [e]) ∧ after.next = pushNext ll.next l e :=
  llAppend_holds _ holds fresh rfl

theorem llUnlink_holds (down : Nat → Nat) (holds : ll.Holds (first ++ e :: later))
    (less : down (first.length + later.length + 1) = first.length + later.length) :
    ∃ after, llUnlink down ll e = some after ∧ after.Holds (first ++ later) ∧ after.next = dropNext ll.next first later := by
  have linked := holds.toLinked.drop
  obtain ⟨follows,precedes⟩ := holds.links first e later rfl
  have size : ll.sz = first.length + later.length + 1 := by
    rw [holds.sz,List.length_append,List.length_cons,Nat.add_assoc]
  have left : down ll.sz = (first ++ later).length := by rw [size,less,List.length_append]
  have once := List.nodup_append.mp holds.distinct
  rw [llUnlink]
  cases first with
  | nil =>
    cases later with
    | nil =>
      rw [if_pos (show ll.sz = 1 from size)]
      exact ⟨_,rfl,⟨linked,rfl,rfl,left⟩,rfl⟩
    | cons next later =>
      rw [if_neg (by simp [size]),if_pos (show ll.head = some e from holds.head),follows]
      have prev : Function.update ll.prev next none = dropPrev ll.prev [] (next :: later) := by
        funext a
        rw [Function.update_apply,dropPrev]
        exact if_congr (eq_comm.trans (Option.some_inj.symm)) rfl rfl
      exact ⟨_,rfl,⟨prev ▸ linked,rfl,holds.tail.trans List.getLast?_cons_cons,left⟩,rfl⟩
  | cons head first =>
    obtain ⟨prev,last⟩ : ∃ prev, (head :: first).getLast? = some prev := ⟨_,List.getLast?_eq_some_getLast (List.cons_ne_nil _ _)⟩
    have behind : ll.head ≠ some e := by
      rw [holds.head,List.cons_append,List.head?_cons]
      exact fun same => once.2.2 head List.mem_cons_self e List.mem_cons_self (Option.some.inj same)
    have next : Function.update ll.next prev later.head? = dropNext ll.next (head :: first) later := by
      funext a
      rw [Function.update_apply,dropNext,last]
      exact if_congr (eq_comm.trans (Option.some_inj.symm)) rfl rfl
    rw [if_neg (by simp [size]),if_neg behind,precedes,last]
    cases later with
    | nil =>
      rw [if_pos (holds.tail.trans (List.getLast?_concat ..))]
      refine ⟨_,rfl,⟨next ▸ linked,?_,?_,left⟩,next⟩
      · exact holds.head
      · rw [List.append_nil,last]
    | cons n later =>
      have inside : ll.tail ≠ some e := by
        rw [holds.tail,List.getLast?_append_cons,List.getLast?_cons_cons]
        exact fun same => (List.nodup_cons.mp once.2.1).1 (List.mem_of_getLast? same)
      rw [if_neg inside,follows]
      have prevs : Function.update ll.prev n (some prev) = dropPrev ll.prev (head :: first) (n :: later) := by
        funext a
        rw [Function.update_apply,dropPrev,last]
        exact if_congr (eq_comm.trans (Option.some_inj.symm)) rfl rfl
      refine ⟨_,rfl,⟨?_,?_,?_,left⟩,next⟩
      · rw [← next,← prevs] at linked
        exact linked
      · exact holds.head
      · rw [holds.tail,List.getLast?_append_cons,List.getLast?_append_cons,List.getLast?_cons_cons]

theorem cfLlDelete_holds (holds : ll.Holds (first ++ e :: later)) :
    ∃ after, cfLlDelete ll e = some after ∧ after.Holds (first ++ later) ∧ after.next = dropNext ll.next first later := by
  have filled : ll.sz ≠ 0 := by simp [holds.sz]
  rw [cfLlDelete,if_neg filled]
  exact llUnlink_holds _ holds rfl

end Citrusleaf
