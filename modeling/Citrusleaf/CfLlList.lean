import Citrusleaf.CfLlCalls
import Citrusleaf.Lib.Runs

/-! cf_ll.c keeps a doubly linked list: every call puts in or takes out what the same call does
on a list, and a traversal shows each element once. -/
namespace Citrusleaf
open Lib

variable {α σ : Type} {ll : CfLl α} {l first later front rest : List α} {e cur ins : α}

/-- The order in which a traversal meets the elements of a list. -/
def llOrder (forward : Bool) (l : List α) : List α := if forward then l else l.reverse

@[simp] theorem llOrder_true (l : List α) : llOrder true l = l := rfl

@[simp] theorem llOrder_false (l : List α) : llOrder false l = l.reverse := rfl

@[simp] theorem llOrder_llOrder (forward : Bool) (l : List α) : llOrder forward (llOrder forward l) = l := by
  cases forward <;> simp

@[simp] theorem llOrder_length (forward : Bool) (l : List α) : (llOrder forward l).length = l.length := by
  cases forward <;> simp

@[simp] theorem mem_llOrder {forward : Bool} : e ∈ llOrder forward l ↔ e ∈ l := by cases forward <;> simp

namespace CfLl

theorem start_holds {forward : Bool} (holds : ll.Holds (llOrder forward l)) : llStart ll forward = l.head? := by
  cases forward with
  | true => exact holds.head
  | false => exact holds.tail.trans (by simp)

theorem along_holds {forward : Bool} (holds : ll.Holds (llOrder forward (front ++ e :: rest))) :
    llAlong ll forward e = rest.head? := by
  cases forward with
  | true => exact (holds.links front e rest rfl).1
  | false => exact (holds.links rest.reverse e front.reverse (by simp)).2.trans (by simp)

variable [DecidableEq α] {destroyFn : Destructor α}

theorem sizeUp_eq (few : n + 1 < 2 ^ 32) : sizeUp n = n + 1 := Nat.mod_eq_of_lt few

/-! ### Putting in -/

theorem prepend_holds (holds : ll.Holds l) (fresh : e ∉ l) (few : l.length + 1 < 2 ^ 32) :
    (cfLlPrependLockfree ll e).Holds (e :: l) := by
  have whole : Linked ll.next ll.prev ([] ++ l) := holds.toLinked
  have linked := whole.insert (show e ∉ [] ++ l from fresh)
  have size : sizeUp ll.sz = (e :: l).length := by rw [holds.sz,sizeUp_eq few,List.length_cons]
  rw [insertNext_nil] at linked
  rw [cfLlPrependLockfree]
  cases l with
  | nil =>
    rw [show ll.head = none from holds.head]
    rw [List.reverse_nil,insertNext_nil] at linked
    exact ⟨linked,rfl,rfl,size⟩
  | cons h l =>
    rw [show ll.head = some h from holds.head]
    have differ : h ≠ e := fun same => fresh (by simp [same])
    rw [insertNext_last (a := h) (by simp) differ] at linked
    exact ⟨linked,rfl,holds.tail.trans List.getLast?_cons_cons.symm,size⟩

theorem append_holds (holds : ll.Holds l) (fresh : e ∉ l) (few : l.length + 1 < 2 ^ 32) :
    ∃ after, cfLlAppendLockfree ll e = some after ∧ after.Holds (l ++ [e]) := by
  obtain ⟨after,appended,ready,_⟩ := llAppend_holds sizeUp holds fresh (sizeUp_eq few)
  exact ⟨after,appended,ready⟩

theorem insert_after_holds (holds : ll.Holds (first ++ cur :: later)) (fresh : ins ∉ first ++ cur :: later)
    (few : (first ++ cur :: later).length + 1 < 2 ^ 32) :
    (cfLlInsertAfterLockfree ll cur ins).Holds (first ++ cur :: ins :: later) := by
  have whole : first ++ cur :: later = first ++ [cur] ++ later := by simp
  have differ : cur ≠ ins := fun same => fresh (by simp [same])
  have follows := (holds.links first cur later rfl).1
  have size : sizeUp ll.sz = (first ++ cur :: ins :: later).length := by
    rw [holds.sz,sizeUp_eq few]
    simp [Nat.add_assoc]
  have linked := Linked.insert (whole ▸ holds.toLinked) (whole ▸ fresh)
  rw [insertNext_last (a := cur) (by simp) differ,List.append_assoc,List.singleton_append] at linked
  simp only [cfLlInsertAfterLockfree,Function.update_of_ne differ,follows]
  cases later with
  | nil =>
    rw [List.reverse_nil,insertNext_nil] at linked
    simp only [List.reverse_append,List.reverse_singleton,List.singleton_append,List.head?_cons] at linked
    refine ⟨linked,?_,?_,size⟩
    · exact holds.head.trans (by cases first <;> rfl)
    · simp
  | cons n later =>
    have other : n ≠ ins := fun same => fresh (by simp [same])
    rw [insertNext_last (a := n) (by simp) other] at linked
    simp only [List.reverse_append,List.reverse_singleton,List.singleton_append,List.head?_cons] at linked
    refine ⟨linked,?_,?_,size⟩
    · exact holds.head.trans (by cases first <;> rfl)
    · exact holds.tail.trans (by simp [List.getLast?_cons_cons])

theorem insert_before_holds (holds : ll.Holds (first ++ cur :: later)) (fresh : ins ∉ first ++ cur :: later)
    (few : (first ++ cur :: later).length + 1 < 2 ^ 32) :
    (cfLlInsertBeforeLockfree ll cur ins).Holds (first ++ ins :: cur :: later) := by
  have differ : cur ≠ ins := fun same => fresh (by simp [same])
  have precedes := (holds.links first cur later rfl).2
  have size : sizeUp ll.sz = (first ++ ins :: cur :: later).length := by
    rw [holds.sz,sizeUp_eq few]
    simp [Nat.add_assoc]
  have linked := holds.toLinked.insert fresh
  have last : (cur :: later).reverse.getLast? = some cur := by simp
  rw [insertNext_last last differ,List.head?_reverse] at linked
  simp only [cfLlInsertBeforeLockfree,Function.update_of_ne differ,precedes]
  have tail : ll.tail = (first ++ ins :: cur :: later).getLast? := holds.tail.trans (by simp [List.getLast?_cons_cons])
  cases ending : first.getLast? with
  | none =>
    obtain rfl := List.getLast?_eq_none_iff.mp ending
    rw [insertNext_nil] at linked
    exact ⟨linked,rfl,tail,size⟩
  | some p =>
    have member := List.mem_of_getLast? ending
    have other : p ≠ ins := fun same => fresh (by simp [← same,member])
    rw [insertNext_last ending other,ending] at linked
    refine ⟨linked,?_,tail,size⟩
    cases first with
    | nil => cases ending
    | cons h first => exact holds.head

/-! ### Taking out -/

theorem delete_holds (holds : ll.Holds (first ++ e :: later)) (few : (first ++ e :: later).length < 2 ^ 32) :
    ∃ after, cfLlDeleteLockfree destroyFn ll e = some after ∧ after.Holds (first ++ later) := by
  have down : sizeDown (first.length + later.length + 1) = first.length + later.length := by
    rw [List.length_append,List.length_cons] at few
    rw [sizeDown]
    omega
  obtain ⟨after,deleted,ready,_⟩ := llUnlink_holds sizeDown holds down
  rw [cfLlDeleteLockfree,deleted]
  refine ⟨_,rfl,?_⟩
  cases destroyFn with
  | none => exact ready
  | some links =>
    have gone : e ∉ first ++ later := (List.nodup_cons.mp (List.nodup_middle.mp holds.distinct)).1
    have apart (a : α) (member : a ∈ first ++ later) : a ≠ e := fun same => gone (same ▸ member)
    refine ⟨ready.toLinked.congr ?_ ?_,ready.head,ready.tail,ready.sz⟩
    · exact fun a member => Function.update_of_ne (apart a member) ..
    · exact fun a member => Function.update_of_ne (apart a member) ..

end CfLl

/-! ### Traversals -/

/-- `cf_ll_reduce` on the elements it still has to show: what it returns, the `udata` after it,
and the elements that stay, all in the order of the traversal. -/
def listReduce (fn : σ → α → Int × σ) : List α → Int → σ → Int × σ × List α
  | [],rv,udata => (rv,udata,[])
  | e :: rest,_,udata =>
    let (rv,udata) := fn udata e
    if rv = 0 then
      let (rv,udata,kept) := listReduce fn rest rv udata
      (rv,udata,e :: kept)
    else if rv = cfLlReduceDelete then listReduce fn rest rv udata
    else (rv,udata,e :: rest)

/-- `cf_ll_insert_reduce`, likewise. -/
def listInsertReduce (ins : α) (fn : σ → Option α → Int × σ) : List α → σ → Int × σ × List α
  | [],udata =>
    let (rv,udata) := fn udata none
    if rv = cfLlReduceInsert then (0,udata,[ins]) else (rv,udata,[])
  | e :: rest,udata =>
    let (rv,udata) := fn udata (some e)
    if rv = 0 then
      let (rv,udata,after) := listInsertReduce ins fn rest udata
      (rv,udata,e :: after)
    else if rv = cfLlReduceInsert then (0,udata,ins :: e :: rest)
    else (rv,udata,e :: rest)

variable [DecidableEq α] {destroyFn : Destructor α}

namespace CfLl

theorem remove_holds (destroyFn : Destructor α) {forward : Bool} (holds : ll.Holds (llOrder forward (front ++ e :: rest)))
    (few : (front ++ e :: rest).length < 2 ^ 32) :
    ∃ after, cfLlDeleteLockfree destroyFn ll e = some after ∧ after.Holds (llOrder forward (front ++ rest)) := by
  cases forward with
  | true => exact delete_holds holds few
  | false =>
    have parts : (front ++ e :: rest).reverse = rest.reverse ++ e :: front.reverse := by simp
    rw [llOrder_false,List.reverse_append]
    rw [llOrder_false,parts] at holds
    exact delete_holds holds (by rw [← parts,List.length_reverse]; exact few)

/-- The loop of `cf_ll_reduce`, with some elements passed and kept. -/
theorem reduce_from {forward : Bool} (holds : ll.Holds (llOrder forward (front ++ rest))) (fn : σ → α → Int × σ)
    (few : (front ++ rest).length < 2 ^ 32) (enough : rest.length < turns) (rv : Int) (udata : σ) :
    ∃ after, llReduceFrom destroyFn forward fn turns rest.head? rv udata ll =
        some ((listReduce fn rest rv udata).1,(listReduce fn rest rv udata).2.1,after) ∧
      after.Holds (llOrder forward (front ++ (listReduce fn rest rv udata).2.2)) := by
  induction rest generalizing front turns rv udata ll with
  | nil =>
    obtain ⟨turns,rfl⟩ := Nat.exists_eq_add_one_of_ne_zero (Nat.ne_zero_of_lt enough)
    exact ⟨ll,rfl,holds⟩
  | cons e rest ih =>
    obtain ⟨turns,rfl⟩ := Nat.exists_eq_add_one_of_ne_zero (Nat.ne_zero_of_lt enough)
    rw [List.length_cons,Nat.add_lt_add_iff_right] at enough
    obtain ⟨answer,udata',shown⟩ : ∃ answer udata', fn udata e = (answer,udata') := ⟨_,_,rfl⟩
    simp only [List.head?_cons,llReduceFrom,listReduce,shown]
    by_cases zero : answer = 0
    · -- the element stays
      have kept : front ++ e :: rest = front ++ [e] ++ rest := by simp
      rw [if_neg (not_not.mpr zero),along_holds holds]
      obtain ⟨after,done,ready⟩ := ih (kept ▸ holds) (kept ▸ few) enough answer udata'
      refine ⟨after,?_,?_⟩
      · rw [done,if_pos zero]
      · rw [if_pos zero]
        simpa using ready
    · rw [if_pos zero,if_neg zero]
      by_cases delete : answer = cfLlReduceDelete
      · obtain ⟨without,deleted,left⟩ := remove_holds destroyFn holds few
        have fewer : (front ++ rest).length < 2 ^ 32 := by
          simp only [List.length_append,List.length_cons] at few ⊢
          omega
        rw [if_pos delete,if_pos delete,along_holds holds,deleted]
        exact ih left fewer enough answer udata'
      · rw [if_neg delete,if_neg delete]
        exact ⟨ll,rfl,holds⟩

theorem reduce_holds (destroyFn : Destructor α) (forward : Bool) (holds : ll.Holds l) (fn : σ → α → Int × σ) (few : l.length < 2 ^ 32)
    (enough : l.length < turns) (udata : σ) :
    ∃ after, cfLlReduce turns destroyFn ll forward fn udata =
        some ((listReduce fn (llOrder forward l) 0 udata).1,(listReduce fn (llOrder forward l) 0 udata).2.1,after) ∧
      after.Holds (llOrder forward (listReduce fn (llOrder forward l) 0 udata).2.2) := by
  have ordered : ll.Holds (llOrder forward ([] ++ llOrder forward l)) := by simpa using holds
  rw [cfLlReduce,start_holds ordered]
  exact reduce_from ordered fn (by simpa using few) (by simpa using enough) 0 udata

/-- A new element in front of another one, as a traversal meets them. -/
theorem insert_here {forward : Bool} (holds : ll.Holds (llOrder forward (front ++ cur :: rest)))
    (fresh : ins ∉ front ++ cur :: rest) (few : (front ++ cur :: rest).length + 1 < 2 ^ 32) :
    (if forward then cfLlInsertBeforeLockfree ll cur ins else cfLlInsertAfterLockfree ll cur ins).Holds
      (llOrder forward (front ++ ins :: cur :: rest)) := by
  cases forward with
  | true => exact insert_before_holds holds fresh few
  | false =>
    have parts : (front ++ cur :: rest).reverse = rest.reverse ++ cur :: front.reverse := by simp
    have result : (front ++ ins :: cur :: rest).reverse = rest.reverse ++ cur :: ins :: front.reverse := by simp
    rw [llOrder_false,parts] at holds
    rw [llOrder_false,result]
    rw [← List.mem_reverse,parts] at fresh
    exact insert_after_holds holds fresh (by rw [← parts,List.length_reverse]; exact few)

/-- A new element where a traversal ends. -/
theorem insert_end {forward : Bool} (holds : ll.Holds (llOrder forward front)) (fresh : ins ∉ front)
    (few : front.length + 1 < 2 ^ 32) :
    ∃ after, (if forward then cfLlAppendLockfree ll ins else some (cfLlPrependLockfree ll ins)) = some after ∧
      after.Holds (llOrder forward (front ++ [ins])) := by
  cases forward with
  | true => exact append_holds holds fresh few
  | false =>
    rw [llOrder_false,List.reverse_append]
    exact ⟨_,rfl,prepend_holds holds (by simpa using fresh) (by simpa using few)⟩

theorem insert_from {forward : Bool} (holds : ll.Holds (llOrder forward (front ++ rest)))
    (fn : σ → Option α → Int × σ) (fresh : ins ∉ front ++ rest) (udata : σ)
    (few : (front ++ (listInsertReduce ins fn rest udata).2.2).length < 2 ^ 32) (enough : rest.length < turns) :
    ∃ after, llInsertFrom forward ins fn turns rest.head? udata ll =
        some ((listInsertReduce ins fn rest udata).1,(listInsertReduce ins fn rest udata).2.1,after) ∧
      after.Holds (llOrder forward (front ++ (listInsertReduce ins fn rest udata).2.2)) := by
  induction rest generalizing front turns udata with
  | nil =>
    obtain ⟨turns,rfl⟩ := Nat.exists_eq_add_one_of_ne_zero (Nat.ne_zero_of_lt enough)
    obtain ⟨answer,udata',shown⟩ : ∃ answer udata', fn udata none = (answer,udata') := ⟨_,_,rfl⟩
    simp only [List.head?_nil,llInsertFrom,listInsertReduce,shown] at few ⊢
    by_cases insert : answer = cfLlReduceInsert
    · rw [List.append_nil] at holds fresh
      rw [if_pos insert,List.length_append,List.length_singleton] at few
      obtain ⟨after,inserted,ready⟩ := insert_end holds fresh few
      rw [if_pos insert,if_pos insert,inserted]
      exact ⟨after,rfl,ready⟩
    · rw [if_neg insert,if_neg insert]
      exact ⟨ll,rfl,holds⟩
  | cons e rest ih =>
    obtain ⟨turns,rfl⟩ := Nat.exists_eq_add_one_of_ne_zero (Nat.ne_zero_of_lt enough)
    rw [List.length_cons,Nat.add_lt_add_iff_right] at enough
    obtain ⟨answer,udata',shown⟩ : ∃ answer udata', fn udata (some e) = (answer,udata') := ⟨_,_,rfl⟩
    simp only [List.head?_cons,llInsertFrom,listInsertReduce,shown] at few ⊢
    by_cases zero : answer = 0
    · have kept : front ++ e :: rest = front ++ [e] ++ rest := by simp
      rw [if_pos zero] at few
      rw [if_neg (not_not.mpr zero),along_holds holds]
      obtain ⟨after,done,ready⟩ := ih (kept ▸ holds) (kept ▸ fresh) udata' (by simpa using few) enough
      refine ⟨after,?_,?_⟩
      · rw [done,if_pos zero]
      · rw [if_pos zero]
        simpa using ready
    · rw [if_neg zero] at few
      rw [if_pos zero,if_neg zero]
      by_cases insert : answer = cfLlReduceInsert
      · rw [if_pos insert] at few
        have one : (front ++ e :: rest).length + 1 < 2 ^ 32 := by simpa [Nat.add_assoc] using few
        rw [if_pos insert,if_pos insert]
        exact ⟨_,rfl,insert_here holds fresh one⟩
      · rw [if_neg insert,if_neg insert]
        exact ⟨ll,rfl,holds⟩

theorem insert_reduce_holds {forward : Bool} (holds : ll.Holds l) (fn : σ → Option α → Int × σ) (fresh : ins ∉ l)
    (udata : σ) (few : (listInsertReduce ins fn (llOrder forward l) udata).2.2.length < 2 ^ 32)
    (enough : l.length < turns) :
    ∃ after, cfLlInsertReduce turns ll ins forward fn udata =
        some ((listInsertReduce ins fn (llOrder forward l) udata).1,
          (listInsertReduce ins fn (llOrder forward l) udata).2.1,after) ∧
      after.Holds (llOrder forward (listInsertReduce ins fn (llOrder forward l) udata).2.2) := by
  have ordered : ll.Holds (llOrder forward ([] ++ llOrder forward l)) := by simpa using holds
  rw [cfLlInsertReduce,start_holds ordered]
  exact insert_from ordered fn (by simpa using fresh) udata few (by simpa using enough)

end CfLl

/-! ### Sequences of calls -/

/-- The calls; `σ` is the type behind `udata`. -/
inductive LlCall (α σ : Type) where
  | prepend (e : α)
  | append (e : α)
  | insertAfter (cur ins : α)
  | insertBefore (cur ins : α)
  | insertReduce (e : α) (forward : Bool) (fn : σ → Option α → Int × σ) (udata : σ)
  | delete (e : α)
  | reduce (forward : Bool) (fn : σ → α → Int × σ) (udata : σ)

/-- A call on the list, with what a traversal returns and its `udata` after it. -/
def llCall (turns : Nat) (destroyFn : Destructor α) (ll : CfLl α) : LlCall α σ → Option (Option (Int × σ) × CfLl α)
  | .prepend e => some (none,cfLlPrependLockfree ll e)
  | .append e => (cfLlAppendLockfree ll e).map fun ll => (none,ll)
  | .insertAfter cur ins => some (none,cfLlInsertAfterLockfree ll cur ins)
  | .insertBefore cur ins => some (none,cfLlInsertBeforeLockfree ll cur ins)
  | .insertReduce e forward fn udata =>
    (cfLlInsertReduce turns ll e forward fn udata).map fun (rv,udata,ll) => (some (rv,udata),ll)
  | .delete e => (cfLlRemove destroyFn ll e).map fun ll => (none,ll)
  | .reduce forward fn udata =>
    (cfLlReduce turns destroyFn ll forward fn udata).map fun (rv,udata,ll) => (some (rv,udata),ll)

def llCalls (turns : Nat) (destroyFn : Destructor α) : CfLl α → List (LlCall α σ) →
    Option (List (Option (Int × σ)) × CfLl α)
  | ll,[] => some ([],ll)
  | ll,call :: calls => do
    let (result,ll) ← llCall turns destroyFn ll call
    let (results,ll) ← llCalls turns destroyFn ll calls
    return (result :: results,ll)

/-- A list with an element put in beside a member. -/
def insertBeside (after : Bool) (cur ins : α) : List α → List α
  | [] => []
  | e :: l => if e = cur then if after then e :: ins :: l else ins :: e :: l else e :: insertBeside after cur ins l

/-- The same call on a list. -/
def memberCall (l : List α) : LlCall α σ → Option (Int × σ) × List α
  | .prepend e => (none,e :: l)
  | .append e => (none,l ++ [e])
  | .insertAfter cur ins => (none,insertBeside true cur ins l)
  | .insertBefore cur ins => (none,insertBeside false cur ins l)
  | .insertReduce e forward fn udata =>
    let (rv,udata,after) := listInsertReduce e fn (llOrder forward l) udata
    (some (rv,udata),llOrder forward after)
  | .delete e => (none,l.erase e)
  | .reduce forward fn udata =>
    let (rv,udata,after) := listReduce fn (llOrder forward l) 0 udata
    (some (rv,udata),llOrder forward after)

def memberCalls : List α → List (LlCall α σ) → List (Option (Int × σ)) × List α
  | l,[] => ([],l)
  | l,call :: calls =>
    let (result,l) := memberCall l call
    let (results,l) := memberCalls l calls
    (result :: results,l)

/-- What is put in is not in the list, and what is deleted or inserted beside is. -/
def Fitting (l : List α) : LlCall α σ → Prop
  | .prepend e => e ∉ l
  | .append e => e ∉ l
  | .insertAfter cur ins => cur ∈ l ∧ ins ∉ l
  | .insertBefore cur ins => cur ∈ l ∧ ins ∉ l
  | .insertReduce e _ _ _ => e ∉ l
  | .delete e => e ∈ l
  | .reduce _ _ _ => True

/-- What holds of a list between two calls. -/
structure CfLl.Proper (ll : CfLl α) (l : List α) : Prop where
  distinct : l.Nodup
  forward : LinkPath ll.next ll.head l
  backward : LinkPath ll.prev ll.tail l.reverse
  headNull : ll.head = none ↔ l = []
  tailNull : ll.tail = none ↔ l = []
  sz : ll.sz = l.length

omit [DecidableEq α] in
theorem CfLl.Holds.proper (holds : ll.Holds l) : ll.Proper l := by
  have whole : Linked ll.next ll.prev ([] ++ l) := holds.toLinked
  have turned : Linked ll.prev ll.next ([] ++ l.reverse) := holds.toLinked.reverse
  refine ⟨holds.distinct,?_,?_,?_,?_,holds.sz⟩
  · rw [holds.head]
    exact whole.path_from
  · rw [holds.tail,← List.head?_reverse]
    exact turned.path_from
  · rw [holds.head,List.head?_eq_none_iff]
  · rw [holds.tail,List.getLast?_eq_none_iff]

theorem insertBeside_eq (after : Bool) (cur ins : α) (first later : List α) (once : cur ∉ first) :
    insertBeside after cur ins (first ++ cur :: later) =
      first ++ if after then cur :: ins :: later else ins :: cur :: later := by
  induction first with
  | nil => simp [insertBeside]
  | cons e first ih =>
    have differ : e ≠ cur := fun same => once (by simp [same])
    simp [insertBeside,differ,ih fun member => once (List.mem_cons_of_mem _ member)]

omit [DecidableEq α] in
/-- A member and its neighbours. -/
theorem member_parts (distinct : l.Nodup) (member : e ∈ l) : ∃ first later, l = first ++ e :: later ∧ e ∉ first := by
  obtain ⟨first,later,rfl⟩ := List.append_of_mem member
  refine ⟨first,later,rfl,fun before => ?_⟩
  exact (List.nodup_append.mp distinct).2.2 e before e List.mem_cons_self rfl

theorem ll_call_holds (destroyFn : Destructor α) (enough : 2 ^ 32 ≤ turns) (holds : ll.Holds l) (call : LlCall α σ)
    (fitting : Fitting l call) (now : l.length < 2 ^ 32) (few : (memberCall l call).2.length < 2 ^ 32) :
    ∃ after, llCall turns destroyFn ll call = some ((memberCall l call).1,after) ∧
      after.Holds (memberCall l call).2 := by
  have bound : l.length < turns := Nat.lt_of_lt_of_le now enough
  cases call with
  | prepend e => exact ⟨_,rfl,CfLl.prepend_holds holds fitting few⟩
  | append e =>
    rw [memberCall,List.length_append] at few
    obtain ⟨after,done,ready⟩ := CfLl.append_holds holds fitting few
    exact ⟨after,by rw [llCall,done]; rfl,ready⟩
  | insertAfter cur ins =>
    obtain ⟨first,later,rfl,once⟩ := member_parts holds.distinct fitting.1
    simp only [memberCall,insertBeside_eq true cur ins first later once,if_true] at few ⊢
    refine ⟨_,rfl,CfLl.insert_after_holds holds fitting.2 ?_⟩
    simpa [Nat.add_assoc] using few
  | insertBefore cur ins =>
    obtain ⟨first,later,rfl,once⟩ := member_parts holds.distinct fitting.1
    simp only [memberCall,insertBeside_eq false cur ins first later once,Bool.false_eq_true,if_false] at few ⊢
    refine ⟨_,rfl,CfLl.insert_before_holds holds fitting.2 ?_⟩
    simpa [Nat.add_assoc] using few
  | insertReduce e forward fn udata =>
    simp only [memberCall,llOrder_length] at few ⊢
    obtain ⟨after,done,ready⟩ := CfLl.insert_reduce_holds holds fn fitting udata few bound
    exact ⟨after,by rw [llCall,done]; rfl,ready⟩
  | delete e =>
    obtain ⟨first,later,rfl,once⟩ := member_parts holds.distinct fitting
    obtain ⟨after,done,ready⟩ := CfLl.delete_holds holds now
    have filled : ll.sz ≠ 0 := by
      rw [holds.sz]
      simp
    refine ⟨after,by rw [llCall,cfLlRemove,if_neg filled,done]; rfl,?_⟩
    rw [memberCall,List.erase_append_right _ once,List.erase_cons_head]
    exact ready
  | reduce forward fn udata =>
    obtain ⟨after,done,ready⟩ := CfLl.reduce_holds destroyFn forward holds fn now bound udata
    exact ⟨after,by rw [llCall,done]; rfl,ready⟩

theorem ll_calls_hold (destroyFn : Destructor α) (enough : 2 ^ 32 ≤ turns) (holds : ll.Holds l)
    (calls : List (LlCall α σ)) (fitting : Guarded (fun l call => (memberCall l call).2) Fitting l calls)
    (few : Always (fun l call => (memberCall l call).2) (fun l => l.length < 2 ^ 32) l calls) :
    ∃ after, llCalls turns destroyFn ll calls = some ((memberCalls l calls).1,after) ∧
      after.Holds (memberCalls l calls).2 ∧ (memberCalls l calls).2.length < 2 ^ 32 := by
  induction calls generalizing ll l with
  | nil => exact ⟨ll,rfl,holds,few⟩
  | cons call calls ih =>
    obtain ⟨next,made,ready⟩ := ll_call_holds destroyFn enough holds call fitting.1 few.1 few.2.head
    obtain ⟨after,done,last⟩ := ih ready fitting.2 few.2
    exact ⟨after,by simp [llCalls,made,done,memberCalls],last⟩

/-- A callback that also writes down what it is shown. -/
def recording (fn : σ → α → Int × σ) (s : σ × List α) (e : α) : Int × σ × List α :=
  ((fn s.1 e).1,(fn s.1 e).2,s.2 ++ [e])

omit [DecidableEq α] in
theorem recorded (fn : σ → α → Int × σ) (goesOn : ∀ udata e, (fn udata e).1 = 0 ∨ (fn udata e).1 = cfLlReduceDelete)
    (l seen : List α) (rv : Int) (udata : σ) : (listReduce (recording fn) l rv (udata,seen)).2.1.2 = seen ++ l := by
  induction l generalizing rv udata seen with
  | nil => simp [listReduce]
  | cons e l ih =>
    obtain ⟨answer,udata',given⟩ : ∃ answer udata', fn udata e = (answer,udata') := ⟨_,_,rfl⟩
    have shown : recording fn (udata,seen) e = (answer,udata',seen ++ [e]) := by simp [recording,given]
    have rest := ih (seen ++ [e]) answer udata'
    rw [List.append_assoc,List.singleton_append] at rest
    have either : answer = 0 ∨ answer = cfLlReduceDelete := by simpa [given] using goesOn udata e
    simp only [listReduce,shown]
    rcases either with zero | delete
    · rw [if_pos zero]
      exact rest
    · have other : answer ≠ 0 := by simp [delete,cfLlReduceDelete]
      rw [if_neg other,if_pos delete]
      exact rest

/-- Whatever is called on a new list, it stays linked both ways, and a traversal that only keeps
and deletes is shown every element once. -/
theorem ll_stays_linked (next prev : α → Option α) (destroyFn : Destructor α) (turns : Nat) (enough : 2 ^ 32 ≤ turns)
    (calls : List (LlCall α σ)) (fitting : Guarded (fun l call => (memberCall l call).2) Fitting [] calls)
    (few : Always (fun l call => (memberCall l call).2) (fun l => l.length < 2 ^ 32) [] calls) :
    ∃ after, llCalls turns destroyFn (cfLlInit next prev) calls = some ((memberCalls [] calls).1,after) ∧
      after.Proper (memberCalls [] calls).2 ∧
      ∀ (forward : Bool) (fn : σ → α → Int × σ) (udata : σ),
        (∀ udata e, (fn udata e).1 = 0 ∨ (fn udata e).1 = cfLlReduceDelete) →
        ∃ rv udata' last, cfLlReduce turns destroyFn after forward (recording fn) (udata,[]) =
          some (rv,(udata',llOrder forward (memberCalls [] calls).2),last) := by
  obtain ⟨after,done,holds,now⟩ := ll_calls_hold destroyFn enough (cfLlInit_holds next prev) calls fitting few
  refine ⟨after,done,holds.proper,fun forward fn udata goesOn => ?_⟩
  obtain ⟨last,reduced,_⟩ := CfLl.reduce_holds destroyFn forward holds (recording fn) now
    (Nat.lt_of_lt_of_le now enough) (udata,[])
  have shown := recorded fn goesOn (llOrder forward (memberCalls [] calls).2) [] 0 udata
  rcases answer : listReduce (recording fn) (llOrder forward (memberCalls [] calls).2) 0 (udata,[]) with
    ⟨rv,⟨udata',seen⟩,kept⟩
  rw [answer] at reduced shown
  obtain rfl : seen = llOrder forward (memberCalls [] calls).2 := shown
  exact ⟨rv,udata',last,reduced⟩

/-- An element is deleted while the traversal stands on it. -/
theorem ll_stays_linked_sample :
    ∃ after, llCalls (2 ^ 32) none (cfLlInit (fun _ => none) fun _ => none)
        [LlCall.append 1,.prepend 2,.insertAfter 2 3,.reduce false (fun s e => (if e = 3 then 1 else 0,s + 1)) 0] =
          some ((memberCalls [] [LlCall.append 1,.prepend 2,.insertAfter 2 3,
            .reduce false (fun s e => (if e = 3 then 1 else 0,s + 1)) 0]).1,after) ∧
      after.Proper [2,1] ∧
      ∀ (forward : Bool) (fn : Nat → Nat → Int × Nat) (udata : Nat),
        (∀ udata e, (fn udata e).1 = 0 ∨ (fn udata e).1 = cfLlReduceDelete) →
        ∃ rv udata' last, cfLlReduce (2 ^ 32) none after forward (recording fn) (udata,[]) =
          some (rv,(udata',llOrder forward [2,1]),last) := by
  apply ll_stays_linked (fun _ => none) (fun _ => none) none (2 ^ 32) (Nat.le_refl _)
  · simp [Guarded,Fitting,memberCall]
  · simp [Always,memberCall,insertBeside,listReduce,cfLlReduceDelete]

/-! ### The counter -/

/-- Linked as the list is, with a counter that may have wrapped. -/
structure CfLl.Counted (ll : CfLl α) (l : List α) : Prop where
  linked : CfLl.Holds {ll with sz := l.length} l
  count : ll.sz = l.length % 2 ^ 32

theorem append_counted (counted : ll.Counted l) (fresh : e ∉ l) :
    ∃ after, cfLlAppendLockfree ll e = some after ∧ after.Counted (l ++ [e]) := by
  obtain ⟨other,appended,ready,_⟩ := cfLlAppend_holds counted.linked fresh
  have same : cfLlAppendLockfree ll e = (cfLlAppend {ll with sz := l.length} e).map fun after =>
      {after with sz := sizeUp ll.sz} := by
    rw [cfLlAppendLockfree,cfLlAppend,llAppend,llAppend]
    split
    · rfl
    · cases ll.tail <;> rfl
  rw [appended] at same
  refine ⟨_,same,⟨?_,?_⟩⟩
  · exact ⟨ready.toLinked,ready.head,ready.tail,rfl⟩
  · rw [List.length_append,List.length_singleton]
    dsimp only
    rw [sizeUp,counted.count]
    omega

/-- Appending one number after another. -/
theorem appends (turns : Nat) (destroyFn : Destructor Nat) {ll : CfLl Nat} {l : List Nat} (n s : Nat)
    (counted : ll.Counted l) (below : ∀ a ∈ l, a < s) :
    Guarded (fun l (call : LlCall Nat Unit) => (memberCall l call).2) Fitting l ((List.range' s n).map .append) ∧
      ∃ results after, llCalls (σ := Unit) turns destroyFn ll ((List.range' s n).map .append) = some (results,after) ∧
        after.Counted (l ++ List.range' s n) := by
  induction n generalizing ll l s with
  | zero => exact ⟨trivial,[],ll,rfl,by simpa using counted⟩
  | succ n ih =>
    have fresh : s ∉ l := fun member => Nat.lt_irrefl s (below s member)
    obtain ⟨next,appended,ready⟩ := append_counted counted fresh
    have more : ∀ a ∈ l ++ [s], a < s + 1 := by
      intro a member
      rcases List.mem_append.mp member with old | new
      · exact Nat.lt_succ_of_lt (below a old)
      · exact List.mem_singleton.mp new ▸ Nat.lt_succ_self s
    obtain ⟨fitting,results,after,done,last⟩ := ih (s + 1) ready more
    rw [List.range'_succ]
    refine ⟨⟨fresh,fitting⟩,none :: results,after,?_,?_⟩
    · simp [llCalls,llCall,appended,done]
    · simpa using last

/-- With 2³² elements the counter is at zero. -/
theorem ll_counter_wraps :
    ∃ calls : List (LlCall Nat Unit), Guarded (fun l call => (memberCall l call).2) Fitting [] calls ∧
      ∃ results after, llCalls (2 ^ 33) none (cfLlInit (fun _ => none) fun _ => none) calls = some (results,after) ∧
        ∀ l, ¬after.Proper l := by
  have new : (cfLlInit (fun _ => none) fun _ => none : CfLl Nat).Counted [] := ⟨cfLlInit_holds _ _,rfl⟩
  obtain ⟨fitting,results,after,done,counted⟩ := appends (2 ^ 33) none (2 ^ 32) 0 new fun _ member =>
    absurd member List.not_mem_nil
  refine ⟨_,fitting,results,after,done,fun l proper => ?_⟩
  have zero : after.sz = 0 := by
    rw [counted.count,List.nil_append,List.length_range',Nat.mod_self]
  have empty : l = [] := List.length_eq_zero_iff.mp (proper.sz.symm.trans zero)
  have first : after.head = some 0 := by
    have head := counted.linked.head
    rwa [List.nil_append,List.head?_range'] at head
  rw [proper.headNull.mpr empty] at first
  cases first

end Citrusleaf
