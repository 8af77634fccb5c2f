import Citrusleaf.CfLl
import Mathlib.Algebra.Ring.Nat

/-! The rest of cf_ll.c. `sz` is an `uint32_t` here. A callback is a function of its `udata` and
of the element it is shown; the destruction function may leave anything in the links of an
element. A loop that takes more turns than it is given comes to `none`. -/
namespace Citrusleaf
open Lib

def cfLlReduceDelete : Int := 1
def cfLlReduceInsert : Int := 2

variable {α σ : Type} [DecidableEq α]

/-- What the destruction function leaves in the links of an element; null where there is none. -/
abbrev Destructor (α : Type) := Option (α → Option α × Option α)

def destroyed (destroyFn : Destructor α) (ll : CfLl α) (e : α) : CfLl α :=
  match destroyFn with
  | none => ll
  | some links => {ll with next := Function.update ll.next e (links e).1,prev := Function.update ll.prev e (links e).2}

/-- `sz++` -/
def sizeUp (sz : Nat) : Nat := (sz + 1) % 2 ^ 32

/-- `sz--` -/
def sizeDown (sz : Nat) : Nat := (sz + (2 ^ 32 - 1)) % 2 ^ 32

def cfLlPrependLockfree (ll : CfLl α) (e : α) : CfLl α :=
  match ll.head with
  | none => ⟨some e,some e,sizeUp ll.sz,Function.update ll.next e none,Function.update ll.prev e none⟩
  | some head =>
    {ll with
      head := some e
      sz := sizeUp ll.sz
      next := Function.update ll.next e (some head)
      prev := Function.update (Function.update ll.prev e none) head (some e)}

def cfLlAppendLockfree (ll : CfLl α) (e : α) : Option (CfLl α) := llAppend sizeUp ll e

def cfLlInsertAfterLockfree (ll : CfLl α) (cur ins : α) : CfLl α :=
  let next := Function.update ll.next ins (ll.next cur)
  let prev := Function.update ll.prev ins (some cur)
  match next cur with
  | none => {ll with tail := some ins,sz := sizeUp ll.sz,next := Function.update next cur (some ins),prev}
  | some n =>
    {ll with
      sz := sizeUp ll.sz
      next := Function.update next cur (some ins)
      prev := Function.update prev n (some ins)}

def cfLlInsertBeforeLockfree (ll : CfLl α) (cur ins : α) : CfLl α :=
  let next := Function.update ll.next ins (some cur)
  let prev := Function.update ll.prev ins (ll.prev cur)
  match prev cur with
  | none => {ll with head := some ins,sz := sizeUp ll.sz,next,prev := Function.update prev cur (some ins)}
  | some p =>
    {ll with
      sz := sizeUp ll.sz
      next := Function.update next p (some ins)
      prev := Function.update prev cur (some ins)}

def cfLlDeleteLockfree (destroyFn : Destructor α) (ll : CfLl α) (e : α) : Option (CfLl α) :=
  (llUnlink sizeDown ll e).map fun ll => destroyed destroyFn ll e

/-- `cf_ll_delete` -/
def cfLlRemove (destroyFn : Destructor α) (ll : CfLl α) (e : α) : Option (CfLl α) :=
  if ll.sz = 0 then some ll else cfLlDeleteLockfree destroyFn ll e

/-- Where a traversal starts, and where it goes from an element. -/
def llStart (ll : CfLl α) (forward : Bool) : Option α := if forward then ll.head else ll.tail

def llAlong (ll : CfLl α) (forward : Bool) (e : α) : Option α := if forward then ll.next e else ll.prev e

/-- The loop of `cf_ll_reduce`. -/
def llReduceFrom (destroyFn : Destructor α) (forward : Bool) (fn : σ → α → Int × σ) :
    Nat → Option α → Int → σ → CfLl α → Option (Int × σ × CfLl α)
  | 0,_,_,_,_ => none
  | _ + 1,none,rv,udata,ll => some (rv,udata,ll)
  | turns + 1,some cur,_,udata,ll =>
    let (rv,udata) := fn udata cur
    if rv ≠ 0 then
      if rv = cfLlReduceDelete then
        -- the destructor is called on `cur`, which is not touched after that
        let next := llAlong ll forward cur
        (cfLlDeleteLockfree destroyFn ll cur).bind (llReduceFrom destroyFn forward fn turns next rv udata)
      else some (rv,udata,ll)
    else llReduceFrom destroyFn forward fn turns (llAlong ll forward cur) rv udata ll

def cfLlReduce (turns : Nat) (destroyFn : Destructor α) (ll : CfLl α) (forward : Bool) (fn : σ → α → Int × σ)
    (udata : σ) : Option (Int × σ × CfLl α) :=
  llReduceFrom destroyFn forward fn turns (llStart ll forward) 0 udata ll

/-- The loop of `cf_ll_insert_reduce`, with what follows it. -/
def llInsertFrom (forward : Bool) (e : α) (fn : σ → Option α → Int × σ) :
    Nat → Option α → σ → CfLl α → Option (Int × σ × CfLl α)
  | 0,_,_,_ => none
  | _ + 1,none,udata,ll =>
    let (rv,udata) := fn udata none
    if rv = cfLlReduceInsert then
      (if forward then cfLlAppendLockfree ll e else some (cfLlPrependLockfree ll e)).map fun ll => (0,udata,ll)
    else some (rv,udata,ll)
  | turns + 1,some cur,udata,ll =>
    let (rv,udata) := fn udata (some cur)
    if rv ≠ 0 then
      if rv = cfLlReduceInsert then
        some (0,udata,if forward then cfLlInsertBeforeLockfree ll cur e else cfLlInsertAfterLockfree ll cur e)
      else some (rv,udata,ll)
    else llInsertFrom forward e fn turns (llAlong ll forward cur) udata ll

def cfLlInsertReduce (turns : Nat) (ll : CfLl α) (e : α) (forward : Bool) (fn : σ → Option α → Int × σ) (udata : σ) :
    Option (Int × σ × CfLl α) :=
  llInsertFrom forward e fn turns (llStart ll forward) udata ll

end Citrusleaf
