import Mathlib.Data.List.Basic

/-! What cf_queue.c is for: a list that grows at its end and is taken from its head. -/
namespace Citrusleaf.Fifo

variable {α : Type}

def push (l : List α) (e : α) : List α := l ++ [e]

/-- Push unless the list has reached a limit. -/
def pushLimit (l : List α) (e : α) (limit : Nat) : Bool × List α :=
  if l.length < limit then (true,push l e) else (false,l)

def pop : List α → Option α × List α
  | [] => (none,[])
  | e :: l => (some e,l)

/-- Remove the first element that is equal. -/
def delete [BEq α] (l : List α) (e : α) : Bool × List α := (l.contains e,l.erase e)

/-- Remove every element that is equal. -/
def deleteAll [BEq α] (l : List α) (e : α) : Bool × List α := (l.contains e,l.filter (· != e))

/-- What a callback leaves of a list: the state it ends with, the elements it was given, and those
it did not ask to remove. It answers -1 to stop and -2 to remove. -/
def reduce (cb : α → σ → Int × σ) : List α → σ → σ × List α × List α
  | [],udata => (udata,[],[])
  | e :: l,udata =>
    if (cb e udata).1 = -1 then ((cb e udata).2,[e],e :: l)
    else
      let (last,shown,kept) := reduce cb l (cb e udata).2
      (last,e :: shown,if (cb e udata).1 = -2 then kept else e :: kept)

end Citrusleaf.Fifo
