import Citrusleaf.ShashMapRuns

/-! The mutexes that the calls of cf_shash.c take and give back, and from the creation of a table on
which sequences of calls return. Here the allocation of an element may fail, and `shash_get_vlock`
hands its mutex on to the caller. `held` is what the calling thread holds: a mutex of another
thread lets a call wait, and changes nothing once it is free. -/
namespace Citrusleaf.ShashTable
open Shash

variable {κ ν : Type} [DecidableEq κ] {h locked after : ShashTable κ ν} {l : Option ShashLock}

section Calls

variable (h : ShashTable κ ν)

/-- `malloc` is asked for an element behind a bucket in use. -/
def NeedsElem (key : κ) : Prop :=
  (h.table (h.hash key)).head.isSome ∧ key ∉ keys (elems (h.table (h.hash key)))

instance (key : κ) : Decidable (h.NeedsElem key) := inferInstanceAs (Decidable (_ ∧ _))

/-- `shash_put` with the answer of `malloc`, which decides whether the lock is given back at all. -/
def shashPutElem (given : Bool) (key : κ) (value : ν) : Option (Int × ShashTable κ ν) := do
  let l := h.lockOf (h.hash key)
  let h ← h.lock l
  if h.NeedsElem key ∧ given = false then return (shashErr,h)
  let (b,added) := put (h.table (h.hash key)) key value
  if added then return (shashOk,(h.setBucket (h.hash key) b (h.elements + 1)).unlock l)
  else return (shashOk,(h.setBucket (h.hash key) b h.elements).unlock h.bigLock)

/-- `shash_put_unique` with the answer of `malloc`. -/
def shashPutUniqueElem (given : Bool) (key : κ) (value : ν) : Option (Int × ShashTable κ ν) := do
  let l := h.lockOf (h.hash key)
  let h ← h.lock l
  if h.NeedsElem key ∧ given = false then return (shashErr,h)
  match putUnique (h.table (h.hash key)) key value with
  | none => return (shashErrFound,h.unlock l)
  | some b => return (shashOk,(h.setBucket (h.hash key) b (h.elements + 1)).unlock l)

/-- The return value, the value pointed at, and `*vlock`. -/
def shashGetVlock (key : κ) : Option (Int × Option ν × Option ShashLock × ShashTable κ ν) := do
  let l := h.lockOf (h.hash key)
  let h ← h.lock l
  match (elems (h.table (h.hash key))).find? fun e => e.1 = key with
  | none => return (shashErrNotfound,none,none,h.unlock l)
  | some e => return (shashOk,some e.2,l,h)

/-- The count of `shash_get_size` where there is no one lock for `elements`. -/
def countBuckets : List Nat → Nat → ShashTable κ ν → Option (Nat × ShashTable κ ν)
  | [],elements,h => some (elements,h)
  | i :: is,elements,h => do
    let h ← h.lock (some (.bucket i))
    countBuckets is ((elements + (elems (h.table i)).length) % 2 ^ 32) (h.unlock (some (.bucket i)))

def shashGetSize : Option (Nat × ShashTable κ ν) :=
  if h.flags &&& shashCrMtManylock ≠ 0 then countBuckets (List.range h.tableLen) 0 h
  else do
    let l := h.bigLock
    let h ← h.lock l
    return (h.elements,h.unlock l)

end Calls

/-- With an element to spare, these are the calls from before. -/
theorem shashPutElem_given (h : ShashTable κ ν) (key : κ) (value : ν) :
    h.shashPutElem true key value = h.shashPut key value := by
  simp [shashPutElem,shashPut]

theorem shashPutUniqueElem_given (h : ShashTable κ ν) (key : κ) (value : ν) :
    h.shashPutUniqueElem true key value = h.shashPutUnique key value := by
  have given (t : ShashTable κ ν) : ¬(t.NeedsElem key ∧ true = false) := by simp
  exact congrArg (h.lock (h.lockOf (h.hash key)) >>= ·) (funext fun t => if_neg (given t))

/-- The calls that take a mutex. -/
inductive LockCall (κ ν : Type) where
  | put (given : Bool) (key : κ) (value : ν)
  | putUnique (given : Bool) (key : κ) (value : ν)
  | get (key : κ)
  | getVlock (key : κ)
  | delete (key : κ)
  | getAndDelete (key : κ)
  | reduce (f : ReduceFn κ ν)
  | reduceDelete (f : ReduceFn κ ν)
  | getSize

/-- The return value, the mutex passed back, and the table. -/
def lockCall (h : ShashTable κ ν) : LockCall κ ν → Option (Int × Option ShashLock × ShashTable κ ν)
  | .put given key value => (h.shashPutElem given key value).map fun (rv,h) => (rv,none,h)
  | .putUnique given key value => (h.shashPutUniqueElem given key value).map fun (rv,h) => (rv,none,h)
  | .get key => (h.shashGet key).map fun (rv,_,h) => (rv,none,h)
  | .getVlock key => (h.shashGetVlock key).map fun (rv,_,vlock,h) => (rv,vlock,h)
  | .delete key => (h.shashDelete key).map fun (rv,h) => (rv,none,h)
  | .getAndDelete key => (h.shashGetAndDelete key).map fun (rv,_,h) => (rv,none,h)
  | .reduce f => (h.shashReduce f).map fun (rv,_,h) => (rv,none,h)
  | .reduceDelete f => (h.shashReduceDelete f).map fun (rv,_,h) => (rv,none,h)
  | .getSize => h.shashGetSize.map fun (elements,h) => (elements,none,h)

/-- Only `shash_get_vlock` passes a mutex back, where it finds its key. -/
def LockCall.passes (rv : Int) : LockCall κ ν → Prop
  | .getVlock _ => rv = shashOk
  | _ => False

/-- The mutexes held on return are those held on entry, and the one passed back. -/
structure Released (h : ShashTable κ ν) (call : LockCall κ ν) (rv : Int) (vlock : Option ShashLock)
    (after : ShashTable κ ν) : Prop where
  held : ∀ l, l ∈ after.held ↔ vlock = some l ∨ l ∈ h.held
  vlock : vlock.isSome ↔ call.passes rv

/-- The exits that keep a mutex are not taken: a put that finds its key while each bucket has a
mutex of its own, and a put that gets no memory. -/
def GivesBack (h : ShashTable κ ν) : LockCall κ ν → Prop
  | .put given key _ => (key ∈ keys (elems (h.table (h.hash key))) → h.flags &&& shashCrMtBiglock ≠ 0) ∧
      (h.NeedsElem key → given = true)
  | .putUnique given key _ => h.NeedsElem key → given = true
  | _ => True

/-! ### Taking and giving back -/

omit [DecidableEq κ] in
theorem lock_held (taken : h.lock l = some locked) :
    locked = {h with held := l.toList ++ h.held} ∧ ∀ m, l = some m → m ∉ h.held := by
  cases l with
  | none =>
    obtain rfl := Option.some.inj taken
    refine ⟨rfl,fun _ same => ?_⟩
    cases same
  | some m =>
    rw [ShashTable.lock] at taken
    split at taken
    · cases taken
    · rename_i free
      obtain rfl := Option.some.inj taken
      exact ⟨rfl,fun _ same => Option.some.inj same ▸ free⟩

omit [DecidableEq κ] in
/-- What follows a mutex runs with the mutex held. -/
theorem lock_bind {next : ShashTable κ ν → Option α} (done : (h.lock l).bind next = some result) :
    next {h with held := l.toList ++ h.held} = some result ∧ ∀ m, l = some m → m ∉ h.held := by
  obtain ⟨locked,taken,done⟩ := Option.bind_eq_some_iff.mp done
  obtain ⟨rfl,free⟩ := lock_held taken
  exact ⟨done,free⟩

omit [DecidableEq κ] in
theorem unlock_held {before : List ShashLock} (taken : locked.held = l.toList ++ before) :
    (locked.unlock l).held = before := by
  cases l with
  | none => exact taken
  | some m =>
    change locked.held.erase m = before
    rw [taken]
    exact List.erase_cons_head ..

omit [DecidableEq κ] in
theorem bigLock_some (big : h.flags &&& shashCrMtBiglock ≠ 0) (i : Nat) : h.lockOf i = h.bigLock := by
  rw [lockOf,bigLock,if_pos big,Option.some_or]

omit [DecidableEq κ] in
/-- A call on one bucket takes some mutex. -/
theorem lockOf_some (mode : h.flags &&& shashCrMtBiglock ≠ 0 ∨ h.flags &&& shashCrMtManylock ≠ 0) (i : Nat) :
    ∃ m, h.lockOf i = some m := by
  rcases mode with big | many
  · rw [bigLock_some big,bigLock,if_pos big]
    exact ⟨_,rfl⟩
  · rw [lockOf,bucketLock,if_pos many]
    cases h.bigLock with
    | none => exact ⟨_,rfl⟩
    | some m => exact ⟨m,rfl⟩

theorem put_added (b : Bucket κ ν) (key : κ) (value : ν) :
    (put b key value).2 = decide (key ∉ keys (elems b)) := by
  obtain ⟨head,next⟩ := b
  cases head with
  | none => simp [put,elems,keys]
  | some e =>
    by_cases first : e.1 = key
    · simp [put,elems,keys,first]
    · by_cases later : (next.any fun e => e.1 = key) = true
      · have member : key ∈ keys next := by simpa [keys] using later
        have inside : key ∈ keys (elems ⟨some e,next⟩) := List.mem_cons_of_mem _ member
        simp [put,first,later,inside]
      · have absent : key ∉ keys next := by simpa [keys] using later
        have outside : key ∉ keys (elems ⟨some e,next⟩) := by
          simp only [elems,keys,List.map_cons,List.mem_cons,not_or]
          exact ⟨Ne.symm first,absent⟩
        simp [put,first,later,outside]

omit [DecidableEq κ] in
theorem enough_memory (fed : ¬(h.NeedsElem key ∧ given = false)) (needs : h.NeedsElem key) : given = true := by
  by_contra no
  exact fed ⟨needs,Bool.eq_false_iff.mpr no⟩

/-! ### What a call holds on return -/

/-- A mutex that was free on entry is held on return. -/
def Keeps (h after : ShashTable κ ν) : Prop := ∃ m, m ∉ h.held ∧ after.held = m :: h.held

omit [DecidableEq κ] in
theorem keeps_lock (mode : h.flags &&& shashCrMtBiglock ≠ 0 ∨ h.flags &&& shashCrMtManylock ≠ 0)
    (free : ∀ m, h.lockOf i = some m → m ∉ h.held) (held : after.held = (h.lockOf i).toList ++ h.held) : Keeps h after := by
  obtain ⟨m,lock⟩ := lockOf_some mode i
  rw [lock] at held
  exact ⟨m,free m lock,held⟩

/-- A put keeps its mutex without memory, and where it finds its key only the big lock is given back. -/
theorem shashPutElem_held (done : h.shashPutElem given key value = some (rv,after)) :
    ((h.NeedsElem key → given = true) → (key ∈ keys (elems (h.table (h.hash key))) → h.lockOf (h.hash key) = h.bigLock) →
      after.held = h.held) ∧
    (h.flags &&& shashCrMtBiglock ≠ 0 ∨ h.flags &&& shashCrMtManylock ≠ 0 → ¬GivesBack h (.put given key value) →
      Keeps h after) := by
  obtain ⟨done,free⟩ := lock_bind done
  split at done
  · rename_i starved
    obtain ⟨_,rfl⟩ := Prod.mk.inj (Option.some.inj done)
    refine ⟨fun fed => ?_,fun mode _ => keeps_lock mode free rfl⟩
    have given := fed starved.1
    rw [starved.2] at given
    cases given
  · rename_i fed
    have enough := enough_memory fed
    have added := put_added (h.table (h.hash key)) key value
    dsimp only at done
    split at done
    · rename_i new
      obtain ⟨_,rfl⟩ := Prod.mk.inj (Option.some.inj done)
      have absent : key ∉ keys (elems (h.table (h.hash key))) := by simpa using added.symm.trans new
      refine ⟨fun _ _ => unlock_held rfl,fun _ keeps => ?_⟩
      exact absurd ⟨fun found => absurd found absent,enough⟩ keeps
    · rename_i old
      obtain ⟨_,rfl⟩ := Prod.mk.inj (Option.some.inj done)
      have found : key ∈ keys (elems (h.table (h.hash key))) := by
        by_contra absent
        exact old (added.trans (decide_eq_true absent))
      refine ⟨fun _ big => unlock_held ?_,fun mode keeps => keeps_lock mode free ?_⟩
      · change (h.lockOf (h.hash key)).toList ++ h.held = h.bigLock.toList ++ h.held
        rw [big found]
      · have small : ¬h.flags &&& shashCrMtBiglock ≠ 0 := fun big => keeps ⟨fun _ => big,enough⟩
        have none : bigLock {h with held := (h.lockOf (h.hash key)).toList ++ h.held} = none := if_neg small
        rw [none]
        rfl

theorem shashPutUniqueElem_held (done : h.shashPutUniqueElem given key value = some (rv,after)) :
    ((h.NeedsElem key → given = true) → after.held = h.held) ∧
    (h.flags &&& shashCrMtBiglock ≠ 0 ∨ h.flags &&& shashCrMtManylock ≠ 0 → ¬GivesBack h (.putUnique given key value) →
      Keeps h after) := by
  obtain ⟨done,free⟩ := lock_bind done
  split at done
  · rename_i starved
    obtain ⟨_,rfl⟩ := Prod.mk.inj (Option.some.inj done)
    refine ⟨fun fed => ?_,fun mode _ => keeps_lock mode free rfl⟩
    have given := fed starved.1
    rw [starved.2] at given
    cases given
  · rename_i fed
    have enough := enough_memory fed
    refine ⟨fun _ => ?_,fun _ keeps => absurd enough keeps⟩
    split at done
    all_goals
      obtain ⟨_,rfl⟩ := Prod.mk.inj (Option.some.inj done)
      exact unlock_held rfl

theorem shashGet_held (done : h.shashGet key = some (rv,value,after)) : after.held = h.held := by
  obtain ⟨done,_⟩ := lock_bind done
  split at done
  all_goals
    obtain ⟨_,rest⟩ := Prod.mk.inj (Option.some.inj done)
    obtain ⟨_,rfl⟩ := Prod.mk.inj rest
    exact unlock_held rfl

theorem shashGetVlock_held (done : h.shashGetVlock key = some (rv,value,vlock,after)) :
    if rv = shashOk then vlock = h.lockOf (h.hash key) ∧ after.held = vlock.toList ++ h.held
      else vlock = none ∧ after.held = h.held := by
  obtain ⟨done,_⟩ := lock_bind done
  split at done
  all_goals
    obtain ⟨rfl,rest⟩ := Prod.mk.inj (Option.some.inj done)
    obtain ⟨_,rest⟩ := Prod.mk.inj rest
    obtain ⟨rfl,rfl⟩ := Prod.mk.inj rest
  · rw [if_neg (by decide)]
    exact ⟨rfl,unlock_held rfl⟩
  · rw [if_pos rfl]
    exact ⟨rfl,rfl⟩

theorem destroyElem_held (h : ShashTable κ ν) (key : κ) :
    (h.destroyElem key).2.held = h.held ∧ (h.destroyElem key).2.flags = h.flags := by
  rw [ShashTable.destroyElem]
  split
  · exact ⟨rfl,rfl⟩
  · rw [held_setBucket,flags_setBucket]
    exact ⟨rfl,rfl⟩

/-- The calls that delete one key share what is under the mutex. -/
theorem destroyElem_unlock (h : ShashTable κ ν) (key : κ) :
    ((destroyElem {h with held := (h.lockOf (h.hash key)).toList ++ h.held} key).2.unlock (h.lockOf (h.hash key))).held = h.held :=
  unlock_held (destroyElem_held _ key).1

theorem shashDelete_held (done : h.shashDelete key = some (rv,after)) : after.held = h.held := by
  obtain ⟨done,_⟩ := lock_bind done
  obtain ⟨_,rfl⟩ := Prod.mk.inj (Option.some.inj done)
  exact destroyElem_unlock h key

theorem shashGetAndDelete_held (done : h.shashGetAndDelete key = some (rv,value,after)) : after.held = h.held := by
  obtain ⟨done,_⟩ := lock_bind done
  obtain ⟨_,rest⟩ := Prod.mk.inj (Option.some.inj done)
  obtain ⟨_,rfl⟩ := Prod.mk.inj rest
  exact destroyElem_unlock h key

/-! ### Calls on every bucket -/

omit [DecidableEq κ] in
/-- A turn of a loop over the buckets, which leaves the table between the mutex being taken and given back. -/
theorem turn_held (h locked : ShashTable κ ν) (l : Option ShashLock) (same : locked.held = l.toList ++ h.held)
    (flags : locked.flags = h.flags) : (locked.unlock l).held = h.held ∧ (locked.unlock l).flags = h.flags := by
  refine ⟨unlock_held same,?_⟩
  cases l <;> exact flags

omit [DecidableEq κ] in
theorem reduceBuckets_held {f : ReduceFn κ ν} (done : reduceBuckets f is before h = some (rv,visited,after)) :
    after.held = h.held ∧ after.flags = h.flags := by
  induction is generalizing before h with
  | nil =>
    obtain ⟨_,rest⟩ := Prod.mk.inj (Option.some.inj done)
    obtain ⟨_,rfl⟩ := Prod.mk.inj rest
    exact ⟨rfl,rfl⟩
  | cons i is ih =>
    obtain ⟨done,_⟩ := lock_bind done
    have turn := turn_held h {h with held := (h.bucketLock i).toList ++ h.held} (h.bucketLock i) rfl rfl
    dsimp only at done
    split at done
    · obtain ⟨_,rest⟩ := Prod.mk.inj (Option.some.inj done)
      obtain ⟨_,rfl⟩ := Prod.mk.inj rest
      exact turn
    · obtain ⟨held,flags⟩ := ih done
      exact ⟨held.trans turn.1,flags.trans turn.2⟩

omit [DecidableEq κ] in
theorem shashReduce_held {f : ReduceFn κ ν} (done : h.shashReduce f = some (rv,visited,after)) : after.held = h.held := by
  obtain ⟨done,_⟩ := lock_bind done
  obtain ⟨⟨_,_,left⟩,loop,done⟩ := Option.bind_eq_some_iff.mp done
  obtain ⟨_,rest⟩ := Prod.mk.inj (Option.some.inj done)
  obtain ⟨_,rfl⟩ := Prod.mk.inj rest
  exact unlock_held (reduceBuckets_held loop).1

omit [DecidableEq κ] in
theorem reduceDeleteBuckets_held {f : ReduceFn κ ν} (done : reduceDeleteBuckets f is before h = some (rv,visited,after)) :
    after.held = h.held ∧ after.flags = h.flags := by
  induction is generalizing before h with
  | nil =>
    obtain ⟨_,rest⟩ := Prod.mk.inj (Option.some.inj done)
    obtain ⟨_,rfl⟩ := Prod.mk.inj rest
    exact ⟨rfl,rfl⟩
  | cons i is ih =>
    obtain ⟨done,_⟩ := lock_bind done
    have turn (b : Bucket κ ν) (n : Nat) := turn_held h
      (setBucket {h with held := (h.bucketLock i).toList ++ h.held} i b n) (h.bucketLock i) rfl rfl
    dsimp only at done
    split at done
    · obtain ⟨_,rest⟩ := Prod.mk.inj (Option.some.inj done)
      obtain ⟨_,rfl⟩ := Prod.mk.inj rest
      exact turn _ _
    · obtain ⟨held,flags⟩ := ih done
      exact ⟨held.trans (turn _ _).1,flags.trans (turn _ _).2⟩

omit [DecidableEq κ] in
theorem shashReduceDelete_held {f : ReduceFn κ ν} (done : h.shashReduceDelete f = some (rv,visited,after)) :
    after.held = h.held := by
  obtain ⟨done,_⟩ := lock_bind done
  obtain ⟨⟨_,_,left⟩,loop,done⟩ := Option.bind_eq_some_iff.mp done
  obtain ⟨_,rest⟩ := Prod.mk.inj (Option.some.inj done)
  obtain ⟨_,rfl⟩ := Prod.mk.inj rest
  exact unlock_held (reduceDeleteBuckets_held loop).1

omit [DecidableEq κ] in
theorem countBuckets_held (done : countBuckets is before h = some (size,after)) :
    after.held = h.held ∧ after.flags = h.flags := by
  induction is generalizing before h with
  | nil =>
    obtain ⟨_,rfl⟩ := Prod.mk.inj (Option.some.inj done)
    exact ⟨rfl,rfl⟩
  | cons i is ih =>
    obtain ⟨done,_⟩ := lock_bind done
    have turn := turn_held h {h with held := ShashLock.bucket i :: h.held} (some (.bucket i)) rfl rfl
    obtain ⟨held,flags⟩ := ih done
    exact ⟨held.trans turn.1,flags.trans turn.2⟩

omit [DecidableEq κ] in
theorem shashGetSize_held (done : h.shashGetSize = some (size,after)) : after.held = h.held := by
  rw [shashGetSize] at done
  split at done
  · exact (countBuckets_held done).1
  · obtain ⟨done,_⟩ := lock_bind done
    obtain ⟨_,rfl⟩ := Prod.mk.inj (Option.some.inj done)
    exact unlock_held rfl

/-! ### All calls -/

/-- What a call holds on return, with what it passes back. -/
theorem lockCall_held (mode : h.flags &&& shashCrMtBiglock ≠ 0 ∨ h.flags &&& shashCrMtManylock ≠ 0)
    (done : h.lockCall call = some (rv,vlock,after)) :
    (vlock.isSome ↔ call.passes rv) ∧ (GivesBack h call → after.held = vlock.toList ++ h.held) ∧
      (¬GivesBack h call → vlock = none ∧ Keeps h after) := by
  cases call with
  | put given key value =>
    obtain ⟨⟨_,_⟩,called,same⟩ := Option.map_eq_some_iff.mp done
    cases same
    obtain ⟨back,keeps⟩ := shashPutElem_held called
    exact ⟨by simp [LockCall.passes],fun gives => back gives.2 fun found => bigLock_some (gives.1 found) _,
      fun exit => ⟨rfl,keeps mode exit⟩⟩
  | putUnique given key value =>
    obtain ⟨⟨_,_⟩,called,same⟩ := Option.map_eq_some_iff.mp done
    cases same
    obtain ⟨back,keeps⟩ := shashPutUniqueElem_held called
    exact ⟨by simp [LockCall.passes],back,fun exit => ⟨rfl,keeps mode exit⟩⟩
  | getVlock key =>
    obtain ⟨⟨_,_,_,_⟩,called,same⟩ := Option.map_eq_some_iff.mp done
    cases same
    have held := shashGetVlock_held called
    obtain ⟨m,lock⟩ := lockOf_some mode (h.hash key)
    refine ⟨?_,fun _ => ?_,fun exit => absurd trivial exit⟩
    · by_cases ok : rv = shashOk
      · rw [if_pos ok,lock] at held
        simp [LockCall.passes,held.1,ok]
      · rw [if_neg ok] at held
        simp [LockCall.passes,held.1,ok]
    · by_cases ok : rv = shashOk
      · rw [if_pos ok] at held
        exact held.2
      · rw [if_neg ok] at held
        rw [held.1]
        exact held.2
  | get key =>
    obtain ⟨⟨_,_,_⟩,called,same⟩ := Option.map_eq_some_iff.mp done
    cases same
    exact ⟨by simp [LockCall.passes],fun _ => shashGet_held called,fun exit => absurd trivial exit⟩
  | delete key =>
    obtain ⟨⟨_,_⟩,called,same⟩ := Option.map_eq_some_iff.mp done
    cases same
    exact ⟨by simp [LockCall.passes],fun _ => shashDelete_held called,fun exit => absurd trivial exit⟩
  | getAndDelete key =>
    obtain ⟨⟨_,_,_⟩,called,same⟩ := Option.map_eq_some_iff.mp done
    cases same
    exact ⟨by simp [LockCall.passes],fun _ => shashGetAndDelete_held called,fun exit => absurd trivial exit⟩
  | reduce f =>
    obtain ⟨⟨_,_,_⟩,called,same⟩ := Option.map_eq_some_iff.mp done
    cases same
    exact ⟨by simp [LockCall.passes],fun _ => shashReduce_held called,fun exit => absurd trivial exit⟩
  | reduceDelete f =>
    obtain ⟨⟨_,_,_⟩,called,same⟩ := Option.map_eq_some_iff.mp done
    cases same
    exact ⟨by simp [LockCall.passes],fun _ => shashReduceDelete_held called,fun exit => absurd trivial exit⟩
  | getSize =>
    obtain ⟨⟨_,_⟩,called,same⟩ := Option.map_eq_some_iff.mp done
    cases same
    exact ⟨by simp [LockCall.passes],fun _ => shashGetSize_held called,fun exit => absurd trivial exit⟩

/-! ### Calls that come back -/

omit [DecidableEq κ] in
theorem lock_returns (free : ∀ m, l = some m → m ∉ h.held) :
    h.lock l = some {h with held := l.toList ++ h.held} := by
  cases l with
  | none => rfl
  | some m => exact if_neg (free m rfl)

omit [DecidableEq κ] in
theorem bucketLock_free (free : ∀ i, ShashLock.bucket i ∉ h.held) (i : Nat) : ∀ m, h.bucketLock i = some m → m ∉ h.held := by
  intro m lock
  rw [bucketLock] at lock
  split at lock
  · obtain rfl := Option.some.inj lock
    exact free i
  · cases lock

omit [DecidableEq κ] in
theorem reduceBuckets_free (free : ∀ i, ShashLock.bucket i ∉ h.held) (f : ReduceFn κ ν) (is : List Nat) (before : List (κ × ν)) :
    (reduceBuckets f is before h).isSome := by
  induction is generalizing before h with
  | nil => rfl
  | cons i is ih =>
    have turn := turn_held h {h with held := (h.bucketLock i).toList ++ h.held} (h.bucketLock i) rfl rfl
    rw [reduceBuckets,lock_returns (bucketLock_free free i)]
    simp only [Option.bind_eq_bind,Option.bind_some]
    split
    · rfl
    · refine ih (fun j => ?_) _
      rw [turn.1]
      exact free j

omit [DecidableEq κ] in
theorem reduceDeleteBuckets_free (free : ∀ i, ShashLock.bucket i ∉ h.held) (f : ReduceFn κ ν) (is : List Nat)
    (before : List (κ × ν)) : (reduceDeleteBuckets f is before h).isSome := by
  induction is generalizing before h with
  | nil => rfl
  | cons i is ih =>
    have turn (b : Bucket κ ν) (n : Nat) := turn_held h
      (setBucket {h with held := (h.bucketLock i).toList ++ h.held} i b n) (h.bucketLock i) rfl rfl
    rw [reduceDeleteBuckets,lock_returns (bucketLock_free free i)]
    simp only [Option.bind_eq_bind,Option.bind_some]
    split
    · rfl
    · refine ih (fun j => ?_) _
      rw [(turn _ _).1]
      exact free j

omit [DecidableEq κ] in
theorem countBuckets_free (free : ∀ i, ShashLock.bucket i ∉ h.held) (is : List Nat) (before : Nat) :
    (countBuckets is before h).isSome := by
  induction is generalizing before h with
  | nil => rfl
  | cons i is ih =>
    have turn := turn_held h {h with held := (some (ShashLock.bucket i)).toList ++ h.held} (some (.bucket i)) rfl rfl
    rw [countBuckets,lock_returns (l := some (.bucket i)) fun m same => Option.some.inj same ▸ free i]
    refine ih (fun j => ?_) _
    rw [turn.1]
    exact free j

omit [DecidableEq κ] in
theorem bigLock_bucket (free : h.held = []) (i : Nat) : ShashLock.bucket i ∉ h.bigLock.toList ++ h.held := by
  rw [free,bigLock]
  split <;> simp

/-- Where no mutex is held, no call waits for one for ever. -/
theorem lockCall_returns (free : h.held = []) (call : LockCall κ ν) : (h.lockCall call).isSome := by
  have lock (l : Option ShashLock) := lock_returns (h := h) (l := l) fun m _ => free ▸ List.not_mem_nil
  cases call with
  | put given key value =>
    rw [lockCall,shashPutElem,lock]
    simp only [Option.bind_eq_bind,Option.bind_some]
    split
    · rfl
    · split <;> rfl
  | putUnique given key value =>
    rw [lockCall,shashPutUniqueElem,lock]
    simp only [Option.bind_eq_bind,Option.bind_some]
    split
    · rfl
    · split <;> rfl
  | get key =>
    rw [lockCall,shashGet,lock]
    simp only [Option.bind_eq_bind,Option.bind_some]
    split <;> rfl
  | getVlock key =>
    rw [lockCall,shashGetVlock,lock]
    simp only [Option.bind_eq_bind,Option.bind_some]
    split <;> rfl
  | delete key =>
    rw [lockCall,shashDelete,lock]
    rfl
  | getAndDelete key =>
    rw [lockCall,shashGetAndDelete,lock]
    rfl
  | reduce f =>
    have buckets := reduceBuckets_free (h := {h with held := h.bigLock.toList ++ h.held}) (bigLock_bucket free) f
      (List.range h.tableLen) []
    obtain ⟨⟨rv,visited,left⟩,loop⟩ := Option.isSome_iff_exists.mp buckets
    rw [lockCall,shashReduce,lock]
    simp only [Option.bind_eq_bind,Option.bind_some,loop]
    rfl
  | reduceDelete f =>
    have buckets := reduceDeleteBuckets_free (h := {h with held := h.bigLock.toList ++ h.held}) (bigLock_bucket free) f
      (List.range h.tableLen) []
    obtain ⟨⟨rv,visited,left⟩,loop⟩ := Option.isSome_iff_exists.mp buckets
    rw [lockCall,shashReduceDelete,lock]
    simp only [Option.bind_eq_bind,Option.bind_some,loop]
    rfl
  | getSize =>
    rw [lockCall,shashGetSize,Option.isSome_map]
    split
    · exact countBuckets_free (free ▸ fun _ => List.not_mem_nil) _ _
    · dsimp only
      rw [lock]
      rfl

/-! ### The mutexes of a call -/

/-- A call that finds no mutex held returns, and one that returns leaves the mutexes as it found
them exactly if it does not take one of the exits that keep one. -/
theorem locks_released_iff (mode : h.flags &&& shashCrMtBiglock ≠ 0 ∨ h.flags &&& shashCrMtManylock ≠ 0)
    (call : LockCall κ ν) : (h.held = [] → (h.lockCall call).isSome) ∧
      ∀ rv vlock after, h.lockCall call = some (rv,vlock,after) → (Released h call rv vlock after ↔ GivesBack h call) := by
  refine ⟨fun free => lockCall_returns free call,fun rv vlock after done => ?_⟩
  obtain ⟨passed,back,keeps⟩ := lockCall_held mode done
  constructor
  · intro released
    by_contra exit
    obtain ⟨rfl,m,free,held⟩ := keeps exit
    have member : m ∈ after.held := held ▸ List.mem_cons_self
    rcases (released.held m).mp member with none | before
    · cases none
    · exact free before
  · intro gives
    refine ⟨fun l => ?_,passed⟩
    rw [back gives,List.mem_append,Option.mem_toList]

/-- Two buckets with a mutex each. -/
def manyLocks : ShashTable UInt8 UInt8 := ⟨shashCrMtManylock,fun key => key.toUInt32,2,0,fun _ => ⟨none,[]⟩,[]⟩

theorem locks_released_iff_sample :
    ∃ rv vlock after, manyLocks.lockCall (.put true 5 1) = some (rv,vlock,after) ∧ Released manyLocks (.put true 5 1) rv vlock after :=
  ⟨_,_,_,rfl,((locks_released_iff (.inr (by decide)) (.put true 5 1)).2 _ _ _ rfl).mpr ⟨by decide,fun _ => rfl⟩⟩

/-- A value that is put over another in a table with a mutex for each bucket. -/
theorem put_over_keeps : ∃ h t after, shashCreate (fun key : UInt8 => key.toUInt32) 2 shashCrMtManylock = some h ∧
    h.shashPutElem true 5 (1 : UInt8) = some (0,t) ∧ t.held = [] ∧ t.lockCall (.put true 5 2) = some (0,none,after) ∧
    after.held = [.bucket 1] ∧ ¬Released t (.put true 5 2) 0 none after := by
  refine ⟨_,_,_,rfl,rfl,rfl,rfl,rfl,?_⟩
  rintro ⟨held,_⟩
  have kept := (held (.bucket 1)).mp (by decide)
  revert kept
  decide

/-! ### Sequences of calls -/

/-- A put finds its key in a table with a mutex for each bucket. -/
def PutsOver (h : ShashTable κ ν) : ShashCall κ ν → Prop
  | .put key _ => h.flags &&& shashCrMtManylock ≠ 0 ∧ (h.lookup key).isSome
  | _ => False

/-- No call that is reached is such a put. -/
def NoPutOver : ShashTable κ ν → List (ShashCall κ ν) → Prop
  | _,[] => True
  | h,call :: calls => ¬h.PutsOver call ∧ ∀ result next, h.shashCall call = some (result,next) → next.NoPutOver calls

/-- The call with its mutex, where it takes one. -/
def ShashCall.lockCall : ShashCall κ ν → Option (LockCall κ ν)
  | .put key value => some (.put true key value)
  | .putUnique key value => some (.putUnique true key value)
  | .get key => some (.get key)
  | .delete key => some (.delete key)
  | .deleteLockfree _ => none
  | .getAndDelete key => some (.getAndDelete key)
  | .reduce f => some (.reduce f)
  | .reduceDelete f => some (.reduceDelete f)

theorem shashCall_lockCall {call : ShashCall κ ν} {locking : LockCall κ ν} (same : call.lockCall = some locking) :
    (h.shashCall call).map Prod.snd = (h.lockCall locking).map (·.2.2) := by
  cases call <;> cases same <;>
    simp [shashCall,ShashTable.lockCall,shashPutElem_given,shashPutUniqueElem_given,Function.comp_def]

theorem shashCall_returns (free : h.held = []) (call : ShashCall κ ν) : (h.shashCall call).isSome := by
  cases locks : call.lockCall with
  | none =>
    cases call with
    | deleteLockfree key => rfl
    | _ => cases locks
  | some locking =>
    have returns := lockCall_returns free locking
    rw [← Option.isSome_map,← shashCall_lockCall locks,Option.isSome_map] at returns
    exact returns

omit [DecidableEq κ] in
theorem lockOf_big (few : h.flags &&& shashCrMtManylock = 0) (i : Nat) : h.lockOf i = h.bigLock := by
  rw [lockOf,bucketLock,if_neg (not_not.mpr few),Option.or_none]

/-- The mutexes held after a call are those held before, and that of a put over a key. -/
theorem shashCall_held (one : h.flags &&& shashCrMtBiglock = 0 ∨ h.flags &&& shashCrMtManylock = 0)
    (done : h.shashCall call = some (result,after)) :
    (¬h.PutsOver call → after.held = h.held) ∧ (h.PutsOver call → Keeps h after) := by
  cases call with
  | put key value =>
    obtain ⟨⟨_,_⟩,called,same⟩ := Option.map_eq_some_iff.mp done
    cases same
    rw [← shashPutElem_given] at called
    obtain ⟨back,keeps⟩ := shashPutElem_held called
    have there := lookup_isSome h key
    refine ⟨fun fresh => back (fun _ => rfl) fun found => lockOf_big ?_ _,fun again => keeps (.inr again.1) fun gives => ?_⟩
    · by_contra many
      exact fresh ⟨many,there.mpr found⟩
    · exact one.elim (gives.1 (there.mp again.2)) again.1
  | putUnique key value =>
    obtain ⟨⟨_,_⟩,called,same⟩ := Option.map_eq_some_iff.mp done
    cases same
    rw [← shashPutUniqueElem_given] at called
    exact ⟨fun _ => (shashPutUniqueElem_held called).1 fun _ => rfl,False.elim⟩
  | get key =>
    obtain ⟨⟨_,_,_⟩,called,same⟩ := Option.map_eq_some_iff.mp done
    cases same
    exact ⟨fun _ => shashGet_held called,False.elim⟩
  | delete key =>
    obtain ⟨⟨_,_⟩,called,same⟩ := Option.map_eq_some_iff.mp done
    cases same
    exact ⟨fun _ => shashDelete_held called,False.elim⟩
  | deleteLockfree key =>
    cases done
    exact ⟨fun _ => (destroyElem_held h key).1,False.elim⟩
  | getAndDelete key =>
    obtain ⟨⟨_,_,_⟩,called,same⟩ := Option.map_eq_some_iff.mp done
    cases same
    exact ⟨fun _ => shashGetAndDelete_held called,False.elim⟩
  | reduce f =>
    obtain ⟨⟨_,_,_⟩,called,same⟩ := Option.map_eq_some_iff.mp done
    cases same
    exact ⟨fun _ => shashReduce_held called,False.elim⟩
  | reduceDelete f =>
    obtain ⟨⟨_,_,_⟩,called,same⟩ := Option.map_eq_some_iff.mp done
    cases same
    exact ⟨fun _ => shashReduceDelete_held called,False.elim⟩

omit [DecidableEq κ] in
theorem flags_unlock (h : ShashTable κ ν) (l : Option ShashLock) : (h.unlock l).flags = h.flags := by
  cases l <;> rfl

theorem shashCall_flags (done : h.shashCall call = some (result,after)) : after.flags = h.flags := by
  cases call with
  | put key value =>
    obtain ⟨⟨_,_⟩,called,same⟩ := Option.map_eq_some_iff.mp done
    cases same
    have ended := (lock_bind called).1
    dsimp only at ended
    split at ended
    all_goals
      cases ended
      exact flags_unlock ..
  | putUnique key value =>
    obtain ⟨⟨_,_⟩,called,same⟩ := Option.map_eq_some_iff.mp done
    cases same
    have ended := (lock_bind called).1
    split at ended
    all_goals
      cases ended
      exact flags_unlock ..
  | get key =>
    obtain ⟨⟨_,_,_⟩,called,same⟩ := Option.map_eq_some_iff.mp done
    cases same
    have ended := (lock_bind called).1
    split at ended
    all_goals
      cases ended
      exact flags_unlock ..
  | delete key =>
    obtain ⟨⟨_,_⟩,called,same⟩ := Option.map_eq_some_iff.mp done
    cases same
    cases (lock_bind called).1
    exact (flags_unlock ..).trans (destroyElem_held _ key).2
  | deleteLockfree key =>
    cases done
    exact (destroyElem_held h key).2
  | getAndDelete key =>
    obtain ⟨⟨_,_,_⟩,called,same⟩ := Option.map_eq_some_iff.mp done
    cases same
    cases (lock_bind called).1
    exact (flags_unlock ..).trans (destroyElem_held _ key).2
  | reduce f =>
    obtain ⟨⟨_,_,_⟩,called,same⟩ := Option.map_eq_some_iff.mp done
    cases same
    obtain ⟨⟨_,_,left⟩,loop,ended⟩ := Option.bind_eq_some_iff.mp (lock_bind called).1
    cases ended
    exact (flags_unlock ..).trans (reduceBuckets_held loop).2
  | reduceDelete f =>
    obtain ⟨⟨_,_,_⟩,called,same⟩ := Option.map_eq_some_iff.mp done
    cases same
    obtain ⟨⟨_,_,left⟩,loop,ended⟩ := Option.bind_eq_some_iff.mp (lock_bind called).1
    cases ended
    exact (flags_unlock ..).trans (reduceDeleteBuckets_held loop).2

/-- No mutex is given back that was held before. -/
theorem shashCalls_held (one : h.flags &&& shashCrMtBiglock = 0 ∨ h.flags &&& shashCrMtManylock = 0)
    (done : h.shashCalls calls = some (results,after)) : h.held.length ≤ after.held.length := by
  induction calls generalizing h results with
  | nil =>
    cases done
    exact Nat.le_refl _
  | cons call calls ih =>
    obtain ⟨⟨_,next⟩,called,done⟩ := Option.bind_eq_some_iff.mp done
    obtain ⟨⟨_,last⟩,rest,done⟩ := Option.bind_eq_some_iff.mp done
    cases done
    obtain ⟨back,keeps⟩ := shashCall_held one called
    have later := ih (shashCall_flags called ▸ one) rest
    by_cases again : h.PutsOver call
    · obtain ⟨m,_,held⟩ := keeps again
      rw [held,List.length_cons] at later
      exact Nat.le_of_succ_le later
    · rwa [back again] at later

/-- Calls that find no mutex held return with none held exactly if no put of them meets its key under
the mutex of a bucket. -/
theorem shashCalls_free_iff (one : h.flags &&& shashCrMtBiglock = 0 ∨ h.flags &&& shashCrMtManylock = 0)
    (free : h.held = []) (calls : List (ShashCall κ ν)) :
    (∃ results after, h.shashCalls calls = some (results,after) ∧ after.held = []) ↔ h.NoPutOver calls := by
  induction calls generalizing h with
  | nil => exact iff_of_true ⟨[],h,rfl,free⟩ trivial
  | cons call calls ih =>
    obtain ⟨⟨result,next⟩,called⟩ := Option.isSome_iff_exists.mp (shashCall_returns free call)
    obtain ⟨back,keeps⟩ := shashCall_held one called
    have one := shashCall_flags called ▸ one
    rw [NoPutOver]
    by_cases again : h.PutsOver call
    · refine iff_of_false ?_ fun fresh => fresh.1 again
      rintro ⟨results,after,done,none⟩
      obtain ⟨⟨_,_⟩,same,done⟩ := Option.bind_eq_some_iff.mp done
      cases called.symm.trans same
      obtain ⟨⟨_,_⟩,rest,done⟩ := Option.bind_eq_some_iff.mp done
      cases done
      have more := shashCalls_held one rest
      obtain ⟨m,_,held⟩ := keeps again
      rw [held,none] at more
      exact absurd more (Nat.not_succ_le_zero _)
    · rw [and_iff_right again]
      have ih := ih one ((back again).trans free)
      constructor
      · rintro ⟨results,after,done,none⟩ _ _ same
        cases called.symm.trans same
        obtain ⟨⟨_,_⟩,same,done⟩ := Option.bind_eq_some_iff.mp done
        cases called.symm.trans same
        obtain ⟨⟨_,_⟩,rest,done⟩ := Option.bind_eq_some_iff.mp done
        cases done
        exact ih.mp ⟨_,_,rest,none⟩
      · intro fresh
        obtain ⟨results,after,rest,none⟩ := ih.mpr (fresh _ _ called)
        refine ⟨result :: results,after,?_,none⟩
        simp only [shashCalls,called,rest,Option.bind_eq_bind,Option.bind_some]
        rfl

/-- Without a mutex for each bucket there is no such put. -/
theorem noPutOver (few : h.flags &&& shashCrMtManylock = 0) (calls : List (ShashCall κ ν)) : h.NoPutOver calls := by
  induction calls generalizing h with
  | nil => trivial
  | cons call calls ih =>
    refine ⟨fun again => ?_,fun _ _ called => ih (shashCall_flags called ▸ few)⟩
    cases call with
    | put key value => exact again.1 few
    | _ => exact again

/-! ### From the creation of the table on -/

omit [DecidableEq κ] in
theorem shashCreate_some {hFn : κ → UInt32} {sz : Nat} {flags : UInt32} (created : shashCreate hFn sz flags = some h) :
    h = ⟨flags,hFn,sz,0,fun _ => ⟨none,[]⟩,[]⟩ ∧ (flags &&& shashCrMtBiglock = 0 ∨ flags &&& shashCrMtManylock = 0) := by
  rw [shashCreate] at created
  split at created
  · cases created
  · rename_i one
    obtain rfl := Option.some.inj created
    refine ⟨rfl,?_⟩
    by_contra both
    exact one (not_or.mp both)

omit [DecidableEq κ] in
theorem entries_empty (flags : UInt32) (hFn : κ → UInt32) (sz : Nat) :
    entries (⟨flags,hFn,sz,0,fun _ => ⟨none,[]⟩,[]⟩ : ShashTable κ ν) = [] := by
  rw [entries,List.flatMap_eq_nil_iff]
  exact fun _ _ => rfl

omit [DecidableEq κ] in
/-- A new table is that of `Shash`. -/
theorem shashCreate_plain {hFn : κ → UInt32} {sz : Nat} {flags : UInt32} (created : shashCreate hFn sz flags = some h) :
    h.plain = Shash.shashCreate (fun key => (hFn key).toNat) sz := by
  obtain ⟨rfl,_⟩ := shashCreate_some created
  rw [plain,entries_empty]
  rfl

omit [DecidableEq κ] in
/-- It is empty, and none of its mutexes is held. -/
theorem shashCreate_sound {hFn : κ → UInt32} {sz : Nat} {flags : UInt32} (positive : 0 < sz)
    (created : shashCreate hFn sz flags = some h) : Sound h ∧ h.entries = [] ∧ h.flags = flags ∧ h.held = [] ∧
      (h.flags &&& shashCrMtBiglock = 0 ∨ h.flags &&& shashCrMtManylock = 0) := by
  obtain ⟨rfl,one⟩ := shashCreate_some created
  refine ⟨⟨positive,fun _ _ member => absurd member List.not_mem_nil,fun _ => List.nodup_nil,fun _ _ => rfl,?_⟩,
    entries_empty flags hFn sz,rfl,rfl,one⟩
  rw [entries_empty]
  rfl

/-- Sequences of calls that return are those on a finite map. They all do where the table has no
mutexes for its buckets; where it has, they return with all given back exactly if no put finds its
key. A reduce goes on until its callback does not return 0. -/
theorem shash_is_map (keyLen valueLen : Nat) (hFn : Vector UInt8 keyLen → UInt32) (flags : UInt32) (tableLen : Nat)
    (positive : 0 < tableLen) (h : ShashTable (Vector UInt8 keyLen) (Vector UInt8 valueLen))
    (created : shashCreate hFn tableLen flags = some h) (calls : List (ShashCall (Vector UInt8 keyLen) (Vector UInt8 valueLen))) :
    (flags &&& shashCrMtManylock = 0 → (h.shashCalls calls).isSome) ∧
      ((∃ results after, h.shashCalls calls = some (results,after) ∧ after.held = []) ↔ h.NoPutOver calls) ∧
      ∀ results after, h.shashCalls calls = some (results,after) →
        MapCalls (fun _ => none) calls results after.lookup ∧
        (∃ order, Lists after.lookup order ∧ after.elements = order.length % 2 ^ 32) ∧
        (∀ i, (after.table i).head = none → (after.table i).next = []) ∧
        (∀ f rv visited last, (∀ seen e, f seen e = 0) → after.shashReduce f = some (rv,visited,last) →
          rv = 0 ∧ Lists after.lookup visited ∧ last.lookup = after.lookup) ∧
        ∀ f rv visited last, (∀ seen e, f seen e = 0 ∨ f seen e = shashReduceDeleteRv) →
          after.shashReduceDelete f = some (rv,visited,last) →
          rv = 0 ∧ Lists after.lookup visited ∧ ∀ key value, last.lookup key = some value ↔
            ∃ first later, visited = first ++ (key,value) :: later ∧ f first (key,value) = 0 := by
  obtain ⟨sound,empty,flag,held,one⟩ := shashCreate_sound positive created
  have free := shashCalls_free_iff one held calls
  refine ⟨fun few => ?_,free,fun results after done => ?_⟩
  · obtain ⟨results,after,done,_⟩ := free.mpr (noPutOver (flag ▸ few) calls)
    exact Option.isSome_iff_exists.mpr ⟨_,done⟩
  obtain ⟨map,stored⟩ := shashCalls_map sound done
  have start : h.lookup = fun _ => none := by
    funext key
    rw [Option.eq_none_iff_forall_ne_some]
    intro value found
    have member := (sound.lists.pairs key value).mpr found
    rw [empty] at member
    exact List.not_mem_nil member
  rw [start] at map
  exact ⟨map,⟨after.entries,stored.lists,stored.counted⟩,stored.unused,
    fun _ _ _ _ answers => shashReduce_all stored answers,fun _ _ _ _ answers => shashReduceDelete_all stored answers⟩

theorem shash_is_map_sample : ∃ h after : ShashTable (Vector UInt8 1) (Vector UInt8 1),
    shashCreate (fun key => key[0].toUInt32) 2 shashCrMtBiglock = some h ∧
    h.shashCalls [.put #v[1] #v[7],.put #v[3] #v[8],.delete #v[1],.get #v[3]] =
      some ([.code 0,.code 0,.code 0,.value 0 (some #v[8])],after) ∧
    MapCalls (fun _ => none) [.put #v[1] #v[7],.put #v[3] #v[8],.delete #v[1],.get #v[3]]
      [.code 0,.code 0,.code 0,.value 0 (some #v[8])] after.lookup :=
  ⟨_,_,rfl,rfl,((shash_is_map 1 1 (fun key => key[0].toUInt32) shashCrMtBiglock 2 (by decide) _ rfl _).2.2 _ _ rfl).1⟩

/-- A reduce whose callback asks for a deletion stops there and deletes nothing. And a put of
a key that is there keeps the mutex of its bucket: the next call waits for ever. -/
theorem shash_not_map : (∃ h after : ShashTable (Vector UInt8 1) (Vector UInt8 1),
    shashCreate (fun key => key[0].toUInt32) 1 0 = some h ∧
    h.shashCalls [.put #v[1] #v[7],.put #v[2] #v[8],.reduce fun _ _ => shashReduceDeleteRv] =
      some ([.code 0,.code 0,.visited 1 [(#v[1],#v[7])]],after) ∧
    after.lookup #v[1] = some #v[7] ∧ after.lookup #v[2] = some #v[8]) ∧
  ∃ h : ShashTable (Vector UInt8 1) (Vector UInt8 1),
    shashCreate (fun key => key[0].toUInt32) 1 shashCrMtManylock = some h ∧
    h.shashCalls [.put #v[1] #v[7],.put #v[1] #v[8],.get #v[1]] = none :=
  ⟨⟨_,_,rfl,rfl,by decide,by decide⟩,_,rfl,rfl⟩

end Citrusleaf.ShashTable
