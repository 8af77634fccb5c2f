import Citrusleaf.CfVectorList

/-! `LOCK` of cf_vector.c. Apart from it, a vector with `VECTOR_FLAG_BIGLOCK` does what one without
does; a call that fails its bounds check leaves with the lock. -/
namespace Citrusleaf
open Lib

variable {valueLen : Nat} {v after : CfVector valueLen}

namespace CfVector

variable {flags : UInt32} {malloc : Malloc} {i j : Nat}

/-! ### The lock does not matter to what is stored -/

/-- The same values, under other flags and with the lock as given. -/
def relock (v : CfVector valueLen) (flags : UInt32) (held : Bool) : CfVector valueLen := {v with flags,held}

/-- The flags that growth reads are the same. -/
structure SameGrowth (one two : UInt32) : Prop where
  initzero : one &&& vectorFlagInitzero = two &&& vectorFlagInitzero
  bigresize : one &&& vectorFlagBigresize = two &&& vectorFlagBigresize

/-- The vector as if it had no lock. -/
def plain (v : CfVector valueLen) : CfVector valueLen := v.relock (v.flags &&& ~~~vectorFlagBiglock) false

theorem plain_growth (flags : UInt32) : SameGrowth flags (flags &&& ~~~vectorFlagBiglock) := by
  constructor <;> rw [UInt32.and_assoc] <;> rfl

theorem plain_unlocked (v : CfVector valueLen) : v.plain.flags &&& vectorFlagBiglock = 0 := by
  change v.flags &&& ~~~vectorFlagBiglock &&& vectorFlagBiglock = 0
  rw [UInt32.and_assoc]
  exact UInt32.and_zero

theorem plain_roomAfter (v : CfVector valueLen) : v.plain.roomAfter = v.roomAfter := by
  have same : v.plain.flags &&& vectorFlagBigresize = v.flags &&& vectorFlagBigresize := (plain_growth v.flags).bigresize.symm
  rw [roomAfter,roomAfter,resizeLen,resizeLen,same]
  rfl

theorem resize_relock (same : SameGrowth flags v.flags) (held : Bool) (newSz : Nat) :
    cfVectorResize malloc (v.relock flags held) newSz =
      (cfVectorResize malloc v newSz).map fun (rv,w) => (rv,w.relock flags held) := by
  have size : resizeLen flags newSz = resizeLen v.flags newSz := by rw [resizeLen,resizeLen,same.bigresize]
  have alloc (n : Nat) : vectorAlloc malloc (v.relock flags held) n = vectorAlloc malloc v n := rfl
  have left (t : List UInt8) : leaveStack (v.relock flags held) t = leaveStack v t := rfl
  have rest (n : Nat) (t : List UInt8) : zeroRest (v.relock flags held) n t = zeroRest v n t := by
    simp only [zeroRest,relock,same.initzero]
  rw [cfVectorResize,cfVectorResize]
  simp only [show (v.relock flags held).flags = flags from rfl,size,alloc,left,rest]
  cases vectorAlloc malloc v (vectorOffset valueLen (resizeLen v.flags newSz)) with
  | none => rfl
  | some t =>
    dsimp only
    cases leaveStack v t with
    | none => rfl
    | some t =>
      simp only [Option.bind_eq_bind,Option.bind_some]
      cases zeroRest v (resizeLen v.flags newSz) t <;> rfl

/-- What `cf_vector_append_lockfree` does behind a growth. -/
def storeLast (value : Element valueLen) (grown : Int × CfVector valueLen) : Option (Int × CfVector valueLen) :=
  if grown.1 ≠ 0 then some (-1,grown.2)
  else (writeBytes grown.2.block (vectorOffset valueLen grown.2.len) value.toList).bind fun vector =>
    some (0,{grown.2 with vector := some vector,len := (grown.2.len + 1) % 2 ^ 32})

theorem append_eq (malloc : Malloc) (v : CfVector valueLen) (value : Element valueLen) :
    cfVectorAppendLockfree malloc v value =
      (if v.len ≥ v.allocLen then cfVectorResize malloc v (v.len * 2 % 2 ^ 32) else some (0,v)).bind (storeLast value) := by
  rw [cfVectorAppendLockfree]
  split <;> rfl

theorem append_relock (same : SameGrowth flags v.flags) (held : Bool) (value : Element valueLen) :
    cfVectorAppendLockfree malloc (v.relock flags held) value =
      (cfVectorAppendLockfree malloc v value).map fun (rv,w) => (rv,w.relock flags held) := by
  have grown : (if v.len ≥ v.allocLen then cfVectorResize malloc (v.relock flags held) (v.len * 2 % 2 ^ 32)
      else some (0,v.relock flags held)) =
        (if v.len ≥ v.allocLen then cfVectorResize malloc v (v.len * 2 % 2 ^ 32) else some (0,v)).map
          fun (rv,w) => (rv,w.relock flags held) := by
    split
    · exact resize_relock same held _
    · rfl
  have stored (result : Int × CfVector valueLen) : storeLast value (result.1,result.2.relock flags held) =
      (storeLast value result).map fun (rv,w) => (rv,w.relock flags held) := by
    rw [storeLast,storeLast]
    split
    · rfl
    · change (writeBytes result.2.block (vectorOffset valueLen result.2.len) value.toList).bind _ = _
      cases writeBytes result.2.block (vectorOffset valueLen result.2.len) value.toList <;> rfl
  rw [append_eq,append_eq]
  refine (congrArg (fun result => Option.bind result (storeLast value)) grown).trans ?_
  rw [Option.bind_map,Option.map_bind]
  exact Option.bind_congr fun result _ => stored result

theorem closeGap_relock (v : CfVector valueLen) (flags : UInt32) (held : Bool) (i j : Nat) :
    closeGap (v.relock flags held) i j = (closeGap v i j).map fun w => w.relock flags held := by
  rw [closeGap,closeGap]
  simp only [show (v.relock flags held).len = v.len from rfl,show (v.relock flags held).block = v.block from rfl]
  split
  · cases moveBytes v.block (vectorOffset valueLen i) (vectorOffset valueLen (j + 1))
      (vectorOffset valueLen (v.len - (j + 1))) <;> rfl
  · rfl

/-- A free lock is taken, if there is one. -/
theorem lock_free (free : v.held = false) :
    vectorLock v = some (v.relock v.flags (decide (v.flags &&& vectorFlagBiglock ≠ 0))) := by
  rw [vectorLock]
  by_cases none : v.flags &&& vectorFlagBiglock = 0
  · rw [if_pos none,decide_eq_false (not_not.mpr none),← free]
    rfl
  · rw [if_neg none,free,decide_eq_true none]
    rfl

theorem unlock_relock (v : CfVector valueLen) (flags : UInt32) :
    vectorUnlock (v.relock flags (decide (flags &&& vectorFlagBiglock ≠ 0))) = v.relock flags false := by
  rw [vectorUnlock]
  split
  · rename_i none
    have none : flags &&& vectorFlagBiglock = 0 := none
    rw [decide_eq_false (not_not.mpr none)]
  · rfl

/-! ### Calls that come back -/

/-- The block has room for all its values. -/
structure Sound (v : CfVector valueLen) : Prop where
  room : v.len ≤ v.allocLen
  bytes : v.allocLen * valueLen ≤ v.block.length
  small : v.allocLen * valueLen < 2 ^ 31
  word : v.allocLen < 2 ^ 31

theorem Sound.holds (sound : v.Sound) : ∃ l, v.plain.Holds l := by
  have bytes := sound.bytes
  have width (k : Fin v.len) : (cellAt valueLen v.block k).length = valueLen := by
    have length := @cells_length valueLen v.allocLen 1 k v.block bytes (Nat.lt_of_lt_of_le k.2 sound.room)
    rwa [Nat.one_mul] at length
  refine ⟨List.ofFn fun k : Fin v.len => ⟨⟨cellAt valueLen v.block k⟩,width k⟩,?_⟩
  refine ⟨List.length_ofFn.symm,?_,bytes,sound.small,sound.word,fun k inside => ?_,plain_unlocked v⟩
  · rw [List.length_ofFn]
    exact sound.room
  · rw [List.getElem_ofFn]
    rfl

theorem Sound.read (sound : v.Sound) (inside : i < v.allocLen) :
    (readBytes v.block (vectorOffset valueLen i) valueLen).isSome := by
  rw [vectorOffset_eq (Nat.le_of_lt inside) sound.small,readBytes_cell sound.bytes inside]
  rfl

theorem Sound.write (sound : v.Sound) (inside : i < v.allocLen) (value : Element valueLen) :
    (writeBytes v.block (vectorOffset valueLen i) value.toList).isSome := by
  obtain ⟨l,holds⟩ := sound.holds
  obtain ⟨block,written,_⟩ := holds.write inside value
  exact Option.isSome_iff_exists.mpr ⟨block,written⟩

/-- An allocator that answers as another one where that gives memory. -/
def filled (malloc : Malloc) : Malloc := fun n => some ((malloc n).getD fun _ => 0)

theorem alloc_filled (given : vectorAlloc malloc v n = some t) : vectorAlloc (filled malloc) v n = some t := by
  have block (block : List UInt8) (given : mallocBlock malloc n = some block) : mallocBlock (filled malloc) n = some block := by
    obtain ⟨garbage,got,rfl⟩ := Option.map_eq_some_iff.mp given
    rw [mallocBlock,filled,got]
    rfl
  rw [vectorAlloc] at given ⊢
  split
  · rename_i fresh
    rw [if_pos fresh] at given
    exact block t given
  · rename_i old
    rw [if_neg old] at given
    obtain ⟨new,got,rfl⟩ := Option.map_eq_some_iff.mp given
    rw [reallocBlock,block new got]
    rfl

/-- A growth without memory leaves the vector as it was. -/
theorem resize_filled (malloc : Malloc) (v : CfVector valueLen) (newSz : Nat) :
    cfVectorResize malloc v newSz = some (-1,v) ∨ cfVectorResize malloc v newSz = cfVectorResize (filled malloc) v newSz := by
  cases alloc : vectorAlloc malloc v (vectorOffset valueLen (resizeLen v.flags newSz)) with
  | none =>
    left
    rw [cfVectorResize]
    simp only [alloc]
  | some t =>
    right
    rw [cfVectorResize,cfVectorResize]
    simp only [alloc,alloc_filled alloc]

theorem append_filled (malloc : Malloc) (v : CfVector valueLen) (value : Element valueLen) :
    cfVectorAppendLockfree malloc v value = some (-1,v) ∨
      cfVectorAppendLockfree malloc v value = cfVectorAppendLockfree (filled malloc) v value := by
  rw [cfVectorAppendLockfree,cfVectorAppendLockfree]
  split
  · rcases resize_filled malloc v (v.len * 2 % 2 ^ 32) with failed | same
    · left
      rw [failed]
      rfl
    · right
      rw [same]
  · exact .inr rfl

theorem Sound.append (malloc : Malloc) (sound : v.Sound) (positive : 0 < valueLen) (small : v.roomAfter * valueLen < 2 ^ 31)
    (value : Element valueLen) (flags : UInt32) (same : SameGrowth flags v.plain.flags) (held : Bool) :
    (cfVectorAppendLockfree malloc (v.relock flags held) value).isSome := by
  obtain ⟨l,holds⟩ := sound.holds
  have growth := v.plain_roomAfter
  obtain ⟨after,appended,_⟩ := append_lockfree_holds (show ∀ n, (filled malloc n).isSome from fun _ => rfl) holds positive
    (growth ▸ small) value
  change (cfVectorAppendLockfree malloc (v.plain.relock flags held) value).isSome
  rw [append_relock same,Option.isSome_map]
  rcases append_filled malloc v.plain value with failed | filled
  · rw [failed]
    rfl
  · rw [filled,appended]
    rfl

end CfVector

/-! ### The calls and the lock -/

/-- The calls that take `LOCK`. -/
inductive VectorLockCall (valueLen : Nat) where
  | set (index : UInt32) (value : Element valueLen)
  | get (index : UInt32)
  | getp (index : UInt32)
  | append (value : Element valueLen)
  | appendUnique (value : Element valueLen)
  | delete (index : UInt32)
  | deleteRange (idxStart idxEnd : UInt32)
  | compact
  | getpVlock (index : UInt32)

/-- The value behind a pointer that is returned, whether `*vlock` is set, and the vector. -/
def vectorLockCall (malloc : Malloc) (v : CfVector valueLen) :
    VectorLockCall valueLen → Option (Option (List UInt8) × Bool × CfVector valueLen)
  | .set index value => (cfVectorSet v index value).map fun (_,v) => (none,false,v)
  | .get index => (cfVectorGet v index).map fun (_,_,v) => (none,false,v)
  | .getp index => (cfVectorGetp v index).map fun (r,v) => (r,false,v)
  | .append value => (cfVectorAppend malloc v value).map fun (_,v) => (none,false,v)
  | .appendUnique value => (cfVectorAppendUnique malloc v value).map fun (_,v) => (none,false,v)
  | .delete index => (cfVectorDelete v index).map fun (_,v) => (none,false,v)
  | .deleteRange idxStart idxEnd => (cfVectorDeleteRange v idxStart idxEnd).map fun (_,v) => (none,false,v)
  | .compact => (cfVectorCompact malloc v).map fun v => (none,false,v)
  | .getpVlock index => cfVectorGetpVlock v index

/-- `VECTOR_FLAG_BIGLOCK` is set. -/
def CfVector.Locks (v : CfVector valueLen) : Prop := v.flags &&& vectorFlagBiglock ≠ 0

/-- What is promised of the lock of a vector that nobody holds. -/
def LockPromise (v : CfVector valueLen) (r : Option (List UInt8)) (vlock : Bool) (after : CfVector valueLen) :
    VectorLockCall valueLen → Prop
  | .getpVlock _ => (vlock = true ↔ r.isSome) ∧ after.held = vlock ∧ (r.isSome → v.Locks)
  | _ => v.Locks → after.held = false

/-- The exits of bounds checks behind the lock are not taken, and `cf_vector_getp_vlock` is not
called on a vector that has flags, but not that one. -/
def LeavesFree (v : CfVector valueLen) : VectorLockCall valueLen → Prop
  | .set index _ => v.Locks → index.toNat < v.allocLen
  | .get index => v.Locks → index.toNat < v.allocLen
  | .getp index => v.Locks → index.toNat < v.allocLen
  | .delete index => v.Locks → index.toNat < v.len
  | .deleteRange idxStart idxEnd => v.Locks → idxStart < idxEnd ∧ idxEnd.toNat < v.len
  | .getpVlock index => v.Locks ∨ v.flags = 0 ∨ v.allocLen ≤ index.toNat
  | _ => True

/-- What a call asks the allocator for is less than two gigabytes, and only memory of its own is compacted. -/
def Asks (v : CfVector valueLen) : VectorLockCall valueLen → Prop
  | .append _ => v.roomAfter * valueLen < 2 ^ 31
  | .appendUnique _ => v.roomAfter * valueLen < 2 ^ 31
  | .compact => v.allocLen = 0 ∨ v.len = v.allocLen ∨ v.stackVector = false
  | _ => True

namespace CfVector

variable {malloc : Malloc}

theorem lock_locks (locks : v.Locks) (free : v.held = false) : vectorLock v = some (v.relock v.flags true) := by
  have taken : decide (v.flags &&& vectorFlagBiglock ≠ 0) = true := decide_eq_true locks
  rw [lock_free free,taken]

/-- What follows the lock runs with the lock held. -/
theorem lock_bind {next : CfVector valueLen → Option α} (locks : v.Locks) (free : v.held = false)
    (done : (vectorLock v).bind next = some result) : next (v.relock v.flags true) = some result := by
  rw [lock_locks locks free] at done
  exact done

theorem unlock_held (locks : after.Locks) : (vectorUnlock after).held = false := by
  rw [vectorUnlock,if_neg locks]

theorem relock_held (v : CfVector valueLen) (flags : UInt32) : ¬(v.relock flags true).held = false := by simp [relock]

theorem set_held (locks : v.Locks) (free : v.held = false) (done : cfVectorSet v index value = some (rv,after)) :
    after.held = false ↔ index.toNat < v.allocLen := by
  replace done := lock_bind locks free done
  split at done
  · rename_i outside
    obtain ⟨_,rfl⟩ := Prod.mk.inj (Option.some.inj done)
    exact iff_of_false (relock_held v v.flags) (Nat.not_lt.mpr outside)
  · rename_i inside
    obtain ⟨vector,_,done⟩ := Option.bind_eq_some_iff.mp done
    obtain ⟨_,rfl⟩ := Prod.mk.inj (Option.some.inj done)
    exact iff_of_true (unlock_held locks) (Nat.not_le.mp inside)

theorem get_held (locks : v.Locks) (free : v.held = false) (done : cfVectorGet v index = some (rv,value,after)) :
    after.held = false ↔ index.toNat < v.allocLen := by
  replace done := lock_bind locks free done
  split at done
  · rename_i outside
    obtain ⟨_,rest⟩ := Prod.mk.inj (Option.some.inj done)
    obtain ⟨_,rfl⟩ := Prod.mk.inj rest
    exact iff_of_false (relock_held v v.flags) (Nat.not_lt.mpr outside)
  · rename_i inside
    obtain ⟨value,_,done⟩ := Option.bind_eq_some_iff.mp done
    obtain ⟨_,rest⟩ := Prod.mk.inj (Option.some.inj done)
    obtain ⟨_,rfl⟩ := Prod.mk.inj rest
    exact iff_of_true (unlock_held locks) (Nat.not_le.mp inside)

theorem getp_held (locks : v.Locks) (free : v.held = false) (done : cfVectorGetp v index = some (r,after)) :
    after.held = false ↔ index.toNat < v.allocLen := by
  replace done := lock_bind locks free done
  split at done
  · rename_i outside
    obtain ⟨_,rfl⟩ := Prod.mk.inj (Option.some.inj done)
    exact iff_of_false (relock_held v v.flags) (Nat.not_lt.mpr outside)
  · rename_i inside
    obtain ⟨value,_,done⟩ := Option.bind_eq_some_iff.mp done
    obtain ⟨_,rfl⟩ := Prod.mk.inj (Option.some.inj done)
    exact iff_of_true (unlock_held locks) (Nat.not_le.mp inside)

theorem appended_held (locks : v.Locks)
    (done : cfVectorAppendLockfree malloc (v.relock v.flags true) value = some (rv,after)) :
    (vectorUnlock after).held = false := by
  rw [append_relock ⟨rfl,rfl⟩] at done
  obtain ⟨⟨_,w⟩,_,same⟩ := Option.map_eq_some_iff.mp done
  obtain ⟨_,rfl⟩ := Prod.mk.inj same
  exact unlock_held locks

theorem append_held (locks : v.Locks) (free : v.held = false) (done : cfVectorAppend malloc v value = some (rv,after)) :
    after.held = false := by
  replace done := lock_bind locks free done
  obtain ⟨⟨_,w⟩,appended,done⟩ := Option.bind_eq_some_iff.mp done
  obtain ⟨_,rfl⟩ := Prod.mk.inj (Option.some.inj done)
  exact appended_held locks appended

theorem append_unique_held (locks : v.Locks) (free : v.held = false)
    (done : cfVectorAppendUnique malloc v value = some (rv,after)) : after.held = false := by
  replace done := lock_bind locks free done
  obtain ⟨found,_,done⟩ := Option.bind_eq_some_iff.mp done
  split at done
  · obtain ⟨_,rfl⟩ := Prod.mk.inj (Option.some.inj done)
    exact unlock_held locks
  · obtain ⟨⟨_,w⟩,appended,done⟩ := Option.bind_eq_some_iff.mp done
    obtain ⟨_,rfl⟩ := Prod.mk.inj (Option.some.inj done)
    exact appended_held locks appended

/-- Both deletions give the lock back behind the move. -/
theorem gap_held (locks : v.Locks) (closed : closeGap (v.relock v.flags true) i j = some after) :
    (vectorUnlock after).held = false := by
  rw [closeGap_relock] at closed
  obtain ⟨w,_,rfl⟩ := Option.map_eq_some_iff.mp closed
  exact unlock_held locks

theorem delete_held (locks : v.Locks) (free : v.held = false) (done : cfVectorDelete v index = some (rv,after)) :
    after.held = false ↔ index.toNat < v.len := by
  replace done := lock_bind locks free done
  split at done
  · rename_i outside
    obtain ⟨_,rfl⟩ := Prod.mk.inj (Option.some.inj done)
    exact iff_of_false (relock_held v v.flags) (Nat.not_lt.mpr outside)
  · rename_i inside
    obtain ⟨w,closed,done⟩ := Option.bind_eq_some_iff.mp done
    obtain ⟨_,rfl⟩ := Prod.mk.inj (Option.some.inj done)
    exact iff_of_true (gap_held locks closed) (Nat.not_le.mp inside)

theorem delete_range_held (locks : v.Locks) (free : v.held = false)
    (done : cfVectorDeleteRange v idxStart idxEnd = some (rv,after)) :
    after.held = false ↔ idxStart < idxEnd ∧ idxEnd.toNat < v.len := by
  replace done := lock_bind locks free done
  split at done
  · rename_i disordered
    obtain ⟨_,rfl⟩ := Prod.mk.inj (Option.some.inj done)
    exact iff_of_false (relock_held v v.flags) fun good => UInt32.not_le.mpr good.1 disordered
  rename_i ordered
  have order := UInt32.lt_iff_toNat_lt.mp (UInt32.not_le.mp ordered)
  split at done
  · rename_i outside
    obtain ⟨_,rfl⟩ := Prod.mk.inj (Option.some.inj done)
    have outside : idxStart.toNat ≥ v.len := outside
    exact iff_of_false (relock_held v v.flags) fun good => by omega
  split at done
  · rename_i outside
    obtain ⟨_,rfl⟩ := Prod.mk.inj (Option.some.inj done)
    exact iff_of_false (relock_held v v.flags) fun good => Nat.not_lt.mpr outside good.2
  · rename_i inside
    obtain ⟨w,closed,done⟩ := Option.bind_eq_some_iff.mp done
    obtain ⟨_,rfl⟩ := Prod.mk.inj (Option.some.inj done)
    exact iff_of_true (gap_held locks closed) ⟨UInt32.not_le.mp ordered,Nat.not_le.mp inside⟩

theorem compact_held (locks : v.Locks) (free : v.held = false) (done : cfVectorCompact malloc v = some after) :
    after.held = false := by
  replace done := lock_bind locks free done
  split at done
  · split at done
    · cases done
    · obtain rfl := Option.some.inj done
      exact unlock_held locks
  · obtain rfl := Option.some.inj done
    exact unlock_held locks

/-- A pointer comes with the lock, whatever flags let the vector through. -/
theorem getp_vlock_promise (free : v.held = false) (done : cfVectorGetpVlock v index = some (r,vlock,after)) :
    LockPromise v r vlock after (.getpVlock index) ↔ LeavesFree v (.getpVlock index) := by
  rw [cfVectorGetpVlock] at done
  split at done
  · rename_i plain
    cases done
    exact iff_of_true ⟨by simp,free,by simp⟩ (.inr (.inl plain))
  split at done
  · rename_i outside
    cases done
    exact iff_of_true ⟨by simp,free,by simp⟩ (.inr (.inr outside))
  rename_i some inside
  rw [if_neg (by rw [free]; decide)] at done
  obtain ⟨bytes,_,done⟩ := Option.bind_eq_some_iff.mp done
  cases done
  have allowed : LeavesFree v (.getpVlock index) ↔ v.Locks := by
    rw [LeavesFree,or_iff_right some]
    exact or_iff_left inside
  rw [allowed]
  constructor
  · intro promise
    exact promise.2.2 rfl
  · intro locks
    exact ⟨by simp,rfl,fun _ => locks⟩

theorem Sound.find (sound : v.Sound) (value : Element valueLen) : (findValue v.block value v.len 0).isSome := by
  obtain ⟨l,holds⟩ := sound.holds
  have found := find_value holds value (Nat.zero_add l.length)
  rw [Nat.zero_mul,← holds.len] at found
  exact Option.isSome_iff_exists.mpr ⟨_,found⟩

theorem Sound.gap (sound : v.Sound) (order : i ≤ j) (inside : j < v.len) (held : Bool) :
    (closeGap (v.relock v.flags held) i j).isSome := by
  obtain ⟨l,holds⟩ := sound.holds
  have len : v.len = l.length := holds.len
  obtain ⟨after,closed,_⟩ := holds.gap order (len ▸ inside)
  change (closeGap (v.plain.relock v.flags held) i j).isSome
  rw [closeGap_relock,Option.isSome_map,closed]
  rfl

/-- A call on a vector with room for its values, whose lock is free, returns. -/
theorem lock_call_returns (sound : v.Sound) (positive : 0 < valueLen) (free : v.held = false)
    (call : VectorLockCall valueLen) (asks : Asks v call) : (vectorLockCall malloc v call).isSome := by
  cases call with
  | set index value =>
    rw [vectorLockCall,Option.isSome_map,cfVectorSet,lock_free free]
    simp only [Option.bind_eq_bind,Option.bind_some]
    split
    · rfl
    · rename_i inside
      obtain ⟨block,written⟩ := Option.isSome_iff_exists.mp (sound.write (Nat.not_le.mp inside) value)
      rw [show (v.relock v.flags (decide (v.flags &&& vectorFlagBiglock ≠ 0))).block = v.block from rfl,written]
      rfl
  | get index =>
    rw [vectorLockCall,Option.isSome_map,cfVectorGet,lock_free free]
    simp only [Option.bind_eq_bind,Option.bind_some]
    split
    · rfl
    · rename_i inside
      obtain ⟨bytes,read⟩ := Option.isSome_iff_exists.mp (sound.read (Nat.not_le.mp inside))
      rw [show (v.relock v.flags (decide (v.flags &&& vectorFlagBiglock ≠ 0))).block = v.block from rfl,read]
      rfl
  | getp index =>
    rw [vectorLockCall,Option.isSome_map,cfVectorGetp,lock_free free]
    simp only [Option.bind_eq_bind,Option.bind_some]
    split
    · rfl
    · rename_i inside
      obtain ⟨bytes,read⟩ := Option.isSome_iff_exists.mp (sound.read (Nat.not_le.mp inside))
      rw [show (v.relock v.flags (decide (v.flags &&& vectorFlagBiglock ≠ 0))).block = v.block from rfl,read]
      rfl
  | append value =>
    have appended := sound.append malloc positive asks value v.flags (plain_growth v.flags)
      (decide (v.flags &&& vectorFlagBiglock ≠ 0))
    obtain ⟨result,appended⟩ := Option.isSome_iff_exists.mp appended
    rw [vectorLockCall,Option.isSome_map,cfVectorAppend,lock_free free]
    simp only [Option.bind_eq_bind,Option.bind_some,appended]
    rfl
  | appendUnique value =>
    have appended := sound.append malloc positive asks value v.flags (plain_growth v.flags)
      (decide (v.flags &&& vectorFlagBiglock ≠ 0))
    obtain ⟨result,appended⟩ := Option.isSome_iff_exists.mp appended
    obtain ⟨found,searched⟩ := Option.isSome_iff_exists.mp (sound.find value)
    rw [vectorLockCall,Option.isSome_map,cfVectorAppendUnique,lock_free free]
    simp only [Option.bind_eq_bind,Option.bind_some]
    rw [show findValue (v.relock v.flags (decide (v.flags &&& vectorFlagBiglock ≠ 0))).block value
      (v.relock v.flags (decide (v.flags &&& vectorFlagBiglock ≠ 0))).len 0 = some found from searched]
    simp only [Option.bind_some,appended]
    split <;> rfl
  | delete index =>
    rw [vectorLockCall,Option.isSome_map,cfVectorDelete,lock_free free]
    simp only [Option.bind_eq_bind,Option.bind_some]
    split
    · rfl
    · rename_i inside
      have closed := sound.gap (Nat.le_refl index.toNat) (Nat.not_le.mp inside) (decide (v.flags &&& vectorFlagBiglock ≠ 0))
      obtain ⟨w,closed⟩ := Option.isSome_iff_exists.mp closed
      rw [closed]
      rfl
  | deleteRange idxStart idxEnd =>
    rw [vectorLockCall,Option.isSome_map,cfVectorDeleteRange,lock_free free]
    simp only [Option.bind_eq_bind,Option.bind_some]
    split
    · rfl
    rename_i ordered
    have order := UInt32.lt_iff_toNat_lt.mp (UInt32.not_le.mp ordered)
    split
    · rfl
    split
    · rfl
    · rename_i inside
      have closed := sound.gap (Nat.le_of_lt order) (Nat.not_le.mp inside) (decide (v.flags &&& vectorFlagBiglock ≠ 0))
      obtain ⟨w,closed⟩ := Option.isSome_iff_exists.mp closed
      rw [closed]
      rfl
  | compact =>
    rw [vectorLockCall,Option.isSome_map,cfVectorCompact,lock_free free]
    simp only [Option.bind_eq_bind,Option.bind_some]
    split
    · rename_i shrinks
      have own : v.stackVector = false := (asks.resolve_left shrinks.1).resolve_left shrinks.2
      rw [if_neg (by rw [relock,own]; decide)]
      rfl
    · rfl
  | getpVlock index =>
    rw [vectorLockCall,cfVectorGetpVlock]
    split
    · rfl
    split
    · rfl
    · rename_i inside
      obtain ⟨bytes,read⟩ := Option.isSome_iff_exists.mp (sound.read (Nat.not_le.mp inside))
      rw [free,if_neg Bool.false_ne_true,read]
      rfl

end CfVector

/-- The lock is free again after every call but those that fail a bounds check behind it, and a
pointer comes with the lock of a vector that has one, unless its flags are others. -/
theorem vector_locks_iff (malloc : Malloc) (free : v.held = false) (call : VectorLockCall valueLen) :
    (0 < valueLen → v.Sound → Asks v call → (vectorLockCall malloc v call).isSome) ∧
      ∀ r vlock after, vectorLockCall malloc v call = some (r,vlock,after) →
        (LockPromise v r vlock after call ↔ LeavesFree v call) := by
  refine ⟨fun positive sound asks => CfVector.lock_call_returns sound positive free call asks,fun r vlock after done => ?_⟩
  cases call with
  | set index value =>
    obtain ⟨⟨_,_⟩,called,same⟩ := Option.map_eq_some_iff.mp done
    cases same
    exact forall_congr' fun locks => CfVector.set_held locks free called
  | get index =>
    obtain ⟨⟨_,_,_⟩,called,same⟩ := Option.map_eq_some_iff.mp done
    cases same
    exact forall_congr' fun locks => CfVector.get_held locks free called
  | getp index =>
    obtain ⟨⟨_,_⟩,called,same⟩ := Option.map_eq_some_iff.mp done
    cases same
    exact forall_congr' fun locks => CfVector.getp_held locks free called
  | append value =>
    obtain ⟨⟨_,_⟩,called,same⟩ := Option.map_eq_some_iff.mp done
    cases same
    exact iff_of_true (fun locks => CfVector.append_held locks free called) trivial
  | appendUnique value =>
    obtain ⟨⟨_,_⟩,called,same⟩ := Option.map_eq_some_iff.mp done
    cases same
    exact iff_of_true (fun locks => CfVector.append_unique_held locks free called) trivial
  | delete index =>
    obtain ⟨⟨_,_⟩,called,same⟩ := Option.map_eq_some_iff.mp done
    cases same
    exact forall_congr' fun locks => CfVector.delete_held locks free called
  | deleteRange idxStart idxEnd =>
    obtain ⟨⟨_,_⟩,called,same⟩ := Option.map_eq_some_iff.mp done
    cases same
    exact forall_congr' fun locks => CfVector.delete_range_held locks free called
  | compact =>
    obtain ⟨_,called,same⟩ := Option.map_eq_some_iff.mp done
    cases same
    exact iff_of_true (fun locks => CfVector.compact_held locks free called) trivial
  | getpVlock index => exact CfVector.getp_vlock_promise free done

/-- A vector of two bytes with a lock. -/
def lockedPair : CfVector 1 := ⟨vectorFlagBiglock,2,2,some [5,6],false,false⟩

theorem vector_locks_iff_sample :
    LockPromise lockedPair none false ⟨vectorFlagBiglock,2,1,some [6,6],false,false⟩ (.delete 0) :=
  ((vector_locks_iff (fun _ => none) rfl (.delete 0)).2 _ _ _ rfl).mpr fun _ => by decide

/-- Deleting behind the last value leaves the lock taken, and the next call waits for ever. -/
theorem delete_keeps_lock : ∃ v after : CfVector 1, cfVectorInit (fun _ => some fun _ => 0) 2 vectorFlagBiglock = some v ∧
    v.held = false ∧ vectorLockCall (fun _ => none) v (.delete 0) = some (none,false,after) ∧
    ¬LockPromise v none false after (.delete 0) ∧ vectorLockCall (fun _ => none) after (.delete 0) = none := by
  refine ⟨_,_,rfl,rfl,rfl,?_,rfl⟩
  intro promise
  have set : vectorFlagBiglock &&& vectorFlagBiglock ≠ 0 := by decide
  have held := promise set
  cases held

end Citrusleaf
