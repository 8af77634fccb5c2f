import Citrusleaf.CfVectorLocks

/-! `cf_vector_compact`. The size it asks for is the number of values times the number of those
allocated, and the block may not be one that can be reallocated. What a vector holds before is an
invariant of the calls that fill it, whatever the allocator answers. -/
namespace Citrusleaf
open Lib

variable {valueLen : Nat} {v after : CfVector valueLen} {l : List (Element valueLen)}

namespace CfVector

variable {malloc : Malloc} {flags : UInt32} {i j n : Nat} {t bytes : List UInt8}

/-- The vectors that appends and deletions reach, with any answers of the allocator. -/
inductive Reached {valueLen : Nat} : CfVector valueLen → Prop where
  | heap {malloc : Malloc} {v : CfVector valueLen} {flags : UInt32}
      (started : cfVectorInit malloc initSz flags = some v) : Reached v
  | stack (sbuf : List UInt8) (small : sbuf.length < 2 ^ 31) (flags : UInt32) : Reached (cfVectorInitSmalloc sbuf flags)
  | append {malloc : Malloc} {v after : CfVector valueLen} (reached : Reached v)
      (done : cfVectorAppend malloc v value = some (rv,after)) : Reached after
  | appendUnique {malloc : Malloc} {v after : CfVector valueLen} (reached : Reached v)
      (done : cfVectorAppendUnique malloc v value = some (rv,after)) : Reached after
  | delete {v after : CfVector valueLen} (reached : Reached v) (done : cfVectorDelete v index = some (rv,after)) :
      Reached after
  | deleteRange {v after : CfVector valueLen} (reached : Reached v)
      (done : cfVectorDeleteRange v idxStart idxEnd = some (rv,after)) : Reached after

/-- The values that are there lie in the block, and only a vector with a lock has it taken. -/
structure Packed (v : CfVector valueLen) : Prop where
  room : v.len ≤ v.allocLen
  used : v.len * valueLen ≤ v.block.length
  word : v.block.length < 2 ^ 32
  idle : v.held = true → v.Locks

/-! ### What the calls keep -/

variable {value : Element valueLen}

theorem Packed.lock (packed : v.Packed) (locked : vectorLock v = some after) : after.Packed := by
  rw [vectorLock] at locked
  split at locked
  · obtain rfl := Option.some.inj locked
    exact packed
  rename_i locks
  split at locked
  · cases locked
  · obtain rfl := Option.some.inj locked
    exact ⟨packed.room,packed.used,packed.word,fun _ => locks⟩

theorem Packed.unlock (packed : v.Packed) : (vectorUnlock v).Packed := by
  rw [vectorUnlock]
  split
  · exact packed
  · exact ⟨packed.room,packed.used,packed.word,Bool.noConfusion⟩

theorem zeroBytes_length (zeroed : zeroBytes bytes i n = some t) : t.length = bytes.length :=
  (writeBytes_length zeroed).1

theorem alloc_length (given : vectorAlloc malloc v n = some t) : t.length = n := by
  rw [vectorAlloc] at given
  split at given
  · exact mallocBlock_length given
  · obtain ⟨new,got,rfl⟩ := Option.map_eq_some_iff.mp given
    rw [List.length_append,List.length_take,List.length_drop,mallocBlock_length got]
    omega

theorem leaveStack_length (moved : leaveStack v bytes = some t) : t.length = bytes.length := by
  rw [leaveStack] at moved
  split at moved
  · obtain ⟨_,_,written⟩ := Option.bind_eq_some_iff.mp moved
    exact (writeBytes_length written).1
  · obtain rfl := Option.some.inj moved
    rfl

theorem zeroRest_length (zeroed : zeroRest v n bytes = some t) : t.length = bytes.length := by
  rw [zeroRest] at zeroed
  split at zeroed
  · exact zeroBytes_length zeroed
  · obtain rfl := Option.some.inj zeroed
    rfl

/-- A growth that gives anything but a failure leaves a block of the size it asked for. -/
theorem resize_cases (resized : cfVectorResize malloc v n = some (rv,after)) :
    (rv = -1 ∧ after = v) ∨ (rv = 0 ∧ after.len = v.len ∧ ((after.held = true → after.Locks) ↔ (v.held = true → v.Locks)) ∧
      after.block.length = vectorOffset valueLen after.allocLen) := by
  rw [cfVectorResize] at resized
  split at resized
  · cases resized
    exact .inl ⟨rfl,rfl⟩
  · rename_i t given
    obtain ⟨left,moved,resized⟩ := Option.bind_eq_some_iff.mp resized
    obtain ⟨rest,zeroed,resized⟩ := Option.bind_eq_some_iff.mp resized
    cases resized
    have size := (zeroRest_length zeroed).trans (leaveStack_length moved)
    exact .inr ⟨rfl,rfl,Iff.rfl,size.trans (alloc_length given)⟩

/-- A value that is stored behind the last one has its bytes in the block. -/
theorem Packed.store {grown : CfVector valueLen} (positive : 0 < valueLen) (small : grown.len * valueLen < 2 ^ 32)
    (word : grown.block.length < 2 ^ 32) (idle : grown.held = true → grown.Locks)
    (room : grown.block.length ≤ grown.allocLen * valueLen ∨ grown.len < grown.allocLen)
    (written : writeBytes grown.block (vectorOffset valueLen grown.len) value.toList = some t) :
    ({grown with vector := some t,len := (grown.len + 1) % 2 ^ 32} : CfVector valueLen).Packed := by
  obtain ⟨same,fits⟩ := writeBytes_length written
  rw [vectorOffset,Nat.mod_eq_of_lt small,Vector.length_toList,← Nat.succ_mul,Nat.succ_eq_add_one] at fits
  have values := Nat.le_mul_of_pos_right (grown.len + 1) positive
  have count : (grown.len + 1) % 2 ^ 32 = grown.len + 1 := Nat.mod_eq_of_lt (by omega)
  rw [count]
  refine ⟨?_,Nat.le_trans fits (Nat.le_of_eq same.symm),Nat.lt_of_le_of_lt (Nat.le_of_eq same) word,idle⟩
  rcases room with exact | more
  · exact Nat.le_of_mul_le_mul_right (Nat.le_trans fits exact) positive
  · exact more

theorem Packed.append_lockfree (packed : v.Packed) (positive : 0 < valueLen)
    (appended : cfVectorAppendLockfree malloc v value = some (rv,after)) : after.Packed := by
  have small := Nat.lt_of_le_of_lt packed.used packed.word
  rw [append_eq] at appended
  obtain ⟨⟨code,grown⟩,resized,done⟩ := Option.bind_eq_some_iff.mp appended
  have stored (ready : code = 0) : ∃ t, writeBytes grown.block (vectorOffset valueLen grown.len) value.toList = some t ∧
      after = {grown with vector := some t,len := (grown.len + 1) % 2 ^ 32} := by
    rw [storeLast,if_neg (not_not.mpr ready)] at done
    obtain ⟨t,written,done⟩ := Option.bind_eq_some_iff.mp done
    cases done
    exact ⟨t,written,rfl⟩
  split at resized
  · rcases resize_cases resized with ⟨rfl,rfl⟩ | ⟨rfl,len,idle,size⟩
    · rw [storeLast,if_pos (show (-1 : Int) ≠ 0 by decide)] at done
      obtain ⟨_,rfl⟩ := Prod.mk.inj (Option.some.inj done)
      exact packed
    · obtain ⟨t,written,rfl⟩ := stored rfl
      have asked : grown.block.length ≤ grown.allocLen * valueLen := size ▸ Nat.mod_le _ _
      exact Packed.store positive (len ▸ small) (size ▸ Nat.mod_lt _ (by decide)) (idle.mpr packed.idle)
        (.inl asked) written
  · rename_i more
    obtain ⟨rfl,rfl⟩ := Prod.mk.inj (Option.some.inj resized)
    obtain ⟨t,written,rfl⟩ := stored rfl
    exact Packed.store positive small packed.word packed.idle (.inr (Nat.not_le.mp more)) written

/-- What is moved lies in the block; there is less behind it. -/
theorem Packed.gap (packed : v.Packed) (closed : closeGap v i j = some after) : after.Packed := by
  have fewer := Nat.sub_le v.len (j - i + 1)
  have less := Nat.mul_le_mul_right valueLen fewer
  rw [closeGap] at closed
  split at closed
  · obtain ⟨moved,shifted,closed⟩ := Option.bind_eq_some_iff.mp closed
    obtain ⟨t,done,rfl⟩ := Option.map_eq_some_iff.mp shifted
    obtain ⟨bytes,_,written⟩ := Option.bind_eq_some_iff.mp done
    obtain rfl := Option.some.inj closed
    have same : t.length = v.block.length := (writeBytes_length written).1
    refine ⟨Nat.le_trans fewer packed.room,?_,?_,packed.idle⟩
    · exact Nat.le_trans (Nat.le_trans less packed.used) (Nat.le_of_eq same.symm)
    · exact Nat.lt_of_le_of_lt (Nat.le_of_eq same) packed.word
  · obtain rfl := Option.some.inj closed
    exact ⟨Nat.le_trans fewer packed.room,Nat.le_trans less packed.used,packed.word,packed.idle⟩

/-- A new vector is empty. -/
theorem Packed.empty (none : v.len = 0) (word : v.block.length < 2 ^ 32) (free : v.held = false) : v.Packed :=
  ⟨by omega,by rw [none,Nat.zero_mul]; exact Nat.zero_le _,word,fun held => absurd held (free ▸ Bool.false_ne_true)⟩

theorem init_packed (started : cfVectorInit malloc initSz flags = some v) : v.Packed := by
  rw [cfVectorInit] at started
  split at started
  · obtain rfl := Option.some.inj started
    exact .empty rfl (Nat.two_pow_pos 32) rfl
  obtain ⟨bytes,given,started⟩ := Option.bind_eq_some_iff.mp started
  have size := mallocBlock_length given
  have word : vectorOffset valueLen initSz < 2 ^ 32 := Nat.mod_lt _ (Nat.two_pow_pos 32)
  split at started
  · obtain ⟨t,zeroed,started⟩ := Option.bind_eq_some_iff.mp started
    obtain rfl := Option.some.inj started
    exact .empty rfl (((zeroBytes_length zeroed).trans size).symm ▸ word) rfl
  · obtain rfl := Option.some.inj started
    exact .empty rfl (size.symm ▸ word) rfl

theorem init_smalloc_packed (sbuf : List UInt8) (small : sbuf.length < 2 ^ 31) (flags : UInt32) :
    (@cfVectorInitSmalloc valueLen sbuf flags).Packed := by
  refine .empty rfl ?_ rfl
  simp only [cfVectorInitSmalloc,block,Option.getD_some]
  split
  · rw [List.length_replicate]
    omega
  · omega

theorem Reached.packed (reached : v.Reached) (positive : 0 < valueLen) : v.Packed := by
  induction reached with
  | heap started => exact init_packed started
  | stack sbuf small flags => exact init_smalloc_packed sbuf small flags
  | append _ done packed =>
    obtain ⟨_,locked,done⟩ := Option.bind_eq_some_iff.mp done
    obtain ⟨_,appended,done⟩ := Option.bind_eq_some_iff.mp done
    cases done
    exact ((packed.lock locked).append_lockfree positive appended).unlock
  | appendUnique _ done packed =>
    obtain ⟨_,locked,done⟩ := Option.bind_eq_some_iff.mp done
    obtain ⟨found,_,done⟩ := Option.bind_eq_some_iff.mp done
    split at done
    · cases done
      exact (packed.lock locked).unlock
    · obtain ⟨_,appended,done⟩ := Option.bind_eq_some_iff.mp done
      cases done
      exact ((packed.lock locked).append_lockfree positive appended).unlock
  | delete _ done packed =>
    obtain ⟨_,locked,done⟩ := Option.bind_eq_some_iff.mp done
    split at done
    · cases done
      exact packed.lock locked
    · obtain ⟨_,closed,done⟩ := Option.bind_eq_some_iff.mp done
      cases done
      exact ((packed.lock locked).gap closed).unlock
  | deleteRange _ done packed =>
    obtain ⟨_,locked,done⟩ := Option.bind_eq_some_iff.mp done
    split at done
    · cases done
      exact packed.lock locked
    split at done
    · cases done
      exact packed.lock locked
    split at done
    · cases done
      exact packed.lock locked
    · obtain ⟨_,closed,done⟩ := Option.bind_eq_some_iff.mp done
      cases done
      exact ((packed.lock locked).gap closed).unlock

end CfVector

/-! ### What is promised afterwards -/

/-- The calls that may follow. -/
inductive LaterCall (valueLen : Nat) where
  | append (value : Element valueLen)
  | appendUnique (value : Element valueLen)
  | get (index : UInt32)
  | getp (index : UInt32)

/-- The value that is returned or copied out, if any. -/
def laterCall (malloc : Malloc) (v : CfVector valueLen) :
    LaterCall valueLen → Option ((Int × Option (List UInt8)) × CfVector valueLen)
  | .append value => (cfVectorAppend malloc v value).map fun (rv,v) => ((rv,none),v)
  | .appendUnique value => (cfVectorAppendUnique malloc v value).map fun (rv,v) => ((rv,none),v)
  | .get index => (cfVectorGet v index).map fun (rv,value,v) => ((rv,value),v)
  | .getp index => (cfVectorGetp v index).map fun (r,v) => ((0,r),v)

def laterCalls (malloc : Malloc) : CfVector valueLen → List (LaterCall valueLen) →
    Option (List (Int × Option (List UInt8)) × CfVector valueLen)
  | v,[] => some ([],v)
  | v,call :: calls => do
    let (result,v) ← laterCall malloc v call
    let (results,v) ← laterCalls malloc v calls
    return (result :: results,v)

def laterList (l : List (Element valueLen)) : LaterCall valueLen → (Int × Option (List UInt8)) × List (Element valueLen)
  | .append value => ((0,none),l ++ [value])
  | .appendUnique value => ((0,none),if l.contains value then l else l ++ [value])
  | .get index => ((0,l[index.toNat]?.map Vector.toList),l)
  | .getp index => ((0,l[index.toNat]?.map Vector.toList),l)

def laterLists : List (Element valueLen) → List (LaterCall valueLen) →
    List (Int × Option (List UInt8)) × List (Element valueLen)
  | l,[] => ([],l)
  | l,call :: calls =>
    let (result,l) := laterList l call
    let (results,l) := laterLists l calls
    (result :: results,l)

def GetsBelow (l : List (Element valueLen)) : LaterCall valueLen → Prop
  | .get index => index.toNat < l.length
  | .getp index => index.toNat < l.length
  | _ => True

/-- What a call asks for is less than two gigabytes. -/
def AsksSmall (v : CfVector valueLen) : LaterCall valueLen → Prop
  | .append _ => v.roomAfter * valueLen < 2 ^ 31
  | .appendUnique value => findValue v.block value v.len 0 ≠ some true → v.roomAfter * valueLen < 2 ^ 31
  | _ => True

/-- No call of a run finds or asks for two gigabytes. -/
def LaterSmall (malloc : Malloc) : CfVector valueLen → List (LaterCall valueLen) → Prop
  | _,[] => True
  | v,call :: calls => v.allocLen * valueLen < 2 ^ 31 ∧ AsksSmall v call ∧
    ∀ result after, laterCall malloc v call = some (result,after) → LaterSmall malloc after calls

/-- What compaction is to leave of a vector: a block of its own or the caller's buffer, with room for
all that is allocated, the values as they were, and a list for whoever calls later. -/
structure Compacted (v after : CfVector valueLen) : Prop where
  own : after.stackVector = false ∨ after.vector = v.vector
  bytes : after.allocLen * valueLen ≤ after.block.length
  room : after.len ≤ after.allocLen
  len : after.len = v.len
  same : after.contents = v.contents
  later : ∀ malloc, (∀ n, (malloc n).isSome) → ∀ l : List (Element valueLen), v.contents = l.map Vector.toList →
    ∀ calls, Guarded (fun l call => (laterList l call).2) GetsBelow l calls → LaterSmall malloc after calls →
      ∃ last, laterCalls malloc after calls = some ((laterLists l calls).1,last) ∧
        last.contents = (laterLists l calls).2.map Vector.toList

/-- The lock can be had, and there is nothing to give back, or the block is allocated and the product
that is asked for has room for the values and is answered. -/
def Compactable (malloc : Malloc) (v : CfVector valueLen) : Prop :=
  (v.Locks → v.held = false) ∧
    (v.allocLen = 0 ∨ v.len = v.allocLen ∨ v.stackVector = false ∧
      (v.len = 0 ∨ (malloc (v.len * v.allocLen % 2 ^ 32)).isSome ∧ v.len * valueLen ≤ v.len * v.allocLen % 2 ^ 32))

instance (v : CfVector valueLen) : Decidable v.Locks := inferInstanceAs (Decidable (¬_ = _))

instance (malloc : Malloc) (v : CfVector valueLen) : Decidable (Compactable malloc v) :=
  inferInstanceAs (Decidable ((v.Locks → v.held = false) ∧ _))

namespace CfVector

variable {malloc : Malloc} {flags : UInt32} {n : Nat} {t : List UInt8}

/-! ### Later calls -/

/-- A vector that may be called, with its lock free. -/
structure Usable (v : CfVector valueLen) (l : List (Element valueLen)) : Prop where
  free : v.held = false
  holds : v.plain.Holds l

theorem Holds.relock (holds : v.Holds l) (unlocked : flags &&& vectorFlagBiglock = 0) (held : Bool) :
    (v.relock flags held).Holds l :=
  ⟨holds.len,holds.room,holds.bytes,holds.small,holds.word,holds.elements,unlocked⟩

/-- A vector without a lock that has the values becomes one with it. -/
theorem Holds.usable (holds : v.Holds l) (flags : UInt32) : (v.relock flags false).Usable l :=
  ⟨rfl,holds.relock (plain_unlocked (v.relock flags false)) false⟩

theorem Usable.lock (usable : v.Usable l) :
    vectorLock v = some (v.plain.relock v.flags (decide (v.flags &&& vectorFlagBiglock ≠ 0))) :=
  lock_free usable.free

/-- An append behind the lock is one on the vector without it. -/
theorem Usable.append_locked (usable : v.Usable l) (gives : ∀ n, (malloc n).isSome) (positive : 0 < valueLen)
    (small : v.roomAfter * valueLen < 2 ^ 31) (value : Element valueLen) :
    ∃ w, cfVectorAppendLockfree malloc (v.plain.relock v.flags (decide (v.flags &&& vectorFlagBiglock ≠ 0))) value =
      some (0,w) ∧ (vectorUnlock w).Usable (l ++ [value]) := by
  obtain ⟨w,appended,ready,_⟩ := append_lockfree_holds gives usable.holds positive (v.plain_roomAfter ▸ small) value
  refine ⟨w.relock v.flags (decide (v.flags &&& vectorFlagBiglock ≠ 0)),?_,?_⟩
  · rw [append_relock (plain_growth v.flags),appended]
    rfl
  · rw [unlock_relock]
    exact ready.usable v.flags

theorem Usable.append (usable : v.Usable l) (gives : ∀ n, (malloc n).isSome) (positive : 0 < valueLen)
    (small : v.roomAfter * valueLen < 2 ^ 31) (value : Element valueLen) :
    ∃ w, cfVectorAppend malloc v value = some (0,w) ∧ w.Usable (l ++ [value]) := by
  obtain ⟨w,appended,ready⟩ := usable.append_locked gives positive small value
  refine ⟨vectorUnlock w,?_,ready⟩
  rw [cfVectorAppend,usable.lock]
  simp only [Option.bind_eq_bind,Option.bind_some,appended,Option.pure_def]

/-- Whoever took the free lock gives it back. -/
theorem Usable.unlock (usable : v.Usable l) :
    vectorUnlock (v.plain.relock v.flags (decide (v.flags &&& vectorFlagBiglock ≠ 0))) = v := by
  rw [unlock_relock,← usable.free]
  rfl

theorem Usable.append_unique (usable : v.Usable l) (gives : ∀ n, (malloc n).isSome) (positive : 0 < valueLen)
    (value : Element valueLen) (small : AsksSmall v (.appendUnique value)) :
    ∃ w, cfVectorAppendUnique malloc v value = some (0,w) ∧ w.Usable (if value ∈ l then l else l ++ [value]) := by
  have found := find_value usable.holds value (Nat.zero_add l.length)
  rw [Nat.zero_mul,List.drop_zero,← usable.holds.len] at found
  have searched (held : Bool) : findValue (v.plain.relock v.flags held).block value (v.plain.relock v.flags held).len 0 =
      some (decide (value ∈ l)) := found
  rw [cfVectorAppendUnique,usable.lock]
  simp only [Option.bind_eq_bind,Option.bind_some,searched,Option.pure_def,decide_eq_true_eq]
  by_cases member : value ∈ l
  · rw [if_pos member,if_pos member,usable.unlock]
    exact ⟨v,rfl,usable⟩
  · rw [if_neg member,if_neg member]
    have fresh : findValue v.block value v.len 0 ≠ some true := fun same => member (by
      simpa using Option.some.inj (found.symm.trans same))
    obtain ⟨w,appended,ready⟩ := usable.append_locked gives positive (small fresh) value
    exact ⟨vectorUnlock w,by rw [appended]; rfl,ready⟩

theorem Usable.read (usable : v.Usable l) (inside : i < l.length) :
    i < v.allocLen ∧ readBytes v.block (vectorOffset valueLen i) valueLen = some l[i].toList := by
  have room : i < v.allocLen := Nat.lt_of_lt_of_le inside usable.holds.room
  refine ⟨room,?_⟩
  rw [vectorOffset_eq (Nat.le_of_lt room) usable.holds.small]
  exact usable.holds.read inside

theorem Usable.get (usable : v.Usable l) (index : UInt32) (inside : index.toNat < l.length) :
    cfVectorGet v index = some (0,some l[index.toNat].toList,v) := by
  obtain ⟨room,read⟩ := usable.read inside
  have same (held : Bool) : (v.plain.relock v.flags held).allocLen = v.allocLen ∧
      (v.plain.relock v.flags held).block = v.block := ⟨rfl,rfl⟩
  rw [cfVectorGet,usable.lock]
  simp only [Option.bind_eq_bind,Option.bind_some,same,ge_iff_le,Nat.not_le.mpr room,if_false,read,Option.pure_def,
    usable.unlock]

theorem Usable.getp (usable : v.Usable l) (index : UInt32) (inside : index.toNat < l.length) :
    cfVectorGetp v index = some (some l[index.toNat].toList,v) := by
  obtain ⟨room,read⟩ := usable.read inside
  have same (held : Bool) : (v.plain.relock v.flags held).allocLen = v.allocLen ∧
      (v.plain.relock v.flags held).block = v.block := ⟨rfl,rfl⟩
  rw [cfVectorGetp,usable.lock]
  simp only [Option.bind_eq_bind,Option.bind_some,same,ge_iff_le,Nat.not_le.mpr room,if_false,read,Option.pure_def,
    usable.unlock]

theorem Usable.call (usable : v.Usable l) (gives : ∀ n, (malloc n).isSome) (positive : 0 < valueLen)
    (call : LaterCall valueLen) (small : AsksSmall v call) (below : GetsBelow l call) :
    ∃ w, laterCall malloc v call = some ((laterList l call).1,w) ∧ w.Usable (laterList l call).2 := by
  cases call with
  | append value =>
    obtain ⟨w,done,ready⟩ := usable.append gives positive small value
    exact ⟨w,by rw [laterCall,done]; rfl,ready⟩
  | appendUnique value =>
    obtain ⟨w,done,ready⟩ := usable.append_unique gives positive value small
    refine ⟨w,?_,by simpa [laterList] using ready⟩
    rw [laterCall,done]
    rfl
  | get index =>
    refine ⟨v,?_,usable⟩
    rw [laterCall,usable.get index below,laterList,List.getElem?_eq_getElem below]
    rfl
  | getp index =>
    refine ⟨v,?_,usable⟩
    rw [laterCall,usable.getp index below,laterList,List.getElem?_eq_getElem below]
    rfl

theorem Usable.calls (usable : v.Usable l) (gives : ∀ n, (malloc n).isSome) (positive : 0 < valueLen)
    (calls : List (LaterCall valueLen)) (below : Guarded (fun l call => (laterList l call).2) GetsBelow l calls)
    (small : LaterSmall malloc v calls) :
    ∃ last, laterCalls malloc v calls = some ((laterLists l calls).1,last) ∧
      last.contents = (laterLists l calls).2.map Vector.toList := by
  induction calls generalizing v l with
  | nil => exact ⟨v,rfl,usable.holds.contents⟩
  | cons call calls ih =>
    obtain ⟨next,made,ready⟩ := usable.call gives positive call small.2.1 below.1
    obtain ⟨last,done,same⟩ := ih ready below.2 (small.2.2 _ _ made)
    exact ⟨last,by simp [laterCalls,made,done,laterLists],same⟩

/-! ### Compaction -/

/-- The values decide which list a vector is. -/
theorem Sound.usable (sound : v.Sound) (free : v.held = false) (same : v.contents = l.map Vector.toList) :
    v.Usable l := by
  obtain ⟨k,holds⟩ := sound.holds
  have values : k.map Vector.toList = l.map Vector.toList := holds.contents.symm.trans same
  have equal : k = l := List.map_injective_iff.mpr (fun _ _ => Vector.toList_inj.mp) values
  exact ⟨free,equal ▸ holds⟩

theorem compacted_of (positive : 0 < valueLen) (free : after.held = false)
    (own : after.stackVector = false ∨ after.vector = v.vector) (bytes : after.allocLen * valueLen ≤ after.block.length)
    (room : after.len ≤ after.allocLen) (len : after.len = v.len) (same : after.contents = v.contents) :
    Compacted v after := by
  refine ⟨own,bytes,room,len,same,fun malloc gives l values calls below small => ?_⟩
  cases calls with
  | nil => exact ⟨after,rfl,same.trans values⟩
  | cons call calls =>
    have word : after.allocLen < 2 ^ 31 := Nat.lt_of_le_of_lt (Nat.le_mul_of_pos_right _ positive) small.1
    have usable := Sound.usable ⟨room,bytes,small.1,word⟩ free (same.trans values)
    exact usable.calls gives positive (call :: calls) below small

/-- The block that is left. -/
def shrunk (malloc : Malloc) (v : CfVector valueLen) : CfVector valueLen :=
  {v with vector := reallocBlock malloc v.block (v.len * v.allocLen % 2 ^ 32),allocLen := v.len}

theorem compact_eq (malloc : Malloc) (free : v.held = false) : cfVectorCompact malloc v =
    if v.allocLen ≠ 0 ∧ v.len ≠ v.allocLen then if v.stackVector then none else some (shrunk malloc v) else some v := by
  have same (w : CfVector valueLen) (flags : w.flags = v.flags) (unheld : w.held = false) :
      vectorUnlock (w.relock v.flags (decide (v.flags &&& vectorFlagBiglock ≠ 0))) = w := by
    rw [unlock_relock,← flags,← unheld]
    rfl
  rw [cfVectorCompact,lock_free free]
  simp only [Option.bind_eq_bind,Option.bind_some,Option.pure_def]
  rw [same v rfl free]
  exact if_congr Iff.rfl (if_congr Iff.rfl rfl (congrArg some (same (shrunk malloc v) rfl free))) rfl

/-- A product that has room for the values moves them, or an empty vector loses its block. -/
theorem shrunk_kept (positive : 0 < valueLen) :
    v.len * valueLen ≤ (shrunk malloc v).block.length ↔
      v.len = 0 ∨ (malloc (v.len * v.allocLen % 2 ^ 32)).isSome ∧ v.len * valueLen ≤ v.len * v.allocLen % 2 ^ 32 := by
  have none : v.len = 0 ↔ v.len * valueLen ≤ 0 := by
    rw [Nat.le_zero,Nat.mul_eq_zero,or_iff_left (Nat.pos_iff_ne_zero.mp positive)]
  cases given : malloc (v.len * v.allocLen % 2 ^ 32) with
  | none =>
    simp only [shrunk,block,reallocBlock,mallocBlock,given,Option.map_none,Option.getD_none,List.length_nil,
      Option.isSome_none,Bool.false_eq_true,false_and,or_false,none]
  | some garbage =>
    have length : (shrunk malloc v).block.length = v.len * v.allocLen % 2 ^ 32 := by
      simp only [shrunk,block,reallocBlock,mallocBlock,given,Option.map_some,Option.getD_some,List.length_append,
        List.length_take,List.length_drop,List.length_map,List.length_range]
      omega
    rw [length,none,Option.isSome_some,and_iff_right rfl]
    exact ⟨.inr,fun either => either.elim (fun zero => Nat.le_trans zero (Nat.zero_le _)) id⟩

theorem shrunk_contents (used : v.len * valueLen ≤ v.block.length)
    (room : v.len * valueLen ≤ (shrunk malloc v).block.length) : (shrunk malloc v).contents = v.contents := by
  apply List.map_congr_left
  intro k inside
  have inside : k < v.len := List.mem_range.mp inside
  refine cellAt_prefix (n := v.len) ?_ inside
  revert room
  cases given : mallocBlock malloc (v.len * v.allocLen % 2 ^ 32) with
  | none =>
    simp only [shrunk,block,reallocBlock,given,Option.map_none,Option.getD_none,List.length_nil]
    intro room
    rw [Nat.le_zero.mp room,List.take_zero,List.take_zero]
  | some new =>
    have length := mallocBlock_length given
    simp only [shrunk,block,reallocBlock,given,Option.map_some,Option.getD_some] at used ⊢
    intro room
    have small : v.len * valueLen ≤ v.len * v.allocLen % 2 ^ 32 := by
      simp only [List.length_append,List.length_take,List.length_drop,length] at room
      omega
    rw [List.take_append_of_le_length (by rw [List.length_take]; omega),List.take_take,Nat.min_eq_left small]

end CfVector

/-- Compaction leaves a sound vector, and a list for whoever calls later, exactly if the lock is free and
there is nothing to give back or the product of the numbers has room for the values. -/
theorem compact_sound_iff (malloc : Malloc) (positive : 0 < valueLen) (reached : v.Reached) :
    (∃ after, cfVectorCompact malloc v = some after ∧ Compacted v after) ↔ Compactable malloc v := by
  have packed := reached.packed positive
  cases held : v.held with
  | true =>
    have locks := packed.idle held
    refine iff_of_false ?_ fun compactable => Bool.noConfusion (held.symm.trans (compactable.1 locks))
    rintro ⟨after,done,_⟩
    obtain ⟨_,locked,_⟩ := Option.bind_eq_some_iff.mp done
    rw [vectorLock,if_neg locks,if_pos held] at locked
    cases locked
  | false =>
    rw [CfVector.compact_eq malloc held,Compactable,and_iff_right fun _ => held]
    by_cases shrinks : v.allocLen ≠ 0 ∧ v.len ≠ v.allocLen
    · rw [if_pos shrinks,or_iff_right shrinks.1,or_iff_right shrinks.2]
      cases stack : v.stackVector with
      | true =>
        refine iff_of_false ?_ fun own => Bool.noConfusion own.1
        rintro ⟨_,done,_⟩
        cases done
      | false =>
        rw [and_iff_right rfl,← CfVector.shrunk_kept positive]
        constructor
        · rintro ⟨after,done,compacted⟩
          obtain rfl := Option.some.inj done
          exact compacted.bytes
        · intro room
          have same := CfVector.shrunk_contents packed.used room
          exact ⟨_,rfl,CfVector.compacted_of positive held (.inl stack) room (Nat.le_refl _) rfl same⟩
    · rw [if_neg shrinks]
      have whole : v.allocLen = 0 ∨ v.len = v.allocLen := by
        rw [not_and_or,not_not,not_not] at shrinks
        exact shrinks
      refine iff_of_true ⟨v,rfl,?_⟩ (whole.imp_right Or.inl)
      refine CfVector.compacted_of positive held (.inr rfl) ?_ packed.room rfl rfl
      rcases whole with none | full
      · rw [none,Nat.zero_mul]
        exact Nat.zero_le _
      · exact full ▸ packed.used

/-- A block of two bytes loses the one without a value. -/
theorem compact_sound_iff_bytes : ∃ after,
    cfVectorCompact (fun _ => some fun _ => 0) (⟨0,2,1,some [5,0],false,false⟩ : CfVector 1) = some after ∧
      Compacted ⟨0,2,1,some [5,0],false,false⟩ after := by
  refine (compact_sound_iff (fun _ => some fun _ => 0) (by decide) ?_).mpr (by decide)
  have started : @cfVectorInit 1 (fun _ => some fun _ => 0) 2 0 = some ⟨0,2,0,some [0,0],false,false⟩ := rfl
  exact .append (.heap started) (show cfVectorAppend (fun _ => none) _ #v[5] = some (0,_) from rfl)

/-- One value of four bytes, where two are allocated, is left with two bytes; nobody can read it there. -/
theorem compact_cuts_value : ∃ v after : CfVector 4, v.Reached ∧ v.contents = [[1,2,3,4]] ∧
    cfVectorCompact (fun _ => some fun _ => 0) v = some after ∧ after.allocLen = 1 ∧ after.vector = some [1,2] ∧
      ¬Compacted v after ∧ cfVectorGetp after 0 = none := by
  have started : @cfVectorInit 4 (fun _ => some fun _ => 0) 2 0 = some ⟨0,2,0,some [0,0,0,0,0,0,0,0],false,false⟩ := rfl
  refine ⟨⟨0,2,1,some [1,2,3,4,0,0,0,0],false,false⟩,_,?_,rfl,rfl,rfl,rfl,?_,rfl⟩
  · exact .append (.heap started) (show cfVectorAppend (fun _ => none) _ #v[1,2,3,4] = some (0,_) from rfl)
  · intro compacted
    exact absurd compacted.bytes (by decide)

end Citrusleaf
