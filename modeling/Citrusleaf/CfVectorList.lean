import Citrusleaf.CfVector
import Mathlib.Data.List.Nodup

/-! cf_vector.c keeps a list, whatever block its values are in. -/
namespace Citrusleaf
open Lib

variable {valueLen : Nat}

/-- The values of a vector that may be called. -/
structure CfVector.Holds (v : CfVector valueLen) (l : List (Element valueLen)) : Prop where
  len : v.len = l.length
  room : l.length ≤ v.allocLen
  bytes : v.allocLen * valueLen ≤ v.block.length
  small : v.allocLen * valueLen < 2 ^ 31
  word : v.allocLen < 2 ^ 31
  elements : ∀ k (inside : k < l.length), cellAt valueLen v.block k = l[k].toList
  unlocked : v.flags &&& vectorFlagBiglock = 0

namespace CfVector

variable {v : CfVector valueLen} {l : List (Element valueLen)} {flags : UInt32} {sbuf : List UInt8} {initSz i n : Nat}

theorem vectorOffset_eq (inside : i ≤ n) (small : n * valueLen < 2 ^ 31) : vectorOffset valueLen i = i * valueLen := by
  have fits : i * valueLen ≤ n * valueLen := Nat.mul_le_mul_right _ inside
  rw [vectorOffset]
  omega

theorem Holds.lock (holds : Holds v l) : vectorLock v = some v := if_pos holds.unlocked

theorem Holds.unlock (holds : Holds v l) : vectorUnlock v = v := if_pos holds.unlocked

/-! ### Making a vector -/

theorem empty_holds (positive : 0 < valueLen) (empty : v.len = 0) (bytes : v.allocLen * valueLen ≤ v.block.length)
    (small : v.allocLen * valueLen < 2 ^ 31) (unlocked : v.flags &&& vectorFlagBiglock = 0) : v.Holds [] := by
  have word : v.allocLen < 2 ^ 31 := Nat.lt_of_le_of_lt (Nat.le_mul_of_pos_right _ positive) small
  exact ⟨empty,Nat.zero_le _,bytes,small,word,fun k inside => absurd inside (Nat.not_lt_zero k),unlocked⟩

theorem init_holds {malloc : Malloc} (gives : ∀ n, (malloc n).isSome) (positive : 0 < valueLen)
    (small : initSz * valueLen < 2 ^ 31) (unlocked : flags &&& vectorFlagBiglock = 0) :
    ∃ v, @cfVectorInit valueLen malloc initSz flags = some v ∧ v.Holds [] := by
  rw [cfVectorInit]
  by_cases zero : initSz = 0
  · rw [if_pos zero]
    exact ⟨_,rfl,empty_holds positive rfl (by simp [block]) (by simp) unlocked⟩
  · obtain ⟨vector,given,length⟩ := mallocBlock_gives gives (vectorOffset valueLen initSz)
    have size := vectorOffset_eq (Nat.le_refl initSz) small
    rw [size] at length
    rw [if_neg zero,given]
    split
    · have zeroed : zeroBytes vector 0 (vectorOffset valueLen initSz) = some (List.replicate (initSz * valueLen) 0) := by
        simp [zeroBytes,writeBytes,size,length]
      exact ⟨_,by simp [zeroed]; rfl,empty_holds positive rfl (by simp [block]) small unlocked⟩
    · exact ⟨_,rfl,empty_holds positive rfl (Nat.le_of_eq length.symm) small unlocked⟩

theorem init_smalloc_holds (positive : 0 < valueLen) (small : sbuf.length < 2 ^ 31)
    (unlocked : flags &&& vectorFlagBiglock = 0) :
    (@cfVectorInitSmalloc valueLen sbuf flags).Holds [] := by
  have whole := Nat.div_mul_le_self sbuf.length valueLen
  refine empty_holds positive rfl ?_ (Nat.lt_of_le_of_lt whole small) unlocked
  simp only [cfVectorInitSmalloc,block,Option.getD_some]
  split <;> simpa using whole

/-! ### Growing -/

theorem resizeLen_le (flags : UInt32) (newSz : Nat) : newSz ≤ resizeLen flags newSz := by
  rw [resizeLen]
  split <;> split <;> omega

theorem resizeLen_pos (flags : UInt32) (newSz : Nat) : 0 < resizeLen flags newSz := by
  rw [resizeLen]
  split <;> split <;> omega

/-- The values stay where they are in any block that starts with the bytes allocated before. -/
theorem Holds.reblock (holds : Holds v l) (more : v.allocLen ≤ n) (small : n * valueLen < 2 ^ 31) (word : n < 2 ^ 31)
    (length : t.length = n * valueLen) (same : ∀ k < v.allocLen, cellAt valueLen t k = cellAt valueLen v.block k) :
    Holds {v with vector := some t,stackVector := false,allocLen := n} l := by
  refine ⟨holds.len,Nat.le_trans holds.room more,Nat.le_of_eq length.symm,small,word,fun k inside => ?_,holds.unlocked⟩
  have before := Nat.lt_of_lt_of_le inside holds.room
  exact (same k before).trans (holds.elements k inside)

/-- The three ways to a larger block start it with the old values. -/
theorem Holds.moved {malloc : Malloc} (gives : ∀ n, (malloc n).isSome) (holds : Holds v l) (positive : 0 < valueLen)
    (more : v.allocLen ≤ n) :
    ∃ base t, vectorAlloc malloc v (n * valueLen) = some base ∧ leaveStack v base = some t ∧
      t.length = n * valueLen ∧ ∀ k < v.allocLen, cellAt valueLen t k = cellAt valueLen v.block k := by
  have bytes := holds.bytes
  have fits : v.allocLen * valueLen ≤ n * valueLen := Nat.mul_le_mul_right _ more
  have used := vectorOffset_eq (Nat.le_refl v.allocLen) holds.small
  obtain ⟨new,given,length⟩ := mallocBlock_gives gives (n * valueLen)
  cases stack : v.stackVector with
  | true =>
    have read := readBytes_cells (a := 0) (m := v.allocLen) bytes (by omega)
    obtain ⟨t,written,same,cells⟩ := writeBytes_cells (a := 0) (Nat.le_of_eq length.symm)
      (cells_length (a := 0) bytes (by omega)) (by omega : 0 + v.allocLen ≤ n)
    rw [Nat.zero_mul,List.drop_zero] at read written
    refine ⟨new,t,by simp [vectorAlloc,stack,given],?_,same.trans length,fun k inside => ?_⟩
    · simp [leaveStack,stack,used,read,written]
    · rw [cells,if_pos (by omega),cellAt_cells (by omega),Nat.zero_add,Nat.sub_zero]
  | false =>
    cases null : v.vector with
    | none =>
      refine ⟨new,new,by simp [vectorAlloc,null,given],by simp [leaveStack,stack],length,fun k inside => ?_⟩
      have none : v.allocLen * valueLen = 0 := by simpa [block,null] using bytes
      have some := Nat.le_mul_of_pos_right v.allocLen positive
      omega
    | some old =>
      have held : v.block = old := by rw [block,null,Option.getD_some]
      rw [held] at bytes
      refine ⟨_,_,by simp [vectorAlloc,stack,null,reallocBlock,given,held]; rfl,by simp [leaveStack,stack]; rfl,?_,
        fun k inside => ?_⟩
      · simp only [List.length_append,List.length_take,List.length_drop,length]
        omega
      · rw [held]
        refine cellAt_prefix ?_ inside
        rw [List.take_append_of_le_length (by rw [List.length_take]; omega),List.take_take,Nat.min_eq_left fits]

/-- Clearing what is new leaves the values. -/
theorem zeroRest_keeps {v : CfVector valueLen} (more : v.allocLen ≤ n) (small : n * valueLen < 2 ^ 31) (word : n < 2 ^ 31)
    (length : t.length = n * valueLen) :
    ∃ block, zeroRest v n t = some block ∧ block.length = n * valueLen ∧
      ∀ k < v.allocLen, cellAt valueLen block k = cellAt valueLen t k := by
  have used := vectorOffset_eq more small
  have rest : (n + (2 ^ 32 - v.allocLen)) % 2 ^ 32 = n - v.allocLen := by omega
  have size := vectorOffset_eq (Nat.sub_le n v.allocLen) small
  simp only [zeroRest,used,rest,size]
  split
  · obtain ⟨block,written,same,cells⟩ := writeBytes_cells (a := v.allocLen) (Nat.le_of_eq length.symm)
      (List.length_replicate : (List.replicate ((n - v.allocLen) * valueLen) (0 : UInt8)).length = _) (by omega)
    refine ⟨block,written,same.trans length,fun k inside => ?_⟩
    rw [cells,if_neg (by omega)]
  · exact ⟨t,rfl,length,fun _ _ => rfl⟩

theorem resize_holds {malloc : Malloc} (gives : ∀ n, (malloc n).isSome) (holds : Holds v l) (positive : 0 < valueLen)
    (newSz : Nat) (more : v.allocLen ≤ resizeLen v.flags newSz) (small : resizeLen v.flags newSz * valueLen < 2 ^ 31) :
    ∃ after, cfVectorResize malloc v newSz = some (0,after) ∧ after.Holds l ∧
      after.allocLen = resizeLen v.flags newSz := by
  have word : resizeLen v.flags newSz < 2 ^ 31 := Nat.lt_of_le_of_lt (Nat.le_mul_of_pos_right _ positive) small
  have size := vectorOffset_eq (Nat.le_refl (resizeLen v.flags newSz)) small
  obtain ⟨base,t,allocated,left,length,same⟩ := holds.moved gives positive more
  obtain ⟨block,zeroed,whole,kept⟩ := zeroRest_keeps more small word length
  refine ⟨_,by simp [cfVectorResize,size,allocated,left,zeroed]; rfl,?_,rfl⟩
  exact holds.reblock more small word whole fun k inside => (kept k inside).trans (same k inside)

/-! ### Storing a value -/

theorem Holds.write (holds : Holds v l) (inside : i < v.allocLen) (e : Element valueLen) :
    ∃ block, writeBytes v.block (vectorOffset valueLen i) e.toList = some block ∧ block.length = v.block.length ∧
      ∀ k, cellAt valueLen block k = if k = i then e.toList else cellAt valueLen v.block k := by
  rw [vectorOffset_eq (Nat.le_of_lt inside) holds.small]
  obtain ⟨block,written,length,cells⟩ := writeBytes_cells (a := i) (m := 1) holds.bytes
    (by rw [Vector.length_toList,Nat.one_mul] : e.toList.length = 1 * valueLen) inside
  have same : cellAt valueLen e.toList 0 = e.toList := by
    rw [cellAt,Nat.zero_mul,List.drop_zero,List.take_of_length_le (by simp)]
  refine ⟨block,written,length,fun k => ?_⟩
  rw [cells]
  by_cases here : k = i
  · rw [if_pos (by omega),if_pos here,here,Nat.sub_self,same]
  · rw [if_neg (by omega),if_neg here]

theorem set_holds (holds : Holds v l) (index : UInt32) (inside : index.toNat < l.length) (e : Element valueLen) :
    ∃ after, cfVectorSet v index e = some (0,after) ∧ after.Holds (l.set index.toNat e) ∧
      after.allocLen = v.allocLen := by
  have room := Nat.lt_of_lt_of_le inside holds.room
  obtain ⟨block,written,length,cells⟩ := holds.write room e
  have set : Holds {v with vector := some block} (l.set index.toNat e) := by
    refine ⟨?_,?_,?_,holds.small,holds.word,?_,holds.unlocked⟩
    · rw [List.length_set]
      exact holds.len
    · rw [List.length_set]
      exact holds.room
    · exact length ▸ holds.bytes
    · intro k small
      rw [List.length_set] at small
      refine (cells k).trans ?_
      rw [List.getElem_set]
      split
      · rw [if_pos (by omega)]
      · rw [if_neg (by omega),holds.elements k small]
  refine ⟨_,?_,set,rfl⟩
  have before := holds.len ▸ inside
  simp only [cfVectorSet,holds.lock,Option.bind_eq_bind,Option.bind_some,ge_iff_le,Nat.not_le.mpr room,if_false,written,
    Nat.not_le.mpr before,Option.pure_def]
  rw [set.unlock]

/-- What an append leaves allocated. -/
def roomAfter (v : CfVector valueLen) : Nat :=
  if v.len ≥ v.allocLen then resizeLen v.flags (v.len * 2 % 2 ^ 32) else v.allocLen

/-- A value behind the last one, where there is room. -/
theorem Holds.store (holds : Holds v l) (room : l.length < v.allocLen) (e : Element valueLen) :
    ∃ block, writeBytes v.block (vectorOffset valueLen v.len) e.toList = some block ∧
      Holds {v with vector := some block,len := (v.len + 1) % 2 ^ 32} (l ++ [e]) := by
  have len := holds.len
  have word := holds.word
  obtain ⟨block,written,length,cells⟩ := holds.write (len ▸ room) e
  refine ⟨block,written,?_,?_,length ▸ holds.bytes,holds.small,word,fun k inside => ?_,holds.unlocked⟩
  · rw [List.length_append,List.length_singleton,← len]
    exact Nat.mod_eq_of_lt (by omega)
  · rw [List.length_append]
    exact room
  · refine (cells k).trans ?_
    rw [List.length_append,List.length_singleton] at inside
    by_cases last : k = l.length
    · subst last
      rw [if_pos len.symm,List.getElem_concat_length rfl]
    · have old : k < l.length := by omega
      rw [if_neg (by omega),holds.elements k old,List.getElem_append_left old]

theorem append_lockfree_holds {malloc : Malloc} (gives : ∀ n, (malloc n).isSome) (holds : Holds v l)
    (positive : 0 < valueLen) (small : v.roomAfter * valueLen < 2 ^ 31) (e : Element valueLen) :
    ∃ after, cfVectorAppendLockfree malloc v e = some (0,after) ∧ after.Holds (l ++ [e]) ∧
      after.allocLen = v.roomAfter := by
  have len := holds.len
  have word := holds.word
  have room := holds.room
  rw [roomAfter] at small
  by_cases full : v.len ≥ v.allocLen
  · have doubled : v.len * 2 % 2 ^ 32 = v.len * 2 := Nat.mod_eq_of_lt (by omega)
    rw [if_pos full,doubled] at small
    have larger := resizeLen_le v.flags (v.len * 2)
    have some := resizeLen_pos v.flags (v.len * 2)
    obtain ⟨grown,resized,ready,same⟩ := resize_holds gives holds positive (v.len * 2) (by omega) small
    obtain ⟨block,written,stored⟩ := ready.store (by omega) e
    refine ⟨_,?_,stored,by rw [roomAfter,if_pos full,doubled]; exact same⟩
    rw [cfVectorAppendLockfree,if_pos full,doubled,resized]
    simp only [Option.bind_eq_bind,Option.bind_some,ne_eq,not_true,if_false,written,Option.pure_def]
  · obtain ⟨block,written,stored⟩ := holds.store (by omega) e
    refine ⟨_,?_,stored,by rw [roomAfter,if_neg full]⟩
    rw [cfVectorAppendLockfree,if_neg full]
    simp only [Option.bind_eq_bind,Option.bind_some,ne_eq,not_true,if_false,written,Option.pure_def]

theorem append_holds {malloc : Malloc} (gives : ∀ n, (malloc n).isSome) (holds : Holds v l)
    (positive : 0 < valueLen) (small : v.roomAfter * valueLen < 2 ^ 31) (e : Element valueLen) :
    ∃ after, cfVectorAppend malloc v e = some (0,after) ∧ after.Holds (l ++ [e]) ∧ after.allocLen = v.roomAfter := by
  obtain ⟨after,appended,ready,room⟩ := append_lockfree_holds gives holds positive small e
  exact ⟨after,by simp [cfVectorAppend,holds.lock,appended,ready.unlock],ready,room⟩

theorem Holds.read (holds : Holds v l) (inside : k < l.length) :
    readBytes v.block (k * valueLen) valueLen = some l[k].toList := by
  rw [readBytes_cell holds.bytes (Nat.lt_of_lt_of_le inside holds.room),holds.elements k inside]

/-- The search compares with each value from a position on. -/
theorem find_value (holds : Holds v l) (e : Element valueLen) (left : k + turns = l.length) :
    findValue v.block e turns (k * valueLen) = some (decide (e ∈ l.drop k)) := by
  induction turns generalizing k with
  | zero =>
    have done : l.drop k = [] := List.drop_eq_nil_of_le (by omega)
    simp [findValue,done]
  | succ turns ih =>
    have inside : k < l.length := by omega
    have next : k * valueLen + valueLen = (k + 1) * valueLen := by rw [Nat.add_mul,Nat.one_mul]
    rw [findValue,holds.read inside,List.drop_eq_getElem_cons inside]
    simp only [Option.bind_eq_bind,Option.bind_some,Vector.toList_inj,List.mem_cons]
    by_cases here : e = l[k]
    · simp [here]
    · simp only [here,if_false,next,ih (by omega : k + 1 + turns = l.length),false_or]

theorem append_unique_holds {malloc : Malloc} (gives : ∀ n, (malloc n).isSome) (holds : Holds v l)
    (positive : 0 < valueLen) (e : Element valueLen) (small : e ∉ l → v.roomAfter * valueLen < 2 ^ 31) :
    ∃ after, cfVectorAppendUnique malloc v e = some (0,after) ∧ after.Holds (if e ∈ l then l else l ++ [e]) ∧
      after.allocLen = if e ∈ l then v.allocLen else v.roomAfter := by
  have found := find_value holds e (Nat.zero_add l.length)
  rw [Nat.zero_mul,List.drop_zero] at found
  by_cases member : e ∈ l
  · rw [if_pos member,if_pos member]
    exact ⟨v,by simp [cfVectorAppendUnique,holds.lock,holds.len,found,member,holds.unlock],holds,rfl⟩
  · rw [if_neg member,if_neg member]
    obtain ⟨after,appended,ready,room⟩ := append_lockfree_holds gives holds positive (small member) e
    exact ⟨after,by simp [cfVectorAppendUnique,holds.lock,holds.len,found,member,appended,ready.unlock],ready,room⟩

theorem getp_holds (holds : Holds v l) (index : UInt32) (inside : index.toNat < l.length) :
    cfVectorGetp v index = some (some l[index.toNat].toList,v) := by
  have room := Nat.lt_of_lt_of_le inside holds.room
  have offset := vectorOffset_eq (Nat.le_of_lt room) holds.small
  simp [cfVectorGetp,holds.lock,Nat.not_le.mpr room,offset,holds.read inside,holds.unlock]

/-! ### Deleting -/

theorem Holds.gap (holds : Holds v l) (order : i ≤ j) (inside : j < l.length) :
    ∃ after, closeGap v i j = some after ∧ after.Holds (l.take i ++ l.drop (j + 1)) ∧ after.allocLen = v.allocLen := by
  have len := holds.len
  have room := holds.room
  have less : (l.take i ++ l.drop (j + 1)).length = v.len - (j - i + 1) := by
    rw [List.length_append,List.length_take,List.length_drop]
    omega
  by_cases last : j = v.len - 1
  · have none : l.drop (j + 1) = [] := List.drop_eq_nil_of_le (by omega)
    have cut : Holds {v with len := v.len - (j - i + 1)} (l.take i ++ l.drop (j + 1)) := by
      refine ⟨less.symm,?_,holds.bytes,holds.small,holds.word,fun k small => ?_,holds.unlocked⟩
      · rw [less]
        dsimp only
        omega
      · simp only [none,List.append_nil,List.length_take,List.getElem_take] at small ⊢
        exact holds.elements k (by omega)
    exact ⟨_,by rw [closeGap,if_neg (not_not.mpr last)]; rfl,cut,rfl⟩
  · have first := vectorOffset_eq (show i ≤ v.allocLen by omega) holds.small
    have second := vectorOffset_eq (show j + 1 ≤ v.allocLen by omega) holds.small
    have rest := vectorOffset_eq (show v.len - (j + 1) ≤ v.allocLen by omega) holds.small
    obtain ⟨block,moved,length,cells⟩ := moveBytes_cells (a := i) (b := j + 1) (m := v.len - (j + 1)) holds.bytes
      (by omega) (by omega)
    have shifted : Holds {v with vector := some block,len := v.len - (j - i + 1)} (l.take i ++ l.drop (j + 1)) := by
      refine ⟨less.symm,?_,length ▸ holds.bytes,holds.small,holds.word,fun k small => ?_,holds.unlocked⟩
      · rw [less]
        dsimp only
        omega
      · refine (cells k).trans ?_
        rw [less] at small
        by_cases before : k < i
        · rw [if_neg (by omega),holds.elements k (by omega),List.getElem_append_left (by rw [List.length_take]; omega),
            List.getElem_take]
        · have taken : (l.take i).length = i := List.length_take_of_le (by omega)
          rw [if_pos (by omega),holds.elements (j + 1 + (k - i)) (by omega),List.getElem_append_right (by omega),
            List.getElem_drop]
          simp only [taken]
    exact ⟨_,by rw [closeGap,if_pos last,first,second,rest,moved]; rfl,shifted,rfl⟩

theorem delete_holds (holds : Holds v l) (index : UInt32) :
    ∃ after, cfVectorDelete v index = some (if index.toNat < l.length then 0 else -1,after) ∧
      after.Holds (l.eraseIdx index.toNat) ∧ after.allocLen = v.allocLen := by
  have len := holds.len
  by_cases inside : index.toNat < l.length
  · obtain ⟨after,closed,ready,room⟩ := holds.gap (Nat.le_refl index.toNat) inside
    rw [← List.eraseIdx_eq_take_drop_succ] at ready
    exact ⟨after,by simp [cfVectorDelete,holds.lock,len,Nat.not_le.mpr inside,inside,closed,ready.unlock],ready,room⟩
  · rw [List.eraseIdx_of_length_le (Nat.not_lt.mp inside)]
    exact ⟨v,by simp [cfVectorDelete,holds.lock,len,Nat.not_lt.mp inside,inside],holds,rfl⟩

theorem delete_range_holds (holds : Holds v l) (idxStart idxEnd : UInt32) :
    ∃ after, cfVectorDeleteRange v idxStart idxEnd =
        some (if idxStart < idxEnd ∧ idxEnd.toNat < l.length then 0 else -1,after) ∧
      after.Holds (if idxStart < idxEnd ∧ idxEnd.toNat < l.length then
        l.take idxStart.toNat ++ l.drop (idxEnd.toNat + 1) else l) ∧ after.allocLen = v.allocLen := by
  have len := holds.len
  have order : idxStart < idxEnd ↔ idxStart.toNat < idxEnd.toNat := UInt32.lt_iff_toNat_lt
  by_cases good : idxStart < idxEnd ∧ idxEnd.toNat < l.length
  · have ordered := order.mp good.1
    have start : ¬l.length ≤ idxStart.toNat := by omega
    obtain ⟨after,closed,ready,room⟩ := holds.gap (Nat.le_of_lt ordered) good.2
    rw [if_pos good,if_pos good]
    refine ⟨after,?_,ready,room⟩
    simp only [cfVectorDeleteRange,holds.lock,len,Option.bind_eq_bind,Option.bind_some,Option.pure_def,ge_iff_le,
      UInt32.not_le.mpr good.1,start,Nat.not_le.mpr good.2,if_false,closed,ready.unlock]
  · rw [if_neg good,if_neg good]
    refine ⟨v,?_,holds,rfl⟩
    simp only [cfVectorDeleteRange,holds.lock,len,Option.bind_eq_bind,Option.bind_some,Option.pure_def]
    split
    · rfl
    · rename_i ordered
      split
      · rfl
      · have outside : idxEnd.toNat ≥ l.length := Nat.not_lt.mp fun inside => good ⟨by simpa using ordered,inside⟩
        rw [if_pos outside]

end CfVector

/-! ### Sequences of calls -/

inductive VectorCall (valueLen : Nat) where
  | append (value : Element valueLen)
  | appendUnique (value : Element valueLen)
  | set (index : UInt32) (value : Element valueLen)
  | delete (index : UInt32)
  | deleteRange (idxStart idxEnd : UInt32)
  | getp (index : UInt32)

/-- What a call returns; for `cf_vector_getp` the value behind the pointer. -/
inductive VectorResult where
  | code (rv : Int)
  | pointer (r : Option (List UInt8))
deriving DecidableEq

def vectorCall (malloc : Malloc) (v : CfVector valueLen) :
    VectorCall valueLen → Option (VectorResult × CfVector valueLen)
  | .append value => (cfVectorAppend malloc v value).map fun (rv,v) => (.code rv,v)
  | .appendUnique value => (cfVectorAppendUnique malloc v value).map fun (rv,v) => (.code rv,v)
  | .set index value => (cfVectorSet v index value).map fun (rv,v) => (.code rv,v)
  | .delete index => (cfVectorDelete v index).map fun (rv,v) => (.code rv,v)
  | .deleteRange idxStart idxEnd => (cfVectorDeleteRange v idxStart idxEnd).map fun (rv,v) => (.code rv,v)
  | .getp index => (cfVectorGetp v index).map fun (r,v) => (.pointer r,v)

def vectorCalls (malloc : Malloc) : CfVector valueLen → List (VectorCall valueLen) →
    Option (List VectorResult × CfVector valueLen)
  | v,[] => some ([],v)
  | v,call :: calls => do
    let (result,v) ← vectorCall malloc v call
    let (results,v) ← vectorCalls malloc v calls
    return (result :: results,v)

/-- The same call on a list. -/
def listCall (l : List (Element valueLen)) : VectorCall valueLen → VectorResult × List (Element valueLen)
  | .append value => (.code 0,l ++ [value])
  | .appendUnique value => (.code 0,if value ∈ l then l else l ++ [value])
  | .set index value => (.code 0,l.set index.toNat value)
  | .delete index => (.code (if index.toNat < l.length then 0 else -1),l.eraseIdx index.toNat)
  | .deleteRange idxStart idxEnd =>
    if idxStart < idxEnd ∧ idxEnd.toNat < l.length then
      (.code 0,l.take idxStart.toNat ++ l.drop (idxEnd.toNat + 1))
    else (.code (-1),l)
  | .getp index => (.pointer (l[index.toNat]?.map Vector.toList),l)

def listCalls : List (Element valueLen) → List (VectorCall valueLen) → List VectorResult × List (Element valueLen)
  | l,[] => ([],l)
  | l,call :: calls =>
    let (result,l) := listCall l call
    let (results,l) := listCalls l calls
    (result :: results,l)

/-- `cf_vector_set` and `cf_vector_getp` are called below the length. -/
def BelowLength (l : List (Element valueLen)) : VectorCall valueLen → Prop
  | .set index _ => index.toNat < l.length
  | .getp index => index.toNat < l.length
  | _ => True

/-- What is allocated after a call. -/
def allocAfter (v : CfVector valueLen) : VectorCall valueLen → Nat
  | .append _ => v.roomAfter
  | .appendUnique value => if findValue v.block value v.len 0 = some true then v.allocLen else v.roomAfter
  | _ => v.allocLen

/-- No call of a run asks for two gigabytes. -/
def SizesSmall (malloc : Malloc) : CfVector valueLen → List (VectorCall valueLen) → Prop
  | _,[] => True
  | v,call :: calls => allocAfter v call * valueLen < 2 ^ 31 ∧
    ∀ result after, vectorCall malloc v call = some (result,after) → SizesSmall malloc after calls

variable {v : CfVector valueLen} {l : List (Element valueLen)}

theorem vector_call_holds {malloc : Malloc} (gives : ∀ n, (malloc n).isSome) (positive : 0 < valueLen)
    (holds : v.Holds l) (call : VectorCall valueLen) (below : BelowLength l call)
    (small : allocAfter v call * valueLen < 2 ^ 31) :
    ∃ after, vectorCall malloc v call = some ((listCall l call).1,after) ∧ after.Holds (listCall l call).2 ∧
      after.allocLen = allocAfter v call := by
  cases call with
  | append value =>
    obtain ⟨after,done,ready,room⟩ := CfVector.append_holds gives holds positive small value
    exact ⟨after,by rw [vectorCall,done]; rfl,ready,room⟩
  | appendUnique value =>
    have found := CfVector.find_value holds value (Nat.zero_add l.length)
    rw [Nat.zero_mul,List.drop_zero] at found
    rw [allocAfter,holds.len,found] at small
    obtain ⟨after,done,ready,room⟩ := CfVector.append_unique_holds gives holds positive value fun fresh => by
      simpa [fresh] using small
    refine ⟨after,by rw [vectorCall,done]; rfl,ready,?_⟩
    rw [room,allocAfter,holds.len,found]
    simp only [Option.some.injEq,decide_eq_true_eq]
  | set index value =>
    obtain ⟨after,done,ready,room⟩ := CfVector.set_holds holds index below value
    exact ⟨after,by rw [vectorCall,done]; rfl,ready,room⟩
  | delete index =>
    obtain ⟨after,done,ready,room⟩ := CfVector.delete_holds holds index
    exact ⟨after,by rw [vectorCall,done]; rfl,ready,room⟩
  | deleteRange idxStart idxEnd =>
    obtain ⟨after,done,ready,room⟩ := CfVector.delete_range_holds holds idxStart idxEnd
    refine ⟨after,?_,?_,room⟩
    · rw [vectorCall,done,listCall]
      split <;> rfl
    · rw [listCall]
      split at ready
      · rename_i good
        rw [if_pos good]
        exact ready
      · rename_i bad
        rw [if_neg bad]
        exact ready
  | getp index =>
    have got := CfVector.getp_holds holds index below
    refine ⟨v,?_,holds,rfl⟩
    rw [vectorCall,got,listCall,List.getElem?_eq_getElem below]
    rfl

theorem vector_calls_hold {malloc : Malloc} (gives : ∀ n, (malloc n).isSome) (positive : 0 < valueLen)
    (holds : v.Holds l) (calls : List (VectorCall valueLen))
    (below : Guarded (fun l call => (listCall l call).2) BelowLength l calls) (small : SizesSmall malloc v calls) :
    ∃ after, vectorCalls malloc v calls = some ((listCalls l calls).1,after) ∧
      after.Holds (listCalls l calls).2 := by
  induction calls generalizing v l with
  | nil => exact ⟨v,rfl,holds⟩
  | cons call calls ih =>
    obtain ⟨next,made,ready,_⟩ := vector_call_holds gives positive holds call below.1 small.1
    obtain ⟨after,done,last⟩ := ih ready below.2 (small.2 _ _ made)
    exact ⟨after,by simp [vectorCalls,made,done,listCalls],last⟩

theorem list_call_length (l : List (Element valueLen)) (call : VectorCall valueLen) :
    (listCall l call).2.length ≤ l.length + 1 := by
  cases call with
  | append value => simp [listCall]
  | appendUnique value =>
    rw [listCall]
    split <;> simp
  | set index value => simp [listCall]
  | delete index => exact Nat.le_trans (List.eraseIdx_sublist l _).length_le (Nat.le_succ _)
  | deleteRange idxStart idxEnd =>
    rw [listCall]
    split
    · simp only [List.length_append,List.length_take,List.length_drop]
      have order := UInt32.lt_iff_toNat_lt.mp (And.left ‹_›)
      omega
    · exact Nat.le_succ _
  | getp index => exact Nat.le_succ _

theorem alloc_after_le (holds : v.Holds l) (call : VectorCall valueLen) (least : 50 ≤ m) (room : v.allocLen ≤ m)
    (double : 2 * l.length ≤ m) : allocAfter v call ≤ m := by
  have grown : v.roomAfter ≤ m := by
    have len := holds.len
    rw [CfVector.roomAfter,resizeLen]
    split
    · have doubled : v.len * 2 % 2 ^ 32 ≤ v.len * 2 := Nat.mod_le _ _
      split <;> split <;> omega
    · exact room
  cases call with
  | append value => exact grown
  | appendUnique value =>
    rw [allocAfter]
    split
    · exact room
    · exact grown
  | set index value => exact room
  | delete index => exact room
  | deleteRange idxStart idxEnd => exact room
  | getp index => exact room

/-- Twice as many values as there can be after the calls bound what they allocate. -/
theorem sizes_small {malloc : Malloc} (gives : ∀ n, (malloc n).isSome) (positive : 0 < valueLen)
    (holds : v.Holds l) (calls : List (VectorCall valueLen))
    (below : Guarded (fun l call => (listCall l call).2) BelowLength l calls) (least : 50 ≤ m) (room : v.allocLen ≤ m)
    (few : 2 * (l.length + calls.length) ≤ m) (fits : m * valueLen < 2 ^ 31) : SizesSmall malloc v calls := by
  induction calls generalizing v l with
  | nil => trivial
  | cons call calls ih =>
    rw [List.length_cons] at few
    have bound := alloc_after_le holds call least room (by omega)
    have small : allocAfter v call * valueLen < 2 ^ 31 := Nat.lt_of_le_of_lt (Nat.mul_le_mul_right _ bound) fits
    refine ⟨small,fun result after made => ?_⟩
    obtain ⟨next,same,ready,alloc⟩ := vector_call_holds gives positive holds call below.1 small
    obtain ⟨_,rfl⟩ := Prod.mk.inj (Option.some.inj (same.symm.trans made))
    have length := list_call_length l call
    exact ih ready below.2 (alloc ▸ bound) (by omega)

/-- `cf_vector_append_unique`, a deletion, or a call that changes nothing. -/
def VectorCall.keepsUnique : VectorCall valueLen → Bool
  | .append _ => false
  | .set _ _ => false
  | _ => true

theorem list_call_nodup (unique : l.Nodup) (call : VectorCall valueLen) (keeps : call.keepsUnique) :
    (listCall l call).2.Nodup := by
  cases call with
  | append value => cases keeps
  | set index value => cases keeps
  | appendUnique value =>
    rw [listCall]
    split
    · exact unique
    · rename_i fresh
      exact List.Nodup.append unique (List.nodup_singleton value) (by simpa using fresh)
  | delete index => exact unique.sublist (List.eraseIdx_sublist _ _)
  | deleteRange idxStart idxEnd =>
    rw [listCall]
    split
    · rename_i good
      have order := UInt32.lt_iff_toNat_lt.mp good.1
      have rest : (l.take idxStart.toNat ++ l.drop (idxEnd.toNat + 1)).Sublist
          (l.take idxStart.toNat ++ l.drop idxStart.toNat) :=
        (List.drop_sublist_drop_left l (by omega)).append_left _
      rw [List.take_append_drop] at rest
      exact unique.sublist rest
    · exact unique
  | getp index => exact unique

theorem list_calls_nodup (unique : l.Nodup) (calls : List (VectorCall valueLen))
    (keeps : ∀ call ∈ calls, call.keepsUnique) : (listCalls l calls).2.Nodup := by
  induction calls generalizing l with
  | nil => exact unique
  | cons call calls ih =>
    have first := list_call_nodup unique call (keeps call List.mem_cons_self)
    exact ih first fun call member => keeps call (List.mem_cons_of_mem _ member)

/-- The values below the length, as `cf_vector_getp` points at them. -/
def CfVector.contents (v : CfVector valueLen) : List (List UInt8) := (List.range v.len).map (cellAt valueLen v.block)

theorem CfVector.Holds.contents (holds : v.Holds l) : v.contents = l.map Vector.toList := by
  rw [CfVector.contents,holds.len]
  apply List.ext_getElem (by simp)
  intro k one two
  have inside : k < l.length := by simpa using two
  simp [holds.elements k inside]

/-- A new vector, with an allocated block or in a buffer of the caller. -/
inductive VectorStart where
  | heap (initSz : Nat)
  | stack (sbuf : List UInt8)

def VectorStart.bytes (valueLen : Nat) : VectorStart → Nat
  | .heap initSz => initSz * valueLen
  | .stack sbuf => sbuf.length

def vectorStart (malloc : Malloc) (flags : UInt32) : VectorStart → Option (CfVector valueLen)
  | .heap initSz => cfVectorInit malloc initSz flags
  | .stack sbuf => some (cfVectorInitSmalloc sbuf flags)

def vectorRun (malloc : Malloc) (flags : UInt32) (start : VectorStart) (calls : List (VectorCall valueLen)) :
    Option (List VectorResult × CfVector valueLen) := do
  vectorCalls malloc (← vectorStart malloc flags start) calls

theorem start_holds {malloc : Malloc} (gives : ∀ n, (malloc n).isSome) (positive : 0 < valueLen) (start : VectorStart)
    (small : start.bytes valueLen < 2 ^ 31) (unlocked : flags &&& vectorFlagBiglock = 0) :
    ∃ v : CfVector valueLen, vectorStart malloc flags start = some v ∧ v.Holds [] := by
  cases start with
  | heap initSz => exact CfVector.init_holds gives positive small unlocked
  | stack sbuf => exact ⟨_,rfl,CfVector.init_smalloc_holds positive small unlocked⟩

/-- Whatever block a vector starts in, calls return what the same calls on an empty list return
and leave the values of that list. -/
theorem vector_is_list {malloc : Malloc} (gives : ∀ n, (malloc n).isSome) (positive : 0 < valueLen) (flags : UInt32)
    (unlocked : flags &&& vectorFlagBiglock = 0) (start : VectorStart) (initial : start.bytes valueLen < 2 ^ 31)
    (calls : List (VectorCall valueLen)) (below : Guarded (fun l call => (listCall l call).2) BelowLength [] calls)
    (small : ∀ v, vectorStart malloc flags start = some v → SizesSmall malloc v calls) :
    ∃ after, vectorRun malloc flags start calls = some ((listCalls [] calls).1,after) ∧
      after.contents = (listCalls [] calls).2.map Vector.toList ∧
      ((∀ call ∈ calls, call.keepsUnique) → after.contents.Nodup) := by
  obtain ⟨v,started,holds⟩ := start_holds gives positive start initial unlocked
  obtain ⟨after,done,last⟩ := vector_calls_hold gives positive holds calls below (small v started)
  refine ⟨after,by rw [vectorRun,started]; exact done,last.contents,fun keeps => ?_⟩
  rw [last.contents]
  exact List.Nodup.map (fun _ _ => Vector.toList_inj.mp) (list_calls_nodup List.nodup_nil calls keeps)

/-- A buffer of five bytes holds two values; the third is stored on the heap. -/
theorem vector_is_list_leaves_stack :
    ∃ after, vectorRun (fun _ => some fun _ => 7) vectorFlagInitzero (.stack [1,2,3,4,5])
        [.appendUnique #v[1,2],.appendUnique #v[3,4],.appendUnique #v[1,2],.appendUnique #v[5,6],.getp 2,
          .deleteRange 0 1,.delete 1] =
        some ([.code 0,.code 0,.code 0,.code 0,.pointer (some [5,6]),.code 0,.code (-1)],after) ∧
      after.contents = [[5,6]] ∧ ((∀ call ∈ [VectorCall.appendUnique #v[1,2],.appendUnique #v[3,4],
        .appendUnique #v[1,2],.appendUnique #v[5,6],.getp 2,.deleteRange 0 1,.delete 1], call.keepsUnique) →
      after.contents.Nodup) := by
  apply vector_is_list (fun _ => rfl) (by decide) vectorFlagInitzero (by decide) (.stack [1,2,3,4,5]) (by decide)
  · simp [Guarded,BelowLength,listCall]
  · intro v started
    obtain rfl := Option.some.inj started
    have holds : (@cfVectorInitSmalloc 2 [1,2,3,4,5] vectorFlagInitzero).Holds [] :=
      CfVector.init_smalloc_holds (by decide) (by decide) (by decide)
    exact sizes_small (fun _ => rfl) (by decide) holds _ (by simp [Guarded,BelowLength,listCall]) (Nat.le_refl 50)
      (by decide) (by decide) (by decide)

end Citrusleaf
