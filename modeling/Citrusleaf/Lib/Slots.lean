import Mathlib.Data.List.Basic
import Mathlib.Data.List.Nodup
import Mathlib.Data.List.Perm.Basic

/-! Slots that own blocks of memory. The allocator numbers its calls, so the block of a call
to come is in no slot yet. Freeing every slot goes through exactly when each is null or owns
a live block, and no block is owned twice. -/
namespace Citrusleaf.Lib

/-- A pointer that is freed unless it is null. -/
inductive Slot where
  | unset
  | null
  | block (call : Nat)
  deriving DecidableEq

def Slot.owned : Slot → Option Nat
  | .block call => some call
  | _ => none

/-- The blocks that slots own. -/
def blocksOf (slots : List Slot) : List Nat := slots.filterMap Slot.owned

theorem blocksOf_append (first later : List Slot) : blocksOf (first ++ later) = blocksOf first ++ blocksOf later :=
  List.filterMap_append

theorem blocksOf_cons (slot : Slot) (slots : List Slot) :
    blocksOf (slot :: slots) = slot.owned.toList ++ blocksOf slots := by
  rw [blocksOf,List.filterMap_cons]
  cases slot <;> rfl

/-- Slots in a row that own blocks of consecutive numbers own none twice. -/
theorem blocksOf_numbered (numbered : ∀ (j : Nat) slot, slots[j]? = some slot → slot = .null ∨ slot = .block (first + j)) :
    (blocksOf slots).Sublist (List.range' first slots.length) := by
  induction slots generalizing first with
  | nil => exact .slnil
  | cons slot slots ih =>
    have rest : (blocksOf slots).Sublist (List.range' (first + 1) slots.length) := by
      refine ih fun j other given => ?_
      have number : first + 1 + j = first + (j + 1) := by omega
      rw [number]
      exact numbered (j + 1) other given
    rw [blocksOf_cons,List.length_cons,List.range'_succ]
    rcases numbered 0 slot rfl with rfl | rfl
    · exact rest.cons _
    · exact rest.cons_cons _

/-- The calls to the allocator so far, and the blocks of those that gave one and were not freed. -/
structure Blocks where
  calls : Nat
  live : List Nat
  earlier : ∀ call ∈ live, call < calls
  distinct : live.Nodup

def Blocks.none : Blocks := ⟨0,[],nofun,List.nodup_nil⟩

/-- A call that gives no block. -/
def Blocks.fail (blocks : Blocks) : Blocks :=
  ⟨blocks.calls + 1,blocks.live,fun call member => Nat.lt_succ_of_lt (blocks.earlier call member),blocks.distinct⟩

/-- A call that gives the block of its number. -/
def Blocks.give (blocks : Blocks) : Blocks where
  calls := blocks.calls + 1
  live := blocks.calls :: blocks.live
  earlier := List.forall_mem_cons.mpr
    ⟨Nat.lt_succ_self _,fun call member => Nat.lt_succ_of_lt (blocks.earlier call member)⟩
  distinct := List.nodup_cons.mpr
    ⟨fun member => Nat.lt_irrefl _ (blocks.earlier blocks.calls member),blocks.distinct⟩

/-- What slots own is live, and each block is owned once. -/
structure Kept (blocks : Blocks) (slots : List Slot) : Prop where
  once : (blocksOf slots).Nodup
  live : ∀ call ∈ blocksOf slots, call ∈ blocks.live

theorem Kept.mono (kept : Kept blocks slots) (more : ∀ call ∈ blocks.live, call ∈ after.live) : Kept after slots :=
  ⟨kept.once,fun call member => more call (kept.live call member)⟩

theorem Kept.give (kept : Kept blocks slots) : Kept blocks.give slots :=
  kept.mono fun _ member => List.mem_cons_of_mem _ member

/-- How one call may leave a slot. -/
inductive SlotStep (blocks : Blocks) : Slot → Blocks → Prop where
  | null : (∀ call ∈ blocks.live, call ∈ after.live) → SlotStep blocks .null after
  | block : SlotStep blocks (.block blocks.calls) blocks.give

theorem SlotStep.null_same (blocks : Blocks) : SlotStep blocks .null blocks := .null fun _ member => member

theorem SlotStep.null_fail (blocks : Blocks) : SlotStep blocks .null blocks.fail := .null fun _ member => member

theorem SlotStep.more (step : SlotStep blocks slot after) : ∀ call ∈ blocks.live, call ∈ after.live := by
  cases step with
  | null more => exact more
  | block => exact fun _ member => List.mem_cons_of_mem _ member

theorem SlotStep.set (step : SlotStep blocks slot after) : slot ≠ .unset := by
  cases step <;> exact nofun

/-- A slot is overwritten; what it owned is given up. -/
theorem Kept.step (kept : Kept blocks (before ++ old :: rest)) (step : SlotStep blocks slot after) :
    Kept after (before ++ slot :: rest) := by
  obtain ⟨once,live⟩ := kept
  simp only [blocksOf_append,blocksOf_cons] at once live
  have others : (blocksOf before ++ blocksOf rest).Nodup :=
    once.sublist ((List.Sublist.refl _).append (List.sublist_append_right _ _))
  have known (call : Nat) (member : call ∈ blocksOf before ++ blocksOf rest) : call ∈ blocks.live := by
    apply live
    rcases List.mem_append.mp member with left | right
    · exact List.mem_append_left _ left
    · exact List.mem_append_right _ (List.mem_append_right _ right)
  cases step with
  | null more =>
    constructor
    · simpa only [blocksOf_append,blocksOf_cons,Slot.owned,Option.toList_none,List.nil_append] using others
    · simp only [blocksOf_append,blocksOf_cons,Slot.owned,Option.toList_none,List.nil_append]
      exact fun call member => more call (known call member)
  | block =>
    have moved : (blocksOf before ++ ([blocks.calls] ++ blocksOf rest)).Perm
        (blocks.calls :: (blocksOf before ++ blocksOf rest)) := List.perm_middle
    constructor
    · simp only [blocksOf_append,blocksOf_cons,Slot.owned,Option.toList_some]
      apply moved.nodup_iff.mpr
      exact List.nodup_cons.mpr
        ⟨fun member => Nat.lt_irrefl _ (blocks.earlier _ (known _ member)),others⟩
    · intro call member
      simp only [blocksOf_append,blocksOf_cons,Slot.owned,Option.toList_some] at member
      rcases List.mem_cons.mp (moved.mem_iff.mp member) with rfl | other
      · exact List.mem_cons_self
      · exact List.mem_cons_of_mem _ (known call other)

theorem Kept.set (kept : Kept blocks slots) (step : SlotStep blocks slot after) (target : Nat) :
    Kept after (slots.set target slot) := by
  by_cases inside : target < slots.length
  · have same := List.set_getElem_self inside
    rw [List.set_eq_take_append_cons_drop,if_pos inside] at same ⊢
    rw [← same] at kept
    exact kept.step step
  · rw [List.set_eq_of_length_le (Nat.not_lt.mp inside)]
    exact kept.mono step.more

theorem Kept.append_unset (kept : Kept blocks slots) (n : Nat) : Kept blocks (slots ++ List.replicate n .unset) := by
  have empty : blocksOf (List.replicate n .unset) = [] := List.filterMap_replicate_of_none rfl
  have same : blocksOf (slots ++ List.replicate n .unset) = blocksOf slots := by
    rw [blocksOf_append,empty,List.append_nil]
  exact ⟨same ▸ kept.once,same ▸ kept.live⟩

theorem Kept.append_left (kept : Kept blocks (slots ++ rest)) : Kept blocks slots := by
  obtain ⟨once,live⟩ := kept
  rw [blocksOf_append] at once live
  exact ⟨(List.nodup_append.mp once).1,fun call member => live call (List.mem_append_left _ member)⟩

theorem Kept.append_right (kept : Kept blocks (slots ++ rest)) : Kept blocks rest := by
  obtain ⟨once,live⟩ := kept
  rw [blocksOf_append] at once live
  exact ⟨(List.nodup_append.mp once).2.1,fun call member => live call (List.mem_append_right _ member)⟩

/-! ### Freeing -/

/-- Free each slot that is not null; `none` is a free of something else than a live block. -/
def freeAll : List Nat → List Slot → Option (List Nat)
  | live,[] => some live
  | _,.unset :: _ => none
  | live,.null :: slots => freeAll live slots
  | live,.block call :: slots => if call ∈ live then freeAll (live.erase call) slots else none

/-- Each slot is null or owns a live block, and no block is owned twice. -/
structure Owns (live : List Nat) (slots : List Slot) : Prop where
  each : ∀ slot ∈ slots, slot = .null ∨ ∃ call ∈ live, slot = .block call
  once : (blocksOf slots).Nodup

theorem Kept.owns_iff (kept : Kept blocks slots) : Owns blocks.live slots ↔ .unset ∉ slots := by
  constructor
  · intro owns member
    rcases owns.each _ member with null | ⟨call,_,block⟩
    · cases null
    · cases block
  · intro set
    refine ⟨fun slot member => ?_,kept.once⟩
    cases slot with
    | unset => exact absurd member set
    | null => exact .inl rfl
    | block call => exact .inr ⟨call,kept.live call (List.mem_filterMap.mpr ⟨_,member,rfl⟩),rfl⟩

theorem freeAll_isSome (distinct : live.Nodup) : (freeAll live slots).isSome ↔ Owns live slots := by
  induction slots generalizing live with
  | nil => exact iff_of_true rfl ⟨nofun,List.nodup_nil⟩
  | cons slot slots ih =>
    cases slot with
    | unset =>
      refine iff_of_false nofun fun owns => ?_
      rcases owns.each _ List.mem_cons_self with null | ⟨call,_,block⟩
      · cases null
      · cases block
    | null =>
      rw [freeAll,ih distinct]
      constructor
      · rintro ⟨each,once⟩
        exact ⟨List.forall_mem_cons.mpr ⟨.inl rfl,each⟩,once⟩
      · rintro ⟨each,once⟩
        exact ⟨(List.forall_mem_cons.mp each).2,once⟩
    | block call =>
      by_cases alive : call ∈ live
      · rw [freeAll,if_pos alive,ih (distinct.erase call)]
        constructor
        · rintro ⟨each,once⟩
          refine ⟨List.forall_mem_cons.mpr ⟨.inr ⟨call,alive,rfl⟩,fun slot member => ?_⟩,?_⟩
          · refine (each slot member).imp_right fun ⟨other,left,is⟩ => ?_
            exact ⟨other,List.mem_of_mem_erase left,is⟩
          · refine List.nodup_cons.mpr ⟨fun twice => ?_,once⟩
            obtain ⟨slot,member,owned⟩ := List.mem_filterMap.mp twice
            rcases each slot member with rfl | ⟨other,left,rfl⟩
            · cases owned
            · obtain rfl := Option.some.inj owned
              exact distinct.not_mem_erase left
        · rintro ⟨each,once⟩
          obtain ⟨fresh,once⟩ := List.nodup_cons.mp once
          refine ⟨fun slot member => ?_,once⟩
          refine ((List.forall_mem_cons.mp each).2 slot member).imp_right fun ⟨other,left,is⟩ => ?_
          refine ⟨other,(distinct.mem_erase_iff).mpr ⟨?_,left⟩,is⟩
          rintro rfl
          exact fresh (List.mem_filterMap.mpr ⟨slot,member,is ▸ rfl⟩)
      · rw [freeAll,if_neg alive]
        refine iff_of_false nofun fun owns => ?_
        rcases owns.each _ List.mem_cons_self with null | ⟨other,left,is⟩
        · cases null
        · cases is
          exact alive left

end Citrusleaf.Lib
