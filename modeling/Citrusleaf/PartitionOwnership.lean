import Citrusleaf.Lib.Runs
import Citrusleaf.Partition

/-! Who a slot belongs to. An update gives the updating node exactly what its bitmaps
claim, and takes a place from another node only by forcing that node to refresh. -/
namespace Citrusleaf.Partition
open Lib

/-- The slots of a namespace name the node exactly where the bitmaps say so. -/
def Owns (head : Tables n) (node : Node) (ns : CString) (masters proles : Fin n → Bool) : Prop :=
  ∀ pid, ((slot head ns pid).master = some node ↔ masters pid = true) ∧
    ((slot head ns pid).prole = some node ↔ proles pid = true ∧ masters pid = false)

/-- The two slots give the node the same places. -/
def SameFor (node : Node) (p q : ClPartition) : Prop :=
  (p.master = some node ↔ q.master = some node) ∧ (p.prole = some node ↔ q.prole = some node)

theorem removeNode_other (different : other ≠ node) (p : ClPartition) :
    SameFor other (removeNode node p).1 p := by
  constructor
  · by_cases m : p.master = some node <;> simp [removeNode,m,Ne.symm different]
  · by_cases q : p.prole = some node <;> simp [removeNode,q,Ne.symm different]

theorem updateSlot_owner (node : Node) (master prole : Bool) (p : ClPartition) :
    ((updateSlot node master prole p).1.master = some node ↔ master = true) ∧
    ((updateSlot node master prole p).1.prole = some node ↔ prole = true ∧ master = false) := by
  have free := removeNode_clears node p
  cases master <;> cases prole <;> simp [updateSlot,free.1,free.2]

theorem mem_displace (other : Node) (tag : Tag) : .forceReplicasRefresh other ∈ displace tag (some other) := by
  simp [displace]

/-- Another node keeps its places in the slot unless it is told to refresh. -/
theorem updateSlot_other (different : other ≠ node) (master prole : Bool) (p : ClPartition) :
    .forceReplicasRefresh other ∈ (updateSlot node master prole p).2 ∨
    SameFor other (updateSlot node master prole p).1 p := by
  have same := removeNode_other different p
  cases master
  · cases prole
    · exact .inr same
    · by_cases lost : (removeNode node p).1.prole = some other
      · left; simp [updateSlot,lost,mem_displace]
      · right
        refine ⟨same.1,?_⟩
        simp [updateSlot,Ne.symm different,← same.2,lost]
  · by_cases lost : (removeNode node p).1.master = some other
    · left; simp [updateSlot,lost,mem_displace]
    · right
      refine ⟨?_,same.2⟩
      simp [updateSlot,Ne.symm different,← same.1,lost]

/-- Slots an update neither frees nor claims are left as they were. -/
theorem updateSlot_frame (node : Node) (master prole : Bool) (p : ClPartition) :
    (p.master ≠ some node → master = false → (updateSlot node master prole p).1.master = p.master) ∧
    (p.prole ≠ some node → ¬(prole = true ∧ master = false) →
      (updateSlot node master prole p).1.prole = p.prole) := by
  constructor
  · rintro free rfl
    cases prole <;> simp [updateSlot,removeNode,free]
  · intro free unclaimed
    cases master <;> cases prole <;> simp_all [updateSlot,removeNode]

/-! ### One update -/

theorem Update.apply_owns (u : Update n) (head : Tables n) (ready : Ready u.malloc head u.ns) :
    Owns (u.apply head).1 u.node u.ns u.masters u.proles := by
  intro pid
  rw [Update.apply,slot_update _ _ _ _ _ _ ready,if_pos rfl]
  exact updateSlot_owner ..

/-- A later update that is not the owner's own keeps the owner's slots or refreshes it. -/
theorem Update.apply_keeps {masters proles : Fin n → Bool} (u : Update n) (head : Tables n)
    (node : Node) (ns : CString) (foreign : ¬(u.node = node ∧ u.ns = ns)) (owns : Owns head node ns masters proles) :
    .forceReplicasRefresh node ∈ (u.apply head).2 ∨
    Owns (u.apply head).1 node ns masters proles := by
  by_cases ready : Ready u.malloc head u.ns
  · by_cases lost : .forceReplicasRefresh node ∈ (u.apply head).2
    · exact .inl lost
    · right
      intro pid
      rw [Update.apply,slot_update _ _ _ _ _ _ ready]
      by_cases same : ns = u.ns
      · subst same
        have different : node ≠ u.node := fun eq => foreign ⟨eq.symm,rfl⟩
        rcases updateSlot_other different (u.masters pid) (u.proles pid) (slot head u.ns pid) with
          forced | kept
        · refine absurd ?_ lost
          rw [Update.apply,update_calls _ _ _ _ _ _ ready]
          exact List.mem_flatMap.mpr ⟨pid,List.mem_finRange pid,forced⟩
        · rw [if_pos rfl]
          exact ⟨kept.1.trans (owns pid).1,kept.2.trans (owns pid).2⟩
      · rw [if_neg same]
        exact owns pid
  · right
    rw [Update.apply,update_stuck _ _ _ _ _ _ ready]
    exact owns

/-! ### Runs of updates -/

def runUpdates (s : TableState n) (updates : List (Update n)) : TableState n :=
  run tableStep s (updates.map .update)

/-- The update calls `force_replicas_refresh` on the node. -/
def Forces (s : TableState n) (u : Update n) (node : Node) : Prop :=
  .forceReplicasRefresh node ∈ (u.apply s.head).2

theorem forces_generation (forces : Forces s u node) :
    (tableStep s (.update u)).partitionGeneration node = 0xFFFFFFFF := by
  simp only [Forces] at forces
  simp [tableStep,refreshed,forces]

/-- Some update of the list forces the node, in the state it is applied to. -/
def ForcedDuring (s : TableState n) (updates : List (Update n)) (node : Node) : Prop :=
  ∃ first u rest, updates = first ++ u :: rest ∧ Forces (runUpdates s first) u node

theorem owns_or_forced (s : TableState n) (updates : List (Update n)) (node : Node) (ns : CString)
    (foreign : ∀ u ∈ updates, ¬(u.node = node ∧ u.ns = ns))
    (owns : Owns s.head node ns masters proles) :
    ForcedDuring s updates node ∨ Owns (runUpdates s updates).head node ns masters proles := by
  induction updates generalizing s with
  | nil => exact .inr owns
  | cons u updates ih =>
    rcases u.apply_keeps s.head node ns (foreign u List.mem_cons_self) owns with forced | kept
    · exact .inl ⟨[],u,updates,rfl,forced⟩
    · rcases ih (tableStep s (.update u)) (fun v member => foreign v (List.mem_cons_of_mem _ member))
        kept with ⟨first,v,rest,rfl,forced⟩ | owned
      · exact .inl ⟨u :: first,v,rest,rfl,forced⟩
      · exact .inr owned

/-- A run of updates leaves a generation forced or untouched. -/
theorem runUpdates_generation (s : TableState n) (updates : List (Update n)) (node : Node) :
    (runUpdates s updates).partitionGeneration node = 0xFFFFFFFF ∨
    ((runUpdates s updates).partitionGeneration node = s.partitionGeneration node ∧
      ¬ForcedDuring s updates node) := by
  induction updates generalizing s with
  | nil =>
    right
    refine ⟨rfl,?_⟩
    rintro ⟨first,u,rest,parts,_⟩
    simp at parts
  | cons u updates ih =>
    rcases ih (tableStep s (.update u)) with forced | ⟨kept,quiet⟩
    · exact .inl forced
    · by_cases now : Forces s u node
      · exact .inl (kept.trans (forces_generation now))
      · right
        constructor
        · refine kept.trans ?_
          simp only [Forces] at now
          simp [tableStep,refreshed,now]
        · rintro ⟨first,v,rest,parts,forced⟩
          cases first with
          | nil =>
            obtain ⟨rfl,rfl⟩ := List.cons.inj parts
            exact now forced
          | cons w first =>
            obtain ⟨rfl,rfl⟩ := List.cons.inj parts
            exact quiet ⟨first,v,rest,rfl,forced⟩

/-- Whatever nodes update in between, a node whose last update of a namespace got a table
either still has exactly the slots that update claimed, or its generation has been forced
to 0xFFFFFFFF since. -/
theorem no_stale_ownership (start : TableState n) (earlier later : List (Update n)) (u : Update n)
    (updated : (clPartitionTableGetByNs (runUpdates start (earlier ++ [u])).head u.ns).isSome)
    (last : ∀ v ∈ later, ¬(v.node = u.node ∧ v.ns = u.ns)) :
    (∃ first v rest, later = first ++ v :: rest ∧
      Forces (runUpdates start (earlier ++ u :: first)) v u.node ∧
      (runUpdates start (earlier ++ u :: first ++ [v])).partitionGeneration u.node = 0xFFFFFFFF) ∨
    Owns (runUpdates start (earlier ++ u :: later)).head u.node u.ns u.masters u.proles := by
  have ready : Ready u.malloc (runUpdates start earlier).head u.ns := by
    by_contra stuck
    have same := update_stuck _ _ u.node _ u.masters u.proles stuck
    simp only [runUpdates,List.map_append,run_append,List.map_cons,List.map_nil,run_cons,run_nil,
      tableStep,Update.apply] at updated same
    rw [same] at updated
    exact stuck (.inl updated)
  have owns := u.apply_owns (runUpdates start earlier).head ready
  rcases owns_or_forced (tableStep (runUpdates start earlier) (.update u)) later u.node u.ns last owns with
    ⟨first,v,rest,rfl,forced⟩ | kept
  · left
    refine ⟨first,v,rest,rfl,?_,?_⟩
    · simpa [runUpdates] using forced
    · simpa [runUpdates] using forces_generation forced
  · right
    simpa [runUpdates] using kept

/-- Node 1 claims the only slot of a namespace, then node 2 takes it. -/
theorem no_stale_ownership_displaced :
    let claim := fun node => (⟨true,node,text "test",fun _ => true,fun _ => false⟩ : Update 1)
    let start := TableState.empty 1 fun _ => 7
    (∃ first v rest, [claim 2] = first ++ v :: rest ∧
      Forces (runUpdates start ([] ++ claim 1 :: first)) v 1 ∧
      (runUpdates start ([] ++ claim 1 :: first ++ [v])).partitionGeneration 1 = 0xFFFFFFFF) ∨
    Owns (runUpdates start ([] ++ claim 1 :: [claim 2])).head 1 (text "test")
      (fun _ => true) (fun _ => false) :=
  no_stale_ownership (TableState.empty 1 fun _ => 7) []
    [⟨true,2,text "test",fun _ => true,fun _ => false⟩]
    ⟨true,1,text "test",fun _ => true,fun _ => false⟩ (by decide) (by decide)

end Citrusleaf.Partition
