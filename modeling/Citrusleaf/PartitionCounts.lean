import Mathlib.Algebra.BigOperators.Group.List.Basic
import Citrusleaf.Lib.Runs
import Citrusleaf.Partition

/-! Reservations and exclusivity of the partition table over any sequence of calls.
Each slot balances the calls it makes on a node against the places the node gains and
loses; the table and the run only add these balances up. -/
namespace Citrusleaf.Partition
open Lib

def NodeCall.isReserve (node : Node) : NodeCall → Bool
  | .reserve other _ => other == node
  | _ => false

def NodeCall.isRelease (node : Node) : NodeCall → Bool
  | .release other _ => other == node
  | _ => false

def reserved (node : Node) (calls : List NodeCall) : Nat := calls.countP (NodeCall.isReserve node)
def released (node : Node) (calls : List NodeCall) : Nat := calls.countP (NodeCall.isRelease node)

@[simp] theorem reserved_append (node : Node) (first later : List NodeCall) :
    reserved node (first ++ later) = reserved node first + reserved node later :=
  List.countP_append

@[simp] theorem released_append (node : Node) (first later : List NodeCall) :
    released node (first ++ later) = released node first + released node later :=
  List.countP_append

theorem reserved_flatMap (node : Node) (calls : α → List NodeCall) (items : List α) :
    reserved node (items.flatMap calls) = (items.map fun i => reserved node (calls i)).sum := by
  simp [reserved,List.countP_flatMap,Function.comp_def]

theorem released_flatMap (node : Node) (calls : α → List NodeCall) (items : List α) :
    released node (items.flatMap calls) = (items.map fun i => released node (calls i)).sum := by
  simp [released,List.countP_flatMap,Function.comp_def]

/-- How many of the two places of a slot are the node's. -/
def places (node : Node) (p : ClPartition) : Nat :=
  (if p.master = some node then 1 else 0) + (if p.prole = some node then 1 else 0)

/-- The slot names the node. -/
def Names (node : Node) (p : ClPartition) : Prop := p.master = some node ∨ p.prole = some node

instance (node : Node) (p : ClPartition) : Decidable (Names node p) :=
  inferInstanceAs (Decidable (_ ∨ _))

/-- Master and prole are never the same node. -/
def Separate (p : ClPartition) : Prop := ∀ node, p.master = some node → p.prole ≠ some node

theorem places_separate (separate : Separate p) (node : Node) :
    places node p = if Names node p then 1 else 0 := by
  by_cases m : p.master = some node
  · simp [places,Names,m,separate node m]
  · simp [places,Names,m]

theorem places_zero (node : Node) (p : ClPartition) : places node p = 0 ↔ ¬Names node p := by
  simp [places,Names]

/-! ### One slot -/

theorem removeNode_balance (subject node : Node) (p : ClPartition) :
    reserved subject (removeNode node p).2 + places subject p =
      released subject (removeNode node p).2 + places subject (removeNode node p).1 := by
  by_cases same : node = subject
  · subst same
    by_cases m : p.master = some node <;> by_cases q : p.prole = some node <;>
      simp [removeNode,m,q,places,reserved,released,NodeCall.isReserve,NodeCall.isRelease]
  · by_cases m : p.master = some node <;> by_cases q : p.prole = some node <;>
      simp [removeNode,m,q,same,places,reserved,released,NodeCall.isReserve,NodeCall.isRelease]

theorem displace_reserved (subject : Node) (tag : Tag) (old : Option Node) :
    reserved subject (displace tag old) = 0 := by
  cases old <;> simp [displace,reserved,NodeCall.isReserve]

theorem displace_released (subject : Node) (tag : Tag) (old : Option Node) :
    released subject (displace tag old) = if old = some subject then 1 else 0 := by
  cases old with
  | none => simp [displace,released]
  | some other =>
    by_cases same : other = subject <;> simp [displace,released,NodeCall.isRelease,same]

theorem reserve_counts (subject node : Node) (tag : Tag) :
    reserved subject [.reserve node tag] = (if some node = some subject then 1 else 0) ∧
    released subject [.reserve node tag] = 0 := by
  by_cases same : node = subject <;>
    simp [reserved,released,NodeCall.isReserve,NodeCall.isRelease,same]

theorem release_counts (subject node : Node) (tag : Tag) :
    reserved subject [.release node tag] = 0 ∧
    released subject [.release node tag] = if subject = node then 1 else 0 := by
  by_cases same : subject = node
  · simp [reserved,released,NodeCall.isReserve,NodeCall.isRelease,same]
  · simp [reserved,released,NodeCall.isReserve,NodeCall.isRelease,same,Ne.symm same]

/-- Whatever a slot does to a node, reservations follow its places. -/
theorem updateSlot_balance (subject node : Node) (master prole : Bool) (p : ClPartition) :
    reserved subject (updateSlot node master prole p).2 + places subject p =
      released subject (updateSlot node master prole p).2 +
        places subject (updateSlot node master prole p).1 := by
  have removed := removeNode_balance subject node p
  obtain ⟨taken,returned⟩ := reserve_counts subject node .PM
  obtain ⟨taken',returned'⟩ := reserve_counts subject node .PP
  cases master
  · cases prole
    · exact removed
    · simp only [updateSlot,reserved_append,released_append,displace_reserved,displace_released,
        taken',returned',places,Bool.false_eq_true,if_false,if_true] at removed ⊢
      omega
  · simp only [updateSlot,reserved_append,released_append,displace_reserved,displace_released,
      taken,returned,places,if_true] at removed ⊢
    omega

/-- A slot gives back no more references than it has. -/
theorem updateSlot_released (subject node : Node) (master prole : Bool) (p : ClPartition) :
    released subject (updateSlot node master prole p).2 ≤ places subject p := by
  have removed : released subject (removeNode node p).2 + places subject (removeNode node p).1 =
      places subject p := by
    have balance := removeNode_balance subject node p
    have none : reserved subject (removeNode node p).2 = 0 := by
      by_cases m : p.master = some node <;> by_cases q : p.prole = some node <;>
        simp [removeNode,m,q,reserved,NodeCall.isReserve]
    omega
  have returned := (reserve_counts subject node .PM).2
  have returned' := (reserve_counts subject node .PP).2
  cases master
  · cases prole
    · simp only [updateSlot,Bool.false_eq_true,if_false]
      omega
    · simp only [updateSlot,released_append,displace_released,returned',places,Bool.false_eq_true,
        if_false,if_true] at removed ⊢
      omega
  · simp only [updateSlot,released_append,displace_released,returned,places,if_true] at removed ⊢
    omega

theorem dropProle_released (subject node : Node) (p : ClPartition) :
    released subject (dropProle node p).2 ≤ places subject p := by
  unfold dropProle
  split
  · rename_i prole
    rw [(release_counts subject node .PP).2]
    split
    · rename_i same
      simp [places,prole,same]
    · exact Nat.zero_le _
  · simp [released]

theorem dropProle_balance (subject node : Node) (p : ClPartition) :
    reserved subject (dropProle node p).2 + places subject p =
      released subject (dropProle node p).2 + places subject (dropProle node p).1 := by
  by_cases q : p.prole = some node
  · by_cases same : node = subject <;>
      simp [dropProle,q,same,places,reserved,released,NodeCall.isReserve,NodeCall.isRelease,
        Nat.add_comm]
  · simp [dropProle,q,reserved,released]

theorem removeNode_separate (node : Node) (separate : Separate p) :
    Separate (removeNode node p).1 := by
  intro other m
  simp only [removeNode] at m ⊢
  split at m
  · contradiction
  · split
    · intro eq
      cases eq
    · exact separate other m

theorem updateSlot_separate (node : Node) (master prole : Bool) (separate : Separate p) :
    Separate (updateSlot node master prole p).1 := by
  have clear := removeNode_clears node p
  have kept := removeNode_separate node separate
  cases master
  · cases prole
    · exact kept
    · intro other m eq
      obtain rfl : node = other := Option.some.inj eq
      exact clear.1 m
  · intro other m eq
    obtain rfl : node = other := Option.some.inj m
    exact clear.2 eq

theorem dropProle_separate (node : Node) (separate : Separate p) :
    Separate (dropProle node p).1 := by
  by_cases q : p.prole = some node
  · simp [dropProle,q,Separate]
  · simpa [dropProle,q] using separate

/-! ### One table and the chain of tables -/

def tablePlaces (node : Node) (partitions : Fin n → ClPartition) : Nat :=
  ((List.finRange n).map fun pid => places node (partitions pid)).sum

def totalPlaces (node : Node) (head : Tables n) : Nat :=
  (head.map fun pt => tablePlaces node pt.partitions).sum

/-- The number of slots, over all namespaces, that name the node. -/
def slotsNaming (node : Node) (head : Tables n) : Nat :=
  (head.map fun pt => (List.finRange n).countP fun pid => Names node (pt.partitions pid)).sum

def AllSeparate (head : Tables n) : Prop := ∀ pt ∈ head, ∀ pid, Separate (pt.partitions pid)

theorem sum_balance (items : List α) (taken before returned after : α → Nat)
    (each : ∀ i, taken i + before i = returned i + after i) :
    (items.map taken).sum + (items.map before).sum =
      (items.map returned).sum + (items.map after).sum := by
  rw [← List.sum_map_add,← List.sum_map_add]
  simp only [each]

theorem totalPlaces_separate (separate : AllSeparate head) (node : Node) :
    totalPlaces node head = slotsNaming node head := by
  simp only [totalPlaces,slotsNaming]
  congr 1
  apply List.map_congr_left
  intro pt member
  simp only [tablePlaces,List.countP_eq_length_filter,places_separate (separate pt member _)]
  induction List.finRange _ with
  | nil => rfl
  | cons pid rest ih =>
    by_cases named : Names node (pt.partitions pid) <;> simp [named,ih,Nat.add_comm]

theorem totalPlaces_storeTable (node : Node) (partitions : Fin n → ClPartition)
    (found : clPartitionTableGetByNs head ns = some pt) :
    totalPlaces node (storeTable ns partitions head) + tablePlaces node pt.partitions =
      totalPlaces node head + tablePlaces node partitions := by
  induction head with
  | nil => simp at found
  | cons first rest ih =>
    rw [getByNs_cons] at found
    by_cases here : first.ns = ns
    · obtain rfl : first = pt := by simpa [here] using found
      simp [storeTable,here,totalPlaces]
      omega
    · have later := ih (by simpa [here] using found)
      simp only [storeTable,here,if_false,totalPlaces,List.map_cons,List.sum_cons] at later ⊢
      omega

theorem totalPlaces_create (node : Node) (head : Tables n) (ns : CString) :
    totalPlaces node (clPartitionTableCreate head ns) = totalPlaces node head := by
  simp [totalPlaces,clPartitionTableCreate,tablePlaces,places]

theorem mem_storeTable (member : pt ∈ storeTable ns partitions head) :
    pt ∈ head ∨ pt.partitions = partitions := by
  induction head with
  | nil => simp [storeTable] at member
  | cons first rest ih =>
    by_cases here : first.ns = ns
    · rcases List.mem_cons.mp (by simpa [storeTable,here] using member) with rfl | member
      · exact .inr rfl
      · exact .inl (List.mem_cons_of_mem _ member)
    · rcases List.mem_cons.mp (by simpa [storeTable,here] using member) with rfl | member
      · exact .inl List.mem_cons_self
      · exact (ih member).imp_left (List.mem_cons_of_mem _)

theorem slot_separate {head : Tables n} (separate : AllSeparate head) (ns : CString) (pid : Fin n) :
    Separate (slot head ns pid) := by
  cases found : clPartitionTableGetByNs head ns with
  | none => rw [slot_of_none found]; exact nofun
  | some pt => rw [slot_of_some found]; exact separate pt (getByNs_mem found).1 pid

theorem update_balance (subject : Node) (malloc : Bool) (head : Tables n) (node : Node)
    (ns : CString) (masters proles : Fin n → Bool) :
    let result := clPartitionTableUpdate malloc head node ns masters proles
    reserved subject result.2 + totalPlaces subject head =
      released subject result.2 + totalPlaces subject result.1 := by
  by_cases ready : Ready malloc head ns
  · obtain ⟨found,here,_,origin,eq⟩ := update_eq malloc head node ns masters proles ready
    have size : totalPlaces subject found = totalPlaces subject head := by
      rcases origin with rfl | ⟨_,rfl⟩
      · rfl
      · exact totalPlaces_create subject head ns
    have stored := totalPlaces_storeTable subject
      (fun pid => (updateSlot node (masters pid) (proles pid) (slot head ns pid)).1) here
    have walked := sum_balance (List.finRange n) _ _ _ _ fun pid =>
      updateSlot_balance subject node (masters pid) (proles pid) (slot head ns pid)
    simp only [eq,reserved_flatMap,released_flatMap]
    simp only [tablePlaces] at stored
    omega
  · simp [update_stuck _ _ _ _ _ _ ready,reserved,released]

theorem update_separate (malloc : Bool) (node : Node) (ns : CString) (masters proles : Fin n → Bool)
    (separate : AllSeparate head) :
    AllSeparate (clPartitionTableUpdate malloc head node ns masters proles).1 := by
  by_cases ready : Ready malloc head ns
  · obtain ⟨found,here,_,origin,eq⟩ := update_eq malloc head node ns masters proles ready
    rw [eq]
    intro pt member pid
    rcases mem_storeTable member with old | new
    · rcases origin with rfl | ⟨_,rfl⟩
      · exact separate pt old pid
      · rcases List.mem_cons.mp old with rfl | old
        · exact nofun
        · exact separate pt old pid
    · rw [new]
      exact updateSlot_separate node _ _ (slot_separate separate ns pid)
  · simpa [update_stuck _ _ _ _ _ _ ready] using separate

theorem present_balance (subject : Node) (head : Tables n) (node : Node) :
    let result := clPartitionTableIsNodePresent head node
    reserved subject result.2.2 + totalPlaces subject head =
      released subject result.2.2 + totalPlaces subject result.2.1 := by
  simp only [clPartitionTableIsNodePresent]
  split
  · simp [reserved,released]
  · simp only [reserved_flatMap,released_flatMap,totalPlaces,List.map_map,Function.comp_def]
    exact sum_balance head _ _ _ _ fun pt => sum_balance (List.finRange n) _ _ _ _ fun pid =>
      dropProle_balance subject node (pt.partitions pid)

theorem present_separate (node : Node) (separate : AllSeparate head) :
    AllSeparate (clPartitionTableIsNodePresent head node).2.1 := by
  simp only [clPartitionTableIsNodePresent]
  split
  · exact separate
  · intro pt member pid
    obtain ⟨old,oldMember,rfl⟩ := List.mem_map.mp member
    exact dropProle_separate node (separate old oldMember pid)

theorem isMaster_iff (head : Tables n) (node : Node) :
    isMaster head node = true ↔ ∃ pt ∈ head, ∃ pid, (pt.partitions pid).master = some node := by
  simp [isMaster,List.mem_finRange]

/-- A node reported absent has been taken out of every slot. -/
theorem absent_not_named (absent : (clPartitionTableIsNodePresent head node).1 = false) :
    ∀ pt ∈ (clPartitionTableIsNodePresent head node).2.1, ∀ pid, ¬Names node (pt.partitions pid) := by
  have masterless : ¬isMaster head node = true := by
    intro master
    simp [clPartitionTableIsNodePresent,master] at absent
  intro pt member pid
  simp only [clPartitionTableIsNodePresent,masterless] at member
  obtain ⟨old,oldMember,rfl⟩ := List.mem_map.mp member
  have noMaster : (old.partitions pid).master ≠ some node := by
    intro master
    exact masterless ((isMaster_iff head node).mpr ⟨old,oldMember,pid,master⟩)
  by_cases q : (old.partitions pid).prole = some node <;> simp [dropProle,q,Names,noMaster]

/-! ### Runs -/

structure Balanced (s : TableState n) : Prop where
  separate : AllSeparate s.head
  counts : ∀ node, reserved node s.calls = released node s.calls + totalPlaces node s.head

theorem empty_balanced (n : Nat) (generation : Node → UInt32) :
    Balanced (TableState.empty n generation) :=
  ⟨nofun,fun _ => rfl⟩

theorem tableStep_balanced (s : TableState n) (call : TableCall n) (balanced : Balanced s) :
    Balanced (tableStep s call) := by
  cases call with
  | update u =>
    refine ⟨update_separate u.malloc u.node u.ns u.masters u.proles balanced.separate,?_⟩
    intro subject
    have before := balanced.counts subject
    have walked := update_balance subject u.malloc s.head u.node u.ns u.masters u.proles
    simp only [tableStep,Update.apply,reserved_append,released_append] at walked ⊢
    omega
  | isNodePresent node =>
    refine ⟨present_separate node balanced.separate,?_⟩
    intro subject
    have before := balanced.counts subject
    have walked := present_balance subject s.head node
    simp only [tableStep,reserved_append,released_append] at walked ⊢
    omega

/-- After any calls the places of each slot differ, every reservation not yet released
is a slot, and a node found absent is named nowhere. -/
theorem partition_table_invariant (n : Nat) (generation : Node → UInt32)
    (calls : List (TableCall n)) :
    let s := run tableStep (TableState.empty n generation) calls
    (∀ pt ∈ s.head, ∀ pid node, (pt.partitions pid).master = some node →
      (pt.partitions pid).prole ≠ some node) ∧
    (∀ node, reserved node s.calls = released node s.calls + slotsNaming node s.head) ∧
    (∀ node, (clPartitionTableIsNodePresent s.head node).1 = false →
      ∀ pt ∈ (tableStep s (.isNodePresent node)).head, ∀ pid, ¬Names node (pt.partitions pid)) := by
  have balanced := run_invariant tableStep_balanced (empty_balanced n generation) calls
  refine ⟨balanced.separate,fun node => ?_,fun node absent => absent_not_named absent⟩
  rw [balanced.counts,totalPlaces_separate balanced.separate]

end Citrusleaf.Partition
