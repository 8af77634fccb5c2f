import Mathlib.Data.List.FinRange
import Mathlib.Tactic.SplitIfs
import Citrusleaf.Text

/-! The partition table of cl_partition.c. A table walk returns the new slots together
with the calls it makes on nodes, in order, so that reference counts and forced
refreshes are consequences of the same walk that moves the slots. -/
namespace Citrusleaf.Partition

/-- The address of a `cl_cluster_node`. -/
abbrev Node := Nat

/-- Who holds a reservation: the node list, a slot as master or prole, a transaction. -/
inductive Tag where
  | C | PM | PP | T
  deriving DecidableEq, Repr

inductive NodeCall where
  | reserve (node : Node) (tag : Tag)
  | release (node : Node) (tag : Tag)
  | forceReplicasRefresh (node : Node)
  deriving DecidableEq, Repr

structure ClPartition where
  master : Option Node := none
  prole : Option Node := none
  deriving DecidableEq, Repr

/-- `n` is the `n_partitions` the table was created with. -/
structure ClPartitionTable (n : Nat) where
  ns : CString
  partitions : Fin n → ClPartition

/-- The chain from `partition_table_head`. -/
abbrev Tables (n : Nat) := List (ClPartitionTable n)

def clPartitionTableGetByNs (head : Tables n) (ns : CString) : Option (ClPartitionTable n) :=
  head.find? fun pt => pt.ns = ns

def clPartitionTableCreate (head : Tables n) (ns : CString) : Tables n :=
  ⟨ns,fun _ => {}⟩ :: head

/-- Write the slots of the first table of a namespace. -/
def storeTable (ns : CString) (partitions : Fin n → ClPartition) : Tables n → Tables n
  | [] => []
  | pt :: rest =>
    if pt.ns = ns then {pt with partitions} :: rest else pt :: storeTable ns partitions rest

/-- "Logic is simpler if we remove this node as master and prole first." -/
def removeNode (node : Node) (p : ClPartition) : ClPartition × List NodeCall :=
  (⟨if p.master = some node then none else p.master,
    if p.prole = some node then none else p.prole⟩,
   (if p.master = some node then [.release node .PM] else []) ++
   (if p.prole = some node then [.release node .PP] else []))

/-- The calls on a node that loses its place to another one. -/
def displace (tag : Tag) : Option Node → List NodeCall
  | none => []
  | some old => [.forceReplicasRefresh old,.release old tag]

/-- One iteration of `cl_partition_table_update`, under the lock of the slot. -/
def updateSlot (node : Node) (master prole : Bool) (p : ClPartition) : ClPartition × List NodeCall :=
  let (cleared,calls) := removeNode node p
  if master then
    ({cleared with master := some node},
      calls ++ displace .PM cleared.master ++ [.reserve node .PM])
  else if prole then
    ({cleared with prole := some node},
      calls ++ displace .PP cleared.prole ++ [.reserve node .PP])
  else (cleared,calls)

/-- `cl_partition_table_update`; `malloc` says whether a new table could be allocated. -/
def clPartitionTableUpdate (malloc : Bool) (head : Tables n) (node : Node) (ns : CString)
    (masters proles : Fin n → Bool) : Tables n × List NodeCall :=
  let head :=
    if (clPartitionTableGetByNs head ns).isNone && malloc then clPartitionTableCreate head ns
    else head
  match clPartitionTableGetByNs head ns with
  | none => (head,[])
  | some pt =>
    let slots := fun pid => updateSlot node (masters pid) (proles pid) (pt.partitions pid)
    (storeTable ns (fun pid => (slots pid).1) head,
      (List.finRange n).flatMap fun pid => (slots pid).2)

/-- The first loop of `cl_partition_table_is_node_present`. -/
def isMaster (head : Tables n) (node : Node) : Bool :=
  head.any fun pt => (List.finRange n).any fun pid => (pt.partitions pid).master == some node

/-- One iteration of the second loop, under the lock of the slot. -/
def dropProle (node : Node) (p : ClPartition) : ClPartition × List NodeCall :=
  if p.prole = some node then ({p with prole := none},[.release node .PP]) else (p,[])

def clPartitionTableIsNodePresent (head : Tables n) (node : Node) :
    Bool × Tables n × List NodeCall :=
  if isMaster head node then (true,head,[])
  else (false,head.map fun pt => {pt with partitions := fun pid => (dropProle node (pt.partitions pid)).1},
    head.flatMap fun pt => (List.finRange n).flatMap fun pid => (dropProle node (pt.partitions pid)).2)

/-- `cl_partition_table_get`: the node of a slot that serves a request. `dice` is the
low bit of the randomizer, used when both a master and a prole are known. -/
def clPartitionTableGet (head : Tables n) (ns : CString) (pid : Fin n) (write dice : Bool) :
    Option Node :=
  match clPartitionTableGetByNs head ns with
  | none => none
  | some pt =>
    let p := pt.partitions pid
    if write || p.prole.isNone then p.master
    else if p.master.isNone then p.prole
    else if dice then p.master else p.prole

/-! ### Sequences of calls -/

/-- The arguments of one `cl_partition_table_update`. -/
structure Update (n : Nat) where
  malloc : Bool
  node : Node
  ns : CString
  masters : Fin n → Bool
  proles : Fin n → Bool

def Update.apply (u : Update n) (head : Tables n) : Tables n × List NodeCall :=
  clPartitionTableUpdate u.malloc head u.node u.ns u.masters u.proles

inductive TableCall (n : Nat) where
  | update (u : Update n)
  | isNodePresent (node : Node)

/-- The chain, every call on a node it has made so far, and the `partition_generation`
of each node. -/
structure TableState (n : Nat) where
  head : Tables n
  calls : List NodeCall
  partitionGeneration : Node → UInt32

def TableState.empty (n : Nat) (generation : Node → UInt32) : TableState n := ⟨[],[],generation⟩

/-- `force_replicas_refresh` stores `(uint32_t)-1`. -/
def refreshed (calls : List NodeCall) (generation : Node → UInt32) : Node → UInt32 :=
  fun node => if .forceReplicasRefresh node ∈ calls then 0xFFFFFFFF else generation node

def tableStep (s : TableState n) : TableCall n → TableState n
  | .update u =>
    let result := u.apply s.head
    ⟨result.1,s.calls ++ result.2,refreshed result.2 s.partitionGeneration⟩
  | .isNodePresent node =>
    let result := clPartitionTableIsNodePresent s.head node
    ⟨result.2.1,s.calls ++ result.2.2,refreshed result.2.2 s.partitionGeneration⟩

/-! ### Slots by namespace -/

/-- The slot a lookup of the namespace arrives at, empty without a table. -/
def slot (head : Tables n) (ns : CString) (pid : Fin n) : ClPartition :=
  ((clPartitionTableGetByNs head ns).map fun pt => pt.partitions pid).getD {}

@[simp] theorem getByNs_nil (ns : CString) : clPartitionTableGetByNs (n := n) [] ns = none := rfl

theorem getByNs_cons (pt : ClPartitionTable n) (rest : Tables n) (ns : CString) :
    clPartitionTableGetByNs (pt :: rest) ns =
      if pt.ns = ns then some pt else clPartitionTableGetByNs rest ns := by
  by_cases same : pt.ns = ns <;> simp [clPartitionTableGetByNs,same]

theorem getByNs_mem (found : clPartitionTableGetByNs head ns = some pt) :
    pt ∈ head ∧ pt.ns = ns :=
  ⟨List.mem_of_find?_eq_some found,by simpa using List.find?_some found⟩

theorem getByNs_storeTable (head : Tables n) (ns other : CString) (partitions : Fin n → ClPartition) :
    clPartitionTableGetByNs (storeTable ns partitions head) other =
      if other = ns then (clPartitionTableGetByNs head ns).map fun pt => {pt with partitions}
      else clPartitionTableGetByNs head other := by
  induction head with
  | nil => simp [storeTable]
  | cons pt rest ih =>
    by_cases here : pt.ns = ns
    · by_cases same : other = ns
      · simp [storeTable,getByNs_cons,here,same]
      · simp [storeTable,getByNs_cons,here,same,Ne.symm same]
    · by_cases same : other = ns
      · subst same; simpa [storeTable,getByNs_cons,here] using ih
      · simp [storeTable,getByNs_cons,here,ih,same]

theorem slot_of_some (found : clPartitionTableGetByNs head ns = some pt) :
    slot head ns = pt.partitions := by
  funext pid; simp [slot,found]

theorem slot_of_none (missing : clPartitionTableGetByNs head ns = none) :
    slot head ns = fun _ => {} := by
  funext pid; simp [slot,missing]

/-- A table exists for the namespace, or one can be made. -/
def Ready (malloc : Bool) (head : Tables n) (ns : CString) : Prop :=
  (clPartitionTableGetByNs head ns).isSome ∨ malloc = true

/-- The chain an update walks: with a new empty table in front when none was found. -/
theorem update_eq (malloc : Bool) (head : Tables n) (node : Node) (ns : CString)
    (masters proles : Fin n → Bool) (ready : Ready malloc head ns) :
    ∃ found, clPartitionTableGetByNs found ns = some ⟨ns,slot head ns⟩ ∧
      (∀ other, other ≠ ns →
        clPartitionTableGetByNs found other = clPartitionTableGetByNs head other) ∧
      (found = head ∨ (clPartitionTableGetByNs head ns = none ∧
        found = clPartitionTableCreate head ns)) ∧
      clPartitionTableUpdate malloc head node ns masters proles =
        (storeTable ns
          (fun pid => (updateSlot node (masters pid) (proles pid) (slot head ns pid)).1) found,
        (List.finRange n).flatMap fun pid =>
          (updateSlot node (masters pid) (proles pid) (slot head ns pid)).2) := by
  cases lookup : clPartitionTableGetByNs head ns with
  | some pt =>
    have here := (getByNs_mem lookup).2
    refine ⟨head,?_,fun _ _ => rfl,.inl rfl,?_⟩
    · rw [lookup,slot_of_some lookup,← here]
    · simp [clPartitionTableUpdate,lookup,slot_of_some lookup]
  | none =>
    have alloc : malloc = true := by simpa [Ready,lookup] using ready
    refine ⟨clPartitionTableCreate head ns,?_,?_,.inr ⟨rfl,rfl⟩,?_⟩
    · simp [clPartitionTableCreate,getByNs_cons,slot_of_none lookup]
    · intro other different
      simp [clPartitionTableCreate,getByNs_cons,Ne.symm different]
    · simp [clPartitionTableUpdate,lookup,alloc,clPartitionTableCreate,getByNs_cons,
        slot_of_none lookup]

/-- Without a table nothing moves and no node is touched. -/
theorem update_stuck (malloc : Bool) (head : Tables n) (node : Node) (ns : CString)
    (masters proles : Fin n → Bool) (stuck : ¬Ready malloc head ns) :
    clPartitionTableUpdate malloc head node ns masters proles = (head,[]) := by
  simp only [Ready,not_or,Bool.not_eq_true,Option.isSome_eq_false_iff] at stuck
  simp [clPartitionTableUpdate,stuck.2,Option.isNone_iff_eq_none.mp stuck.1]

/-- An update rewrites the slots of its namespace and no others. -/
theorem slot_update (malloc : Bool) (head : Tables n) (node : Node) (ns : CString)
    (masters proles : Fin n → Bool) (ready : Ready malloc head ns) (other : CString) (pid : Fin n) :
    slot (clPartitionTableUpdate malloc head node ns masters proles).1 other pid =
      if other = ns then (updateSlot node (masters pid) (proles pid) (slot head ns pid)).1
      else slot head other pid := by
  obtain ⟨found,here,others,_,eq⟩ := update_eq malloc head node ns masters proles ready
  rw [eq]
  by_cases same : other = ns
  · simp [slot,getByNs_storeTable,same,here]
  · simp [slot,getByNs_storeTable,same,others other same]

theorem update_calls (malloc : Bool) (head : Tables n) (node : Node) (ns : CString)
    (masters proles : Fin n → Bool) (ready : Ready malloc head ns) :
    (clPartitionTableUpdate malloc head node ns masters proles).2 =
      (List.finRange n).flatMap fun pid =>
        (updateSlot node (masters pid) (proles pid) (slot head ns pid)).2 := by
  obtain ⟨found,_,_,_,eq⟩ := update_eq malloc head node ns masters proles ready
  rw [eq]

theorem getByNs_update (malloc : Bool) (head : Tables n) (node : Node) (ns : CString)
    (masters proles : Fin n → Bool) (ready : Ready malloc head ns) (other : CString) :
    (clPartitionTableGetByNs (clPartitionTableUpdate malloc head node ns masters proles).1
      other).isSome = (decide (other = ns) || (clPartitionTableGetByNs head other).isSome) := by
  obtain ⟨found,here,others,_,eq⟩ := update_eq malloc head node ns masters proles ready
  rw [eq]
  by_cases same : other = ns
  · simp [getByNs_storeTable,same,here]
  · simp [getByNs_storeTable,same,others other same]

theorem removeNode_clears (node : Node) (p : ClPartition) :
    (removeNode node p).1.master ≠ some node ∧ (removeNode node p).1.prole ≠ some node := by
  constructor <;> simp only [removeNode] <;> split <;> simp_all

theorem slot_dropProle (head : Tables n) (node : Node) (ns : CString) (pid : Fin n) :
    slot (head.map fun pt => {pt with partitions := fun pid => (dropProle node (pt.partitions pid)).1})
      ns pid = (dropProle node (slot head ns pid)).1 := by
  induction head with
  | nil => simp [slot,dropProle]
  | cons pt rest ih =>
    simp only [slot,List.map_cons,getByNs_cons] at ih ⊢
    split
    · rfl
    · exact ih

/-- A presence check frees the prole slots of a node that is master nowhere. -/
theorem slot_isNodePresent (head : Tables n) (node : Node) (ns : CString) (pid : Fin n) :
    slot (clPartitionTableIsNodePresent head node).2.1 ns pid =
      if isMaster head node then slot head ns pid else (dropProle node (slot head ns pid)).1 := by
  unfold clPartitionTableIsNodePresent
  split
  · rfl
  · exact slot_dropProle ..

/-- A presence check forces no node. -/
theorem isNodePresent_generation (s : TableState n) (node : Node) :
    (tableStep s (.isNodePresent node)).partitionGeneration = s.partitionGeneration := by
  have quiet (other : Node) :
      .forceReplicasRefresh other ∉ (clPartitionTableIsNodePresent s.head node).2.2 := by
    unfold clPartitionTableIsNodePresent
    split
    · simp
    · simp only [List.mem_flatMap,not_exists,not_and]
      intro pt _ pid _
      unfold dropProle
      split <;> simp
  funext other
  simp [tableStep,refreshed,quiet]

end Citrusleaf.Partition
