import Mathlib.Tactic.Cases
import Citrusleaf.ClRequest
import Citrusleaf.Object
import Citrusleaf.Replicas

/-! The partition table under a partition count that is not known from the start. A table
keeps the number of slots it was allocated with; every walk and every lookup uses the
count the cluster has then. The results say in which runs no index leaves its table. -/
namespace Citrusleaf.PartitionBounds
open Lib Citrusleaf.Partition Citrusleaf.Replicas

/-- A table of the chain and the number of its slots. -/
structure AllocatedTable where
  slots : Nat
  pt : ClPartitionTable slots

/-- One use of `pt->partitions[pid]`. -/
structure Access where
  pid : Nat
  slots : Nat
  deriving DecidableEq

def AllocatedTable.access (t : AllocatedTable) (pid : Nat) : Access := ⟨pid,t.slots⟩

/-- What stands in a slot; the memory after the last one is not the table's. -/
def AllocatedTable.slot (t : AllocatedTable) (pid : Nat) : ClPartition :=
  if inside : pid < t.slots then t.pt.partitions ⟨pid,inside⟩ else {}

/-- Write the slots below a count. -/
def AllocatedTable.store (partitions : Fin n → ClPartition) (t : AllocatedTable) : AllocatedTable :=
  {t with pt := {t.pt with partitions := fun pid =>
    if inside : pid.val < n then partitions ⟨pid,inside⟩ else t.pt.partitions pid}}

/-- The part of a `cl_cluster` and its nodes that the partition map uses, every call made
on a node and every slot used so far. -/
structure MapState where
  nPartitions : UInt16
  head : List AllocatedTable
  calls : List NodeCall
  partitionGeneration : Node → UInt32
  accesses : List Access

def MapState.n (s : MapState) : Nat := s.nPartitions.toNat

/-- `cl_cluster_create` leaves the count zero. -/
def MapState.start (generation : Node → UInt32) : MapState := ⟨0,[],[],generation,[]⟩

/-- `cl_partition_getid`, on a host that stores the low byte first. -/
def clPartitionGetid (nPartitions : UInt32) (d : CfDigest) : UInt16 :=
  ((d[0].toUInt32 ||| d[1].toUInt32 <<< 8) &&& (nPartitions - 1)).toUInt16

/-- `cl_get_n_partitions`; `shared` is the count in shared memory, where it is used, and
`reply` that of the server, unless the request failed. -/
def clGetNPartitions (shared : Option Int) (reply : Option CString) : Option Int :=
  match shared with
  | some count => if 0 < count then some count else reply.map clRequestNPartitions
  | none => reply.map clRequestNPartitions

/-- `cluster_get_n_partitions`, with a reply for each address. -/
def clusterGetNPartitions (nPartitions : UInt16) (shared : Option Int)
    (replies : List (Option CString)) : UInt16 :=
  if nPartitions ≠ 0 then nPartitions
  else match replies.findSome? (clGetNPartitions shared) with
    | some count => UInt16.ofInt count
    | none => nPartitions

def clPartitionTableGetByNs (head : List AllocatedTable) (ns : CString) : Option AllocatedTable :=
  head.find? fun t => t.pt.ns = ns

def clPartitionTableCreate (n : Nat) (head : List AllocatedTable) (ns : CString) :
    List AllocatedTable :=
  ⟨n,⟨ns,fun _ => {}⟩⟩ :: head

/-- Write the slots of the first table of a namespace. -/
def storeTable (ns : CString) (partitions : Fin n → ClPartition) :
    List AllocatedTable → List AllocatedTable
  | [] => []
  | t :: rest => if t.pt.ns = ns then t.store partitions :: rest else t :: storeTable ns partitions rest

/-- `cl_partition_table_update`, with the slots it uses. -/
def clPartitionTableUpdate (head : List AllocatedTable) (u : Update n) :
    List AllocatedTable × List NodeCall × List Access :=
  let head :=
    if (clPartitionTableGetByNs head u.ns).isNone && u.malloc then clPartitionTableCreate n head u.ns
    else head
  match clPartitionTableGetByNs head u.ns with
  | none => (head,[],[])
  | some t =>
    let slots := fun pid : Fin n => updateSlot u.node (u.masters pid) (u.proles pid) (t.slot pid.val)
    (storeTable u.ns (fun pid => (slots pid).1) head,
      (List.finRange n).flatMap fun pid => (slots pid).2,
      (List.finRange n).map fun pid : Fin n => t.access pid.val)

/-- The first loop of `cl_partition_table_is_node_present`, which returns at the first slot
that has the node as its master. -/
def masterLoop (n : Nat) (node : Node) : List AllocatedTable → Bool × List Access
  | [] => (false,[])
  | t :: rest =>
    match (List.range n).find? fun pid => (t.slot pid).master = some node with
    | some pid => (true,(List.range (pid + 1)).map t.access)
    | none =>
      let (present,accesses) := masterLoop n node rest
      (present,(List.range n).map t.access ++ accesses)

/-- `cl_partition_table_is_node_present`, with the slots it uses. -/
def clPartitionTableIsNodePresent (n : Nat) (head : List AllocatedTable) (node : Node) :
    Bool × List AllocatedTable × List NodeCall × List Access :=
  let (present,accesses) := masterLoop n node head
  if present then (true,head,[],accesses)
  else (false,
    head.map fun t => t.store fun pid : Fin n => (dropProle node (t.slot pid)).1,
    head.flatMap fun t => (List.range n).flatMap fun pid => (dropProle node (t.slot pid)).2,
    accesses ++ head.flatMap fun t => (List.range n).map t.access)

/-- `cl_partition_table_get`, with the slot it uses. -/
def clPartitionTableGet (head : List AllocatedTable) (ns : CString) (pid : UInt16)
    (write dice : Bool) : Option Node × List Access :=
  match clPartitionTableGetByNs head ns with
  | none => (none,[])
  | some t =>
    let p := t.slot pid.toNat
    (if write || p.prole.isNone then p.master
      else if p.master.isNone then p.prole
      else if dice then p.master else p.prole,
      [t.access pid.toNat])

/-- The table lookup of `cl_cluster_node_get`. -/
def clClusterNodeGet (s : MapState) (ns : CString) (d : CfDigest) (write dice : Bool) :
    Option Node × List Access :=
  clPartitionTableGet s.head ns (clPartitionGetid s.nPartitions.toUInt32 d) write dice

/-- One call of the last loop of `cl_cluster_node_parse_replicas`. -/
def applyUpdate (s : MapState) (u : Update n) : MapState :=
  let (head,calls,accesses) := clPartitionTableUpdate s.head u
  {s with
    head
    calls := s.calls ++ calls
    partitionGeneration := refreshed calls s.partitionGeneration
    accesses := s.accesses ++ accesses}

def clClusterNodeParseReplicas (s : MapState) (cn : Node) (rbuf : CString) : MapState :=
  let parsed : Replicas.Parsed s.n := parsePairs (s.partitionGeneration cn) rbuf
  let s := {s with
    partitionGeneration := Function.update s.partitionGeneration cn parsed.partitionGeneration}
  run applyUpdate s (parsed.updates cn)

/-- What `cluster_tend` does with the map: one request for the count, then for each node
the presence check, left out in its first pass, and the reply of a ping that fetched the
replicas. -/
inductive MapCall where
  | getNPartitions (shared : Option Int) (replies : List (Option CString))
  | isNodePresent (node : Node)
  | parseReplicas (cn : Node) (rbuf : CString)

def mapStep (s : MapState) : MapCall → MapState
  | .getNPartitions shared replies =>
    {s with nPartitions := clusterGetNPartitions s.nPartitions shared replies}
  | .isNodePresent node =>
    let (_,head,calls,accesses) := clPartitionTableIsNodePresent s.n s.head node
    {s with head, calls := s.calls ++ calls, accesses := s.accesses ++ accesses}
  | .parseReplicas cn rbuf => clClusterNodeParseReplicas s cn rbuf

/-! ### The map of a known count -/

/-- A table of the count that the cluster has now. -/
def allocated (pt : ClPartitionTable n) : AllocatedTable := ⟨n,pt⟩

/-- The chain, the calls and the generations are those of the model with a fixed count. -/
structure Follows (s : MapState) (t : TableState n) : Prop where
  head : s.head = t.head.map allocated
  calls : s.calls = t.calls
  generation : s.partitionGeneration = t.partitionGeneration

theorem getByNs_allocated (head : Tables n) (ns : CString) :
    clPartitionTableGetByNs (head.map allocated) ns =
      (Partition.clPartitionTableGetByNs head ns).map allocated := by
  unfold clPartitionTableGetByNs Partition.clPartitionTableGetByNs
  rw [List.find?_map]
  rfl

@[simp] theorem slot_allocated (pt : ClPartitionTable n) (pid : Fin n) :
    (allocated pt).slot pid.val = pt.partitions pid := by
  simp [AllocatedTable.slot,allocated]

theorem store_allocated (partitions : Fin n → ClPartition) (pt : ClPartitionTable n) :
    (allocated pt).store partitions = allocated {pt with partitions} := by
  simp [AllocatedTable.store,allocated]

theorem storeTable_allocated (ns : CString) (partitions : Fin n → ClPartition) (head : Tables n) :
    storeTable ns partitions (head.map allocated) =
      (Partition.storeTable ns partitions head).map allocated := by
  induction head with
  | nil => rfl
  | cons pt rest ih =>
    have first : (allocated pt).pt.ns = pt.ns := rfl
    simp only [List.map_cons,storeTable,Partition.storeTable,first,store_allocated,ih]
    split <;> rfl

theorem update_allocated (head : Tables n) (u : Update n) :
    (clPartitionTableUpdate (head.map allocated) u).1 = (u.apply head).1.map allocated ∧
    (clPartitionTableUpdate (head.map allocated) u).2.1 = (u.apply head).2 := by
  have created : (if (clPartitionTableGetByNs (head.map allocated) u.ns).isNone && u.malloc then
        clPartitionTableCreate n (head.map allocated) u.ns else head.map allocated) =
      (if (Partition.clPartitionTableGetByNs head u.ns).isNone && u.malloc then
        Partition.clPartitionTableCreate head u.ns else head).map allocated := by
    rw [getByNs_allocated,Option.isNone_map]
    split <;> rfl
  unfold clPartitionTableUpdate Update.apply Partition.clPartitionTableUpdate
  rw [created]
  generalize (if (Partition.clPartitionTableGetByNs head u.ns).isNone && u.malloc then
    Partition.clPartitionTableCreate head u.ns else head) = found
  simp only [getByNs_allocated]
  cases Partition.clPartitionTableGetByNs found u.ns with
  | none => exact ⟨rfl,rfl⟩
  | some pt => simp [storeTable_allocated]

theorem masterLoop_any (n : Nat) (node : Node) (head : List AllocatedTable) :
    (masterLoop n node head).1 =
      head.any fun t => (List.range n).any fun pid => (t.slot pid).master == some node := by
  induction head with
  | nil => rfl
  | cons t rest ih =>
    unfold masterLoop
    cases found : (List.range n).find? fun pid => (t.slot pid).master = some node with
    | some pid =>
      have here : (List.range n).any (fun pid => (t.slot pid).master == some node) = true :=
        List.any_eq_true.mpr ⟨pid,List.mem_of_find?_eq_some found,by simpa using List.find?_some found⟩
      simp [here]
    | none =>
      have nowhere : (List.range n).any (fun pid => (t.slot pid).master == some node) = false := by
        simpa using found
      simp [nowhere,ih]

theorem isMaster_allocated (head : Tables n) (node : Node) :
    (masterLoop n node (head.map allocated)).1 = isMaster head node := by
  rw [masterLoop_any,List.any_map]
  simp [isMaster,Function.comp_def,← List.map_coe_finRange_eq_range,List.any_map]

theorem isNodePresent_allocated (head : Tables n) (node : Node) :
    let result := clPartitionTableIsNodePresent n (head.map allocated) node
    let fixed := Partition.clPartitionTableIsNodePresent head node
    result.1 = fixed.1 ∧ result.2.1 = fixed.2.1.map allocated ∧ result.2.2.1 = fixed.2.2 := by
  have master := isMaster_allocated head node
  unfold clPartitionTableIsNodePresent Partition.clPartitionTableIsNodePresent
  generalize masterLoop n node (head.map allocated) = walked at master ⊢
  obtain ⟨present,accesses⟩ := walked
  subst master
  cases isMaster head node with
  | true => simp
  | false =>
    simp [store_allocated,← List.map_coe_finRange_eq_range,List.flatMap_map,Function.comp_def]

theorem Follows.update {t : TableState n} (follows : Follows s t) (u : Update n) :
    Follows (applyUpdate s u) (tableStep t (.update u)) := by
  obtain ⟨head,calls⟩ := update_allocated t.head u
  rw [← follows.head] at head calls
  exact ⟨head,by simp [applyUpdate,tableStep,calls,follows.calls],
    by simp [applyUpdate,tableStep,calls,follows.generation]⟩

theorem Follows.updates {t : TableState n} (follows : Follows s t) (updates : List (Update n)) :
    Follows (run applyUpdate s updates) (run tableStep t (updates.map .update)) := by
  induction updates generalizing s t with
  | nil => exact follows
  | cons u updates ih => exact ih (follows.update u)

theorem Follows.isNodePresent {t : TableState s.n} (follows : Follows s t) (node : Node) :
    Follows (mapStep s (.isNodePresent node)) (tableStep t (.isNodePresent node)) := by
  obtain ⟨_,head,calls⟩ := isNodePresent_allocated t.head node
  have same := isNodePresent_generation t node
  rw [← follows.head] at head calls
  exact ⟨head,by simp [mapStep,tableStep,calls,follows.calls],same ▸ follows.generation⟩

theorem Follows.parseReplicas {t : TableState s.n} (follows : Follows s t) (cn : Node)
    (rbuf : CString) :
    Follows (clClusterNodeParseReplicas s cn rbuf) (Replicas.clClusterNodeParseReplicas t cn rbuf) := by
  unfold clClusterNodeParseReplicas Replicas.clClusterNodeParseReplicas
  rw [follows.generation]
  refine Follows.updates ?_ _
  exact ⟨follows.head,follows.calls,rfl⟩

/-! ### Indices inside their tables -/

def Access.Inside (a : Access) : Prop := a.pid < a.slots

/-- Every slot used so far lay in its table, and so does the slot of any lookup. -/
def Inside (s : MapState) : Prop :=
  (∀ a ∈ s.accesses, a.Inside) ∧
  ∀ ns d write dice, ∀ a ∈ (clClusterNodeGet s ns d write dice).2, a.Inside

/-- No replicas are taken in while the count is unknown. -/
def Counted (s : MapState) : MapCall → Prop
  | .getNPartitions .. => True
  | .isNodePresent _ => True
  | .parseReplicas _ rbuf => s.nPartitions = 0 → accepted 0 (listed (text "replicas-master") rbuf) = []

/-- Every table of the chain has `n` slots. -/
def Sized (n : Nat) (head : List AllocatedTable) : Prop := ∀ t ∈ head, t.slots = n

theorem getid_lt (nPartitions : UInt16) (known : nPartitions ≠ 0) (d : CfDigest) :
    (clPartitionGetid nPartitions.toUInt32 d).toNat < nPartitions.toNat := by
  have positive : 0 < nPartitions.toNat := by
    have nonzero : nPartitions.toNat ≠ 0 := fun zero => known (UInt16.toNat_inj.mp zero)
    omega
  have mask : (nPartitions.toUInt32 - 1).toNat = nPartitions.toNat - 1 := by
    have one : (1 : UInt32) ≤ nPartitions.toUInt32 := by
      rw [UInt32.le_iff_toNat_le]
      simpa [Nat.one_le_iff_ne_zero] using positive.ne'
    rw [UInt32.toNat_sub_of_le _ _ one]
    simp
  have low : (clPartitionGetid nPartitions.toUInt32 d).toNat ≤ nPartitions.toNat - 1 := by
    unfold clPartitionGetid
    rw [UInt32.toNat_toUInt16,UInt32.toNat_and,mask]
    exact (Nat.mod_le _ _).trans Nat.and_le_right
  omega

theorem Sized.storeTable (sized : Sized n head) (ns : CString) (partitions : Fin m → ClPartition) :
    Sized n (storeTable ns partitions head) := by
  induction head with
  | nil => exact sized
  | cons t rest ih =>
    have first := sized t (.head _)
    have others : Sized n rest := fun other member => sized other (.tail _ member)
    unfold PartitionBounds.storeTable
    split
    · intro other member
      rcases List.mem_cons.mp member with rfl | later
      · exact first
      · exact others other later
    · intro other member
      rcases List.mem_cons.mp member with rfl | later
      · exact first
      · exact ih others other later

theorem Sized.walk (sized : Sized n head) (member : t ∈ head) (bound : pid < n) :
    (t.access pid).Inside := by
  change pid < t.slots
  rwa [sized t member]

/-- An update of a chain sized for the present count stays inside and keeps it so. -/
theorem Sized.update (sized : Sized n head) (u : Update n) :
    Sized n (clPartitionTableUpdate head u).1 ∧
    ∀ a ∈ (clPartitionTableUpdate head u).2.2, a.Inside := by
  have created : Sized n (if (clPartitionTableGetByNs head u.ns).isNone && u.malloc then
      clPartitionTableCreate n head u.ns else head) := by
    split
    · intro t member
      rcases List.mem_cons.mp member with rfl | old
      · rfl
      · exact sized t old
    · exact sized
  unfold clPartitionTableUpdate
  generalize (if (clPartitionTableGetByNs head u.ns).isNone && u.malloc then
      clPartitionTableCreate n head u.ns else head) = found at created ⊢
  cases lookup : clPartitionTableGetByNs found u.ns with
  | none =>
    simp only [lookup]
    exact ⟨created,by simp⟩
  | some t =>
    simp only [lookup]
    refine ⟨created.storeTable _ _,?_⟩
    intro a member
    obtain ⟨pid,_,rfl⟩ := List.mem_map.mp member
    exact created.walk (List.mem_of_find?_eq_some lookup) pid.isLt

theorem storeTable_nil_iff (ns : CString) (partitions : Fin n → ClPartition)
    (head : List AllocatedTable) : storeTable ns partitions head = [] ↔ head = [] := by
  cases head with
  | nil => simp [storeTable]
  | cons t rest =>
    unfold storeTable
    split <;> simp

theorem update_nonempty (u : Update n) (alloc : u.malloc = true) (head : List AllocatedTable) :
    (clPartitionTableUpdate head u).1 ≠ [] := by
  unfold clPartitionTableUpdate
  cases lookup : clPartitionTableGetByNs head u.ns with
  | none => simp [alloc,clPartitionTableCreate,clPartitionTableGetByNs,storeTable_nil_iff]
  | some t =>
    have occupied : head ≠ [] := List.ne_nil_of_mem (List.mem_of_find?_eq_some lookup)
    simp [lookup,storeTable_nil_iff,occupied]

theorem Sized.masterLoop (sized : Sized n head) (node : Node) :
    ∀ a ∈ (masterLoop n node head).2, a.Inside := by
  induction head with
  | nil => simp [PartitionBounds.masterLoop]
  | cons t rest ih =>
    have others : Sized n rest := fun other member => sized other (.tail _ member)
    unfold PartitionBounds.masterLoop
    cases first : (List.range n).find? fun pid => (t.slot pid).master = some node with
    | some pid =>
      have bound : pid < n := List.mem_range.mp (List.mem_of_find?_eq_some first)
      intro a member
      obtain ⟨earlier,before,rfl⟩ := List.mem_map.mp member
      have reached := List.mem_range.mp before
      exact sized.walk (.head _) (by omega)
    | none =>
      intro a member
      rcases List.mem_append.mp member with here | later
      · obtain ⟨pid,before,rfl⟩ := List.mem_map.mp here
        exact sized.walk (.head _) (List.mem_range.mp before)
      · exact ih others a later

theorem Sized.isNodePresent (sized : Sized n head) (node : Node) :
    Sized n (clPartitionTableIsNodePresent n head node).2.1 ∧
    ∀ a ∈ (clPartitionTableIsNodePresent n head node).2.2.2, a.Inside := by
  have walked := sized.masterLoop node
  unfold clPartitionTableIsNodePresent
  generalize PartitionBounds.masterLoop n node head = result at walked ⊢
  obtain ⟨present,accesses⟩ := result
  cases present with
  | true => exact ⟨sized,walked⟩
  | false =>
    constructor
    · intro t member
      obtain ⟨old,before,rfl⟩ := List.mem_map.mp member
      exact sized old before
    · intro a member
      rcases List.mem_append.mp member with first | second
      · exact walked a first
      · obtain ⟨t,inside,used⟩ := List.mem_flatMap.mp second
        obtain ⟨pid,before,rfl⟩ := List.mem_map.mp used
        exact sized.walk inside (List.mem_range.mp before)

theorem isNodePresent_nil (n : Nat) (node : Node) :
    (clPartitionTableIsNodePresent n [] node).2.1 = [] := rfl

/-! ### Runs -/

/-- The tables have as many slots as the cluster has partitions, and while it has none
there is no table. -/
structure Inv (s : MapState) : Prop where
  sized : Sized s.n s.head
  unknown : s.nPartitions = 0 → s.head = []
  inside : ∀ a ∈ s.accesses, a.Inside

theorem Inv.holds (inv : Inv s) : Inside s := by
  refine ⟨inv.inside,?_⟩
  intro ns d write dice a member
  unfold clClusterNodeGet clPartitionTableGet at member
  cases lookup : clPartitionTableGetByNs s.head ns with
  | none => simp [lookup] at member
  | some t =>
    have known : s.nPartitions ≠ 0 := by
      intro zero
      have found := List.mem_of_find?_eq_some lookup
      rw [inv.unknown zero] at found
      exact List.not_mem_nil found
    simp only [lookup,List.mem_singleton] at member
    subst member
    exact inv.sized.walk (List.mem_of_find?_eq_some lookup) (getid_lt _ known d)

/-- What the fixed count proves about its chains holds of this one. -/
theorem Inv.follows (inv : Inv s) : ∃ t : TableState s.n, Follows s t := by
  have chain (head : List AllocatedTable) (sized : Sized s.n head) :
      ∃ fixed : Tables s.n, head = fixed.map allocated := by
    induction head with
    | nil => exact ⟨[],rfl⟩
    | cons t rest ih =>
      obtain ⟨fixed,rfl⟩ := ih fun other member => sized other (.tail _ member)
      obtain ⟨slots,pt⟩ := t
      obtain rfl : slots = s.n := sized _ (.head _)
      exact ⟨pt :: fixed,rfl⟩
  obtain ⟨fixed,head⟩ := chain s.head inv.sized
  exact ⟨⟨fixed,s.calls,s.partitionGeneration⟩,head,rfl,rfl⟩

/-- The updates of one reply. -/
theorem applyUpdates (updates : List (Update n)) (s : MapState) (sized : Sized n s.head)
    (inside : ∀ a ∈ s.accesses, a.Inside) :
    Sized n (run applyUpdate s updates).head ∧
    (∀ a ∈ (run applyUpdate s updates).accesses, a.Inside) ∧
    (run applyUpdate s updates).nPartitions = s.nPartitions := by
  induction updates generalizing s with
  | nil => exact ⟨sized,inside,rfl⟩
  | cons u updates ih =>
    obtain ⟨kept,used⟩ := sized.update u
    rw [run_cons]
    refine ih (applyUpdate s u) kept ?_
    intro a member
    rcases List.mem_append.mp member with old | new
    · exact inside a old
    · exact used a new

theorem applyUpdates_nonempty (updates : List (Update n)) (s : MapState)
    (alloc : ∀ u ∈ updates, u.malloc = true) (some : updates ≠ [] ∨ s.head ≠ []) :
    (run applyUpdate s updates).head ≠ [] := by
  induction updates generalizing s with
  | nil => exact some.resolve_left (fun none => none rfl)
  | cons u updates ih =>
    rw [run_cons]
    exact ih (applyUpdate s u) (fun later member => alloc later (.tail _ member))
      (.inr (update_nonempty u (alloc u (.head _)) s.head))

/-- The segments a reply is accepted for are the ones it makes updates of. -/
theorem updates_nil_iff (generation : UInt32) (cn : Node) (rbuf : CString) :
    ((parsePairs generation rbuf : Replicas.Parsed n).updates cn = []) ↔
      accepted n (listed (text "replicas-master") rbuf) = [] := by
  obtain ⟨_,_,members,_⟩ := parsePairs_spec (n := n) generation rbuf
  generalize (parsePairs generation rbuf : Replicas.Parsed n) = parsed at members ⊢
  have maps : parsed.updates cn = [] ↔ names parsed.masterMaps = [] := by
    simp [Replicas.Parsed.updates,names]
  rw [maps,List.eq_nil_iff_forall_not_mem,List.eq_nil_iff_forall_not_mem]
  constructor
  · intro absent segment member
    exact absent (trim segment.1) ((members _).mpr ⟨segment,member,rfl⟩)
  · intro absent ns member
    obtain ⟨segment,accepted,_⟩ := (members ns).mp member
    exact absent segment accepted

/-- Before its updates a reply touches nothing but the generation of its node. -/
theorem parseReplicas_eq (s : MapState) (cn : Node) (rbuf : CString) :
    ∃ first : MapState, first.head = s.head ∧ first.accesses = s.accesses ∧
      first.nPartitions = s.nPartitions ∧
      clClusterNodeParseReplicas s cn rbuf = run applyUpdate first
        ((parsePairs (n := s.n) (s.partitionGeneration cn) rbuf).updates cn) :=
  ⟨{s with
    partitionGeneration := Function.update s.partitionGeneration cn
      (parsePairs (n := s.n) (s.partitionGeneration cn) rbuf).partitionGeneration},rfl,rfl,rfl,rfl⟩

theorem Inv.parseReplicas (inv : Inv s) (cn : Node) (rbuf : CString)
    (counted : Counted s (.parseReplicas cn rbuf)) : Inv (clClusterNodeParseReplicas s cn rbuf) := by
  obtain ⟨first,head,accesses,count,eq⟩ := parseReplicas_eq s cn rbuf
  obtain ⟨sized,inside,still⟩ := applyUpdates
    ((parsePairs (n := s.n) (s.partitionGeneration cn) rbuf).updates cn) first
    (head ▸ inv.sized) (accesses ▸ inv.inside)
  rw [count] at still
  rw [eq]
  refine ⟨?_,?_,inside⟩
  · have wide : (run applyUpdate first
        ((parsePairs (n := s.n) (s.partitionGeneration cn) rbuf).updates cn)).n = s.n :=
      congrArg UInt16.toNat still
    rwa [wide]
  · intro zero
    rw [still] at zero
    have none : (parsePairs (n := s.n) (s.partitionGeneration cn) rbuf).updates cn = [] := by
      rw [updates_nil_iff]
      simpa [MapState.n,zero] using counted zero
    rw [none,run_nil,head]
    exact inv.unknown zero

theorem Inv.step (inv : Inv s) (call : MapCall) (counted : Counted s call) : Inv (mapStep s call) := by
  cases call with
  | getNPartitions shared replies =>
    by_cases known : s.nPartitions = 0
    · have empty := inv.unknown known
      refine ⟨?_,fun _ => empty,inv.inside⟩
      change Sized _ s.head
      rw [empty]
      exact fun t member => nomatch member
    · have same : clusterGetNPartitions s.nPartitions shared replies = s.nPartitions := by
        simp [clusterGetNPartitions,known]
      simpa [mapStep,same] using inv
  | isNodePresent node =>
    obtain ⟨sized,used⟩ := inv.sized.isNodePresent node
    refine ⟨sized,?_,?_⟩
    · intro zero
      have empty := inv.unknown zero
      change (clPartitionTableIsNodePresent s.n s.head node).2.1 = []
      rw [empty]
      exact isNodePresent_nil s.n node
    · intro a member
      rcases List.mem_append.mp member with old | new
      · exact inv.inside a old
      · exact used a new
  | parseReplicas cn rbuf => exact inv.parseReplicas cn rbuf counted

/-- A table made for a count of zero is left by the first lookup in it. -/
theorem Inside.counted (inv : Inv s) (call : MapCall) (inside : Inside (mapStep s call)) :
    Counted s call := by
  cases call with
  | getNPartitions shared replies => trivial
  | isNodePresent node => trivial
  | parseReplicas cn rbuf =>
    intro zero
    have count : s.n = 0 := by simp [MapState.n,zero]
    rw [← count,← updates_nil_iff (s.partitionGeneration cn) cn]
    by_contra some
    obtain ⟨first,head,accesses,_,eq⟩ := parseReplicas_eq s cn rbuf
    rw [mapStep,eq] at inside
    obtain ⟨sized,_,_⟩ := applyUpdates
      ((parsePairs (n := s.n) (s.partitionGeneration cn) rbuf).updates cn) first
      (head ▸ inv.sized) (accesses ▸ inv.inside)
    have occupied := applyUpdates_nonempty
      ((parsePairs (n := s.n) (s.partitionGeneration cn) rbuf).updates cn) first
      (by simp [Replicas.Parsed.updates]) (.inl some)
    obtain ⟨t,rest,chain⟩ := List.exists_cons_of_ne_nil occupied
    have slots : t.slots = 0 := (sized t (chain ▸ .head _)).trans count
    have outside := inside.2 t.pt.ns (Vector.replicate 20 0) true true
    simp [clClusterNodeGet,clPartitionTableGet,clPartitionTableGetByNs,chain,Access.Inside,
      AllocatedTable.access,slots] at outside

theorem start_inv (generation : Node → UInt32) : Inv (MapState.start generation) :=
  ⟨(fun _ member => nomatch member),fun _ => rfl,(fun _ member => nomatch member)⟩

/-- No index leaves its table exactly in the runs that take in no replicas while the
count is unknown. -/
theorem lookups_inside (generation : Node → UInt32) (calls : List MapCall) :
    Always mapStep Inside (MapState.start generation) calls ↔
      Guarded mapStep Counted (MapState.start generation) calls := by
  have kept (s : MapState) (call : MapCall) (inv : Inv s) (counted : Counted s call) :
      Inv (mapStep s call) := inv.step call counted
  have needed (s : MapState) (call : MapCall) (inv : Inv s)
      (inside : Inside (mapStep s call)) : Counted s call := Inside.counted inv call inside
  exact always_iff_guarded_free (fun _ inv => inv.holds) kept needed (start_inv generation) calls

/-- A namespace with an empty bitmap gets a table without slots; once the count is there,
every lookup in it is outside. -/
theorem lookup_outside :
    let calls : List MapCall :=
      [.getNPartitions none [none],.parseReplicas 0 (text "replicas-master\ttest:;\n"),
        .getNPartitions none [some (text "partitions\t4096\n")]]
    let s := run mapStep (MapState.start fun _ => 0xFFFFFFFF) calls
    s.nPartitions = 4096 ∧
    (clClusterNodeGet s (text "test") (Vector.replicate 20 0xFF) true true).2 = [⟨4095,0⟩] ∧
    ¬Always mapStep Inside (MapState.start fun _ => 0xFFFFFFFF) calls := by
  intro calls s
  have lookup : (clClusterNodeGet s (text "test") (Vector.replicate 20 0xFF) true true).2 =
      [⟨4095,0⟩] := by decide
  refine ⟨by decide,lookup,?_⟩
  intro always
  have inside := (always_iff _ _ _ _).mp always calls [] (by simp)
  have bound := inside.2 (text "test") (Vector.replicate 20 0xFF) true true ⟨4095,0⟩
    (lookup ▸ List.mem_singleton_self _)
  exact Nat.not_lt_zero _ bound

end Citrusleaf.PartitionBounds
