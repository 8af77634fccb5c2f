import Citrusleaf.PartitionCounts

/-! One tend thread and any number of transactions on a cluster. The tend thread takes
one step for each lock it holds: one slot of the partition table, or one change of the
node list. Transactions take a reference on a node under a lock and give it back later. -/
namespace Citrusleaf.Tend
open Lib Citrusleaf.Partition

def maxIntervalsAbsent : Nat := 1

/-- A slot by its table in the chain and its partition. -/
abbrev Position (n : Nat) := Nat × Fin n

def positions (head : Tables n) : List (Position n) :=
  (List.range head.length).flatMap fun k => (List.finRange n).map fun pid => (k,pid)

def slotAt (head : Tables n) (place : Position n) : ClPartition :=
  (head[place.1]?.map fun pt => pt.partitions place.2).getD {}

def setSlot (head : Tables n) (place : Position n) (p : ClPartition) : Tables n :=
  head.modify place.1 fun pt => {pt with partitions := Function.update pt.partitions place.2 p}

/-- Where the tend thread is in `cluster_tend`; `i` is its index into `node_v`. -/
inductive Tender (n : Nat) where
  | idle
  /-- Registered hosts are resolved and pinged. -/
  | hosts
  /-- The head of the loop over `node_v`. -/
  | visit (i : Nat)
  /-- `cl_partition_table_is_node_present`, first and second loop. -/
  | masters (i : Nat) (cn : Node) (todo : List (Position n))
  | proles (i : Nat) (cn : Node) (todo : List (Position n))
  /-- The node is in no slot. -/
  | absent (i : Nat) (cn : Node)
  /-- The node has left `node_v` and its "C" reference is about to be released. -/
  | removed (i : Nat) (cn : Node)
  /-- `cluster_ping_node`, between table updates. -/
  | ping (i : Nat) (cn : Node)
  /-- `cl_partition_table_update` on table `k`. -/
  | update (i : Nat) (cn : Node) (k : Nat) (masters proles : Fin n → Bool) (todo : List (Fin n))
  /-- Service addresses that are not known nodes are pinged. -/
  | services

structure TendState (n : Nat) where
  nodeV : List Node
  intervalsAbsent : Node → Nat
  lastNode : Nat
  head : Tables n
  /-- The count of each `cf_client_rc` object, zero for an address not in use. -/
  count : Node → Nat
  /-- The nodes whose count the last step brought to zero. -/
  zeroed : List Node
  /-- The references transactions hold. -/
  held : List Node
  tender : Tender n

def TendState.start (n : Nat) : TendState n := ⟨[],fun _ => 0,0,[],fun _ => 0,[],[],.idle⟩

/-- `cf_client_rc_reserve` and `cl_cluster_node_release`. -/
def countCall (counted : (Node → Nat) × List Node) : NodeCall → (Node → Nat) × List Node
  | .reserve node _ => (Function.update counted.1 node (counted.1 node + 1),counted.2)
  | .release node _ =>
    let left := counted.1 node - 1
    (Function.update counted.1 node left,if left = 0 then node :: counted.2 else counted.2)
  | .forceReplicasRefresh _ => counted

/-- Make the calls of one step. -/
def TendState.makeCalls (s : TendState n) (calls : List NodeCall) : TendState n :=
  let counted := calls.foldl countCall (s.count,[])
  {s with count := counted.1,zeroed := counted.2}

/-- What the network brings the tend thread. -/
inductive Input (n : Nat) where
  /-- `cl_cluster_node_create` at this address, and its append to `node_v`. -/
  | addNode (node : Node)
  /-- A replicas reply asks for a table update. -/
  | update (malloc : Bool) (ns : CString) (masters proles : Fin n → Bool)
  | proceed

/-- A new object gets an address that is not in use. -/
def addNode (s : TendState n) (node : Node) : TendState n :=
  if s.count node = 0 then
    {s with
      nodeV := s.nodeV ++ [node]
      intervalsAbsent := Function.update s.intervalsAbsent node 0
      count := Function.update s.count node 1
      zeroed := []}
  else s

/-- The table an update walks: found, or created in front of the chain. -/
def tableFor (malloc : Bool) (head : Tables n) (ns : CString) : Option (Tables n × Nat) :=
  match head.findIdx? fun pt => pt.ns = ns with
  | some k => some (head,k)
  | none => if malloc then some (clPartitionTableCreate head ns,0) else none

/-- One step of the tend thread. -/
def tendStep (s : TendState n) (input : Input n) : TendState n :=
  let s := {s with zeroed := []}
  match s.tender with
  | .idle => {s with tender := .hosts}
  | .hosts =>
    match input with
    | .addNode node => addNode s node
    | _ => {s with tender := .visit 0}
  | .visit i =>
    match s.nodeV[i]? with
    | none => {s with tender := .services}
    | some cn =>
      if s.intervalsAbsent cn = 0 then
        {s with
          intervalsAbsent := Function.update s.intervalsAbsent cn 1
          tender := .ping i cn}
      else {s with tender := .masters i cn (positions s.head)}
  | .masters i cn [] => {s with tender := .proles i cn (positions s.head)}
  | .masters i cn (place :: todo) =>
    if (slotAt s.head place).master = some cn then
      {s with
        intervalsAbsent := Function.update s.intervalsAbsent cn 1
        tender := .ping i cn}
    else {s with tender := .masters i cn todo}
  | .proles i cn [] => {s with tender := .absent i cn}
  | .proles i cn (place :: todo) =>
    let (p,calls) := dropProle cn (slotAt s.head place)
    {s with head := setSlot s.head place p,tender := .proles i cn todo}.makeCalls calls
  | .absent i cn =>
    let intervals := s.intervalsAbsent cn
    let s := {s with intervalsAbsent := Function.update s.intervalsAbsent cn (intervals + 1)}
    if intervals > maxIntervalsAbsent then
      {s with nodeV := s.nodeV.eraseIdx i,tender := .removed i cn}
    else {s with tender := .ping i cn}
  | .removed i cn => {s with tender := .visit i}.makeCalls [.release cn .C]
  | .ping i cn =>
    match input with
    | .update malloc ns masters proles =>
      match tableFor malloc s.head ns with
      | some (head,k) => {s with head,tender := .update i cn k masters proles (List.finRange n)}
      | none => s
    | _ => {s with tender := .visit (i + 1)}
  | .update i cn _ _ _ [] => {s with tender := .ping i cn}
  | .update i cn k masters proles (pid :: todo) =>
    let (p,calls) := updateSlot cn (masters pid) (proles pid) (slotAt s.head (k,pid))
    {s with
      head := setSlot s.head (k,pid) p
      tender := .update i cn k masters proles todo}.makeCalls calls
  | .services =>
    match input with
    | .addNode node => addNode s node
    | _ => {s with tender := .idle}

inductive TendEvent (n : Nat) where
  | tend (input : Input n)
  /-- `cl_partition_table_get` -/
  | tableGet (ns : CString) (pid : Fin n) (write dice : Bool)
  /-- `cl_cluster_node_get_random` -/
  | getRandom
  /-- `cl_cluster_node_put` of a node some transaction holds. -/
  | put (node : Node)

/-- A transaction takes a node with its "T" reference. -/
def take (s : TendState n) (node : Node) : TendState n :=
  {s with held := node :: s.held}.makeCalls [.reserve node .T]

def lifeStep (s : TendState n) : TendEvent n → TendState n
  | .tend input => tendStep s input
  | .tableGet ns pid write dice =>
    match clPartitionTableGet s.head ns pid write dice with
    | none => {s with zeroed := []}
    | some node => take s node
  | .getRandom =>
    let lastNode := if s.lastNode + 1 ≥ s.nodeV.length then 0 else s.lastNode + 1
    match s.nodeV[lastNode]? with
    | none => {s with zeroed := []}
    | some node => take {s with lastNode} node
  | .put node =>
    if node ∈ s.held then {s with held := s.held.erase node}.makeCalls [.release node .T]
    else {s with zeroed := []}

end Citrusleaf.Tend
