import Mathlib.Data.Set.Function
import Mathlib.Order.Interval.Set.Defs
import Citrusleaf.ClRequest
import Citrusleaf.Lib.Runs

/-! The node table in the shared memory of cl_shm.c and the pings of its updater. One
process at a time is the updater; where a null reply ends it, the next one goes on with
the table as it stands. -/
namespace Citrusleaf.Shm
open Lib

/-- The bytes of a `struct sockaddr_in`. -/
abbrev SockaddrIn := Vector UInt8 16

def szFieldNeighbors : Nat := 127 * 32 + 1

def szReplicasText : Nat := 3 * 32 + 20 + 10 * 2 * (64 + 684 + 1)

/-- `cl_shm_ninfo`, with the first `address_count` addresses and without the lock. -/
structure ClShmNinfo where
  addressArray : List SockaddrIn
  partitionGeneration : UInt32
  nodeName : CString
  services : CString
  replicas : CString

/-- `cl_shm`: the first `node_count` entries of `node_info` are in use. -/
structure ClShm where
  nodeCount : Nat
  partitionCount : Int
  nodeInfo : Nat → ClShmNinfo

/-- `citrusleaf_use_shm` zeroes the segment that it creates. -/
def ClShm.start : ClShm := ⟨0,0,fun _ => ⟨[],0,[],[],[]⟩⟩

/-- `cl_seed_node` -/
structure ClSeedNode where
  name : CString
  addressArray : List SockaddrIn

/-- What `citrusleaf_info_host_limit` hands back: an empty body is the null pointer. -/
inductive Reply where
  | failed
  | null
  | values (text : CString)

/-- One of the functions `cl_shm_request_...`: `parse` reads through the null pointer. -/
inductive Answer (α : Type) where
  | error
  | crash
  | ok (answer : α)

/-- "Return on first successful request." There is a reply for each address. -/
def clShmRequest (parse : CString → α) : List Reply → Answer α
  | [] => .error
  | .failed :: rest => clShmRequest parse rest
  | .null :: _ => .crash
  | .values text :: _ => .ok (parse text)

/-- A seed, the replies to the three requests, and whether the lock of a new entry could
be initialised. -/
structure Ping where
  seed : ClSeedNode
  nPartitions : List Reply
  nodeInfo : List Reply
  replicas : List Reply
  lockInit : Bool

def ClShm.names (s : ClShm) (i : Nat) : CString := (s.nodeInfo i).nodeName

def ClShm.setNode (s : ClShm) (i : Nat) (shared : ClShmNinfo) : ClShm :=
  {s with nodeInfo := Function.update s.nodeInfo i shared}

def clShmFindNodeFromName (s : ClShm) (nodeName : CString) : Option Nat :=
  (List.range s.nodeCount).find? fun i => s.names i = nodeName

/-- "Set partition_count only once." -/
def setPartitionCount (s : ClShm) (replies : List Reply) : Option ClShm :=
  if s.partitionCount = 0 then
    match clShmRequest clRequestNPartitions replies with
    | .error => some s
    | .crash => none
    | .ok nPartitions => some {s with partitionCount := nPartitions}
  else some s

/-- `cl_shm_add_node`, which leaves the count for later. -/
def clShmAddNode (maxNodes : Nat) (s : ClShm) (seed : ClSeedNode) (lockInit : Bool) :
    ClShm × Option Nat :=
  if s.nodeCount ≥ maxNodes then (s,none)
  else
    let shared := {s.nodeInfo s.nodeCount with addressArray := seed.addressArray}
    (s.setNode s.nodeCount shared,if lockInit then some s.nodeCount else none)

/-- "Request replicas only if necessary." -/
def fetchReplicas (s : ClShm) (i : Nat) (request : ClNodeInfo) (replies : List Reply) :
    ClShm × Option Int :=
  if (s.nodeInfo i).partitionGeneration ≠ request.partitionGeneration then
    match clShmRequest id replies with
    | .error => (s,some (-3))
    | .crash => (s,none)
    | .ok values =>
      (s.setNode i {s.nodeInfo i with
        replicas := clStrncpy values szReplicasText
        partitionGeneration := request.partitionGeneration},some 0)
  else (s,some 0)

/-- The part of `cl_shm_node_ping` after the entry is found or added. -/
def storeNode (s : ClShm) (i : Nat) (add : Bool) (request : ClNodeInfo) (ping : Ping) :
    ClShm × Option Int :=
  let shared := s.nodeInfo i
  let shared := {shared with
    addressArray :=
      if ping.seed.addressArray.length ≠ shared.addressArray.length then ping.seed.addressArray
      else shared.addressArray
    nodeName := clStrncpy request.nodeName nodeNameSize}
  match request.services with
  | none => (s.setNode i shared,none)
  | some services =>
    let s := s.setNode i {shared with services := clStrncpy services szFieldNeighbors}
    fetchReplicas {s with nodeCount := if add then s.nodeCount + 1 else s.nodeCount} i request
      ping.replicas

/-- The table after a ping and the value it returns, none where the updater has read
through a null pointer. -/
def clShmNodePing (maxNodes : Nat) (s : ClShm) (ping : Ping) : ClShm × Option Int :=
  match setPartitionCount s ping.nPartitions with
  | none => (s,none)
  | some s =>
    match clShmRequest clRequestNodeInfo ping.nodeInfo with
    | .error => (s,some (-1))
    | .crash => (s,none)
    | .ok request =>
      match clShmFindNodeFromName s ping.seed.name with
      | some i => storeNode s i false request ping
      | none =>
        match clShmAddNode maxNodes s ping.seed ping.lockInit with
        | (s,none) => (s,some (-2))
        | (s,some i) => storeNode s i true request ping

def pingStep (maxNodes : Nat) (s : ClShm) (ping : Ping) : ClShm := (clShmNodePing maxNodes s ping).1

/-! ### Names -/

/-- No two entries in use have one name, and a search finds the entry that has it. -/
structure Named (maxNodes : Nat) (s : ClShm) : Prop where
  count : s.nodeCount ≤ maxNodes
  distinct : Set.InjOn s.names (Set.Iio s.nodeCount)
  finds : ∀ i < s.nodeCount, clShmFindNodeFromName s (s.names i) = some i

/-- The node information that a ping takes in. -/
def Ping.request (s : ClShm) (ping : Ping) : Option ClNodeInfo :=
  match setPartitionCount s ping.nPartitions,clShmRequest clRequestNodeInfo ping.nodeInfo with
  | some _,.ok request => some request
  | _,_ => none

/-- The name in the node information is held by no other entry than the seed's; a new
entry counts once it is complete. -/
def Unshared (maxNodes : Nat) (s : ClShm) (ping : Ping) : Prop :=
  ∀ request ∈ ping.request s,
    match clShmFindNodeFromName s ping.seed.name with
    | some i => ∀ j < s.nodeCount, j ≠ i → s.names j ≠ request.nodeName
    | none => s.nodeCount < maxNodes → ping.lockInit = true → request.services ≠ none →
        ∀ j < s.nodeCount, s.names j ≠ request.nodeName

theorem find_spec (found : clShmFindNodeFromName s name = some i) :
    i < s.nodeCount ∧ s.names i = name :=
  ⟨List.mem_range.mp (List.mem_of_find?_eq_some found),by simpa using List.find?_some found⟩

theorem find_distinct (distinct : Set.InjOn s.names (Set.Iio s.nodeCount)) (i : Nat)
    (bound : i < s.nodeCount) : clShmFindNodeFromName s (s.names i) = some i := by
  cases found : clShmFindNodeFromName s (s.names i) with
  | none =>
    have absent := List.find?_eq_none.mp found i (List.mem_range.mpr bound)
    simp at absent
  | some j =>
    obtain ⟨inside,same⟩ := find_spec found
    rw [distinct inside bound same]

/-- One entry is given a name, inside or at the end of the part in use. -/
theorem injOn_update {names : α → β} {used : Set α} [DecidableEq α] {i : α} {name : β}
    (distinct : Set.InjOn names used) :
    Set.InjOn (Function.update names i name) (insert i used) ↔
      ∀ j ∈ used, j ≠ i → names j ≠ name := by
  constructor
  · intro renamed j member other same
    refine other (renamed (.inr member) (.inl rfl) ?_)
    simpa [other] using same
  · intro free j first k second same
    by_cases here : j = i
    · by_cases there : k = i
      · exact here.trans there.symm
      · subst here
        have member : k ∈ used := second.resolve_left there
        simp [there] at same
        exact absurd same.symm (free k member there)
    · have member : j ∈ used := first.resolve_left here
      by_cases there : k = i
      · subst there
        simp [here] at same
        exact absurd same (free j member here)
      · exact distinct member (second.resolve_left there) (by simpa [here,there] using same)

@[simp] theorem setNode_names (s : ClShm) (i : Nat) (shared : ClShmNinfo) :
    (s.setNode i shared).names = Function.update s.names i shared.nodeName := by
  funext j
  by_cases here : j = i
  · simp [ClShm.names,ClShm.setNode,here]
  · simp [ClShm.names,ClShm.setNode,here]

@[simp] theorem setNode_nodeCount (s : ClShm) (i : Nat) (shared : ClShmNinfo) :
    (s.setNode i shared).nodeCount = s.nodeCount := rfl

theorem setPartitionCount_table (set : setPartitionCount s replies = some t) :
    t.names = s.names ∧ t.nodeCount = s.nodeCount := by
  unfold setPartitionCount at set
  split at set
  · split at set
    · exact Option.some.inj set ▸ ⟨rfl,rfl⟩
    · exact nomatch set
    · exact Option.some.inj set ▸ ⟨rfl,rfl⟩
  · exact Option.some.inj set ▸ ⟨rfl,rfl⟩

theorem fetchReplicas_table (s : ClShm) (i : Nat) (request : ClNodeInfo) (replies : List Reply) :
    (fetchReplicas s i request replies).1.names = s.names ∧
    (fetchReplicas s i request replies).1.nodeCount = s.nodeCount := by
  have same : Function.update s.names i (s.nodeInfo i).nodeName = s.names :=
    Function.update_eq_self i s.names
  unfold fetchReplicas
  split
  · split <;> simp [same]
  · simp

/-- The entry has the name of the reply, whatever the replicas request comes to; a new one
is counted unless the services were missing. -/
theorem storeNode_table (s : ClShm) (i : Nat) (add : Bool) (request : ClNodeInfo) (ping : Ping)
    (short : clStrncpy request.nodeName nodeNameSize = request.nodeName) :
    (storeNode s i add request ping).1.names = Function.update s.names i request.nodeName ∧
    (storeNode s i add request ping).1.nodeCount =
      if add = true ∧ request.services ≠ none then s.nodeCount + 1 else s.nodeCount := by
  unfold storeNode
  simp only [short]
  cases request.services with
  | none => simp
  | some services =>
    obtain ⟨names,count⟩ := fetchReplicas_table
      {s.setNode i {s.nodeInfo i with
        addressArray :=
          if ping.seed.addressArray.length ≠ (s.nodeInfo i).addressArray.length then
            ping.seed.addressArray
          else (s.nodeInfo i).addressArray
        nodeName := request.nodeName
        services := clStrncpy services szFieldNeighbors} with
        nodeCount := if add then s.nodeCount + 1 else s.nodeCount} i request ping.replicas
    refine ⟨names.trans (setNode_names ..),count.trans ?_⟩
    simp

theorem addNode_table (added : clShmAddNode maxNodes s seed lockInit = (t,entry)) :
    t.names = s.names ∧ t.nodeCount = s.nodeCount ∧
    (entry = if s.nodeCount < maxNodes ∧ lockInit = true then some s.nodeCount else none) := by
  unfold clShmAddNode at added
  split at added
  · rename_i full
    obtain ⟨rfl,rfl⟩ := Prod.mk.inj added
    simp [Nat.not_lt.mpr full]
  · rename_i room
    obtain ⟨rfl,rfl⟩ := Prod.mk.inj added
    have same : Function.update s.names s.nodeCount (s.nodeInfo s.nodeCount).nodeName = s.names :=
      Function.update_eq_self _ s.names
    simp [same,Nat.not_le.mp room]

theorem clShmRequest_ok (answered : clShmRequest parse replies = .ok answer) :
    ∃ values, answer = parse values := by
  induction replies with
  | nil => exact nomatch answered
  | cons reply rest ih =>
    cases reply with
    | failed => exact ih answered
    | null => exact nomatch answered
    | values text => exact ⟨text,(Answer.ok.inj answered).symm⟩

theorem named_iff (s : ClShm) : Named maxNodes s ↔
    s.nodeCount ≤ maxNodes ∧ Set.InjOn s.names (Set.Iio s.nodeCount) :=
  ⟨fun named => ⟨named.count,named.distinct⟩,
    fun ⟨count,distinct⟩ => ⟨count,distinct,find_distinct distinct⟩⟩

theorem find_congr (names : t.names = s.names) (count : t.nodeCount = s.nodeCount) (name : CString) :
    clShmFindNodeFromName t name = clShmFindNodeFromName s name := by
  simp [clShmFindNodeFromName,names,count]

/-- A known node may be renamed to what no other entry is called. -/
theorem Named.rename_iff (named : Named maxNodes s) (bound : i < s.nodeCount)
    (names : t.names = Function.update s.names i name) (count : t.nodeCount = s.nodeCount) :
    Named maxNodes t ↔ ∀ j < s.nodeCount, j ≠ i → s.names j ≠ name := by
  have inside : insert i (Set.Iio s.nodeCount) = Set.Iio s.nodeCount := Set.insert_eq_of_mem bound
  rw [named_iff,names,count,← inside,injOn_update named.distinct]
  exact and_iff_right named.count

/-- A new node may come in under a name that no entry has. -/
theorem Named.add_iff (named : Named maxNodes s) (room : s.nodeCount < maxNodes)
    (names : t.names = Function.update s.names s.nodeCount name)
    (count : t.nodeCount = s.nodeCount + 1) :
    Named maxNodes t ↔ ∀ j < s.nodeCount, s.names j ≠ name := by
  have next : Set.Iio (s.nodeCount + 1) = insert s.nodeCount (Set.Iio s.nodeCount) := by
    ext j
    simp only [Set.mem_Iio,Set.mem_insert_iff]
    omega
  rw [named_iff,names,count,next,injOn_update named.distinct]
  constructor
  · rintro ⟨_,free⟩ j before
    exact free j before (Nat.ne_of_lt before)
  · exact fun free => ⟨room,fun j before _ => free j before⟩

/-- What lies past the part in use does not count. -/
theorem Named.past_iff (named : Named maxNodes s)
    (names : ∀ j < s.nodeCount, t.names j = s.names j) (count : t.nodeCount = s.nodeCount) :
    Named maxNodes t := by
  rw [named_iff,count]
  exact ⟨named.count,named.distinct.congr fun j before => (names j before).symm⟩

/-- A new entry that a ping makes complete. -/
def Completes (maxNodes : Nat) (s : ClShm) (ping : Ping) (request : ClNodeInfo) : Prop :=
  s.nodeCount < maxNodes ∧ ping.lockInit = true ∧ request.services ≠ none

/-- A ping renames the entry of its seed, or adds one, or leaves the part in use alone. -/
theorem ping_table (maxNodes : Nat) (s : ClShm) (ping : Ping) :
    let t := pingStep maxNodes s ping
    (∃ request i, ping.request s = some request ∧
      clShmFindNodeFromName s ping.seed.name = some i ∧
      t.names = Function.update s.names i request.nodeName ∧ t.nodeCount = s.nodeCount) ∨
    (∃ request, ping.request s = some request ∧
      clShmFindNodeFromName s ping.seed.name = none ∧ Completes maxNodes s ping request ∧
      t.names = Function.update s.names s.nodeCount request.nodeName ∧
      t.nodeCount = s.nodeCount + 1) ∨
    ((∀ request, ping.request s = some request → clShmFindNodeFromName s ping.seed.name = none ∧
        ¬Completes maxNodes s ping request) ∧
      (∀ j < s.nodeCount, t.names j = s.names j) ∧ t.nodeCount = s.nodeCount) := by
  unfold pingStep clShmNodePing Ping.request
  cases set : setPartitionCount s ping.nPartitions with
  | none => simp
  | some t =>
    obtain ⟨names,count⟩ := setPartitionCount_table set
    simp only [find_congr names count]
    cases answered : clShmRequest clRequestNodeInfo ping.nodeInfo with
    | error => simp [names,count]
    | crash => simp [names,count]
    | ok request =>
      obtain ⟨values,rfl⟩ := clShmRequest_ok answered
      have short := clRequestNodeInfo_nodeName values
      cases found : clShmFindNodeFromName s ping.seed.name with
      | some i =>
        obtain ⟨stored,counted⟩ := storeNode_table t i false (clRequestNodeInfo values) ping short
        exact .inl ⟨_,i,rfl,rfl,names ▸ stored,by simpa [count] using counted⟩
      | none =>
        obtain ⟨u,entry,added⟩ : ∃ u entry,
            clShmAddNode maxNodes t ping.seed ping.lockInit = (u,entry) := ⟨_,_,rfl⟩
        obtain ⟨same,still,entered⟩ := addNode_table added
        rw [names] at same
        rw [count] at still entered
        by_cases room : s.nodeCount < maxNodes ∧ ping.lockInit = true
        · rw [if_pos room] at entered
          simp only [added,entered]
          obtain ⟨stored,counted⟩ :=
            storeNode_table u s.nodeCount true (clRequestNodeInfo values) ping short
          rw [same] at stored
          by_cases complete : (clRequestNodeInfo values).services = none
          · refine .inr (.inr ⟨?_,?_,by simpa [complete,still] using counted⟩)
            · simp [Completes,complete]
            · intro j before
              have other : j ≠ s.nodeCount := Nat.ne_of_lt before
              simp [stored,other]
          · exact .inr (.inl ⟨_,rfl,trivial,⟨room.1,room.2,complete⟩,stored,
              by simpa [complete,still] using counted⟩)
        · rw [if_neg room] at entered
          simp only [added,entered]
          refine .inr (.inr ⟨?_,fun j _ => congrFun same j,still⟩)
          intro request asked
          exact ⟨trivial,fun complete => room ⟨complete.1,complete.2.1⟩⟩

/-- One ping keeps the names apart exactly where the name it stores is free. -/
theorem Named.step_iff (named : Named maxNodes s) (ping : Ping) :
    Named maxNodes (pingStep maxNodes s ping) ↔ Unshared maxNodes s ping := by
  unfold Unshared
  obtain ⟨request,i,asked,found,names,count⟩ | ⟨request,asked,found,complete,names,count⟩ |
    ⟨idle,names,count⟩ := ping_table maxNodes s ping
  · simpa [asked,found] using named.rename_iff (find_spec found).1 names count
  · have added := named.add_iff complete.1 names count
    simpa [asked,found,complete.1,complete.2.1,complete.2.2] using added
  · refine iff_of_true (named.past_iff names count) ?_
    intro request asked
    obtain ⟨found,incomplete⟩ := idle request asked
    rw [found]
    exact fun room ready given => absurd ⟨room,ready,given⟩ incomplete

theorem count_step (s : ClShm) (ping : Ping) (bounded : s.nodeCount ≤ maxNodes) :
    (pingStep maxNodes s ping).nodeCount ≤ maxNodes := by
  obtain ⟨_,_,_,_,_,count⟩ | ⟨_,_,_,complete,_,count⟩ | ⟨_,_,count⟩ := ping_table maxNodes s ping
  · exact count ▸ bounded
  · exact count ▸ complete.1
  · exact count ▸ bounded

theorem start_named (maxNodes : Nat) : Named maxNodes ClShm.start :=
  (named_iff _).mpr ⟨Nat.zero_le _,fun _ bound => absurd bound (Nat.not_lt_zero _)⟩

/-- The table never holds more than `maxNodes` nodes, and their names are distinct exactly
in the runs where no ping stores a name that another entry has. -/
theorem shm_names_distinct (maxNodes : Nat) (pings : List Ping) :
    Always (pingStep maxNodes) (fun s => s.nodeCount ≤ maxNodes) ClShm.start pings ∧
    (Always (pingStep maxNodes) (Named maxNodes) ClShm.start pings ↔
      Guarded (pingStep maxNodes) (Unshared maxNodes) ClShm.start pings) := by
  have counted (s : ClShm) (ping : Ping) (bounded : s.nodeCount ≤ maxNodes) (_ : True) :
      (pingStep maxNodes s ping).nodeCount ≤ maxNodes := count_step s ping bounded
  have kept (s : ClShm) (ping : Ping) (named : Named maxNodes s)
      (unshared : Unshared maxNodes s ping) : Named maxNodes (pingStep maxNodes s ping) :=
    (named.step_iff ping).mpr unshared
  have needed (s : ClShm) (ping : Ping) (named : Named maxNodes s)
      (after : Named maxNodes (pingStep maxNodes s ping)) : Unshared maxNodes s ping :=
    (named.step_iff ping).mp after
  have free : Guarded (pingStep maxNodes) (fun _ _ => True) ClShm.start pings :=
    guarded_of_forall (fun _ _ => trivial) _ _
  exact ⟨always_of_guarded counted (Nat.zero_le _) free,
    always_iff_guarded_free (fun _ named => named) kept needed (start_named maxNodes) pings⟩

/-- The server known as A calls itself B: each ping of A adds another B. -/
theorem shm_renamed_node :
    let seed : ClSeedNode := ⟨text "A",[Vector.replicate 16 0]⟩
    let reply : Reply := .values (text "node\tB\npartition-generation\t0\nservices\t\n")
    let ping : Ping := ⟨seed,[.values (text "partitions\t4096\n")],[reply],[],true⟩
    let s := run (pingStep 64) ClShm.start [ping,ping]
    s.nodeCount = 2 ∧ s.names 0 = text "B" ∧ s.names 1 = text "B" ∧
    ¬Always (pingStep 64) (Named 64) ClShm.start [ping,ping] := by
  intro seed reply ping s
  have first : s.names 0 = text "B" := by decide
  have second : s.names 1 = text "B" := by decide
  refine ⟨by decide,first,second,?_⟩
  rintro ⟨_,_,named⟩
  have same := named.distinct (show 0 < s.nodeCount by decide) (show 1 < s.nodeCount by decide)
    (first.trans second.symm)
  exact absurd same (by decide)

end Citrusleaf.Shm
