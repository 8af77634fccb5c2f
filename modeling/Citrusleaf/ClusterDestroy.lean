import Citrusleaf.CfLl
import Citrusleaf.Lib.Runs
import Citrusleaf.Lib.Workers
import Citrusleaf.Text

/-! Threads in `citrusleaf_cluster_get_or_create` and `citrusleaf_cluster_release_or_destroy`, and
the walk of the tender over `cluster_ll`, which takes no lock of the list. A step is what is done
under one lock, or one access to a cluster outside of the locks. -/
namespace Citrusleaf.ClusterDestroy
open Lib

/-- A `cl_cluster`; every `malloc` of one gets a new address. -/
abbrev Address := Nat

abbrev Host := CString × Int

inductive ClusterThread where
  | outside
  /-- The walk of `get_or_create`, which holds `cluster_ll_LOCK`. -/
  | looking (host : Host) (curElement : Option Address)
  /-- No cluster has the host. -/
  | creating (host : Host)
  /-- In `citrusleaf_cluster_create`, in front of the list. -/
  | appending (asc : Address) (host : Host)
  /-- In `citrusleaf_cluster_add_host`, before its host is in the list of the cluster. -/
  | adding (asc : Address) (host : Host)
  /-- In the loop of `cluster_tend` calls behind that, outside and inside of one. -/
  | tending (asc : Address)
  | running (asc : Address)
  | returning (asc : Address)
  /-- At the head of `release_or_destroy`. -/
  | releasing (asc : Address)
  /-- In `citrusleaf_cluster_destroy`: in front of the list, at `retry`, behind `CLS_FREED`. -/
  | unlinking (asc : Address)
  | retrying (asc : Address)
  | freeing (asc : Address)
  deriving DecidableEq

/-- Where `cluster_tender_fn` is with its element. -/
inductive ClusterTender where
  | sleeping
  | visiting (e : Address)
  /-- At the head of `cluster_tend`, and behind it with `CLS_TENDER_RUNNING` set. -/
  | entering (e : Address)
  | running (e : Address)
  /-- Before `cf_ll_get_next`. -/
  | following (e : Address)
  deriving DecidableEq

def ClusterTender.element : ClusterTender → Option Address
  | sleeping => none
  | visiting e | entering e | running e | following e => some e

/-- The list and whether its lock is held, the fields of each cluster, which addresses were given
out and freed, whether a freed one was used or a null link followed, the clusters that were
returned and not yet released, and the threads. -/
structure ClusterState where
  clusterLl : CfLl Address
  clusterLlLock : Bool
  hosts : Address → List Host
  refCount : Address → Nat
  tenderRunning : Address → Bool
  clsFreed : Address → Bool
  allocated : Nat
  freed : Address → Bool
  usedFreed : Bool
  crashed : Bool
  handles : List Address
  threads : List ClusterThread
  tender : ClusterTender

inductive ClusterEvent where
  | call (thread : Nat) (host : Host)
  | look (thread : Nat)
  | create (thread : Nat) (malloc : Bool)
  | append (thread : Nat)
  /-- `cl_lookup`, and the host is listed. -/
  | resolve (thread : Nat) (found : Bool)
  | tendEnter (thread : Nat)
  | tendLeave (thread : Nat)
  /-- The end of `add_host`. -/
  | reached (thread : Nat) (reacheable : Bool)
  | ret (thread : Nat)
  /-- A thread calls `release_or_destroy` on one of the clusters that were returned. -/
  | release (thread handle : Nat)
  | decrement (thread : Nat)
  | unlink (thread : Nat)
  | retry (thread : Nat)
  | free (thread : Nat)
  /-- The next step of the tender; `due` says that the period of the cluster is over. -/
  | tender (due : Bool)

namespace ClusterState

def start (threads : Nat) : ClusterState :=
  ⟨cfLlInit (fun _ => none) (fun _ => none),false,fun _ => [],fun _ => 0,fun _ => false,fun _ => false,0,fun _ => false,
    false,false,[],List.replicate threads .outside,.sleeping⟩

def move (s : ClusterState) (thread : Nat) (new : ClusterThread) : ClusterState :=
  {s with threads := s.threads.set thread new}

/-- A cluster is returned, locked, tended or its link is followed. -/
def use (s : ClusterState) (asc : Address) : ClusterState := {s with usedFreed := s.usedFreed || s.freed asc}

/-- A turn of the walk: `ref_count++` and both unlocks where the host is found. -/
def look (s : ClusterState) (thread : Nat) (host : Host) : Option Address → ClusterState
  | none => {s.move thread (.creating host) with clusterLlLock := false}
  | some asc =>
    let s := s.use asc
    if (s.hosts asc).contains host then
      {s.move thread (.returning asc) with
        refCount := Function.update s.refCount asc ((s.refCount asc + 1) % 2 ^ 32)
        clusterLlLock := false}
    else s.move thread (.looking host (cfLlGetNext s.clusterLl asc))

def citrusleafClusterCreate (s : ClusterState) (thread : Nat) (host : Host) : ClusterState :=
  let asc := s.allocated
  {s.move thread (.appending asc host) with
    allocated := asc + 1
    hosts := Function.update s.hosts asc []
    refCount := Function.update s.refCount asc 1
    tenderRunning := Function.update s.tenderRunning asc false
    clsFreed := Function.update s.clsFreed asc false}

def append (s : ClusterState) (thread : Nat) (asc : Address) (host : Host) : ClusterState :=
  match cfLlAppend s.clusterLl asc with
  | none => {s with crashed := true}
  | some clusterLl => {s.move thread (.adding asc host) with clusterLl}

/-- The head and the end of `cluster_tend`. -/
def tendEnter (s : ClusterState) (asc : Address) : Option ClusterState :=
  if s.clsFreed asc || s.tenderRunning asc then none
  else some {s with tenderRunning := Function.update s.tenderRunning asc true}

def tendLeave (s : ClusterState) (asc : Address) : ClusterState :=
  {s with tenderRunning := Function.update s.tenderRunning asc false}

/-- The locked part of `citrusleaf_cluster_release_or_destroy`. -/
def decrement (s : ClusterState) (thread : Nat) (asc : Address) : ClusterState :=
  let s := s.use asc
  if 0 < s.refCount asc then
    let s := {s with refCount := Function.update s.refCount asc (s.refCount asc - 1)}
    if s.refCount asc = 0 then s.move thread (.unlinking asc) else s.move thread .outside
  else s.move thread .outside

def unlink (s : ClusterState) (thread : Nat) (asc : Address) : ClusterState :=
  let s := s.use asc
  match cfLlDelete s.clusterLl asc with
  | none => {s with crashed := true}
  | some clusterLl => {s.move thread (.retrying asc) with clusterLl}

def retry (s : ClusterState) (thread : Nat) (asc : Address) : ClusterState :=
  let s := s.use asc
  if s.tenderRunning asc then s
  else {s.move thread (.freeing asc) with clsFreed := Function.update s.clsFreed asc true}

def free (s : ClusterState) (thread : Nat) (asc : Address) : ClusterState :=
  let s := s.use asc
  {s.move thread .outside with freed := Function.update s.freed asc true}

def visit (s : ClusterState) : Option Address → ClusterState
  | none => {s with tender := .sleeping}
  | some e => {s with tender := .visiting e}

/-- A step of `cluster_tender_fn`. -/
def clusterTenderFn (s : ClusterState) (due : Bool) : ClusterState :=
  match s.tender with
  | .sleeping => s.visit (cfLlGetHead s.clusterLl)
  | .visiting e => {s.use e with tender := if due then .entering e else .following e}
  | .entering e =>
    match (s.use e).tendEnter e with
    | none => {s.use e with tender := .following e}
    | some s => {s with tender := .running e}
  | .running e => {(s.use e).tendLeave e with tender := .following e}
  | .following e => (s.use e).visit (cfLlGetNext s.clusterLl e)

def step (s : ClusterState) : ClusterEvent → ClusterState
  | .call thread host =>
    match s.threads[thread]? with
    | some .outside =>
      if s.clusterLlLock then s
      else {s.move thread (.looking host (cfLlGetHead s.clusterLl)) with clusterLlLock := true}
    | _ => s
  | .look thread =>
    match s.threads[thread]? with
    | some (.looking host curElement) => s.look thread host curElement
    | _ => s
  | .create thread malloc =>
    match s.threads[thread]? with
    | some (.creating host) => if malloc then s.citrusleafClusterCreate thread host else s.move thread .outside
    | _ => s
  | .append thread =>
    match s.threads[thread]? with
    | some (.appending asc host) => if s.clusterLlLock then s else s.append thread asc host
    | _ => s
  | .resolve thread found =>
    match s.threads[thread]? with
    | some (.adding asc host) =>
      let s := s.use asc
      if found then {s.move thread (.tending asc) with hosts := Function.update s.hosts asc (s.hosts asc ++ [host])}
      else s.move thread (.releasing asc)
    | _ => s
  | .tendEnter thread =>
    match s.threads[thread]? with
    | some (.tending asc) => (((s.use asc).tendEnter asc).map fun s => s.move thread (.running asc)).getD (s.use asc)
    | _ => s
  | .tendLeave thread =>
    match s.threads[thread]? with
    | some (.running asc) => ((s.use asc).tendLeave asc).move thread (.tending asc)
    | _ => s
  | .reached thread reacheable =>
    match s.threads[thread]? with
    | some (.tending asc) => (s.use asc).move thread (if reacheable then .returning asc else .releasing asc)
    | _ => s
  | .ret thread =>
    match s.threads[thread]? with
    | some (.returning asc) => {(s.use asc).move thread .outside with handles := asc :: s.handles}
    | _ => s
  | .release thread handle =>
    match s.threads[thread]?,s.handles[handle]? with
    | some .outside,some asc => {s.move thread (.releasing asc) with handles := s.handles.eraseIdx handle}
    | _,_ => s
  | .decrement thread =>
    match s.threads[thread]? with
    | some (.releasing asc) => s.decrement thread asc
    | _ => s
  | .unlink thread =>
    match s.threads[thread]? with
    | some (.unlinking asc) => if s.clusterLlLock then s else s.unlink thread asc
    | _ => s
  | .retry thread =>
    match s.threads[thread]? with
    | some (.retrying asc) => s.retry thread asc
    | _ => s
  | .free thread =>
    match s.threads[thread]? with
    | some (.freeing asc) => s.free thread asc
    | _ => s
  | .tender due => s.clusterTenderFn due

end ClusterState

/-! ### What threads have to do with a cluster -/

/-- A thread has a new cluster, refers to one, is about to unlink one, or is behind that. -/
inductive Stage where
  | fresh
  | refers
  | unlinks
  | frees
  deriving DecidableEq

def ClusterThread.role : ClusterThread → Option (Stage × Address)
  | appending asc _ => some (.fresh,asc)
  | adding asc _ | tending asc | running asc | returning asc | releasing asc => some (.refers,asc)
  | unlinking asc => some (.unlinks,asc)
  | retrying asc | freeing asc => some (.frees,asc)
  | _ => none

namespace ClusterState

/-- The roles of all threads, and of who was returned a cluster. -/
def roles (s : ClusterState) : List (Stage × Address) :=
  s.handles.map (.refers,·) ++ s.threads.filterMap ClusterThread.role

/-- Nothing that was freed has been used, and no null link was followed. -/
structure Unharmed (s : ClusterState) : Prop where
  unused : s.usedFreed = false
  linked : s.crashed = false

/-- The walk finds no cluster without references, and the count does not wrap; a cluster is freed
when the tender neither stands on it nor comes to it along the links. -/
def Spared (s : ClusterState) : ClusterEvent → Prop
  | .look thread => ∀ host asc, s.threads[thread]? = some (.looking host (some asc)) → host ∈ s.hosts asc →
    s.refCount asc ≠ 0 ∧ s.refCount asc + 1 < 2 ^ 32
  | .free thread => ∀ e asc, s.threads[thread]? = some (.freeing asc) → s.tender.element = some e →
    ¬Reaches s.clusterLl.next e asc
  | _ => True

end ClusterState
end Citrusleaf.ClusterDestroy
