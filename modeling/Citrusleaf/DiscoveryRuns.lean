import Mathlib.Data.List.Flatten
import Mathlib.Data.List.Nodup
import Citrusleaf.Discovery
import Citrusleaf.Lib.Exploring

/-! What the tender knows: no two nodes share a name or an address in any run, a cluster is
taken as found only when all that its nodes announce is known, and a steady network is
found whole. -/
namespace Citrusleaf.Discovery
open Lib Shm

/-! ### Lists of addresses -/

theorem mem_appendUnique : a ∈ appendUnique v addr ↔ a ∈ v ∨ a = addr := by
  rw [appendUnique]
  split
  case isTrue listed =>
    obtain ⟨other,known,same⟩ := List.any_eq_true.mp listed
    exact ⟨.inl,fun either => either.elim id fun added => added ▸ of_decide_eq_true same ▸ known⟩
  case isFalse => rw [List.mem_append,List.mem_singleton]

/-- What a function on lists of addresses adds does not depend on the list. -/
def Adds (f : List SockaddrIn → List SockaddrIn) : Prop := ∀ v a, a ∈ f v ↔ a ∈ v ∨ a ∈ f []

theorem Adds.id : Adds fun v => v := fun v a => by simp

theorem Adds.appendUnique (addr : SockaddrIn) : Adds fun v => appendUnique v addr := by
  intro v a
  rw [mem_appendUnique,mem_appendUnique]
  simp

theorem Adds.foldl {f : β → List SockaddrIn → List SockaddrIn} (adds : ∀ b, Adds (f b)) (l : List β) :
    Adds fun v => l.foldl (fun v b => f b v) v := by
  induction l with
  | nil => exact Adds.id
  | cons b l ih =>
    intro v a
    have here := adds b v a
    have later := ih (f b v) a
    have alone := ih (f b []) a
    simp only [List.foldl_cons] at later alone ⊢
    rw [later,here,alone,or_assoc]

theorem mem_foldl_appendUnique (l v : List SockaddrIn) : a ∈ l.foldl appendUnique v ↔ a ∈ v ∨ a ∈ l := by
  induction l generalizing v with
  | nil => simp
  | cons addr l ih => rw [List.foldl_cons,ih,mem_appendUnique,List.mem_cons,or_assoc]

theorem lookup_adds (map : List (CString × CString)) (resolver : Resolver) (hostname : CString) (port : Int) :
    Adds fun v => (clLookup map resolver hostname port v).2 := by
  intro v a
  change a ∈ (clLookup map resolver hostname port v).2 ↔ a ∈ v ∨ a ∈ (clLookup map resolver hostname port []).2
  rw [clLookup,clLookup]
  cases resolver (alternate map hostname) with
  | none => simp
  | some addrList =>
    dsimp only
    rw [mem_foldl_appendUnique,mem_foldl_appendUnique]
    simp

theorem services_add (map : List (CString × CString)) (resolver : Resolver) (services : CString) :
    Adds fun v => clusterServicesParse map resolver services v := by
  unfold clusterServicesParse
  refine Adds.foldl (fun hostStr => ?_) (strSplit 59 services)
  split
  · exact lookup_adds map resolver _ _
  · exact Adds.id

/-- The addresses that a node announces when it is pinged. -/
def announced (map : List (CString × CString)) (net : Network) (name : CString) : List SockaddrIn :=
  clusterPingNode map net name []

theorem mem_pingNode (map : List (CString × CString)) (net : Network) (name : CString) (v : List SockaddrIn) :
    a ∈ clusterPingNode map net name v ↔ a ∈ v ∨ a ∈ announced map net name := by
  rw [announced,clusterPingNode,clusterPingNode]
  cases net.ping name with
  | unreachable => simp
  | shared services => exact services_add map net.resolver services v a
  | values rbuf => exact Adds.foldl (services_add map net.resolver) _ v a

/-! ### Names and addresses of the nodes -/

def names (nodeV : List ClClusterNode) : List CString := nodeV.map (·.name)

/-- Every address that is known, with the name of its node. -/
def owned (nodeV : List ClClusterNode) : List (CString × SockaddrIn) :=
  nodeV.flatMap fun cn => cn.sockaddrInV.map fun addr => (cn.name,addr)

def addresses (nodeV : List ClClusterNode) : List SockaddrIn := (owned nodeV).map Prod.snd

theorem mem_owned : (name,a) ∈ owned nodeV ↔ ∃ cn ∈ nodeV, cn.name = name ∧ a ∈ cn.sockaddrInV := by
  simp [owned,and_comm]

theorem mem_addresses : a ∈ addresses nodeV ↔ ∃ cn ∈ nodeV, a ∈ cn.sockaddrInV := by
  simp [addresses,owned]

theorem mem_names : name ∈ names nodeV ↔ ∃ cn ∈ nodeV, cn.name = name := List.mem_map

theorem getByaddr_none : (clClusterNodeGetByaddr nodeV a).isNone ↔ a ∉ addresses nodeV := by
  simp [clClusterNodeGetByaddr,mem_addresses]

/-- No two nodes share a name or an address, and each has an address. -/
structure Distinct (nodeV : List ClClusterNode) : Prop where
  byName : (names nodeV).Nodup
  byAddress : (addresses nodeV).Nodup
  some : ∀ cn ∈ nodeV, cn.sockaddrInV ≠ []

theorem distinct_nil : Distinct [] := ⟨List.nodup_nil,List.nodup_nil,List.forall_mem_nil _⟩

theorem getByname_some (found : clClusterNodeGetByname nodeV name = some i)
    (change : ClClusterNode → ClClusterNode) :
    ∃ first cn last, nodeV = first ++ cn :: last ∧ cn.name = name ∧ nodeV.modify i change = first ++ change cn :: last := by
  obtain ⟨inside,same,_⟩ := List.findIdx?_eq_some_iff_getElem.mp found
  refine ⟨nodeV.take i,nodeV[i],nodeV.drop (i + 1),by simp,by simpa using same,?_⟩
  exact List.modify_eq_take_cons_drop inside

theorem getByname_none : clClusterNodeGetByname nodeV name = none ↔ name ∉ names nodeV := by
  simp [clClusterNodeGetByname,mem_names]

theorem owned_append (first last : List ClClusterNode) : owned (first ++ last) = owned first ++ owned last :=
  List.flatMap_append

theorem owned_cons (cn : ClClusterNode) (nodeV : List ClClusterNode) :
    owned (cn :: nodeV) = (cn.sockaddrInV.map fun addr => (cn.name,addr)) ++ owned nodeV := rfl

/-- An address that nobody has goes to the node of its name, which may be a new one. -/
theorem ping_cases (net : Network) (new : sin ∉ addresses nodeV) :
    (clusterPingAddress net nodeV sin = nodeV ∧
        (clGetNodeName (net.nodeName sin) = none ∨ net.malloc sin = false)) ∨
      ∃ name, clGetNodeName (net.nodeName sin) = some name ∧
        (owned (clusterPingAddress net nodeV sin)).Perm ((name,sin) :: owned nodeV) ∧
        (names (clusterPingAddress net nodeV sin) = names nodeV ∨
          name ∉ names nodeV ∧ names (clusterPingAddress net nodeV sin) = names nodeV ++ [name]) ∧
        ((∀ cn ∈ nodeV, cn.sockaddrInV ≠ []) → ∀ cn ∈ clusterPingAddress net nodeV sin, cn.sockaddrInV ≠ []) := by
  rw [clusterPingAddress]
  cases answer : clGetNodeName (net.nodeName sin) with
  | none => exact .inl ⟨rfl,.inl rfl⟩
  | some name =>
    dsimp only
    cases byname : clClusterNodeGetByname nodeV name with
    | none =>
      dsimp only
      cases given : net.malloc sin with
      | false => exact .inl ⟨if_neg Bool.false_ne_true,.inr rfl⟩
      | true =>
        rw [if_pos rfl,owned_append]
        refine .inr ⟨name,rfl,?_,.inr ⟨getByname_none.mp byname,List.map_append⟩,fun each cn member => ?_⟩
        · exact List.perm_append_singleton _ _
        · rcases List.mem_append.mp member with old | last
          · exact each cn old
          · rw [List.mem_singleton.mp last]
            exact List.cons_ne_nil _ _
    | some i =>
      obtain ⟨first,cn,last,rfl,rfl,done⟩ := getByname_some byname fun cn =>
        {cn with sockaddrInV := appendUnique cn.sockaddrInV sin}
      have fresh : sin ∉ cn.sockaddrInV := fun known => new (mem_addresses.mpr ⟨cn,by simp,known⟩)
      dsimp only at done ⊢
      rw [appendUnique,if_neg (by simpa using fresh)] at done
      rw [done]
      refine .inr ⟨cn.name,rfl,?_,.inl ?_,fun each other member => ?_⟩
      · rw [owned_append,owned_append,owned_cons,owned_cons,List.map_append,List.append_assoc]
        refine List.Perm.trans ?_ List.perm_middle
        exact List.Perm.append_left _ List.perm_middle
      · rw [names,names,List.map_append,List.map_append]
        rfl
      · obtain ⟨before,_,after⟩ := List.forall_mem_append.mp each |>.imp id List.forall_mem_cons.mp
        rcases List.mem_append.mp member with old | rest
        · exact before other old
        · rcases List.mem_cons.mp rest with rfl | old
          · exact List.append_ne_nil_of_right_ne_nil _ (List.cons_ne_nil _ _)
          · exact after other old

theorem Distinct.ping (distinct : Distinct nodeV) (net : Network) (new : sin ∉ addresses nodeV) :
    Distinct (clusterPingAddress net nodeV sin) := by
  rcases ping_cases net new with ⟨same,_⟩ | ⟨name,_,perm,named,some⟩
  · rw [same]; exact distinct
  · refine ⟨?_,?_,some distinct.some⟩
    · rcases named with same | ⟨unknown,same⟩
      · rw [same]; exact distinct.byName
      · rw [same]
        exact distinct.byName.append (List.nodup_singleton name) (by simpa using unknown)
    · refine (perm.map Prod.snd).nodup_iff.mpr ?_
      exact List.nodup_cons.mpr ⟨new,distinct.byAddress⟩

/-! ### The loops of a tend -/

/-- What a pass over a list of addresses does: it keeps what is known, adds only addresses of the list under the name
they answer, and the addresses it could not add did not answer or found no memory. -/
structure Explored (net : Network) (nodeV : List ClClusterNode) (n : Nat) (l : List SockaddrIn)
    (after : List ClClusterNode × Nat) : Prop where
  distinct : Distinct nodeV → Distinct after.1
  keeps : ∀ p ∈ owned nodeV, p ∈ owned after.1
  adds : ∀ name a, (name,a) ∈ owned after.1 →
    (name,a) ∈ owned nodeV ∨ a ∈ l ∧ clGetNodeName (net.nodeName a) = some name
  tries : ∀ a ∈ l, a ∈ addresses after.1 ∨ clGetNodeName (net.nodeName a) = none ∨ net.malloc a = false
  counts : n ≤ after.2
  none : after.2 = n ↔ ∀ a ∈ l, a ∈ addresses nodeV
  unchanged : after.2 = n → after.1 = nodeV

theorem Explored.known (explored : Explored net nodeV n l after) (known : a ∈ addresses nodeV) :
    a ∈ addresses after.1 := by
  obtain ⟨p,member,rfl⟩ := List.mem_map.mp known
  exact List.mem_map_of_mem (explored.keeps p member)

theorem exploreNew_explored (net : Network) (nodeV : List ClClusterNode) (n : Nat) (l : List SockaddrIn) :
    Explored net nodeV n l (exploreNew net nodeV n l) := by
  induction l generalizing nodeV n with
  | nil =>
    exact ⟨id,fun _ known => known,fun _ _ known => .inl known,List.forall_mem_nil _,le_refl n,
      iff_of_true rfl (List.forall_mem_nil _),fun _ => rfl⟩
  | cons sin l ih =>
    rw [exploreNew]
    split
    · have new : sin ∉ addresses nodeV := getByaddr_none.mp ‹_›
      have later := ih (clusterPingAddress net nodeV sin) (n + 1)
      have more : (exploreNew net (clusterPingAddress net nodeV sin) (n + 1) l).2 ≠ n := by
        have := later.counts
        omega
      have counted : (exploreNew net (clusterPingAddress net nodeV sin) (n + 1) l).2 = n ↔
          ∀ a ∈ sin :: l, a ∈ addresses nodeV :=
        iff_of_false more fun all => new (all sin List.mem_cons_self)
      rcases ping_cases net new with ⟨same,failed⟩ | ⟨name,answer,perm,_⟩
      · refine ⟨fun distinct => later.distinct (distinct.ping net new),?_,?_,?_,(Nat.le_succ n).trans later.counts,counted,
          fun same => absurd same more⟩
        · intro p known
          exact later.keeps p (same.symm ▸ known)
        · intro other a known
          rcases later.adds other a known with old | ⟨member,named⟩
          · exact .inl (same ▸ old)
          · exact .inr ⟨List.mem_cons_of_mem _ member,named⟩
        · intro a member
          rcases List.mem_cons.mp member with rfl | member
          · exact .inr failed
          · exact later.tries a member
      · refine ⟨fun distinct => later.distinct (distinct.ping net new),?_,?_,?_,(Nat.le_succ n).trans later.counts,counted,
          fun same => absurd same more⟩
        · intro p known
          exact later.keeps p (perm.mem_iff.mpr (List.mem_cons_of_mem _ known))
        · intro other a known
          rcases later.adds other a known with old | ⟨member,named⟩
          · rcases List.mem_cons.mp (perm.mem_iff.mp old) with first | old
            · obtain ⟨rfl,rfl⟩ := Prod.mk.inj first
              exact .inr ⟨List.mem_cons_self,answer⟩
            · exact .inl old
          · exact .inr ⟨List.mem_cons_of_mem _ member,named⟩
        · intro a member
          rcases List.mem_cons.mp member with rfl | member
          · have here : (name,a) ∈ owned (clusterPingAddress net nodeV a) := perm.mem_iff.mpr List.mem_cons_self
            exact .inl (later.known (List.mem_map_of_mem here))
          · exact later.tries a member
    · have known : sin ∈ addresses nodeV := by
        by_contra unknown
        exact ‹¬_› (getByaddr_none.mpr unknown)
      have later := ih nodeV n
      refine ⟨later.distinct,later.keeps,?_,?_,later.counts,?_,later.unchanged⟩
      · intro name a member
        rcases later.adds name a member with old | ⟨member,named⟩
        · exact .inl old
        · exact .inr ⟨List.mem_cons_of_mem _ member,named⟩
      · intro a member
        rcases List.mem_cons.mp member with rfl | member
        · exact .inl (later.known known)
        · exact later.tries a member
      · rw [later.none,List.forall_mem_cons]
        exact ⟨fun all => ⟨known,all⟩,fun all => all.2⟩

/-- The nodes a pass of pings leaves: some of the old ones, and all of them if all are in the partition map. -/
structure Pinged (map : List (CString × CString)) (net : Network) (v : List SockaddrIn) (nodeV : List ClClusterNode)
    (after : List ClClusterNode × List SockaddrIn) : Prop where
  fewerNames : (names after.1).Sublist (names nodeV)
  fewer : (owned after.1).Sublist (owned nodeV)
  some : (∀ cn ∈ nodeV, cn.sockaddrInV ≠ []) → ∀ cn ∈ after.1, cn.sockaddrInV ≠ []
  stays : (∀ name ∈ names nodeV, net.present name = true) → owned after.1 = owned nodeV
  services : ∀ a, a ∈ after.2 ↔ a ∈ v ∨ a ∈ addresses after.1 ∨ ∃ name ∈ names after.1, a ∈ announced map net name

theorem Pinged.visit (cn : ClClusterNode) (k : Nat)
    (pinged : Pinged map net (cn.sockaddrInV.foldl appendUnique (clusterPingNode map net cn.name v)) nodeV after) :
    Pinged map net v (cn :: nodeV) ({cn with intervalsAbsent := k} :: after.1,after.2) := by
  refine ⟨pinged.fewerNames.cons_cons cn.name,?_,?_,?_,fun a => ?_⟩
  · exact List.Sublist.append (List.Sublist.refl _) pinged.fewer
  · intro each other member
    obtain ⟨first,rest⟩ := List.forall_mem_cons.mp each
    rcases List.mem_cons.mp member with rfl | member
    · exact first
    · exact pinged.some rest other member
  · intro present
    rw [owned_cons,owned_cons]
    exact congrArg _ (pinged.stays fun name member => present name (List.mem_cons_of_mem _ member))
  · have here : a ∈ addresses ({cn with intervalsAbsent := k} :: after.1) ↔ a ∈ cn.sockaddrInV ∨ a ∈ addresses after.1 := by
      simp [mem_addresses]
    have named : (∃ name ∈ names ({cn with intervalsAbsent := k} :: after.1), a ∈ announced map net name) ↔
        a ∈ announced map net cn.name ∨ ∃ name ∈ names after.1, a ∈ announced map net name := by
      simp [names]
    rw [pinged.services,mem_foldl_appendUnique,mem_pingNode,here,named]
    tauto

theorem pingNodes_pinged (map : List (CString × CString)) (net : Network) (v : List SockaddrIn)
    (nodeV : List ClClusterNode) : Pinged map net v nodeV (pingNodes map net v nodeV) := by
  induction nodeV generalizing v with
  | nil =>
    exact ⟨List.Sublist.refl _,List.Sublist.refl _,fun each => each,fun _ => rfl,fun a => by simp [pingNodes,addresses,owned,names]⟩
  | cons cn nodeV ih =>
    rw [pingNodes]
    split
    · exact (ih _).visit cn 1
    · split
      · have later := ih v
        refine ⟨later.fewerNames.cons _,later.fewer.trans (List.sublist_append_right _ _),?_,?_,later.services⟩
        · intro each
          exact later.some (List.forall_mem_cons.mp each).2
        · intro present
          exact absurd (.inr (present cn.name List.mem_cons_self)) ‹¬(_ ∨ _)›
      · exact (ih _).visit cn (cn.intervalsAbsent + 1)

theorem Distinct.pinged (distinct : Distinct nodeV) (pinged : Pinged map net v nodeV after) : Distinct after.1 :=
  ⟨distinct.byName.sublist pinged.fewerNames,distinct.byAddress.sublist (pinged.fewer.map Prod.snd),pinged.some distinct.some⟩

/-! ### A tend -/

/-- Everything that the nodes announce is known. -/
def Covered (map : List (CString × CString)) (net : Network) (nodeV : List ClClusterNode) : Prop :=
  ∀ name ∈ names nodeV, ∀ a ∈ announced map net name, a ∈ addresses nodeV

theorem covered_iff (pinged : Pinged map net [] nodeV after) :
    (∀ a ∈ after.2, a ∈ addresses after.1) ↔ Covered map net after.1 := by
  constructor
  · intro all name member a said
    exact all a ((pinged.services a).mpr (.inr (.inr ⟨name,member,said⟩)))
  · intro covered a member
    rcases (pinged.services a).mp member with none | known | ⟨name,named,said⟩
    · exact absurd none List.not_mem_nil
    · exact known
    · exact covered name named a said

/-- The three loops of a tend that follows its nodes, and when it takes the cluster as found. -/
structure Tended (s : ClCluster) (net : Network) (l : List SockaddrIn) (after : ClCluster) : Prop where
  same : after.hosts = s.hosts ∧ after.hostAddrMapV = s.hostAddrMapV ∧ after.follow = s.follow ∧ after.tender = none
  loops : ∃ first middle last, Explored net s.nodeV 0 l first ∧ Pinged s.hostAddrMapV net [] first.1 middle ∧
    Explored net middle.1 0 middle.2 last ∧ after.nodeV = last.1 ∧
    (after.foundAll = true ↔ s.foundAll = true ∨ Covered s.hostAddrMapV net middle.1)

theorem tendNodes_tended (s : ClCluster) (net : Network) (running : s.tender = some l) (follows : s.follow = true) :
    Tended s net l (s.tendNodes net) := by
  have explored := exploreNew_explored net s.nodeV 0 l
  have pinged := pingNodes_pinged s.hostAddrMapV net [] (exploreNew net s.nodeV 0 l).1
  have last := exploreNew_explored net (pingNodes s.hostAddrMapV net [] (exploreNew net s.nodeV 0 l).1).1 0
    (pingNodes s.hostAddrMapV net [] (exploreNew net s.nodeV 0 l).1).2
  rw [ClCluster.tendNodes,running]
  dsimp only
  rw [if_pos follows]
  refine ⟨⟨rfl,rfl,rfl,rfl⟩,_,_,_,explored,pinged,last,rfl,?_⟩
  rw [← covered_iff pinged,← last.none,Bool.or_eq_true,beq_iff_eq]

theorem tendNodes_unfollowed (s : ClCluster) (net : Network) (running : s.tender = some l) (follows : s.follow = false) :
    ∃ first middle, Explored net s.nodeV 0 l first ∧ Pinged s.hostAddrMapV net [] first.1 middle ∧
      s.tendNodes net = {s with nodeV := middle.1,tender := none} := by
  refine ⟨_,_,exploreNew_explored net s.nodeV 0 l,pingNodes_pinged s.hostAddrMapV net [] _,?_⟩
  rw [ClCluster.tendNodes,running]
  dsimp only
  rw [if_neg (Bool.eq_false_iff.mp follows)]

theorem Tended.distinct (tended : Tended s net l after) (distinct : Distinct s.nodeV) : Distinct after.nodeV := by
  obtain ⟨first,middle,last,explored,pinged,again,same,_⟩ := tended.loops
  rw [same]
  exact again.distinct ((explored.distinct distinct).pinged pinged)

theorem Distinct.step (distinct : Distinct s.nodeV) (event : ClusterEvent) : Distinct (clusterStep s event).nodeV := by
  cases event with
  | tendHosts net =>
    rw [clusterStep,ClCluster.tendHosts]
    split <;> exact distinct
  | tendNodes net =>
    cases running : s.tender with
    | none =>
      rw [clusterStep,ClCluster.tendNodes,running]
      exact distinct
    | some l =>
      cases follows : s.follow with
      | true => exact (tendNodes_tended s net running follows).distinct distinct
      | false =>
        obtain ⟨first,middle,explored,pinged,same⟩ := tendNodes_unfollowed s net running follows
        rw [clusterStep,same]
        exact (explored.distinct distinct).pinged pinged
  | registerHost host port => exact distinct
  | addAddrMap orig alt =>
    rw [clusterStep,ClCluster.citrusleafClusterAddAddrMap]
    split <;> exact distinct
  | follow flag => exact distinct

/-- Only the end of a tend that follows its nodes and knows all that they announce takes the cluster as found. -/
theorem newly_found (s : ClCluster) (event : ClusterEvent) (before : s.foundAll = false)
    (found : (clusterStep s event).foundAll = true) :
    ∃ net, event = .tendNodes net ∧ s.tender.isSome = true ∧ s.follow = true ∧
      Covered s.hostAddrMapV net (clusterStep s event).nodeV := by
  cases event with
  | tendHosts net =>
    rw [clusterStep,ClCluster.tendHosts] at found
    split at found <;> exact absurd (before.symm.trans found) Bool.false_ne_true
  | tendNodes net =>
    cases running : s.tender with
    | none =>
      rw [clusterStep,ClCluster.tendNodes,running] at found
      exact absurd (before.symm.trans found) Bool.false_ne_true
    | some l =>
      cases follows : s.follow with
      | true =>
        obtain ⟨first,middle,last,_,pinged,again,same,iff⟩ := (tendNodes_tended s net running follows).loops
        have covered := (iff.mp found).resolve_left (Bool.eq_false_iff.mp before)
        have nothing := again.none.mpr ((covered_iff pinged).mpr covered)
        refine ⟨net,rfl,rfl,rfl,?_⟩
        rw [clusterStep,same,again.unchanged nothing]
        exact covered
      | false =>
        obtain ⟨first,middle,_,_,same⟩ := tendNodes_unfollowed s net running follows
        rw [clusterStep,same] at found
        exact absurd (before.symm.trans found) Bool.false_ne_true
  | registerHost host port => exact absurd found Bool.false_ne_true
  | addAddrMap orig alt =>
    rw [clusterStep,ClCluster.citrusleafClusterAddAddrMap] at found
    split at found <;> exact absurd (before.symm.trans found) Bool.false_ne_true
  | follow flag => exact absurd (before.symm.trans found) Bool.false_ne_true

/-- In every run, whatever the network answers, no two nodes share a name or an address; and whenever a cluster
comes to be taken as found, it knows every address that one of its nodes has announced in that tend. -/
theorem discovery_sound (events : List ClusterEvent) :
    Always clusterStep (fun s => Distinct s.nodeV) citrusleafClusterCreate events ∧
      ∀ first event later, events = first ++ event :: later →
        (run clusterStep citrusleafClusterCreate first).foundAll = false →
        (run clusterStep citrusleafClusterCreate (first ++ [event])).foundAll = true →
        ∃ net, event = .tendNodes net ∧
          Covered (run clusterStep citrusleafClusterCreate first).hostAddrMapV net
            (run clusterStep citrusleafClusterCreate (first ++ [event])).nodeV := by
  constructor
  · have kept (s : ClCluster) (e : ClusterEvent) (distinct : Distinct s.nodeV) (_ : True) :
        Distinct (clusterStep s e).nodeV := distinct.step e
    exact always_of_guarded kept distinct_nil (guarded_of_forall (fun _ _ => trivial) _ events)
  · intro first event later _ before found
    rw [run_append] at found ⊢
    obtain ⟨net,same,_,_,covered⟩ := newly_found _ event before found
    exact ⟨net,same,covered⟩

end Citrusleaf.Discovery
