import Citrusleaf.DiscoveryRuns

/-! Adding a host to a cluster whose network holds still: the cluster that is found has the
addresses that announcements lead to, each at the node of the name it answers. -/
namespace Citrusleaf.Discovery
open Lib Shm

/-- An address answers a name, and the node of that name announces another one. -/
def Announces (map : List (CString × CString)) (net : Network) (a b : SockaddrIn) : Prop :=
  ∃ name, clGetNodeName (net.nodeName a) = some name ∧ b ∈ announced map net name

/-- The addresses of a finite world all answer, are served by a node of the partition map that there is memory
for, and announce nothing outside. -/
structure Steady (map : List (CString × CString)) (net : Network) (world : Finset SockaddrIn) : Prop where
  answers : ∀ a ∈ world, ∃ name, clGetNodeName (net.nodeName a) = some name ∧ net.present name = true
  malloc : ∀ a ∈ world, net.malloc a = true
  closed : ∀ a ∈ world, ∀ b, Announces map net a b → b ∈ world

/-- What is known of a cluster was found in this world and from these seeds. -/
structure Partly (net : Network) (world : Finset SockaddrIn) (seeds : SockaddrIn → Prop) (s : ClCluster) : Prop where
  idle : s.tender = none
  follow : s.follow = true
  distinct : Distinct s.nodeV
  answer : ∀ name a, (name,a) ∈ owned s.nodeV → clGetNodeName (net.nodeName a) = some name
  inside : ∀ a ∈ addresses s.nodeV, a ∈ world
  reached : ∀ a ∈ addresses s.nodeV, ReachedFrom seeds (Announces s.hostAddrMapV net) a
  hosts : ∀ a ∈ s.lookupHosts net.resolver, a ∈ world ∧ seeds a
  /-- A cluster that is taken as found knows its hosts and all that its nodes announce. -/
  found : s.foundAll = true →
    (∀ a ∈ s.lookupHosts net.resolver, a ∈ addresses s.nodeV) ∧ Covered s.hostAddrMapV net s.nodeV

theorem Distinct.address (distinct : Distinct nodeV) (named : name ∈ names nodeV) : ∃ a, (name,a) ∈ owned nodeV := by
  obtain ⟨cn,member,same⟩ := mem_names.mp named
  obtain ⟨a,has⟩ := List.exists_mem_of_ne_nil _ (distinct.some cn member)
  exact ⟨a,mem_owned.mpr ⟨cn,member,same,has⟩⟩

theorem owned_address (known : (name,a) ∈ owned nodeV) : a ∈ addresses nodeV := List.mem_map_of_mem known

theorem address_owned (known : a ∈ addresses nodeV) : ∃ name, (name,a) ∈ owned nodeV := by
  obtain ⟨⟨name,_⟩,member,rfl⟩ := List.mem_map.mp known
  exact ⟨name,member⟩

/-- The nodes of a cluster know addresses of the world, under the names these answer. -/
structure Placed (map : List (CString × CString)) (net : Network) (world : Finset SockaddrIn) (seeds : SockaddrIn → Prop)
    (nodeV : List ClClusterNode) : Prop where
  distinct : Distinct nodeV
  answer : ∀ name a, (name,a) ∈ owned nodeV → clGetNodeName (net.nodeName a) = some name
  inside : ∀ a ∈ addresses nodeV, a ∈ world
  reached : ∀ a ∈ addresses nodeV, ReachedFrom seeds (Announces map net) a

theorem Placed.explored (placed : Placed map net world seeds nodeV)
    (new : ∀ a ∈ l, a ∈ world ∧ ReachedFrom seeds (Announces map net) a) (explored : Explored net nodeV n l after) :
    Placed map net world seeds after.1 := by
  have origin (a : SockaddrIn) (known : a ∈ addresses after.1) : a ∈ addresses nodeV ∨ a ∈ l := by
    obtain ⟨name,member⟩ := address_owned known
    exact (explored.adds name a member).imp owned_address And.left
  refine ⟨explored.distinct placed.distinct,fun name a member => ?_,fun a known => ?_,fun a known => ?_⟩
  · rcases explored.adds name a member with old | ⟨_,named⟩
    · exact placed.answer name a old
    · exact named
  · exact (origin a known).elim (placed.inside a) fun member => (new a member).1
  · exact (origin a known).elim (placed.reached a) fun member => (new a member).2

/-- In a steady world every address of the list is known after the pass. -/
theorem Explored.all_known (explored : Explored net nodeV n l after) (steady : Steady map net world)
    (inside : ∀ a ∈ l, a ∈ world) : ∀ a ∈ l, a ∈ addresses after.1 := by
  intro a member
  obtain ⟨name,answer,_⟩ := steady.answers a (inside a member)
  rcases explored.tries a member with known | silent | full
  · exact known
  · exact absurd (silent.symm.trans answer) (Option.some_ne_none name).symm
  · exact absurd (full.symm.trans (steady.malloc a (inside a member))) Bool.false_ne_true

/-- In a steady world the pings delete no node. -/
theorem Placed.pinged (placed : Placed map net world seeds nodeV) (steady : Steady map net world)
    (pinged : Pinged map net v nodeV after) :
    Placed map net world seeds after.1 ∧ owned after.1 = owned nodeV := by
  have present : ∀ name ∈ names nodeV, net.present name = true := by
    intro name named
    obtain ⟨a,member⟩ := placed.distinct.address named
    obtain ⟨other,answer,there⟩ := steady.answers a (placed.inside a (owned_address member))
    rw [placed.answer name a member] at answer
    exact Option.some.inj answer ▸ there
  have same := pinged.stays present
  have known : addresses after.1 = addresses nodeV := congrArg (List.map Prod.snd) same
  refine ⟨⟨placed.distinct.pinged pinged,?_,?_,?_⟩,same⟩
  · rw [same]; exact placed.answer
  · rw [known]; exact placed.inside
  · rw [known]; exact placed.reached

theorem Placed.services (placed : Placed map net world seeds after.1) (steady : Steady map net world)
    (pinged : Pinged map net [] nodeV after) :
    ∀ a ∈ after.2, a ∈ world ∧ ReachedFrom seeds (Announces map net) a := by
  intro b member
  rcases (pinged.services b).mp member with none | known | ⟨name,named,said⟩
  · exact absurd none List.not_mem_nil
  · exact ⟨placed.inside b known,placed.reached b known⟩
  · obtain ⟨a,has⟩ := placed.distinct.address named
    have edge : Announces map net a b := ⟨name,placed.answer name a has,said⟩
    exact ⟨steady.closed a (placed.inside a (owned_address has)) b edge,(placed.reached a (owned_address has)).next edge⟩

theorem Partly.placed (partly : Partly net world seeds s) : Placed s.hostAddrMapV net world seeds s.nodeV :=
  ⟨partly.distinct,partly.answer,partly.inside,partly.reached⟩

/-- One tend of a steady network keeps what is known, knows the hosts, and either takes the cluster as found or
learns an address. -/
theorem Partly.tend (partly : Partly net world seeds s) (steady : Steady s.hostAddrMapV net world)
    (unsettled : s.foundAll = false) :
    Partly net world seeds (s.clusterTend net) ∧ (s.clusterTend net).hosts = s.hosts ∧
      (s.clusterTend net).hostAddrMapV = s.hostAddrMapV ∧
      (∀ p ∈ owned s.nodeV, p ∈ owned (s.clusterTend net).nodeV) ∧
      ((s.clusterTend net).foundAll = false → ∃ a ∈ addresses (s.clusterTend net).nodeV, a ∉ addresses s.nodeV) := by
  have read : s.tendHosts net = {s with tender := some (s.lookupHosts net.resolver)} := by
    rw [ClCluster.tendHosts,partly.idle]
  have tended := tendNodes_tended {s with tender := some (s.lookupHosts net.resolver)} net rfl partly.follow
  rw [ClCluster.clusterTend,read]
  generalize ClCluster.tendNodes {s with tender := some (s.lookupHosts net.resolver)} net = after at tended ⊢
  obtain ⟨hosts,map,follow,idle⟩ := tended.same
  obtain ⟨first,middle,last,explored,pinged,again,nodes,found⟩ := tended.loops
  dsimp only at hosts map follow explored pinged again found
  have start : Placed s.hostAddrMapV net world seeds first.1 :=
    partly.placed.explored (fun a member => ⟨(partly.hosts a member).1,.seed (partly.hosts a member).2⟩) explored
  obtain ⟨still,same⟩ := start.pinged steady pinged
  have said := still.services steady pinged
  have finish : Placed s.hostAddrMapV net world seeds last.1 := still.explored said again
  have looked : after.lookupHosts net.resolver = s.lookupHosts net.resolver := by
    rw [ClCluster.lookupHosts,ClCluster.lookupHosts,hosts,map]
  have kept : ∀ p ∈ owned s.nodeV, p ∈ owned middle.1 := fun p member => same.symm ▸ explored.keeps p member
  have hostsKnown : ∀ a ∈ s.lookupHosts net.resolver, a ∈ addresses last.1 := by
    intro a member
    refine again.known ?_
    rw [addresses,same]
    exact explored.all_known steady (fun a member => (partly.hosts a member).1) a member
  refine ⟨⟨idle,follow.trans partly.follow,?_,?_,?_,?_,?_,fun settled => ?_⟩,hosts,map,?_,fun unfound => ?_⟩
  · rw [nodes]; exact finish.distinct
  · rw [nodes]; exact finish.answer
  · rw [nodes]; exact finish.inside
  · rw [nodes,map]; exact finish.reached
  · rw [looked]; exact partly.hosts
  · have covered := (found.mp settled).resolve_left (Bool.eq_false_iff.mp unsettled)
    have nothing := again.none.mpr ((covered_iff pinged).mpr covered)
    rw [looked,nodes,map]
    exact ⟨hostsKnown,again.unchanged nothing ▸ covered⟩
  · rw [nodes]
    exact fun p member => again.keeps p (kept p member)
  · have uncovered : ¬∀ a ∈ middle.2, a ∈ addresses middle.1 := fun all =>
      Bool.false_ne_true (unfound.symm.trans (found.mpr (.inr ((covered_iff pinged).mp all))))
    obtain ⟨a,missed⟩ := not_forall.mp uncovered
    obtain ⟨member,new⟩ := Classical.not_imp.mp missed
    refine ⟨a,?_,fun known => new ?_⟩
    · rw [nodes]
      exact again.all_known steady (fun a member => (said a member).1) a member
    · obtain ⟨name,old⟩ := address_owned known
      exact owned_address (kept _ old)

/-- The laps of `citrusleaf_cluster_add_host` in a network that holds still are rounds until all is found. -/
theorem settleLoop_steady (s : ClCluster) (net : Network) (laps : Nat) :
    s.settleLoop (List.replicate laps net) = roundsUntil (·.foundAll) (·.clusterTend net) laps s := by
  induction laps generalizing s with
  | zero => rfl
  | succ laps ih =>
    rw [List.replicate_succ,ClCluster.settleLoop,roundsUntil]
    cases settled : s.foundAll with
    | true =>
      rw [if_pos rfl,if_pos rfl]
      exact if_pos settled
    | false =>
      rw [if_neg Bool.false_ne_true,if_neg Bool.false_ne_true]
      split
      · rename_i found
        cases laps with
        | zero => rfl
        | succ laps => rw [roundsUntil,if_pos found]
      · exact ih _

/-- Between two tends, what a cluster knows lies in the world and is at the nodes of the names it answers. -/
structure Consistent (net : Network) (world : Finset SockaddrIn) (s : ClCluster) : Prop where
  idle : s.tender = none
  follow : s.follow = true
  distinct : Distinct s.nodeV
  answer : ∀ name a, (name,a) ∈ owned s.nodeV → clGetNodeName (net.nodeName a) = some name
  inside : ∀ a ∈ addresses s.nodeV, a ∈ world

/-- What discovery starts from: the addresses of the registered hosts, and those known already. -/
def Seed (net : Network) (s t : ClCluster) (a : SockaddrIn) : Prop :=
  a ∈ addresses s.nodeV ∨ a ∈ t.lookupHosts net.resolver

theorem mem_lookupHosts_last (s : ClCluster) (resolver : Resolver) (host : CString) (port : Int)
    (member : a ∈ (clLookup s.hostAddrMapV resolver host port []).2) :
    a ∈ (s.registerHost host port).lookupHosts resolver := by
  rw [ClCluster.lookupHosts,ClCluster.registerHost,List.foldl_append]
  exact (lookup_adds s.hostAddrMapV resolver host port _ a).mpr (.inr member)

/-- A state the laps pass through. -/
structure Passed (net : Network) (world : Finset SockaddrIn) (s t : ClCluster) (u : ClCluster) : Prop where
  partly : Partly net world (Seed net s t) u
  hosts : u.hosts = t.hosts
  map : u.hostAddrMapV = t.hostAddrMapV
  keeps : ∀ p ∈ owned s.nodeV, p ∈ owned u.nodeV

theorem Consistent.registered (consistent : Consistent net world s) (host : CString) (port : Int)
    (hosts : ∀ a ∈ (s.registerHost host port).lookupHosts net.resolver, a ∈ world) :
    Passed net world s (s.registerHost host port) (s.registerHost host port) :=
  ⟨⟨consistent.idle,consistent.follow,consistent.distinct,consistent.answer,consistent.inside,
      fun _ known => .seed (.inl known),fun a member => ⟨hosts a member,.inr member⟩,fun found => absurd found Bool.false_ne_true⟩,
    rfl,rfl,fun _ known => known⟩

theorem Passed.tend (passed : Passed net world s t u) (steady : Steady t.hostAddrMapV net world)
    (unsettled : u.foundAll = false) :
    Passed net world s t (u.clusterTend net) ∧
      ((u.clusterTend net).foundAll = false → ∃ a ∈ addresses (u.clusterTend net).nodeV, a ∉ addresses u.nodeV) ∧
      ∀ p ∈ owned u.nodeV, p ∈ owned (u.clusterTend net).nodeV := by
  obtain ⟨partly,hosts,map,keeps,learns⟩ := passed.partly.tend (passed.map ▸ steady) unsettled
  exact ⟨⟨partly,hosts.trans passed.hosts,map.trans passed.map,fun p known => keeps p (passed.keeps p known)⟩,learns,keeps⟩

/-- What a found cluster knows is exactly what is reached. -/
theorem Passed.exact (passed : Passed net world s t u) (found : u.foundAll = true) (name : CString) (a : SockaddrIn) :
    (name,a) ∈ owned u.nodeV ↔
      clGetNodeName (net.nodeName a) = some name ∧ ReachedFrom (Seed net s t) (Announces t.hostAddrMapV net) a := by
  obtain ⟨hostsKnown,covered⟩ := passed.partly.found found
  have looked : u.lookupHosts net.resolver = t.lookupHosts net.resolver := by
    rw [ClCluster.lookupHosts,ClCluster.lookupHosts,passed.hosts,passed.map]
  rw [looked] at hostsKnown
  constructor
  · intro member
    exact ⟨passed.partly.answer name a member,passed.map ▸ passed.partly.reached a (owned_address member)⟩
  · rintro ⟨answer,reached⟩
    have known : a ∈ addresses u.nodeV := by
      refine reached.least (fun b seed => ?_) fun b c known edge => ?_
      · rcases seed with old | host
        · obtain ⟨other,member⟩ := address_owned old
          exact owned_address (passed.keeps _ member)
        · exact hostsKnown b host
      · obtain ⟨other,answered,said⟩ := edge
        obtain ⟨named,member⟩ := address_owned known
        obtain ⟨cn,there,same,_⟩ := mem_owned.mp member
        have agree := passed.partly.answer named b member
        rw [answered] at agree
        obtain rfl := Option.some.inj agree
        exact covered other (mem_names.mpr ⟨cn,there,same⟩) c (passed.map.symm ▸ said)
    obtain ⟨other,member⟩ := address_owned known
    have agree := passed.partly.answer other a member
    rw [answer] at agree
    exact Option.some.inj agree ▸ member

/-- A host whose addresses lie in a steady world is added with success once the timeout allows a lap for each
address of the world: the cluster is found, and a node owns an address exactly if the address answers the name of
the node and announcements lead to it from the addresses of the hosts and those known before. -/
theorem add_host_finds (s : ClCluster) (net : Network) (world : Finset SockaddrIn) (host : CString) (port : Int)
    (v : List SockaddrIn) (laps : Nat) (steady : Steady s.hostAddrMapV net world) (consistent : Consistent net world s)
    (hosts : ∀ a ∈ (s.registerHost host port).lookupHosts net.resolver, a ∈ world) (new : (host,port) ∉ s.hosts)
    (looked : clLookup s.hostAddrMapV net.resolver host port [] = (0,v)) (some : v ≠ []) (enough : world.card ≤ laps) :
    let (rv,after) := s.citrusleafClusterAddHost net (List.replicate laps net) host port
    rv = 0 ∧ after.foundAll = true ∧ Distinct after.nodeV ∧
      ∀ name a, (name,a) ∈ owned after.nodeV ↔
        clGetNodeName (net.nodeName a) = Option.some name ∧
          ReachedFrom (Seed net s (s.registerHost host port)) (Announces s.hostAddrMapV net) a := by
  have start := consistent.registered host port hosts
  have rounds : ((s.registerHost host port).clusterTend net).settleLoop (List.replicate laps net) =
      roundsUntil (·.foundAll) (·.clusterTend net) (laps + 1) (s.registerHost host port) := by
    rw [settleLoop_steady,roundsUntil,if_neg]
    exact Bool.false_ne_true
  have kept (u : ClCluster) (unsettled : u.foundAll = false) (passed : Passed net world s (s.registerHost host port) u) :
      Passed net world s (s.registerHost host port) (u.clusterTend net) := (passed.tend steady unsettled).1
  let known (u : ClCluster) : Finset SockaddrIn := (addresses u.nodeV).toFinset
  have inside (u : ClCluster) (passed : Passed net world s (s.registerHost host port) u) : known u ⊆ world :=
    fun a member => passed.partly.inside a (List.mem_toFinset.mp member)
  have grows (u : ClCluster) (passed : Passed net world s (s.registerHost host port) u) (unsettled : u.foundAll = false)
      (unfound : (u.clusterTend net).foundAll = false) : known u ⊂ known (u.clusterTend net) := by
    obtain ⟨_,learns,keeps⟩ := passed.tend steady unsettled
    obtain ⟨a,learned,fresh⟩ := learns unfound
    refine (Finset.ssubset_iff_of_subset fun b member => ?_).mpr
      ⟨a,List.mem_toFinset.mpr learned,fun member => fresh (List.mem_toFinset.mp member)⟩
    obtain ⟨name,has⟩ := address_owned (List.mem_toFinset.mp member)
    exact List.mem_toFinset.mpr (owned_address (keeps _ has))
  have passed := roundsUntil_invariant kept (laps + 1) start
  have found := roundsUntil_done kept inside grows start (Nat.lt_of_lt_of_le (Nat.lt_succ_of_le enough) (Nat.le_add_right _ _))
  rw [ClCluster.citrusleafClusterAddHost,if_neg (by simpa using new),looked]
  dsimp only
  rw [if_neg (not_not_intro rfl),rounds]
  generalize roundsUntil (·.foundAll) (·.clusterTend net) (laps + 1) (s.registerHost host port) = after at passed found ⊢
  refine ⟨?_,found,passed.partly.distinct,passed.exact found⟩
  obtain ⟨a,member⟩ := List.exists_mem_of_ne_nil v some
  have seed : a ∈ (s.registerHost host port).lookupHosts net.resolver := by
    refine mem_lookupHosts_last s net.resolver host port ?_
    rw [looked]
    exact member
  obtain ⟨name,answer,_⟩ := steady.answers a (hosts a seed)
  have known := owned_address ((passed.exact found name a).mpr ⟨answer,.seed (.inr seed)⟩)
  refine if_pos (List.any_eq_true.mpr ⟨a,member,?_⟩)
  cases byaddr : clClusterNodeGetByaddr after.nodeV a with
  | some cn => rfl
  | none => exact absurd known (getByaddr_none.mp (Option.isNone_iff_eq_none.mpr byaddr))

/-- Two nodes: the host is the first one, and it announces the second, which announces nobody. -/
def pair : Network where
  resolver hostname := if hostname = text "host" then some [#v[10,0,0,1]] else if hostname = text "peer" then some [#v[10,0,0,2]] else none
  nodeName a := if a = sockaddrIn #v[10,0,0,1] 3000 then .values (text "node\tA\n") else .values (text "node\tB\n")
  malloc _ := true
  present _ := true
  ping name := if name = text "A" then .values (text "node\tA\nservices\tpeer:3000\n") else .values (text "node\tB\nservices\t\n")

theorem add_host_finds_pair :
    let seeds := Seed pair citrusleafClusterCreate (citrusleafClusterCreate.registerHost (text "host") 3000)
    let (rv,after) := citrusleafClusterCreate.citrusleafClusterAddHost pair [pair,pair] (text "host") 3000
    rv = 0 ∧ after.foundAll = true ∧ Distinct after.nodeV ∧
      ∀ name a, (name,a) ∈ owned after.nodeV ↔
        clGetNodeName (pair.nodeName a) = some name ∧ ReachedFrom seeds (Announces [] pair) a := by
  let first := sockaddrIn #v[10,0,0,1] 3000
  let second := sockaddrIn #v[10,0,0,2] 3000
  have named : clGetNodeName (pair.nodeName first) = some (text "A") ∧ clGetNodeName (pair.nodeName second) = some (text "B") := by
    decide +kernel
  have said : announced [] pair (text "A") = [second] ∧ announced [] pair (text "B") = [] := by decide +kernel
  have steady : Steady [] pair {first,second} := by
    refine ⟨fun a member => ?_,fun _ _ => rfl,fun a member b edge => ?_⟩
    · rcases Finset.mem_insert.mp member with rfl | member
      · exact ⟨_,named.1,rfl⟩
      · obtain rfl := Finset.mem_singleton.mp member
        exact ⟨_,named.2,rfl⟩
    · obtain ⟨name,answer,there⟩ := edge
      rcases Finset.mem_insert.mp member with rfl | member
      · obtain rfl := Option.some.inj (named.1.symm.trans answer)
        rw [said.1] at there
        exact Finset.mem_insert_of_mem (Finset.mem_singleton.mpr (List.mem_singleton.mp there))
      · obtain rfl := Finset.mem_singleton.mp member
        obtain rfl := Option.some.inj (named.2.symm.trans answer)
        rw [said.2] at there
        exact absurd there List.not_mem_nil
  have hosts : (citrusleafClusterCreate.registerHost (text "host") 3000).lookupHosts pair.resolver = [first] := by
    decide +kernel
  have consistent : Consistent pair {first,second} citrusleafClusterCreate :=
    ⟨rfl,rfl,distinct_nil,fun _ _ known => absurd known List.not_mem_nil,fun _ known => absurd known List.not_mem_nil⟩
  have inside : ∀ a ∈ (citrusleafClusterCreate.registerHost (text "host") 3000).lookupHosts pair.resolver,
      a ∈ ({first,second} : Finset SockaddrIn) := by
    rw [hosts]
    intro a member
    exact Finset.mem_insert.mpr (.inl (List.mem_singleton.mp member))
  have looked : clLookup [] pair.resolver (text "host") 3000 [] = (0,[first]) := by decide +kernel
  have two : ({first,second} : Finset SockaddrIn).card ≤ 2 := Finset.card_le_two
  exact add_host_finds citrusleafClusterCreate pair {first,second} (text "host") 3000 [first] 2 steady consistent inside
    List.not_mem_nil looked (List.cons_ne_nil _ _) two

end Citrusleaf.Discovery
