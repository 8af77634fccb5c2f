import Citrusleaf.Cluster
import Mathlib.Data.List.Nodup
import Mathlib.Data.List.TakeWhile

/-! `citrusleaf_cluster_get` called again. It finds the first cluster that lists a host with its port, and the
ports that are listed are those that fit a `short`. -/
namespace Citrusleaf.Cluster
open Lib

/-- A port as `citrusleaf_cluster_add_host` takes and lists it. -/
def toShort (port : Int) : Int := (BitVec.ofInt 16 port).toInt

/-- The loop of `citrusleaf_cluster_add_host` on one cluster: a host that is listed, or that `cl_lookup` does not find,
is not added. -/
def withHost (address : Address) (host : CString) (port : Int) (found : Bool) (asc : ClCluster) : ClCluster :=
  if asc.address = address ∧ asc.hosts.contains (host,toShort port) = false ∧ found = true then
    {asc with hosts := asc.hosts ++ [(host,toShort port)]}
  else asc

/-- `citrusleaf_cluster_add_host` called for a cluster by anybody. -/
def addHost (r : Registry) (address : Address) (host : CString) (port : Int) (found : Bool) : Registry :=
  {r with clusterLl := r.clusterLl.map (withHost address host port found)}

/-- `ref_count++` of one cluster. -/
def reserve (address : Address) (asc : ClCluster) : ClCluster :=
  if asc.address = address then {asc with refCount := asc.refCount + 1} else asc

/-- `citrusleaf_cluster_get_or_create`, which takes the port as a `short` and counts a reference of a cluster it
finds; `found` says whether `citrusleaf_cluster_add_host` returns OK for a new one, which is destroyed else. -/
def citrusleafClusterGetOrCreate (r : Registry) (host : CString) (port : Int) (found : Bool) : Option Address × Registry :=
  match r.clusterLl.find? fun asc => asc.hosts.contains (host,toShort port) with
  | some asc => (some asc.address,{r with clusterLl := r.clusterLl.map (reserve asc.address)})
  | none =>
    let (asc,r) := citrusleafClusterCreate r
    let r := addHost r asc.address host port found
    if found then (some asc.address,r) else (none,(citrusleafClusterReleaseOrDestroy r asc.address).1)

/-- The calls that destroy no cluster but one that they have just made. -/
inductive RegistryCall where
  | get (url : CString) (nodeAdded : Bool)
  | getOrCreate (host : CString) (port : Int) (found : Bool)
  | create
  | addHost (address : Address) (host : CString) (port : Int) (found : Bool)

def registryCall (r : Registry) : RegistryCall → Registry
  | .get url nodeAdded => (citrusleafClusterGet r url nodeAdded).2
  | .getOrCreate host port found => (citrusleafClusterGetOrCreate r host port found).2
  | .create => (citrusleafClusterCreate r).2
  | .addHost address host port found => addHost r address host port found

/-- The lists that calls lead to. -/
inductive Reached : Registry → Prop where
  | start : Reached ⟨[],0⟩
  | call (reached : Reached r) (call : RegistryCall) : Reached (registryCall r call)
  | release (reached : Reached r) (address : Address) : Reached (citrusleafClusterReleaseOrDestroy r address).1
  | destroy (reached : Reached r) (address : Address) : Reached (citrusleafClusterDestroy r address)

/-- Addresses are those of one cluster each, and ports fit a `short`. -/
structure Sound (r : Registry) : Prop where
  below : ∀ asc ∈ r.clusterLl, asc.address < r.next
  distinct : (r.clusterLl.map ClCluster.address).Nodup
  short : ∀ asc ∈ r.clusterLl, ∀ listed ∈ asc.hosts, listed.2 < 2 ^ 15

variable {r s after : Registry} {asc : ClCluster} {address c : Address} {host : CString} {port : Int} {url : CString}

theorem toShort_lt (port : Int) : toShort port < 2 ^ 15 := by
  have bound := BitVec.two_mul_toInt_lt (x := BitVec.ofInt 16 port)
  rw [toShort]
  omega

theorem toShort_small (positive : 1 ≤ port) (small : port < 2 ^ 15) : toShort port = port := by
  rw [toShort,BitVec.toInt_ofInt]
  exact Int.bmod_eq_of_le (by omega) (by omega)

/-! ### What a call does to the list -/

/-- The call lists the host with the cluster. -/
def Lists (address : Address) (listed : CString × Int) : RegistryCall → Prop
  | .addHost address' host port found => found = true ∧ address' = address ∧ (host,toShort port) = listed
  | _ => False

theorem withHost_address (address : Address) (host : CString) (port : Int) (found : Bool) (asc : ClCluster) :
    (withHost address host port found asc).address = asc.address := by
  rw [withHost]
  split <;> rfl

theorem withHost_hosts (address : Address) (host : CString) (port : Int) (found : Bool) (asc : ClCluster) (listed : CString × Int) :
    listed ∈ (withHost address host port found asc).hosts ↔
      listed ∈ asc.hosts ∨ Lists asc.address listed (.addHost address host port found) := by
  rw [withHost]
  split
  · rename_i adds
    simp [Lists,adds.1,adds.2.2,eq_comm]
  · rename_i keeps
    constructor
    · exact .inl
    · rintro (old | ⟨present,same,rfl⟩)
      · exact old
      · by_contra absent
        exact keeps ⟨same.symm,by simpa using absent,present⟩

/-- Clusters stay where they are, get the host that a call lists, and are followed by new ones. -/
structure Grows (call : RegistryCall) (r after : Registry) (grow : ClCluster → ClCluster) (more : List ClCluster) : Prop where
  address : ∀ asc, (grow asc).address = asc.address
  hosts : ∀ asc listed, listed ∈ (grow asc).hosts ↔ listed ∈ asc.hosts ∨ Lists asc.address listed call
  list : after.clusterLl = r.clusterLl.map grow ++ more
  next : r.next ≤ after.next
  fresh : ∀ asc ∈ more, r.next ≤ asc.address ∧ asc.address < after.next
  single : (more.map ClCluster.address).Nodup
  short : ∀ asc ∈ more, ∀ listed ∈ asc.hosts, listed.2 < 2 ^ 15

/-- The call lists no host with a cluster that was there. -/
def Listless (call : RegistryCall) : Prop := ∀ address listed, ¬Lists address listed call

theorem Grows.none (listless : Listless call) (list : after.clusterLl = r.clusterLl) (next : r.next ≤ after.next) :
    Grows call r after id [] where
  address _ := rfl
  hosts asc listed := (or_iff_left (listless asc.address listed)).symm
  list := by simp [list]
  next := next
  fresh := by simp
  single := List.nodup_nil
  short := by simp

theorem Grows.one (listless : Listless call) (asc : ClCluster) (list : after.clusterLl = r.clusterLl ++ [asc])
    (next : after.next = r.next + 1) (address : asc.address = r.next) (short : ∀ listed ∈ asc.hosts, listed.2 < 2 ^ 15) :
    Grows call r after id [asc] where
  address _ := rfl
  hosts asc listed := (or_iff_left (listless asc.address listed)).symm
  list := by simp [list]
  next := next ▸ Nat.le_succ _
  fresh := by
    intro new member
    obtain rfl := List.mem_singleton.mp member
    exact ⟨Nat.le_of_eq address.symm,Nat.lt_of_le_of_lt (Nat.le_of_eq address) (next ▸ Nat.lt_succ_self _)⟩
  single := by simp
  short := by simpa using short

theorem create_addHost (sound : Sound r) (host : CString) (port : Int) :
    citrusleafClusterAddHost (citrusleafClusterCreate r).2 r.next host port =
      ⟨r.clusterLl ++ [⟨r.next,[(host,toShort port)],1⟩],r.next + 1⟩ := by
  have others : r.clusterLl.map (fun asc =>
      if asc.address = r.next then {asc with hosts := asc.hosts ++ [(host,toShort port)]} else asc) = r.clusterLl := by
    refine (List.map_congr_left ?_).trans (List.map_id _)
    intro asc member
    exact if_neg (Nat.ne_of_lt (sound.below asc member))
  simpa [citrusleafClusterAddHost,citrusleafClusterCreate,toShort] using others

theorem create_destroy (sound : Sound r) (hosts : List (CString × Int)) :
    citrusleafClusterDestroy ⟨r.clusterLl ++ [⟨r.next,hosts,1⟩],r.next + 1⟩ r.next = ⟨r.clusterLl,r.next + 1⟩ := by
  have others : r.clusterLl.filter (fun asc => asc.address ≠ r.next) = r.clusterLl := by
    rw [List.filter_eq_self]
    intro asc member
    simpa using Nat.ne_of_lt (sound.below asc member)
  simpa [citrusleafClusterDestroy] using others

/-- The first cluster that lists a host with its port. -/
def lookup (r : Registry) (listed : CString × Int) : Option ClCluster :=
  r.clusterLl.find? fun asc => asc.hosts.contains listed

theorem lookup_eq (r : Registry) (listed : CString × Int) :
    lookup r listed = r.clusterLl.find? fun asc => listed ∈ asc.hosts := by
  simp [lookup]

theorem get_listed (parsed : urlHost url = some (host,port)) (found : lookup r (host,port) = some asc) (nodeAdded : Bool) :
    citrusleafClusterGet r url nodeAdded = (some asc.address,r) := by
  rw [lookup_eq] at found
  simp [citrusleafClusterGet,parsed,found]

theorem get_unlisted (sound : Sound r) (parsed : urlHost url = some (host,port)) (missing : lookup r (host,port) = none)
    (nodeAdded : Bool) :
    citrusleafClusterGet r url nodeAdded =
      if nodeAdded then (some r.next,⟨r.clusterLl ++ [⟨r.next,[(host,toShort port)],1⟩],r.next + 1⟩)
      else (none,⟨r.clusterLl,r.next + 1⟩) := by
  have added := create_addHost sound host port
  rw [lookup_eq] at missing
  simp only [citrusleafClusterGet,parsed,missing]
  rw [show (citrusleafClusterCreate r).1.address = r.next from rfl,added,create_destroy sound]

theorem getOrCreate_listed (found : lookup r (host,toShort port) = some asc) (present : Bool) :
    citrusleafClusterGetOrCreate r host port present =
      (some asc.address,{r with clusterLl := r.clusterLl.map (reserve asc.address)}) := by
  rw [lookup] at found
  rw [citrusleafClusterGetOrCreate,found]

/-- A cluster that is made and listed, or made and released. -/
theorem getOrCreate_unlisted (sound : Sound r) (missing : lookup r (host,toShort port) = none) (present : Bool) :
    citrusleafClusterGetOrCreate r host port present =
      if present then (some r.next,⟨r.clusterLl ++ [⟨r.next,[(host,toShort port)],1⟩],r.next + 1⟩)
      else (none,⟨r.clusterLl,r.next + 1⟩) := by
  have other (asc : ClCluster) (member : asc ∈ r.clusterLl) : asc.address ≠ r.next := Nat.ne_of_lt (sound.below asc member)
  have kept : r.clusterLl.map (withHost r.next host port present) = r.clusterLl := by
    refine (List.map_congr_left fun asc member => ?_).trans (List.map_id _)
    exact if_neg fun adds => other asc member adds.1
  rw [lookup] at missing
  simp only [citrusleafClusterGetOrCreate,missing,citrusleafClusterCreate,addHost,List.map_append,List.map_singleton,kept]
  cases present with
  | true => simp [withHost]
  | false =>
    have released : r.clusterLl.find? (fun asc => asc.address = r.next) = none := by
      rw [List.find?_eq_none]
      simpa using other
    have destroyed := create_destroy sound []
    simp [withHost,citrusleafClusterReleaseOrDestroy,released,destroyed]

theorem registryCall_grows (sound : Sound r) (call : RegistryCall) : ∃ grow more, Grows call r (registryCall r call) grow more := by
  cases call with
  | get url nodeAdded =>
    cases parsed : urlHost url with
    | none =>
      have same : citrusleafClusterGet r url nodeAdded = (none,r) := by simp [citrusleafClusterGet,parsed]
      exact ⟨_,[],.none (fun _ _ => id) (by simp [registryCall,same]) (by simp [registryCall,same])⟩
    | some listed =>
      obtain ⟨host,port⟩ := listed
      cases found : lookup r (host,port) with
      | some asc =>
        have same := get_listed parsed found nodeAdded
        exact ⟨_,[],.none (fun _ _ => id) (by simp [registryCall,same]) (by simp [registryCall,same])⟩
      | none =>
        have made := get_unlisted sound parsed found nodeAdded
        cases nodeAdded with
        | true =>
          refine ⟨_,_,.one (fun _ _ => id) ⟨r.next,[(host,toShort port)],1⟩ ?_ ?_ rfl ?_⟩
          · simp [registryCall,made]
          · simp [registryCall,made]
          · simpa using toShort_lt port
        | false => exact ⟨_,[],.none (fun _ _ => id) (by simp [registryCall,made]) (by simp [registryCall,made])⟩
  | getOrCreate host port present =>
    cases found : lookup r (host,toShort port) with
    | some asc =>
      -- only the count of references changes
      have same := getOrCreate_listed found present
      refine ⟨reserve asc.address,[],?_,?_,?_,?_,by simp,List.nodup_nil,by simp⟩
      · intro other
        rw [reserve]
        split <;> rfl
      · intro other listed
        rw [reserve]
        split <;> exact (or_iff_left id).symm
      · simp [registryCall,same]
      · simp [registryCall,same]
    | none =>
      have made := getOrCreate_unlisted sound found present
      cases present with
      | true =>
        refine ⟨_,_,.one (fun _ _ => id) ⟨r.next,[(host,toShort port)],1⟩ ?_ ?_ rfl ?_⟩
        · simp [registryCall,made]
        · simp [registryCall,made]
        · simpa using toShort_lt port
      | false => exact ⟨_,[],.none (fun _ _ => id) (by simp [registryCall,made]) (by simp [registryCall,made])⟩
  | create =>
    refine ⟨_,_,.one (fun _ _ => id) ⟨r.next,[],1⟩ ?_ rfl rfl (by simp)⟩
    simp [registryCall,citrusleafClusterCreate]
  | addHost address host port found =>
    refine ⟨withHost address host port found,[],withHost_address address host port found,
      withHost_hosts address host port found,?_,Nat.le_refl _,by simp,List.nodup_nil,by simp⟩
    exact (List.append_nil _).symm

theorem Sound.call (sound : Sound r) (call : RegistryCall) : Sound (registryCall r call) := by
  obtain ⟨grow,more,grows⟩ := registryCall_grows sound call
  have old : (r.clusterLl.map grow).map ClCluster.address = r.clusterLl.map ClCluster.address := by
    simp [Function.comp_def,grows.address]
  constructor
  · intro asc member
    rcases List.mem_append.mp (grows.list ▸ member) with kept | new
    · obtain ⟨before,present,rfl⟩ := List.mem_map.mp kept
      rw [grows.address]
      exact Nat.lt_of_lt_of_le (sound.below before present) grows.next
    · exact (grows.fresh asc new).2
  · rw [grows.list,List.map_append,old,List.nodup_append]
    refine ⟨sound.distinct,grows.single,?_⟩
    intro address member other new
    obtain ⟨asc,present,rfl⟩ := List.mem_map.mp member
    obtain ⟨fresh,added,rfl⟩ := List.mem_map.mp new
    exact Nat.ne_of_lt (Nat.lt_of_lt_of_le (sound.below asc present) (grows.fresh fresh added).1)
  · intro asc member listed lists
    rcases List.mem_append.mp (grows.list ▸ member) with kept | new
    · obtain ⟨before,present,rfl⟩ := List.mem_map.mp kept
      rcases (grows.hosts before listed).mp lists with old | added
      · exact sound.short before present listed old
      · cases call with
        | get => exact added.elim
        | getOrCreate => exact added.elim
        | create => exact added.elim
        | addHost address host port found =>
          obtain ⟨_,_,rfl⟩ := added
          exact toShort_lt port
    · exact grows.short asc new listed lists

theorem Sound.get (sound : Sound r) (got : citrusleafClusterGet r url nodeAdded = (result,after)) : Sound after := by
  have called := sound.call (.get url nodeAdded)
  rwa [registryCall,got] at called

theorem Sound.destroy (sound : Sound r) (address : Address) : Sound (citrusleafClusterDestroy r address) where
  below asc member := sound.below asc (List.mem_filter.mp member).1
  distinct := sound.distinct.sublist (List.filter_sublist.map _)
  short asc member := sound.short asc (List.mem_filter.mp member).1

theorem Sound.release (sound : Sound r) (address : Address) : Sound (citrusleafClusterReleaseOrDestroy r address).1 := by
  unfold citrusleafClusterReleaseOrDestroy
  split
  · exact sound
  · split
    · split
      · exact sound.destroy address
      · -- the reference counts are all that changes
        have same (asc : ClCluster) :
            (if asc.address = address then {asc with refCount := asc.refCount - 1} else asc).address = asc.address := by
          split <;> rfl
        constructor
        · intro asc member
          obtain ⟨before,present,rfl⟩ := List.mem_map.mp member
          split <;> exact sound.below before present
        · simpa [Function.comp_def,same] using sound.distinct
        · intro asc member
          obtain ⟨before,present,rfl⟩ := List.mem_map.mp member
          split <;> exact sound.short before present
    · exact sound

theorem Reached.sound (reached : Reached r) : Sound r := by
  induction reached with
  | start => exact ⟨by simp,by simp,by simp⟩
  | call _ call ih => exact ih.call call
  | release _ address ih => exact ih.release address
  | destroy _ address ih => exact ih.destroy address

/-! ### The first cluster that lists a host -/

/-- The clusters that the search for a host meets before `c`. -/
def ahead (r : Registry) (c : Address) : List ClCluster := r.clusterLl.takeWhile fun asc => asc.address ≠ c

/-- The cluster lists the host and is the first to do so. -/
structure First (r : Registry) (c : Address) (listed : CString × Int) : Prop where
  lists : ∃ asc ∈ r.clusterLl, asc.address = c ∧ listed ∈ asc.hosts
  alone : ∀ asc ∈ ahead r c, listed ∉ asc.hosts

/-- A cluster ahead of `c` lists the host as well. -/
structure Taken (r : Registry) (c : Address) (listed : CString × Int) : Prop where
  live : Live r c
  other : ∃ asc ∈ ahead r c, listed ∈ asc.hosts

/-- The call does not list the host with a cluster ahead of `c`. -/
def NotAhead (c : Address) (listed : CString × Int) (r : Registry) (call : RegistryCall) : Prop :=
  ∀ asc ∈ ahead r c, ¬Lists asc.address listed call

variable {listed : CString × Int} {call : RegistryCall} {grow : ClCluster → ClCluster} {more : List ClCluster}

theorem ahead_grows (grows : Grows call r after grow more) (live : Live r c) : ahead after c = (ahead r c).map grow := by
  have stops : (r.clusterLl.takeWhile fun asc => asc.address ≠ c).length ≠ r.clusterLl.length := by
    intro whole
    obtain ⟨asc,member,same⟩ := live
    have all := (List.takeWhile_sublist _).eq_of_length whole
    rw [← all] at member
    simpa [same] using List.mem_takeWhile_imp member
  have moved : (r.clusterLl.map grow).takeWhile (fun asc => asc.address ≠ c) =
      (r.clusterLl.takeWhile fun asc => asc.address ≠ c).map grow := by
    simp [List.takeWhile_map,Function.comp_def,grows.address]
  unfold ahead
  rw [grows.list,List.takeWhile_append,moved,if_neg (by simpa using stops)]

theorem live_grows (grows : Grows call r after grow more) (live : Live r c) : Live after c := by
  obtain ⟨asc,member,rfl⟩ := live
  exact ⟨grow asc,grows.list ▸ List.mem_append_left _ (List.mem_map_of_mem member),grows.address asc⟩

theorem First.live (first : First r c listed) : Live r c := by
  obtain ⟨asc,member,same,_⟩ := first.lists
  exact ⟨asc,member,same⟩

theorem First.grows (grows : Grows call r after grow more) (first : First r c listed) (unlisted : NotAhead c listed r call) :
    First after c listed := by
  constructor
  · obtain ⟨asc,member,same,lists⟩ := first.lists
    refine ⟨grow asc,?_,(grows.address asc).trans same,(grows.hosts asc listed).mpr (.inl lists)⟩
    rw [grows.list]
    exact List.mem_append_left _ (List.mem_map_of_mem member)
  · rw [ahead_grows grows first.live]
    intro asc member lists
    obtain ⟨before,present,rfl⟩ := List.mem_map.mp member
    rcases (grows.hosts before listed).mp lists with old | added
    · exact first.alone before present old
    · exact unlisted before present added

theorem First.lost (grows : Grows call r after grow more) (first : First r c listed) (ahead : ¬NotAhead c listed r call) :
    Taken after c listed := by
  refine ⟨live_grows grows first.live,?_⟩
  rw [ahead_grows grows first.live]
  simp only [NotAhead,not_forall,not_not] at ahead
  obtain ⟨asc,member,added⟩ := ahead
  exact ⟨grow asc,List.mem_map_of_mem member,(grows.hosts asc listed).mpr (.inr added)⟩

theorem Taken.grows (grows : Grows call r after grow more) (taken : Taken r c listed) : Taken after c listed := by
  refine ⟨live_grows grows taken.live,?_⟩
  rw [ahead_grows grows taken.live]
  obtain ⟨asc,member,lists⟩ := taken.other
  exact ⟨grow asc,List.mem_map_of_mem member,(grows.hosts asc listed).mpr (.inl lists)⟩

theorem ahead_split (live : Live r c) : ∃ mine later, r.clusterLl = ahead r c ++ mine :: later ∧ mine.address = c := by
  have whole := List.takeWhile_append_dropWhile (p := fun asc : ClCluster => asc.address ≠ c) (l := r.clusterLl)
  cases rest : r.clusterLl.dropWhile fun asc => asc.address ≠ c with
  | nil =>
    obtain ⟨asc,member,same⟩ := live
    have different := List.dropWhile_eq_nil_iff.mp rest asc member
    exact absurd same (by simpa using different)
  | cons mine later =>
    have stopped := List.head_dropWhile_not (fun asc : ClCluster => asc.address ≠ c) (l := r.clusterLl)
      (rest ▸ List.cons_ne_nil mine later)
    have head : (r.clusterLl.dropWhile fun asc => asc.address ≠ c).head (rest ▸ List.cons_ne_nil mine later) = mine := by
      simp only [rest,List.head_cons]
    rw [head] at stopped
    refine ⟨mine,later,?_,by simpa using stopped⟩
    rw [ahead,← rest]
    exact whole.symm

theorem Sound.one {mine : ClCluster} (sound : Sound r) (member : asc ∈ r.clusterLl) (other : mine ∈ r.clusterLl)
    (same : mine.address = asc.address) : mine = asc :=
  List.inj_on_of_nodup_map sound.distinct other member same

theorem First.lookup (sound : Sound r) (first : First r c listed) : ∃ asc, lookup r listed = some asc ∧ asc.address = c := by
  obtain ⟨mine,later,list,same⟩ := ahead_split first.live
  obtain ⟨asc,member,matching,lists⟩ := first.lists
  have present : mine ∈ r.clusterLl := by simp [list]
  obtain rfl := sound.one member present (same.trans matching.symm)
  refine ⟨mine,?_,same⟩
  rw [lookup_eq,List.find?_eq_some_iff_append]
  refine ⟨by simpa using lists,ahead r c,later,list,?_⟩
  intro other before
  simpa using first.alone other before

theorem Taken.lookup (taken : Taken r c listed) (found : lookup r listed = some asc) : asc.address ≠ c := by
  obtain ⟨mine,later,list,_⟩ := ahead_split taken.live
  obtain ⟨other,before,lists⟩ := taken.other
  have stops : ((ahead r c).find? fun asc => listed ∈ asc.hosts).isSome := by
    rw [List.find?_isSome]
    exact ⟨other,before,by simpa using lists⟩
  obtain ⟨earliest,search⟩ := Option.isSome_iff_exists.mp stops
  rw [lookup_eq,list,List.find?_append,search,Option.some_or] at found
  obtain rfl := Option.some.inj found
  simpa using List.mem_takeWhile_imp (List.mem_of_find?_eq_some search)

theorem first_of_lookup (sound : Sound r) (found : lookup r listed = some asc) : First r asc.address listed := by
  obtain ⟨lists,before,later,list,unlisted⟩ := List.find?_eq_some_iff_append.mp found
  have distinct := sound.distinct
  rw [list,List.map_append,List.nodup_append] at distinct
  have stop : ahead r asc.address = before := by
    rw [ahead,list,List.takeWhile_append_of_pos]
    · simp
    · intro other member
      have different := distinct.2.2 other.address (List.mem_map_of_mem member) asc.address (by simp)
      simpa using different
  constructor
  · exact ⟨asc,by simp [list],rfl,by simpa using lists⟩
  · rw [stop]
    intro other member
    simpa using unlisted other member

/-! ### A get and later ones -/

theorem Sound.unlisted (sound : Sound r) (host : CString) (wide : 2 ^ 15 ≤ port) : lookup r (host,port) = none := by
  cases found : Cluster.lookup r (host,port) with
  | none => rfl
  | some asc =>
    obtain ⟨asc,member,_,lists⟩ := (first_of_lookup sound found).lists
    have short := sound.short asc member (host,port) lists
    exact absurd short (by simpa using wide)

/-- A cluster that is returned was found, or is the new last one. -/
theorem get_cases (sound : Sound r) (parsed : urlHost url = some (host,port))
    (got : citrusleafClusterGet r url nodeAdded = (some c,after)) :
    (∃ asc, lookup r (host,port) = some asc ∧ asc.address = c ∧ after = r) ∨
      (lookup r (host,port) = none ∧ c = r.next ∧
        after = ⟨r.clusterLl ++ [⟨r.next,[(host,toShort port)],1⟩],r.next + 1⟩) := by
  cases found : lookup r (host,port) with
  | some asc =>
    rw [get_listed parsed found] at got
    obtain ⟨rfl,rfl⟩ := got
    exact .inl ⟨asc,rfl,rfl,rfl⟩
  | none =>
    rw [get_unlisted sound parsed found] at got
    cases nodeAdded with
    | false => simp at got
    | true =>
      obtain ⟨rfl,rfl⟩ := got
      exact .inr ⟨rfl,rfl,rfl⟩

/-- A cluster that `citrusleaf_cluster_get` returned is in the list. -/
theorem get_live (sound : Sound r) (parsed : urlHost url = some (host,port))
    (got : citrusleafClusterGet r url nodeAdded = (some c,after)) : Live after c := by
  rcases get_cases sound parsed got with ⟨asc,found,rfl,rfl⟩ | ⟨_,rfl,rfl⟩
  · exact (first_of_lookup sound found).live
  · exact ⟨_,List.mem_append_right _ List.mem_cons_self,rfl⟩

theorem get_first (sound : Sound r) (parsed : urlHost url = some (host,port)) (positive : 1 ≤ port) (small : port < 2 ^ 15)
    (got : citrusleafClusterGet r url nodeAdded = (some c,after)) : First after c (host,port) := by
  have later := sound.get got
  rcases get_cases sound parsed got with ⟨asc,found,rfl,rfl⟩ | ⟨missing,rfl,rfl⟩
  · exact first_of_lookup sound found
  · have listed : lookup ⟨r.clusterLl ++ [⟨r.next,[(host,toShort port)],1⟩],r.next + 1⟩ (host,port) =
        some ⟨r.next,[(host,toShort port)],1⟩ := by
      rw [lookup_eq] at missing ⊢
      simp [missing,toShort_small positive small]
    exact first_of_lookup later listed

/-- A later get of the same url returns the cluster exactly when the cluster is the first that lists the host. -/
theorem get_again (sound : Sound r) (parsed : urlHost url = some (host,port)) (live : Live r c) (nodeAdded : Bool) :
    (citrusleafClusterGet r url nodeAdded).1 = some c ↔ ∃ asc, lookup r (host,port) = some asc ∧ asc.address = c := by
  cases found : lookup r (host,port) with
  | some asc => simp [get_listed parsed found]
  | none =>
    obtain ⟨asc,member,rfl⟩ := live
    have new := Nat.ne_of_gt (sound.below asc member)
    rw [get_unlisted sound parsed found]
    cases nodeAdded <;> simp [new]

theorem run_get_again (sound : Sound after) (first : First after c (host,port)) (parsed : urlHost url = some (host,port))
    (calls : List RegistryCall) (nodeAdded : Bool) :
    (citrusleafClusterGet (run registryCall after calls) url nodeAdded).1 = some c ↔
      Guarded registryCall (NotAhead c (host,port)) after calls := by
  have kept : ∀ s call, Sound s ∧ First s c (host,port) → NotAhead c (host,port) s call →
      Sound (registryCall s call) ∧ First (registryCall s call) c (host,port) := by
    rintro s call ⟨sound,first⟩ unlisted
    obtain ⟨grow,more,grows⟩ := registryCall_grows sound call
    exact ⟨sound.call call,first.grows grows unlisted⟩
  have lost : ∀ s call, Sound s ∧ First s c (host,port) → ¬NotAhead c (host,port) s call →
      Sound (registryCall s call) ∧ Taken (registryCall s call) c (host,port) := by
    rintro s call ⟨sound,first⟩ lists
    obtain ⟨grow,more,grows⟩ := registryCall_grows sound call
    exact ⟨sound.call call,first.lost grows lists⟩
  have stays : ∀ s call, Sound s ∧ Taken s c (host,port) →
      Sound (registryCall s call) ∧ Taken (registryCall s call) c (host,port) := by
    rintro s call ⟨sound,taken⟩
    obtain ⟨grow,more,grows⟩ := registryCall_grows sound call
    exact ⟨sound.call call,taken.grows grows⟩
  have turns := run_good_or_bad kept lost stays ⟨sound,first⟩ calls
  rcases turns with ⟨guarded,still,first⟩ | ⟨broken,still,taken⟩
  · exact iff_of_true ((get_again still parsed first.live nodeAdded).mpr (first.lookup still)) guarded
  · refine iff_of_false ?_ broken
    intro again
    obtain ⟨asc,found,same⟩ := (get_again still parsed taken.live nodeAdded).mp again
    exact taken.lookup found same

theorem run_live (sound : Sound r) (live : Live r c) (calls : List RegistryCall) :
    Sound (run registryCall r calls) ∧ Live (run registryCall r calls) c := by
  have kept : ∀ s call, Sound s ∧ Live s c → Sound (registryCall s call) ∧ Live (registryCall s call) c := by
    rintro s call ⟨sound,live⟩
    obtain ⟨grow,more,grows⟩ := registryCall_grows sound call
    exact ⟨sound.call call,live_grows grows live⟩
  exact run_invariant kept ⟨sound,live⟩ calls

/-- A url whose host no cluster lists gets a cluster that was not there. -/
theorem get_other (sound : Sound r) (parsed : urlHost url = some (host,port)) (unlisted : ∀ asc ∈ r.clusterLl, (host,port) ∉ asc.hosts)
    (got : citrusleafClusterGet r url nodeAdded = (some c,after)) : Live after c ∧ ¬Live r c := by
  refine ⟨get_live sound parsed got,?_⟩
  have missing : lookup r (host,port) = none := by
    rw [lookup_eq,List.find?_eq_none]
    simpa using unlisted
  rcases get_cases sound parsed got with ⟨asc,found,_⟩ | ⟨_,rfl,_⟩
  · rw [missing] at found
    cases found
  · rintro ⟨asc,member,same⟩
    exact Nat.ne_of_lt (sound.below asc member) same

/-- After a get of a url returned a cluster, and as long as none is destroyed, gets of it return that cluster exactly
when the port fits the `short` it is listed as and no cluster ahead has been given the same host since. Gets of
hosts that no cluster lists return new clusters. -/
theorem get_same_iff (reached : Reached r) (parsed : urlHost url = some (host,port)) (positive : 1 ≤ port)
    (_ : port ≤ 65535) (got : citrusleafClusterGet r url nodeAdded = (some c,after)) (calls : List RegistryCall) :
    let s := run registryCall after calls
    ((∀ nodeAdded', (citrusleafClusterGet s url nodeAdded').1 = some c) ↔
      port < 32768 ∧ Guarded registryCall (NotAhead c (host,port)) after calls) ∧
    ∀ url' host' port', urlHost url' = some (host',port') → (∀ asc ∈ s.clusterLl, (host',port') ∉ asc.hosts) →
      ∀ nodeAdded' d t, citrusleafClusterGet s url' nodeAdded' = (some d,t) → Live t d ∧ ¬Live s d ∧ d ≠ c := by
  have sound := reached.sound
  have later := sound.get got
  have live := get_live sound parsed got
  obtain ⟨still,lives⟩ := run_live later live calls
  constructor
  · by_cases small : port < 32768
    · have first := get_first sound parsed positive small got
      have each := run_get_again later first parsed calls
      constructor
      · intro same
        exact ⟨small,(each true).mp (same true)⟩
      · rintro ⟨_,guarded⟩ nodeAdded'
        exact (each nodeAdded').mpr guarded
    · refine iff_of_false ?_ (fun both => small both.1)
      intro same
      obtain ⟨asc,found,_⟩ := (get_again still parsed lives true).mp (same true)
      rw [still.unlisted host (by simpa using small)] at found
      simp at found
  · intro url' host' port' parsed' unlisted nodeAdded' d t got'
    obtain ⟨made,new⟩ := get_other still parsed' unlisted got'
    refine ⟨made,new,?_⟩
    rintro rfl
    exact new lives

/-! ### Ports that fit a `short` and ports that do not -/

theorem get_same_iff_small :
    let s := run registryCall ⟨[⟨0,[(text "db",3000)],1⟩],1⟩ [.create]
    ((∀ nodeAdded', (citrusleafClusterGet s (text "citrusleaf://db:3000") nodeAdded').1 = some 0) ↔
      (3000 : Int) < 32768 ∧ Guarded registryCall (NotAhead 0 (text "db",3000)) ⟨[⟨0,[(text "db",3000)],1⟩],1⟩ [.create]) ∧
    ∀ url' host' port', urlHost url' = some (host',port') → (∀ asc ∈ s.clusterLl, (host',port') ∉ asc.hosts) →
      ∀ nodeAdded' d t, citrusleafClusterGet s url' nodeAdded' = (some d,t) → Live t d ∧ ¬Live s d ∧ d ≠ 0 :=
  get_same_iff .start (show urlHost (text "citrusleaf://db:3000") = _ by decide) (by decide) (by decide)
    (show citrusleafClusterGet ⟨[],0⟩ (text "citrusleaf://db:3000") true = _ by decide) [.create]

/-- The port 40000 is listed as -25536, so the second get makes another cluster. -/
theorem wide_port_twice :
    ¬∀ r url host port nodeAdded c after, Reached r → urlHost url = some (host,port) → 1 ≤ port → port ≤ 65535 →
      citrusleafClusterGet r url nodeAdded = (some c,after) → ∀ calls,
        ∀ nodeAdded', (citrusleafClusterGet (run registryCall after calls) url nodeAdded').1 = some c := by
  intro same
  have again := same ⟨[],0⟩ (text "citrusleaf://db:40000") (text "db") 40000 true 0 ⟨[⟨0,[(text "db",-25536)],1⟩],1⟩ .start
    (by decide) (by decide) (by decide) (by decide) [] true
  exact absurd again (by decide)

end Citrusleaf.Cluster
