import Citrusleaf.Lib.Runs
import Citrusleaf.Text
import Mathlib.Logic.Function.Basic

/-! The global list of clusters, and the connect and close calls of PHP clients on it.
A connect to a host some cluster was made for returns that cluster; a close releases one
reference of the cluster the client points to. -/
namespace Citrusleaf.Cluster
open Lib

/-- A cluster object; every `malloc` of one gets a new address. -/
abbrev Address := Nat

abbrev Client := Nat

structure ClCluster where
  address : Address
  /-- `host_str_v` and `host_port_v` -/
  hosts : List (CString × Int)
  refCount : Nat
  deriving DecidableEq, Repr

structure Registry where
  clusterLl : List ClCluster
  next : Address
  deriving DecidableEq, Repr

/-- The host and port of a url. `proto` starts at its first colon; the comparison with
"citrusleaf" is made after a NUL was written there, so it refuses nothing. A url with less
than two characters after the colon is read past its end and taken as an empty host. -/
def urlHost (url : CString) : Option (CString × Int) :=
  match url.dropWhile (· ≠ 58) with
  | [] => none
  | proto =>
    let rest := proto.drop 3
    let (host,port) :=
      if 58 ∈ rest then (rest.takeWhile (· ≠ 58),atoi ((rest.dropWhile (· ≠ 58)).drop 1))
      else (rest.takeWhile (· ≠ 47),0)
    some (host,if port = 0 then 3000 else port)

/-- `citrusleaf_cluster_create` -/
def citrusleafClusterCreate (r : Registry) : ClCluster × Registry :=
  let asc := ⟨r.next,[],1⟩
  (asc,⟨r.clusterLl ++ [asc],r.next + 1⟩)

/-- `citrusleaf_cluster_destroy`: unlink and free. -/
def citrusleafClusterDestroy (r : Registry) (address : Address) : Registry :=
  {r with clusterLl := r.clusterLl.filter fun asc => asc.address ≠ address}

/-- `citrusleaf_cluster_add_host` as far as later calls see it: the host is listed with its
port cut to a `short`. -/
def citrusleafClusterAddHost (r : Registry) (address : Address) (host : CString) (port : Int) : Registry :=
  {r with clusterLl := r.clusterLl.map fun asc =>
    if asc.address = address then
      {asc with hosts := asc.hosts ++ [(host,(BitVec.ofInt 16 port).toInt)]}
    else asc}

/-- `citrusleaf_cluster_get`; `nodeAdded` says whether adding the host to a new cluster
found a node. -/
def citrusleafClusterGet (r : Registry) (url : CString) (nodeAdded : Bool) : Option Address × Registry :=
  match urlHost url with
  | none => (none,r)
  | some (host,port) =>
    match r.clusterLl.find? fun asc => (host,port) ∈ asc.hosts with
    | some asc => (some asc.address,r)
    | none =>
      let (asc,r) := citrusleafClusterCreate r
      let r := citrusleafClusterAddHost r asc.address host port
      if nodeAdded then (some asc.address,r) else (none,citrusleafClusterDestroy r asc.address)

/-- What `CitrusleafClient::connect` is called with. -/
inductive ConnectArg where
  | string (urls : CString)
  | array (urls : List CString)

/-- The urls tried in order; `strtok` skips empty ones. -/
def ConnectArg.urls : ConnectArg → List CString
  | .string urls => (strSplit 44 urls).filter (· ≠ [])
  | .array urls => urls

/-- The loop of `connect`. `network i` is the fate of the cluster the `i`th url creates. -/
def connectLoop (network : Nat → Bool) (r : Registry) (i : Nat) : List CString → Option Address × Registry
  | [] => (none,r)
  | url :: urls =>
    match citrusleafClusterGet r url (network i) with
    | (some address,r) => (some address,r)
    | (none,r) => connectLoop network r (i + 1) urls

/-- `citrusleaf_cluster_release_or_destroy`: the registry, and whether `*asc` was cleared. -/
def citrusleafClusterReleaseOrDestroy (r : Registry) (address : Address) : Registry × Bool :=
  match r.clusterLl.find? fun asc => asc.address = address with
  | none => (r,false)
  | some asc =>
    if 0 < asc.refCount then
      if asc.refCount - 1 = 0 then (citrusleafClusterDestroy r address,true)
      else
        ({r with clusterLl := r.clusterLl.map fun asc =>
            if asc.address = address then {asc with refCount := asc.refCount - 1} else asc},false)
    else (r,false)

structure ClientState where
  registry : Registry
  /-- `clo->asc` of each client. -/
  asc : Client → Option Address
  /-- The cluster a client obtained by connect and has not closed. -/
  holds : Client → Option Address
  connected : List Client
  closed : List Client

def ClientState.start : ClientState := ⟨⟨[],0⟩,fun _ => none,fun _ => none,[],[]⟩

inductive ClientCall where
  | connect (client : Client) (arg : ConnectArg) (network : Nat → Bool)
  | close (client : Client)

def clientStep (s : ClientState) : ClientCall → ClientState
  | .connect client arg network =>
    let (result,registry) := connectLoop network s.registry 0 arg.urls
    let connected := client :: s.connected
    match result with
    | none => {s with registry,connected}
    | some address =>
      {s with
        registry
        connected
        asc := Function.update s.asc client (some address)
        holds := Function.update s.holds client (some address)}
  | .close client =>
    let s := {s with holds := Function.update s.holds client none,closed := client :: s.closed}
    match s.asc client with
    | none => s
    | some address =>
      let (registry,cleared) := citrusleafClusterReleaseOrDestroy s.registry address
      {s with registry,asc := if cleared then Function.update s.asc client none else s.asc}

/-- Each client connects once and closes at most once. -/
def Once (s : ClientState) : ClientCall → Prop
  | .connect client _ _ => client ∉ s.connected
  | .close client => client ∉ s.closed

instance (s : ClientState) (call : ClientCall) : Decidable (Once s call) :=
  match call with
  | .connect client _ _ => inferInstanceAs (Decidable (client ∉ s.connected))
  | .close client => inferInstanceAs (Decidable (client ∉ s.closed))

def Live (r : Registry) (address : Address) : Prop := ∃ asc ∈ r.clusterLl, asc.address = address

/-- A cluster exists exactly as long as some client holds it. -/
def LivesWhileHeld (s : ClientState) : Prop :=
  ∀ address, Live s.registry address ↔ ∃ client, s.holds client = some address

/-- No other client holds the cluster that is closed. -/
def Unshared (s : ClientState) : ClientCall → Prop
  | .connect _ _ _ => True
  | .close client => ∀ address, s.holds client = some address →
      ∀ other, s.holds other = some address → other = client

/-! ### Connect -/

/-- Every cluster has one reference and an address below the next one. -/
def Fresh (r : Registry) : Prop := ∀ asc ∈ r.clusterLl, asc.refCount = 1 ∧ asc.address < r.next

theorem live_destroy (r : Registry) (address other : Address) :
    Live (citrusleafClusterDestroy r address) other ↔ Live r other ∧ other ≠ address := by
  constructor
  · rintro ⟨asc,member,rfl⟩
    have ⟨old,different⟩ := List.mem_filter.mp member
    exact ⟨⟨asc,old,rfl⟩,by simpa using different⟩
  · rintro ⟨⟨asc,member,rfl⟩,different⟩
    exact ⟨asc,List.mem_filter.mpr ⟨member,by simpa using different⟩,rfl⟩

theorem live_addHost (r : Registry) (address : Address) (host : CString) (port : Int)
    (other : Address) : Live (citrusleafClusterAddHost r address host port) other ↔ Live r other := by
  simp only [Live,citrusleafClusterAddHost,List.mem_map,exists_exists_and_eq_and]
  constructor
  · rintro ⟨asc,member,same⟩
    exact ⟨asc,member,by split at same <;> exact same⟩
  · rintro ⟨asc,member,same⟩
    exact ⟨asc,member,by split <;> exact same⟩

theorem Fresh.addHost (fresh : Fresh r) (address : Address) (host : CString) (port : Int) :
    Fresh (citrusleafClusterAddHost r address host port) := by
  intro asc member
  obtain ⟨old,present,rfl⟩ := List.mem_map.mp member
  split <;> exact fresh old present

theorem Fresh.create (fresh : Fresh r) : Fresh (citrusleafClusterCreate r).2 := by
  intro asc member
  rcases List.mem_append.mp member with old | new
  · exact ⟨(fresh asc old).1,Nat.lt_succ_of_lt (fresh asc old).2⟩
  · obtain rfl := List.mem_singleton.mp new
    exact ⟨rfl,Nat.lt_succ_self _⟩

theorem live_create (r : Registry) (other : Address) :
    Live (citrusleafClusterCreate r).2 other ↔ Live r other ∨ other = r.next := by
  simp [Live,citrusleafClusterCreate,or_and_right,exists_or,eq_comm]

/-- A connect makes at most the cluster it returns. -/
theorem clusterGet_spec (r : Registry) (url : CString) (nodeAdded : Bool) (fresh : Fresh r) :
    let result := citrusleafClusterGet r url nodeAdded
    Fresh result.2 ∧ ∀ other, Live result.2 other ↔ Live r other ∨ result.1 = some other := by
  unfold citrusleafClusterGet
  split
  · exact ⟨fresh,by simp⟩
  · rename_i host port _
    split
    · rename_i asc found
      refine ⟨fresh,?_⟩
      intro other
      constructor
      · exact .inl
      · rintro (live | same)
        · exact live
        · exact ⟨asc,List.mem_of_find?_eq_some found,Option.some.inj same⟩
    · have created := fresh.create.addHost r.next host port
      have live (other : Address) := (live_addHost _ r.next host port other).trans (live_create r other)
      cases nodeAdded with
      | true =>
        refine ⟨created,?_⟩
        intro other
        refine (live other).trans ?_
        simp [citrusleafClusterCreate,eq_comm]
      | false =>
        constructor
        · intro asc member
          exact created asc (List.mem_filter.mp member).1
        · intro other
          refine ((live_destroy _ r.next other).trans (and_congr_left' (live other))).trans ?_
          constructor
          · rintro ⟨old | new,different⟩
            · exact .inl old
            · exact absurd new different
          · rintro (⟨asc,member,rfl⟩ | impossible)
            · exact ⟨.inl ⟨asc,member,rfl⟩,Nat.ne_of_lt (fresh asc member).2⟩
            · exact absurd impossible nofun

theorem connectLoop_spec (network : Nat → Bool) (r : Registry) (i : Nat) (urls : List CString)
    (fresh : Fresh r) :
    let result := connectLoop network r i urls
    Fresh result.2 ∧ ∀ other, Live result.2 other ↔ Live r other ∨ result.1 = some other := by
  induction urls generalizing r i with
  | nil => exact ⟨fresh,by simp [connectLoop]⟩
  | cons url urls ih =>
    have got := clusterGet_spec r url (network i) fresh
    unfold connectLoop
    split
    · rename_i address registry result
      rw [result] at got
      exact got
    · rename_i registry result
      rw [result] at got
      obtain ⟨later,live⟩ := ih registry (i + 1) got.1
      refine ⟨later,?_⟩
      intro other
      rw [live other,got.2 other]
      simp

/-! ### Runs -/

structure Inv (s : ClientState) : Prop where
  fresh : Fresh s.registry
  lives : LivesWhileHeld s
  own : ∀ client, client ∉ s.closed → s.asc client = s.holds client
  unconnected : ∀ client, client ∉ s.connected → s.holds client = none

theorem Inv.connect (inv : Inv s) (client : Client) (arg : ConnectArg) (network : Nat → Bool)
    (once : client ∉ s.connected) : Inv (clientStep s (.connect client arg network)) := by
  obtain ⟨fresh,live⟩ := connectLoop_spec network s.registry 0 arg.urls inv.fresh
  have before := inv.unconnected client once
  unfold clientStep
  dsimp only
  generalize connectLoop network s.registry 0 arg.urls = loop at fresh live
  obtain ⟨_ | address,registry⟩ := loop <;> dsimp only at fresh live ⊢
  · refine ⟨fresh,?_,inv.own,?_⟩
    · intro other
      exact (live other).trans (by simpa using inv.lives other)
    · intro other absent
      exact inv.unconnected other fun member => absent (List.mem_cons_of_mem _ member)
  · refine ⟨fresh,?_,?_,?_⟩
    · intro other
      refine (live other).trans ?_
      rw [inv.lives other]
      constructor
      · rintro (⟨holder,held⟩ | new)
        · have different : holder ≠ client := by
            rintro rfl
            exact absurd (before.symm.trans held) nofun
          exact ⟨holder,(Function.update_of_ne different ..).trans held⟩
        · exact ⟨client,(Function.update_self ..).trans new⟩
      · rintro ⟨holder,held⟩
        by_cases same : holder = client
        · subst same
          dsimp only at held
          rw [Function.update_self] at held
          exact .inr held
        · exact .inl ⟨holder,(Function.update_of_ne same ..).symm.trans held⟩
    · intro other unclosed
      by_cases same : other = client
      · subst same; simp
      · simpa [same] using inv.own other unclosed
    · intro other absent
      have different : other ≠ client := fun same => absent (same ▸ List.mem_cons_self)
      exact (Function.update_of_ne different ..).trans
        (inv.unconnected other fun member => absent (List.mem_cons_of_mem _ member))

/-- A close by a client that holds a cluster destroys it, whoever else holds it. -/
theorem Inv.close (inv : Inv s) (client : Client) (once : client ∉ s.closed)
    (held : s.holds client = some address) :
    clientStep s (.close client) = {s with
      registry := citrusleafClusterDestroy s.registry address
      asc := Function.update s.asc client none
      holds := Function.update s.holds client none
      closed := client :: s.closed} := by
  have points : s.asc client = some address := (inv.own client once).trans held
  obtain ⟨asc,member,same⟩ := (inv.lives address).mpr ⟨client,held⟩
  have present : (s.registry.clusterLl.find? fun asc => asc.address = address).isSome := by
    rw [List.find?_isSome]
    exact ⟨asc,member,by simpa using same⟩
  obtain ⟨found,lookup⟩ := Option.isSome_iff_exists.mp present
  have one := (inv.fresh found (List.mem_of_find?_eq_some lookup)).1
  simp [clientStep,points,citrusleafClusterReleaseOrDestroy,lookup,one]

theorem Inv.close_none (inv : Inv s) (client : Client) (once : client ∉ s.closed)
    (held : s.holds client = none) :
    clientStep s (.close client) = {s with closed := client :: s.closed} := by
  have points : s.asc client = none := (inv.own client once).trans held
  have same : Function.update s.holds client none = s.holds := by
    rw [← held,Function.update_eq_self]
  simp [clientStep,points,same]

/-- The close keeps cluster lifetimes right exactly when nobody else holds the cluster. -/
theorem Inv.close_iff (inv : Inv s) (client : Client) (once : client ∉ s.closed) :
    LivesWhileHeld (clientStep s (.close client)) ↔ Unshared s (.close client) := by
  cases held : s.holds client with
  | none =>
    rw [inv.close_none client once held]
    exact iff_of_true inv.lives fun address same => absurd (held.symm.trans same) nofun
  | some address =>
    rw [inv.close client once held]
    constructor
    · intro lives mine same other holder
      obtain rfl : address = mine := Option.some.inj (held.symm.trans same)
      by_contra different
      have kept : Live (citrusleafClusterDestroy s.registry address) address :=
        (lives address).mpr ⟨other,by simpa [different] using holder⟩
      exact ((live_destroy _ _ _).mp kept).2 rfl
    · intro unshared other
      refine (live_destroy _ _ _).trans ?_
      rw [inv.lives other]
      constructor
      · rintro ⟨⟨holder,holding⟩,different⟩
        have another : holder ≠ client := by
          rintro rfl
          exact different (Option.some.inj (holding.symm.trans held))
        exact ⟨holder,(Function.update_of_ne another ..).trans holding⟩
      · rintro ⟨holder,holding⟩
        by_cases same : holder = client
        · subst same
          exact absurd holding (by simp)
        · have kept : s.holds holder = some other := (Function.update_of_ne same ..).symm.trans holding
          refine ⟨⟨holder,kept⟩,?_⟩
          rintro rfl
          exact same (unshared other held holder kept)

theorem Inv.step (inv : Inv s) (call : ClientCall) (once : Once s call) (unshared : Unshared s call) :
    Inv (clientStep s call) := by
  cases call with
  | connect client arg network => exact inv.connect client arg network once
  | close client =>
    have lives := (inv.close_iff client once).mpr unshared
    cases held : s.holds client with
    | none =>
      rw [inv.close_none client once held] at lives ⊢
      exact ⟨inv.fresh,lives,fun other unclosed => inv.own other fun member =>
        unclosed (List.mem_cons_of_mem _ member),inv.unconnected⟩
    | some address =>
      rw [inv.close client once held] at lives ⊢
      refine ⟨fun asc member => inv.fresh asc (List.mem_filter.mp member).1,lives,?_,?_⟩
      · intro other unclosed
        have different : other ≠ client := fun same => unclosed (same ▸ List.mem_cons_self)
        simpa [different] using inv.own other fun member => unclosed (List.mem_cons_of_mem _ member)
      · intro other absent
        by_cases same : other = client
        · simp [same]
        · simpa [same] using inv.unconnected other absent

theorem start_inv : Inv ClientState.start :=
  ⟨nofun,fun _ => ⟨nofun,nofun⟩,fun _ _ => rfl,fun _ _ => rfl⟩

/-- In a run of connects and closes clusters exist exactly as long as they are held if
and only if no close is of a cluster another client still holds: a connect that reuses a
cluster takes no reference on it. -/
theorem cluster_lifetime (calls : List ClientCall)
    (once : Guarded clientStep Once ClientState.start calls) :
    Always clientStep LivesWhileHeld ClientState.start calls ↔
      Guarded clientStep Unshared ClientState.start calls := by
  refine always_iff_guarded (fun _ inv => Inv.lives inv) (fun _ call inv => Inv.step inv call) ?_
    start_inv once
  intro s call inv allowed lives
  cases call with
  | connect => trivial
  | close client => exact (inv.close_iff client allowed).mp lives

/-! ### Two clients of one url -/

def sampleConnect (client : Client) : ClientCall :=
  .connect client (.string (text "citrusleaf://db:3000")) fun _ => true

/-- Clients of one url each. -/
def apart : List ClientCall :=
  [sampleConnect 1,.connect 2 (.string (text "citrusleaf://db:4000")) fun _ => true,.close 1,.close 2]

theorem cluster_lifetime_alone : Always clientStep LivesWhileHeld ClientState.start apart := by
  have first : connectLoop (fun _ => true) ⟨[],0⟩ 0 (ConnectArg.string (text "citrusleaf://db:3000")).urls =
      (some 0,⟨[⟨0,[(text "db",3000)],1⟩],1⟩) := by decide +kernel
  have second : connectLoop (fun _ => true) ⟨[⟨0,[(text "db",3000)],1⟩],1⟩ 0
      (ConnectArg.string (text "citrusleaf://db:4000")).urls =
      (some 1,⟨[⟨0,[(text "db",3000)],1⟩,⟨1,[(text "db",4000)],1⟩],2⟩) := by decide +kernel
  have once : Guarded clientStep Once ClientState.start apart := ⟨by decide,by decide,by decide,by decide,trivial⟩
  have holds : (run clientStep ClientState.start (apart.take 2)).holds =
      Function.update (Function.update (fun _ => none) 1 (some 0)) 2 (some 1) := by
    simp [apart,run,clientStep,sampleConnect,ClientState.start,first,second]
  have closed : (run clientStep ClientState.start (apart.take 3)).holds =
      Function.update (Function.update (fun _ => none) 1 none) 2 (some 1) := by
    simp [apart,run,clientStep,sampleConnect,ClientState.start,first,second,Function.update_comm]
  refine (cluster_lifetime apart once).mpr ⟨trivial,trivial,?_,?_,trivial⟩
  · intro address held other same
    replace held := (congrFun holds 1).symm.trans held
    replace same := (congrFun holds other).symm.trans same
    clear first second once holds closed
    grind [Function.update_apply]
  · intro address held other same
    replace held := (congrFun closed 2).symm.trans held
    replace same := (congrFun closed other).symm.trans same
    clear first second once holds closed
    grind [Function.update_apply]

set_option maxRecDepth 2000 in
/-- The first close destroys the cluster the second client still holds. -/
theorem shared_cluster_destroyed :
    ¬∀ calls, Guarded clientStep Once ClientState.start calls →
      Always clientStep LivesWhileHeld ClientState.start calls := by
  intro every
  let calls := [sampleConnect 1,sampleConnect 2,.close 1]
  have always := every calls ⟨by decide,by decide,by decide,trivial⟩
  have lives := (always_iff _ _ _ _).mp always calls [] (List.append_nil _).symm
  have holds : (run clientStep ClientState.start calls).holds 2 = some 0 := by decide
  have empty : (run clientStep ClientState.start calls).registry.clusterLl = [] := by decide
  obtain ⟨asc,member,_⟩ := (lives 0).mpr ⟨2,holds⟩
  rw [empty] at member
  exact absurd member List.not_mem_nil

end Citrusleaf.Cluster
