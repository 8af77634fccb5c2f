import Citrusleaf.TendLifetime

/-! The end of a cluster: `citrusleaf_cluster_destroy` gives back the references of the node
list and of the partition table. The nodes that transactions still hold outlive it. -/
namespace Citrusleaf.Tend
open Lib Citrusleaf.Partition

/-- What `cl_partition_table_destroy_all` does to one slot. -/
def destroySlot (p : ClPartition) : List NodeCall :=
  (p.master.map fun node => NodeCall.release node .PM).toList ++ (p.prole.map fun node => NodeCall.release node .PP).toList

def clPartitionTableDestroyAll (head : Tables n) : List NodeCall :=
  head.flatMap fun pt => (List.finRange n).flatMap fun pid => destroySlot (pt.partitions pid)

/-- `citrusleaf_cluster_destroy`, once no tender runs. -/
def citrusleafClusterDestroy (s : TendState n) : TendState n :=
  {s with nodeV := [],head := []}.makeCalls
    (s.nodeV.map (fun node => NodeCall.release node .C) ++ clPartitionTableDestroyAll s.head)

/-- Transactions put their nodes back one by one: the nodes this frees, in order, and the last state. -/
def putAll (s : TendState n) : List Node → List Node × TendState n
  | [] => ([],s)
  | node :: puts =>
    let s := lifeStep s (.put node)
    let (freed,last) := putAll s puts
    (s.zeroed ++ freed,last)

/-! ### Releases -/

theorem released_cons (node : Node) (call : NodeCall) (calls : List NodeCall) :
    released node (call :: calls) = released node [call] + released node calls :=
  released_append node [call] calls

/-- Releases that the counts allow: each takes one off, and a node is zeroed once, by its last one. -/
theorem releases_spec (calls : List NodeCall) (only : ∀ call ∈ calls, ∃ node tag, call = .release node tag)
    (count : Node → Nat) (zeroed : List Node) (bounded : ∀ node, released node calls ≤ count node) :
    (∀ node, (calls.foldl countCall (count,zeroed)).1 node + released node calls = count node) ∧
      ∃ new, (calls.foldl countCall (count,zeroed)).2 = new ++ zeroed ∧ new.Nodup ∧
        ∀ node, node ∈ new ↔ released node calls = count node ∧ 0 < count node := by
  induction calls generalizing count zeroed with
  | nil =>
    refine ⟨fun node => rfl,[],rfl,List.nodup_nil,fun node => ?_⟩
    have none : released node [] = 0 := rfl
    rw [none]
    exact iff_of_false List.not_mem_nil fun both => by omega
  | cons call calls ih =>
    obtain ⟨other,tag,rfl⟩ := only call List.mem_cons_self
    have one (node : Node) : released node [NodeCall.release other tag] = if node = other then 1 else 0 :=
      (release_counts node other tag).2
    have own := bounded other
    rw [released_cons,one,if_pos rfl] at own
    have rest : ∀ node, released node calls ≤ Function.update count other (count other - 1) node := by
      intro node
      have before := bounded node
      rw [released_cons,one] at before
      by_cases same : node = other
      · subst same
        rw [if_pos rfl] at before
        rw [Function.update_self]
        omega
      · rw [if_neg same] at before
        rw [Function.update_of_ne same]
        omega
    have later := ih (fun call member => only call (List.mem_cons_of_mem _ member))
      (Function.update count other (count other - 1))
      (if count other - 1 = 0 then other :: zeroed else zeroed) rest
    rw [List.foldl_cons,countCall]
    dsimp only
    obtain ⟨counted,new,same,distinct,members⟩ := later
    refine ⟨fun node => ?_,?_⟩
    · have after := counted node
      rw [released_cons,one]
      by_cases here : node = other
      · subst here
        rw [Function.update_self] at after
        rw [if_pos rfl]
        omega
      · rw [Function.update_of_ne here] at after
        rw [if_neg here]
        omega
    · have others (node : Node) (different : node ≠ other) :
          node ∈ new ↔ released node (.release other tag :: calls) = count node ∧ 0 < count node := by
        rw [members,released_cons,one,if_neg different,Function.update_of_ne different,Nat.zero_add]
      have here := members other
      rw [Function.update_self] at here
      by_cases last : count other - 1 = 0
      · have absent : other ∉ new := fun member => by
          have := here.mp member
          omega
        refine ⟨new ++ [other],?_,?_,fun node => ?_⟩
        · rw [same,if_pos last,List.append_assoc,List.singleton_append]
        · exact distinct.append (List.nodup_singleton other) (by simpa using absent)
        · rw [List.mem_append,List.mem_singleton]
          by_cases different : node = other
          · subst different
            rw [released_cons,one,if_pos rfl]
            exact iff_of_true (.inr rfl) ⟨by omega,by omega⟩
          · rw [others node different]
            exact ⟨fun either => either.resolve_right different,.inl⟩
      · refine ⟨new,?_,distinct,fun node => ?_⟩
        · rw [same,if_neg last]
        · by_cases different : node = other
          · subst different
            rw [here,released_cons,one,if_pos rfl]
            omega
          · exact others node different

theorem released_destroySlot (node : Node) (p : ClPartition) : released node (destroySlot p) = places node p := by
  rw [destroySlot,released_append,places]
  congr 1
  · cases p.master with
    | none => rfl
    | some other =>
      rw [Option.map_some,Option.toList_some,(release_counts node other .PM).2]
      simp only [Option.some.injEq,eq_comm]
  · cases p.prole with
    | none => rfl
    | some other =>
      rw [Option.map_some,Option.toList_some,(release_counts node other .PP).2]
      simp only [Option.some.injEq,eq_comm]

theorem released_destroyAll (node : Node) (head : Tables n) :
    released node (clPartitionTableDestroyAll head) = totalPlaces node head := by
  rw [clPartitionTableDestroyAll,released_flatMap,totalPlaces]
  refine congrArg List.sum (List.map_congr_left fun pt _ => ?_)
  rw [released_flatMap,tablePlaces]
  exact congrArg List.sum (List.map_congr_left fun pid _ => released_destroySlot node (pt.partitions pid))

theorem released_list (node : Node) (nodeV : List Node) :
    released node (nodeV.map fun node => NodeCall.release node .C) = nodeV.count node := by
  rw [released,List.countP_map]
  exact List.countP_congr fun other _ => Iff.rfl

theorem destroy_releases (head : Tables n) (nodeV : List Node) (call : NodeCall)
    (member : call ∈ nodeV.map (fun node => NodeCall.release node .C) ++ clPartitionTableDestroyAll head) :
    ∃ node tag, call = .release node tag := by
  rcases List.mem_append.mp member with list | table
  · obtain ⟨node,_,rfl⟩ := List.mem_map.mp list
    exact ⟨node,.C,rfl⟩
  · obtain ⟨pt,_,slots⟩ := List.mem_flatMap.mp table
    obtain ⟨pid,_,slot⟩ := List.mem_flatMap.mp slots
    rcases List.mem_append.mp slot with master | prole
    · obtain ⟨node,_,rfl⟩ := Option.map_eq_some_iff.mp (Option.mem_toList.mp master)
      exact ⟨node,.PM,rfl⟩
    · obtain ⟨node,_,rfl⟩ := Option.map_eq_some_iff.mp (Option.mem_toList.mp prole)
      exact ⟨node,.PP,rfl⟩

/-! ### Destroy, and the transactions that go on -/

/-- Only transactions have references. -/
def HeldOnly (s : TendState n) : Prop := ∀ node, s.count node = s.held.count node

theorem destroy_spec {s : TendState n} (sound : Sound s) (idle : s.tender = .idle) :
    HeldOnly (citrusleafClusterDestroy s) ∧ (citrusleafClusterDestroy s).held = s.held ∧
      (citrusleafClusterDestroy s).zeroed.Nodup ∧
      ∀ node, node ∈ (citrusleafClusterDestroy s).zeroed ↔ 0 < s.count node ∧ node ∉ s.held := by
  have total (node : Node) : s.count node = s.nodeV.count node + totalPlaces node s.head + s.held.count node := by
    have count := sound.count node
    rw [idle] at count
    exact count
  have gives (node : Node) : released node (s.nodeV.map (fun node => NodeCall.release node .C) ++ clPartitionTableDestroyAll s.head) =
      s.nodeV.count node + totalPlaces node s.head := by
    rw [released_append,released_list,released_destroyAll]
  obtain ⟨counted,new,same,distinct,members⟩ := releases_spec _ (destroy_releases s.head s.nodeV) s.count []
    fun node => by rw [gives]; have := total node; omega
  rw [List.append_nil] at same
  refine ⟨fun node => ?_,rfl,?_,fun node => ?_⟩
  · have after := counted node
    have before := total node
    rw [gives] at after
    change (List.foldl countCall (s.count,[]) _).1 node = s.held.count node
    omega
  · change (List.foldl countCall (s.count,[]) _).2.Nodup
    rw [same]
    exact distinct
  · change node ∈ (List.foldl countCall (s.count,[]) _).2 ↔ _
    have before := total node
    have held : node ∉ s.held ↔ s.held.count node = 0 := List.count_eq_zero.symm
    rw [same,members,gives,held]
    omega

theorem HeldOnly.put {s : TendState n} (only : HeldOnly s) (node : Node) (member : node ∈ s.held) :
    HeldOnly (lifeStep s (.put node)) ∧ (lifeStep s (.put node)).held = s.held.erase node ∧
      (lifeStep s (.put node)).zeroed = if node ∈ s.held.erase node then [] else [node] := by
  have before := only node
  have left := List.count_erase_self (a := node) (l := s.held)
  have last : s.count node - 1 = 0 ↔ node ∉ s.held.erase node := by
    rw [before,← left]
    exact List.count_eq_zero
  rw [lifeStep,if_pos member]
  refine ⟨fun other => ?_,rfl,?_⟩
  · change Function.update s.count node (s.count node - 1) other = (s.held.erase node).count other
    by_cases same : other = node
    · subst same
      rw [Function.update_self,left,before]
    · rw [Function.update_of_ne same,List.count_erase_of_ne same]
      exact only other
  · change (if s.count node - 1 = 0 then [node] else []) = _
    by_cases kept : node ∈ s.held.erase node
    · rw [if_pos kept,if_neg fun zero => last.mp zero kept]
    · rw [if_neg kept,if_pos (last.mpr kept)]

theorem putAll_spec {s : TendState n} (only : HeldOnly s) (puts : List Node) (all : puts.Perm s.held) :
    (putAll s puts).1.Nodup ∧ (∀ node, node ∈ (putAll s puts).1 ↔ node ∈ s.held) ∧
      (∀ node, (putAll s puts).2.count node = 0) := by
  induction puts generalizing s with
  | nil =>
    have none : s.held = [] := all.symm.eq_nil
    refine ⟨List.nodup_nil,fun node => by rw [none]; rfl,fun node => ?_⟩
    change s.count node = 0
    rw [only node,none,List.count_nil]
  | cons node puts ih =>
    have member : node ∈ s.held := all.mem_iff.mp List.mem_cons_self
    obtain ⟨later,held,zeroed⟩ := only.put node member
    have rest : puts.Perm (lifeStep s (.put node)).held := by
      rw [held]
      exact (List.cons_perm_iff_perm_erase.mp all).2
    obtain ⟨distinct,members,none⟩ := ih later rest
    rw [held] at members
    rw [putAll]
    dsimp only
    rw [zeroed]
    refine ⟨?_,fun other => ?_,none⟩
    · split
      · exact distinct
      · rename_i gone
        exact List.nodup_cons.mpr ⟨fun again => gone ((members node).mp again),distinct⟩
    · rw [List.mem_append,members]
      by_cases same : other = node
      · subst same
        split
        · rename_i again
          exact iff_of_true (.inr again) member
        · exact iff_of_true (.inl (List.mem_singleton_self _)) member
      · rw [List.mem_erase_of_ne same]
        split
        · simp
        · simp [same]

/-- A cluster is destroyed after any run, while transactions hold nodes, and these put their nodes back in any order:
every node is freed exactly once, a node that is held only when it is put back the last time, and no reference is left. -/
theorem destroy_frees_once (n : Nat) (events : List (TendEvent n))
    (idle : (run lifeStep (TendState.start n) events).tender = .idle) (puts : List Node)
    (all : puts.Perm (run lifeStep (TendState.start n) events).held) :
    let s := run lifeStep (TendState.start n) events
    let destroyed := citrusleafClusterDestroy s
    let (freed,last) := putAll destroyed puts
    (destroyed.zeroed ++ freed).Nodup ∧ (∀ node, node ∈ destroyed.zeroed ++ freed ↔ 0 < s.count node) ∧
      (∀ node ∈ destroyed.zeroed, node ∉ s.held) ∧ ∀ node, last.count node = 0 := by
  have preserved : ∀ s event, Sound s → Sound (lifeStep (n := n) s event) := fun _ event sound => sound.lifeStep event
  have sound := run_invariant preserved (start_sound n) events
  generalize run lifeStep (TendState.start n) events = s at idle all sound
  obtain ⟨only,held,distinct,members⟩ := destroy_spec sound idle
  obtain ⟨later,put,none⟩ := putAll_spec only puts (held.symm ▸ all)
  rw [held] at put
  refine ⟨distinct.append later fun node now after => ((members node).mp now).2 ((put node).mp after),fun node => ?_,
    fun node member => ((members node).mp member).2,none⟩
  rw [List.mem_append,members,put]
  constructor
  · rintro (freed | member)
    · exact freed.1
    · have count := sound.count node
      have some := List.count_pos_iff.mpr member
      omega
  · intro positive
    by_cases member : node ∈ s.held
    · exact .inr member
    · exact .inl ⟨positive,member⟩

/-- A node that the table names and two transactions hold, and a node that only the list names. -/
def sampleEvents : List (TendEvent 1) :=
  [.tend .proceed,.tend (.addNode 7),.tend (.addNode 9),.tend .proceed,.tend .proceed,
    .tend (.update true [110] (fun _ => true) (fun _ => false)),.tend .proceed,.tend .proceed,.tend .proceed,
    .tend .proceed,.tend .proceed,.tend .proceed,.tend .proceed,.tableGet [110] 0 true false,.tableGet [110] 0 true false]

theorem destroy_frees_once_sample :
    let s := run lifeStep (TendState.start 1) sampleEvents
    let destroyed := citrusleafClusterDestroy s
    let (freed,last) := putAll destroyed [7,7]
    destroyed.zeroed = [9] ∧ freed = [7] ∧ (destroyed.zeroed ++ freed).Nodup ∧ ∀ node, last.count node = 0 := by
  have frees := destroy_frees_once 1 sampleEvents rfl [7,7] (List.Perm.refl _)
  exact ⟨by decide,by decide,frees.1,frees.2.2.2⟩

end Citrusleaf.Tend
