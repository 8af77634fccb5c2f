import Citrusleaf.Text
import Citrusleaf.TendLifetime

/-! `do_scan_monte` with a node name: `cl_cluster_node_get_byname` looks the node up under the lock
of the cluster and gives the lock back, and `cl_cluster_node_reserve` comes after that. -/
namespace Citrusleaf.Tend
open Lib Citrusleaf.Partition

/-- A node that a scan has found and not yet reserved, and whether it was freed meanwhile. -/
structure FoundNode where
  node : Node
  freed : Bool

structure ScanState (n : Nat) where
  cluster : TendState n
  name : Node → CString
  found : List FoundNode
  /-- Whether a scan has reserved a node that had been freed. -/
  reservedFreed : Bool

inductive ScanEvent (n : Nat) where
  /-- A step of the tend thread or of a transaction; a node that is created gets this name. -/
  | life (event : TendEvent n) (name : CString)
  | getByname (name : CString)
  /-- One of the scans that have found their node reserves it. -/
  | reserve (scan : Nat)

namespace ScanState

def start (n : Nat) : ScanState n := ⟨.start n,fun _ => [],[],false⟩

def nameCreated (s : ScanState n) (name : CString) : TendEvent n → Node → CString
  | .tend (.addNode node) => if s.cluster.count node = 0 then Function.update s.name node name else s.name
  | _ => s.name

def clClusterNodeGetByname (s : ScanState n) (name : CString) : Option Node :=
  s.cluster.nodeV.find? fun cn => s.name cn = name

/-- The nodes that a step frees are marked where a scan has found them. -/
def life (s : ScanState n) (event : TendEvent n) (name : CString) : ScanState n :=
  let cluster := lifeStep s.cluster event
  {s with
    cluster
    name := s.nameCreated name event
    found := s.found.map fun f => {f with freed := f.freed || decide (f.node ∈ cluster.zeroed)}}

/-- `cl_cluster_node_reserve(node, "T+")`; what a freed node holds is not followed any further. -/
def reserve (s : ScanState n) (scan : Nat) (f : FoundNode) : ScanState n :=
  let s := {s with found := s.found.eraseIdx scan}
  if f.freed then {s with reservedFreed := true} else {s with cluster := take s.cluster f.node}

def step (s : ScanState n) : ScanEvent n → ScanState n
  | .life event name => s.life event name
  | .getByname name =>
    match s.clClusterNodeGetByname name with
    | none => s
    | some node => {s with found := ⟨node,false⟩ :: s.found}
  | .reserve scan =>
    match s.found[scan]? with
    | none => s
    | some f => s.reserve scan f

end ScanState

/-- The step gives back the last reference of the node: that of the node list, or that of a
transaction. -/
def ReleasesLast (s : TendState n) (node : Node) : TendEvent n → Prop
  | .tend _ => (∃ i, s.tender = .removed i node) ∧ s.count node = 1
  | .put other => other = node ∧ node ∈ s.held ∧ s.count node = 1
  | _ => False

namespace ScanState

/-- No step gives back the last reference of a node that a scan has found and not yet reserved. -/
def Kept (s : ScanState n) : ScanEvent n → Prop
  | .life event _ => ∀ f ∈ s.found, ¬ReleasesLast s.cluster f.node event
  | _ => True

end ScanState

/-! ### What is freed -/

variable {s : TendState n} {node : Node}

theorem makeCalls_release_zeroed (node : Node) (tag : Tag) (other : Node) :
    other ∈ (s.makeCalls [.release node tag]).zeroed ↔ other = node ∧ s.count node ≤ 1 := by
  simp only [TendState.makeCalls,List.foldl_cons,List.foldl_nil,countCall]
  split
  · rename_i last
    rw [List.mem_singleton]
    exact (and_iff_left (by omega)).symm
  · rename_i more
    exact iff_of_false List.not_mem_nil fun both => more (by omega)

theorem addNode_zeroed (none : s.zeroed = []) : (addNode s node).zeroed = [] := by
  rw [addNode]
  split
  · rfl
  · exact none

/-- A node that a tend step frees has left the node list, and the reference of the list was its last. -/
theorem Sound.tendStep_zeroed (sound : Sound s) (input : Input n) (freed : node ∈ (Tend.tendStep s input).zeroed) :
    (∃ i, s.tender = .removed i node) ∧ s.count node = 1 := by
  have here := sound.tender
  unfold Tend.tendStep at freed
  cases tender : s.tender <;> rw [tender] at freed
  case idle => cases freed
  case hosts =>
    cases input with
    | addNode other =>
      rw [show _ = [] from addNode_zeroed rfl] at freed
      cases freed
    | update => cases freed
    | proceed => cases freed
  case visit i =>
    dsimp only at freed
    split at freed
    · cases freed
    · split at freed <;> cases freed
  case masters i cn todo =>
    cases todo with
    | nil => cases freed
    | cons place todo =>
      dsimp only at freed
      split at freed <;> cases freed
  case proles i cn todo =>
    rw [At,tender] at here
    cases todo with
    | nil => cases freed
    | cons place todo =>
      have kept := sound.slot_kept place (here.2.1 place List.mem_cons_self) (dropProle cn (slotAt s.head place)).2
        fun node => dropProle_released ..
      have none := (countCalls_spec _ s.count [] kept).1
      change node ∈ ((dropProle cn (slotAt s.head place)).2.foldl countCall (s.count,[])).2 at freed
      rw [none] at freed
      cases freed
  case absent i cn =>
    dsimp only at freed
    split at freed <;> cases freed
  case removed i cn =>
    obtain ⟨rfl,last⟩ := (makeCalls_release_zeroed cn .C node).mp freed
    change s.count node ≤ 1 at last
    have total := sound.count node
    rw [tender,pending,if_pos rfl] at total
    exact ⟨⟨i,rfl⟩,by omega⟩
  case ping i cn =>
    cases input with
    | addNode => cases freed
    | update malloc ns masters proles =>
      dsimp only at freed
      split at freed <;> cases freed
    | proceed => cases freed
  case update i cn k masters proles todo =>
    rw [At,tender] at here
    cases todo with
    | nil => cases freed
    | cons pid todo =>
      have kept := sound.slot_kept (k,pid) here.2 (updateSlot cn (masters pid) (proles pid) (slotAt s.head (k,pid))).2
        fun node => updateSlot_released ..
      have none := (countCalls_spec _ s.count [] kept).1
      change node ∈ ((updateSlot cn (masters pid) (proles pid) (slotAt s.head (k,pid))).2.foldl countCall (s.count,[])).2 at freed
      rw [none] at freed
      cases freed
  case services =>
    cases input with
    | addNode other =>
      rw [show _ = [] from addNode_zeroed rfl] at freed
      cases freed
    | update => cases freed
    | proceed => cases freed

theorem Sound.zeroed_last (sound : Sound s) (event : TendEvent n) (freed : node ∈ (Tend.lifeStep s event).zeroed) :
    ReleasesLast s node event := by
  unfold Tend.lifeStep at freed
  cases event with
  | tend input => exact sound.tendStep_zeroed input freed
  | tableGet ns pid write dice =>
    dsimp only at freed
    split at freed <;> cases freed
  | getRandom =>
    dsimp only at freed
    split at freed <;> cases freed
  | put other =>
    dsimp only at freed
    split at freed
    · rename_i member
      obtain ⟨rfl,last⟩ := (makeCalls_release_zeroed other .T node).mp freed
      change s.count node ≤ 1 at last
      have total := sound.count node
      have holds := List.count_pos_iff.mpr member
      exact ⟨rfl,member,by omega⟩
    · cases freed

/-! ### Runs -/

namespace ScanState

structure Inv (s : ScanState n) : Prop where
  sound : Sound s.cluster
  found : ∀ f ∈ s.found, f.freed = false
  alive : s.reservedFreed = false

variable {s : ScanState n}

theorem Inv.life (inv : s.Inv) (event : TendEvent n) (name : CString) (kept : s.Kept (.life event name)) :
    (s.life event name).Inv := by
  refine ⟨inv.sound.lifeStep event,fun f member => ?_,inv.alive⟩
  obtain ⟨before,found,rfl⟩ := List.mem_map.mp member
  have stays : before.node ∉ (lifeStep s.cluster event).zeroed := fun freed =>
    kept before found (inv.sound.zeroed_last event freed)
  exact Bool.or_eq_false_iff.mpr ⟨inv.found before found,decide_eq_false stays⟩

theorem Inv.reserve (inv : s.Inv) {scan : Nat} {f : FoundNode} (there : s.found[scan]? = some f) : (s.reserve scan f).Inv := by
  have alive := inv.found f (List.mem_of_getElem? there)
  have others : ∀ g ∈ s.found.eraseIdx scan, g.freed = false := fun g member => inv.found g (List.mem_of_mem_eraseIdx member)
  rw [ScanState.reserve,alive]
  exact ⟨inv.sound.take f.node,others,inv.alive⟩

theorem Inv.step (inv : s.Inv) (event : ScanEvent n) (kept : s.Kept event) : (s.step event).Inv := by
  cases event with
  | life event name => exact inv.life event name kept
  | getByname name =>
    rw [ScanState.step]
    split
    · exact inv
    · refine ⟨inv.sound,fun f member => ?_,inv.alive⟩
      rcases List.mem_cons.mp member with rfl | member
      · rfl
      · exact inv.found f member
  | reserve scan =>
    rw [ScanState.step]
    split
    · exact inv
    · rename_i f there
      exact inv.reserve there

theorem start_inv (n : Nat) : (start n).Inv := ⟨start_sound n,nofun,rfl⟩

end ScanState

/-- In a run in which no step gives back the last reference of a node between the lookup of a scan
and its reservation, every node that a scan reserves is alive. -/
theorem found_node_alive (n : Nat) (events : List (ScanEvent n))
    (kept : Guarded ScanState.step ScanState.Kept (ScanState.start n) events) :
    Always ScanState.step (fun s => s.reservedFreed = false) (ScanState.start n) events :=
  (always_of_guarded (fun _ event inv kept => inv.step event kept) (ScanState.start_inv n) kept).mono fun _ inv => inv.alive

/-- A scan finds the new node, the tend thread goes on, the scan reserves the node and puts it back. -/
theorem found_node_alive_once :
    Always ScanState.step (fun s => s.reservedFreed = false) (ScanState.start 4096)
      [.life (.tend .proceed) [],.life (.tend (.addNode 7)) [65],.getByname [65],.life (.tend .proceed) [],.reserve 0,
        .life (.put 7) []] :=
  found_node_alive 4096 _ ⟨nofun,nofun,trivial,(fun _ _ last => nomatch last.1),trivial,nofun,trivial⟩

/-- The third pass removes the node between the lookup and the reservation. -/
theorem found_node_freed :
    ¬Always ScanState.step (fun s => s.reservedFreed = false) (ScanState.start 4096)
      ([.life (.tend .proceed) [],.life (.tend (.addNode 7)) [65]] ++ List.replicate 19 (.life (.tend .proceed) []) ++
        [.getByname [65],.life (.tend .proceed) [],.life (.tend .proceed) [],.reserve 0]) := by
  intro always
  have last := (always_iff _ _ _ _).mp always _ [] (List.append_nil _).symm
  exact Bool.noConfusion (last.symm.trans (by decide : _ = true))

end Citrusleaf.Tend
