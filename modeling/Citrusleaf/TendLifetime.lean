import Citrusleaf.Tend

/-! Node lifetime. The count of a node is its place in the node list, its places in the
partition table and the references transactions hold; a node leaves the list only after
the table has stopped naming it. -/
namespace Citrusleaf.Tend
open Lib Citrusleaf.Partition

/-! ### Slots by position -/

/-- Some slot of the chain names the node. -/
def Named (node : Node) (head : Tables n) : Prop :=
  ∃ place : Position n, place.1 < head.length ∧ Names node (slotAt head place)

theorem mem_positions (head : Tables n) (place : Position n) :
    place ∈ positions head ↔ place.1 < head.length := by
  obtain ⟨k,pid⟩ := place
  simp [positions]

@[simp] theorem setSlot_length (head : Tables n) (place : Position n) (p : ClPartition) :
    (setSlot head place p).length = head.length := by simp [setSlot]

theorem slotAt_setSlot (head : Tables n) (place other : Position n) (p : ClPartition)
    (inside : place.1 < head.length) :
    slotAt (setSlot head place p) other = if other = place then p else slotAt head other := by
  obtain ⟨k,pid⟩ := place
  obtain ⟨l,qid⟩ := other
  simp only [slotAt,setSlot,List.getElem?_modify]
  by_cases table : k = l
  · subst table
    have found : head[k]? = some head[k] := List.getElem?_eq_getElem inside
    by_cases slot : qid = pid
    · subst slot; simp [found]
    · simp [found,slot,Function.update_of_ne]
  · simp [table,Ne.symm table]

theorem tablePlaces_update (node : Node) (partitions : Fin n → ClPartition) (pid : Fin n)
    (p : ClPartition) :
    tablePlaces node (Function.update partitions pid p) + places node (partitions pid) =
      tablePlaces node partitions + places node p := by
  have general (pids : List (Fin n)) (distinct : pids.Nodup) (member : pid ∈ pids) :
      (pids.map fun q => places node (Function.update partitions pid p q)).sum +
        places node (partitions pid) = (pids.map fun q => places node (partitions q)).sum +
        places node p := by
    induction pids with
    | nil => simp at member
    | cons q pids ih =>
      rw [List.nodup_cons] at distinct
      rcases List.mem_cons.mp member with rfl | later
      · have others : (pids.map fun q => places node (Function.update partitions pid p q)) =
            pids.map fun q => places node (partitions q) := by
          apply List.map_congr_left
          intro q present
          have different : q ≠ pid := fun same => distinct.1 (same ▸ present)
          simp [different]
        simp only [List.map_cons,List.sum_cons,others,Function.update_self]
        omega
      · have different : q ≠ pid := fun same => distinct.1 (same ▸ later)
        have rest := ih distinct.2 later
        simp only [List.map_cons,List.sum_cons,Function.update_of_ne different]
        omega
  exact general _ (List.nodup_finRange n) (List.mem_finRange pid)

theorem totalPlaces_setSlot (node : Node) (head : Tables n) (place : Position n) (p : ClPartition)
    (inside : place.1 < head.length) :
    totalPlaces node (setSlot head place p) + places node (slotAt head place) =
      totalPlaces node head + places node p := by
  obtain ⟨k,pid⟩ := place
  simp only [totalPlaces,setSlot,slotAt]
  induction head generalizing k with
  | nil => simp at inside
  | cons pt rest ih =>
    cases k with
    | zero =>
      have table := tablePlaces_update node pt.partitions pid p
      simp only [List.modify_zero_cons,List.map_cons,List.sum_cons,List.getElem?_cons_zero,
        Option.map_some,Option.getD_some]
      omega
    | succ k =>
      have later := ih k (by simpa using inside)
      simp only [List.modify_succ_cons,List.map_cons,List.sum_cons,List.getElem?_cons_succ] at later ⊢
      omega

theorem totalPlaces_named (node : Node) (head : Tables n) :
    totalPlaces node head = 0 ↔ ¬Named node head := by
  constructor
  · rintro none ⟨⟨k,pid⟩,inside,names⟩
    have balance := totalPlaces_setSlot node head (k,pid) {} inside
    have empty : places node {} = 0 := by simp [places]
    have here : places node (slotAt head (k,pid)) ≠ 0 := fun zero =>
      (places_zero node _).mp zero names
    omega
  · intro unnamed
    refine List.sum_eq_zero ?_
    intro _ table
    obtain ⟨pt,member,rfl⟩ := List.mem_map.mp table
    refine List.sum_eq_zero ?_
    intro _ entry
    obtain ⟨pid,_,rfl⟩ := List.mem_map.mp entry
    rw [places_zero]
    intro names
    obtain ⟨k,inside,rfl⟩ := List.mem_iff_getElem.mp member
    exact unnamed ⟨(k,pid),inside,by simpa [slotAt,List.getElem?_eq_getElem inside] using names⟩

/-! ### Counted calls -/

theorem countCall_spec (call : NodeCall) (count : Node → Nat) (zeroed : List Node)
    (kept : ∀ node, released node [call] = 0 ∨ released node [call] < count node) :
    (countCall (count,zeroed) call).2 = zeroed ∧
    ∀ node, (countCall (count,zeroed) call).1 node + released node [call] = count node + reserved node [call] := by
  cases call with
  | reserve other tag =>
    refine ⟨rfl,fun node => ?_⟩
    rw [(reserve_counts node other tag).1,(reserve_counts node other tag).2]
    simp only [countCall]
    by_cases same : node = other
    · subst same
      rw [Function.update_self,if_pos rfl]
    · rw [Function.update_of_ne same,if_neg (by simpa using Ne.symm same)]
  | release other tag =>
    have own := kept other
    rw [(release_counts other other tag).2,if_pos rfl] at own
    have left : count other - 1 ≠ 0 := by omega
    simp only [countCall,left,if_false]
    refine ⟨trivial,fun node => ?_⟩
    rw [(release_counts node other tag).1,(release_counts node other tag).2]
    by_cases same : node = other
    · subst same
      rw [Function.update_self,if_pos rfl]
      omega
    · rw [Function.update_of_ne same,if_neg same]
  | forceReplicasRefresh other => exact ⟨rfl,fun _ => rfl⟩

theorem countCalls_spec (calls : List NodeCall) (count : Node → Nat) (zeroed : List Node)
    (kept : ∀ node, released node calls = 0 ∨ released node calls < count node) :
    (calls.foldl countCall (count,zeroed)).2 = zeroed ∧
    ∀ node, (calls.foldl countCall (count,zeroed)).1 node + released node calls =
      count node + reserved node calls := by
  induction calls generalizing count zeroed with
  | nil => simp [released,reserved]
  | cons call calls ih =>
    have split (node : Node) : released node (call :: calls) = released node [call] + released node calls ∧
        reserved node (call :: calls) = reserved node [call] + reserved node calls :=
      ⟨released_append node [call] calls,reserved_append node [call] calls⟩
    have first := countCall_spec call count zeroed fun node => by
      have before := kept node
      rw [(split node).1] at before
      omega
    rw [List.foldl_cons]
    generalize countCall (count,zeroed) call = made at first
    obtain ⟨count',zeroed'⟩ := made
    obtain ⟨same,now⟩ := first
    obtain ⟨later,after⟩ := ih count' zeroed' fun node => by
      have before := kept node
      have moved : count' node + released node [call] = count node + reserved node [call] := now node
      rw [(split node).1] at before
      omega
    refine ⟨later.trans same,fun node => ?_⟩
    have moved : count' node + released node [call] = count node + reserved node [call] := now node
    have rest := after node
    rw [(split node).1,(split node).2]
    omega

/-! ### The invariant -/

/-- The reference of a node that has left the list and is not yet released. -/
def pending (tender : Tender n) (node : Node) : Nat :=
  match tender with
  | .removed _ cn => if cn = node then 1 else 0
  | _ => 0

/-- What the tend thread knows at the place it is at. -/
def At (s : TendState n) : Prop :=
  match s.tender with
  | .masters i cn todo => s.nodeV[i]? = some cn ∧
      ∀ place, place.1 < s.head.length → place ∈ todo ∨ (slotAt s.head place).master ≠ some cn
  | .proles i cn todo => s.nodeV[i]? = some cn ∧ (∀ place ∈ todo, place.1 < s.head.length) ∧
      ∀ place, place.1 < s.head.length → (slotAt s.head place).master ≠ some cn ∧
        (place ∈ todo ∨ (slotAt s.head place).prole ≠ some cn)
  | .absent i cn => s.nodeV[i]? = some cn ∧ ¬Named cn s.head
  | .ping i cn => s.nodeV[i]? = some cn
  | .update i cn k _ _ _ => s.nodeV[i]? = some cn ∧ k < s.head.length
  | _ => True

/-- The node is in the list, named by a slot, or held by a transaction. -/
def InUse (s : TendState n) (node : Node) : Prop :=
  node ∈ s.nodeV ∨ Named node s.head ∨ node ∈ s.held

structure Sound (s : TendState n) : Prop where
  named : ∀ node, Named node s.head → node ∈ s.nodeV
  count : ∀ node, s.count node =
    s.nodeV.count node + pending s.tender node + totalPlaces node s.head + s.held.count node
  zeroed : ∀ node ∈ s.zeroed, ¬InUse s node
  tender : At s

theorem unused_of_count {s : TendState n} {node : Node}
    (zero : s.nodeV.count node + totalPlaces node s.head + s.held.count node = 0) : ¬InUse s node := by
  have list : node ∉ s.nodeV := List.count_eq_zero.mp (by omega)
  have slots : ¬Named node s.head := (totalPlaces_named node s.head).mp (by omega)
  have kept : node ∉ s.held := List.count_eq_zero.mp (by omega)
  rintro (inList | inSlot | held)
  · exact list inList
  · exact slots inSlot
  · exact kept held

/-- The references a slot step returns were not the last ones: "these releases won't cause
node destruction". -/
theorem Sound.slot_kept {s : TendState n} (sound : Sound s) (place : Position n) (inside : place.1 < s.head.length)
    (calls : List NodeCall) (bounded : ∀ node, released node calls ≤ places node (slotAt s.head place)) (node : Node) :
    released node calls = 0 ∨ released node calls < s.count node := by
  by_cases returns : released node calls = 0
  · exact .inl returns
  · right
    have had := bounded node
    have names : Names node (slotAt s.head place) := by
      by_contra absent
      have none := (places_zero node _).mpr absent
      omega
    have listed : 0 < s.nodeV.count node := List.count_pos_iff.mpr (sound.named node ⟨place,inside,names⟩)
    have freed := totalPlaces_setSlot node s.head place {} inside
    have total := sound.count node
    have empty : places node {} = 0 := by simp [places]
    omega

theorem Sound.slot {s : TendState n} (sound : Sound s) (place : Position n)
    (inside : place.1 < s.head.length) (p : ClPartition) (calls : List NodeCall)
    (balance : ∀ node, reserved node calls + places node (slotAt s.head place) =
      released node calls + places node p)
    (bounded : ∀ node, released node calls ≤ places node (slotAt s.head place))
    (gains : ∀ node, Names node p → Names node (slotAt s.head place) ∨ node ∈ s.nodeV)
    (tender : Tender n) (quiet : ∀ node, pending s.tender node = 0 ∧ pending tender node = 0)
    (at' : At {s with head := setSlot s.head place p,tender}) :
    Sound ({s with head := setSlot s.head place p,tender}.makeCalls calls) := by
  have named (node : Node) (names : Names node (slotAt s.head place)) : node ∈ s.nodeV :=
    sound.named node ⟨place,inside,names⟩
  have kept := sound.slot_kept place inside calls bounded
  obtain ⟨zeroed,counted⟩ := countCalls_spec calls s.count [] kept
  refine ⟨?_,?_,?_,at'⟩
  · rintro node ⟨other,within,names⟩
    simp only [TendState.makeCalls,setSlot_length] at within names
    rw [slotAt_setSlot _ _ _ _ inside] at names
    split at names
    · exact (gains node names).elim (named node) id
    · exact sound.named node ⟨other,within,names⟩
  · intro node
    have after := counted node
    have total := sound.count node
    have moved := totalPlaces_setSlot node s.head place p inside
    have even := balance node
    obtain ⟨before,later⟩ := quiet node
    simp only [TendState.makeCalls]
    omega
  · intro node member
    simp only [TendState.makeCalls,zeroed] at member
    exact absurd member List.not_mem_nil

theorem Sound.take {s : TendState n} (sound : Sound s) (node : Node) : Sound (take s node) := by
  refine ⟨sound.named,?_,nofun,sound.tender⟩
  intro other
  have total := sound.count other
  by_cases same : other = node
  · subst same
    simp only [Tend.take,TendState.makeCalls,List.foldl_cons,List.foldl_nil,countCall,
      Function.update_self,List.count_cons_self]
    omega
  · simp only [Tend.take,TendState.makeCalls,List.foldl_cons,List.foldl_nil,countCall,
      Function.update_of_ne same,List.count_cons_of_ne (Ne.symm same)]
    exact total

/-- Releasing one reference that is accounted for outside the table. -/
theorem Sound.release {s : TendState n} (sound : Sound s) (node : Node) (tag : Tag)
    (held : List Node) (tender : Tender n)
    (owned : ∀ other, pending s.tender other + s.held.count other =
      pending tender other + held.count other + if other = node then 1 else 0)
    (at' : At {s with held,tender}) :
    Sound ({s with held,tender}.makeCalls [.release node tag]) := by
  have total := sound.count node
  have own := owned node
  rw [if_pos rfl] at own
  refine ⟨sound.named,?_,?_,at'⟩
  · intro other
    have before := sound.count other
    have change := owned other
    by_cases same : other = node
    · subst same
      simp only [TendState.makeCalls,List.foldl_cons,List.foldl_nil,countCall,Function.update_self]
      omega
    · rw [if_neg same] at change
      simp only [TendState.makeCalls,List.foldl_cons,List.foldl_nil,countCall,
        Function.update_of_ne same]
      omega
  · intro other member
    simp only [TendState.makeCalls,List.foldl_cons,List.foldl_nil,countCall] at member
    split at member
    · rename_i last
      obtain rfl := List.mem_singleton.mp member
      refine unused_of_count ?_
      simp only [TendState.makeCalls]
      omega
    · exact absurd member List.not_mem_nil

/-- Steps that touch neither nodes nor slots. -/
theorem Sound.move {s : TendState n} (sound : Sound s) (intervals : Node → Nat) (lastNode : Nat)
    (tender : Tender n) (same : ∀ node, pending tender node = pending s.tender node)
    (at' : At {s with tender}) :
    Sound {s with intervalsAbsent := intervals,lastNode,zeroed := [],tender} := by
  refine ⟨sound.named,?_,nofun,at'⟩
  intro node
  rw [same]
  exact sound.count node

theorem Sound.addNode {s : TendState n} (sound : Sound s) (node : Node)
    (anywhere : s.tender = .hosts ∨ s.tender = .services) : Sound (addNode s node) := by
  unfold Tend.addNode
  split
  · rename_i fresh
    have unused := sound.count node
    refine ⟨?_,?_,nofun,?_⟩
    · intro other named
      exact List.mem_append_left _ (sound.named other named)
    · intro other
      have total := sound.count other
      by_cases same : other = node
      · subst same
        simp only [Function.update_self,List.count_append,List.count_singleton_self]
        omega
      · simp only [Function.update_of_ne same,List.count_append,List.count_singleton,
          beq_iff_eq,Ne.symm same,if_false]
        omega
    · rcases anywhere with here | here <;> simp [At,here]
  · exact sound

/-- A table is found in the chain, or made in front of it without naming any node. -/
theorem tableFor_spec {head found : Tables n} (table : tableFor malloc head ns = some (found,k)) :
    k < found.length ∧ (∀ node, Named node found → Named node head) ∧
      ∀ node, totalPlaces node found = totalPlaces node head := by
  unfold tableFor at table
  split at table
  · rename_i j index
    obtain ⟨rfl,rfl⟩ := Prod.mk.inj (Option.some.inj table)
    exact ⟨(List.findIdx?_eq_some_iff_findIdx_eq.mp index).1,fun _ named => named,fun _ => rfl⟩
  · split at table
    · obtain ⟨rfl,rfl⟩ := Prod.mk.inj (Option.some.inj table)
      refine ⟨Nat.succ_pos _,?_,fun node => totalPlaces_create node head ns⟩
      intro node named
      by_contra absent
      have none := (totalPlaces_named node head).mpr absent
      rw [← totalPlaces_create node head ns] at none
      exact (totalPlaces_named node _).mp none named
    · exact absurd table nofun

theorem names_updateSlot (node other : Node) (master prole : Bool) (p : ClPartition)
    (names : Names other (updateSlot node master prole p).1) : Names other p ∨ other = node := by
  by_cases own : other = node
  · exact .inr own
  · left
    have kept : Names other (removeNode node p).1 → Names other p := by
      simp only [Names,removeNode]
      rintro (m | q)
      · split at m
        · cases m
        · exact .inl m
      · split at q
        · cases q
        · exact .inr q
    have different : ¬some node = some other := by simpa using Ne.symm own
    cases master
    · cases prole
      · exact kept names
      · simp only [updateSlot,Names,Bool.false_eq_true,if_false,if_true,different,or_false] at names
        exact kept (.inl names)
    · simp only [updateSlot,Names,if_true,different,false_or] at names
      exact kept (.inr names)

theorem dropProle_names (node : Node) (p : ClPartition) :
    (dropProle node p).1.master = p.master ∧ (dropProle node p).1.prole ≠ some node ∧
      ∀ other, (dropProle node p).1.prole = some other → p.prole = some other := by
  unfold dropProle
  split
  · exact ⟨rfl,nofun,nofun⟩
  · rename_i free
    exact ⟨rfl,free,fun _ same => same⟩

/-! ### Steps -/

/-- The masters of the table are compared one by one, until one of them is the node. -/
theorem Sound.scanMasters {s : TendState n} (sound : Sound s) (input : Input n) (tender : s.tender = .masters i cn todo) :
    Sound (tendStep s input) := by
  have here := sound.tender
  rw [At,tender] at here
  obtain ⟨listed,scanned⟩ := here
  unfold Tend.tendStep
  rw [tender]
  cases todo with
  | nil =>
    refine sound.move _ _ (.proles i cn _) (fun _ => by rw [tender]; rfl) ⟨listed,?_,?_⟩
    · intro place member
      exact (mem_positions _ place).mp member
    · intro place inside
      exact ⟨(scanned place inside).resolve_left List.not_mem_nil,
        .inl ((mem_positions _ place).mpr inside)⟩
  | cons place todo =>
    dsimp only
    split
    · exact sound.move _ _ (.ping i cn) (fun _ => by rw [tender]; rfl) listed
    · rename_i other
      refine sound.move _ _ (.masters i cn todo) (fun _ => by rw [tender]; rfl) ⟨listed,?_⟩
      intro next inside
      rcases scanned next inside with todoNext | free
      · rcases List.mem_cons.mp todoNext with rfl | later
        · exact .inr other
        · exact .inl later
      · exact .inr free

/-- Behind the last slot, the table no longer names the node. -/
theorem Sound.dropProles {s : TendState n} (sound : Sound s) (input : Input n) (tender : s.tender = .proles i cn todo) :
    Sound (tendStep s input) := by
  have here := sound.tender
  rw [At,tender] at here
  obtain ⟨listed,within,scanned⟩ := here
  unfold Tend.tendStep
  rw [tender]
  cases todo with
  | nil =>
    refine sound.move _ _ (.absent i cn) (fun _ => by rw [tender]; rfl) ⟨listed,?_⟩
    rintro ⟨place,inside,master | prole⟩
    · exact (scanned place inside).1 master
    · exact (scanned place inside).2.resolve_left List.not_mem_nil prole
  | cons place todo =>
    have inside := within place List.mem_cons_self
    obtain ⟨master,freed,gains⟩ := dropProle_names cn (slotAt s.head place)
    refine sound.slot place inside _ _ (fun node => dropProle_balance ..)
      (fun node => dropProle_released ..) ?_ (.proles i cn todo) (by simp [tender,pending])
      ⟨listed,?_,?_⟩
    · rintro node (m | q)
      · exact .inl (.inl (master ▸ m))
      · exact .inl (.inr (gains node q))
    · intro next member
      simpa using within next (List.mem_cons_of_mem _ member)
    · intro next nextInside
      have before := scanned next (by simpa using nextInside)
      rw [slotAt_setSlot _ _ _ _ inside]
      split
      · rename_i same
        subst same
        exact ⟨master ▸ before.1,.inr freed⟩
      · rename_i different
        refine ⟨before.1,before.2.imp_left ?_⟩
        intro member
        exact (List.mem_cons.mp member).resolve_left different

/-- The reference of the list passes to the step that will release it. -/
theorem Sound.leaveList {s : TendState n} (sound : Sound s) (input : Input n) (tender : s.tender = .absent i cn) :
    Sound (tendStep s input) := by
  have here := sound.tender
  rw [At,tender] at here
  obtain ⟨listed,unnamed⟩ := here
  have parts : (cn :: s.nodeV.eraseIdx i).Perm s.nodeV := by
    obtain ⟨inside,rfl⟩ := List.getElem?_eq_some_iff.mp listed
    exact List.getElem_cons_eraseIdx_perm inside
  unfold Tend.tendStep
  rw [tender]
  dsimp only
  split
  · refine ⟨?_,?_,nofun,trivial⟩
    · intro node named
      have member := sound.named node named
      have different : cn ≠ node := fun same => unnamed (same ▸ named)
      exact ((parts.mem_iff).mpr member |> List.mem_cons.mp).resolve_left (Ne.symm different)
    · intro node
      have before := sound.count node
      have moved := parts.count_eq node
      rw [List.count_cons] at moved
      simp only [tender,pending,beq_iff_eq] at before moved ⊢
      omega
  · exact sound.move _ _ (.ping i cn) (fun _ => by rw [tender]; rfl) listed

theorem Sound.answer {s : TendState n} (sound : Sound s) (input : Input n) (tender : s.tender = .ping i cn) :
    Sound (tendStep s input) := by
  have here := sound.tender
  rw [At,tender] at here
  unfold Tend.tendStep
  rw [tender]
  cases input with
  | addNode => exact sound.move _ _ (.visit (i + 1)) (fun _ => by rw [tender]; rfl) trivial
  | update malloc ns masters proles =>
    dsimp only
    cases table : tableFor malloc s.head ns with
    | none => exact ⟨sound.named,tender ▸ sound.count,nofun,here⟩
    | some found =>
      obtain ⟨head,k⟩ := found
      obtain ⟨inside,names,total⟩ := tableFor_spec table
      refine ⟨?_,?_,nofun,⟨here,inside⟩⟩
      · intro node named
        exact sound.named node (names node named)
      · intro node
        have before := sound.count node
        rw [tender] at before
        simp only [total node,pending] at before ⊢
        exact before
  | proceed => exact sound.move _ _ (.visit (i + 1)) (fun _ => by rw [tender]; rfl) trivial

theorem Sound.updateSlots {s : TendState n} (sound : Sound s) (input : Input n)
    (tender : s.tender = .update i cn k masters proles todo) : Sound (tendStep s input) := by
  have here := sound.tender
  rw [At,tender] at here
  obtain ⟨listed,inside⟩ := here
  unfold Tend.tendStep
  rw [tender]
  cases todo with
  | nil => exact sound.move _ _ (.ping i cn) (fun _ => by rw [tender]; rfl) listed
  | cons pid todo =>
    refine sound.slot (k,pid) inside _ _ (fun node => updateSlot_balance ..)
      (fun node => updateSlot_released ..) ?_ (.update i cn k masters proles todo)
      (by simp [tender,pending]) ⟨listed,by simpa using inside⟩
    intro node names
    rcases names_updateSlot cn node _ _ _ names with before | rfl
    · exact .inl before
    · exact .inr (List.mem_of_getElem? listed)

theorem Sound.tendStep {s : TendState n} (sound : Sound s) (input : Input n) :
    Sound (tendStep s input) := by
  have still : Sound {s with zeroed := []} :=
    ⟨sound.named,sound.count,nofun,sound.tender⟩
  cases tender : s.tender with
  | masters i cn todo => exact sound.scanMasters input tender
  | proles i cn todo => exact sound.dropProles input tender
  | absent i cn => exact sound.leaveList input tender
  | ping i cn => exact sound.answer input tender
  | update i cn k masters proles todo => exact sound.updateSlots input tender
  | idle =>
    unfold Tend.tendStep
    rw [tender]
    exact sound.move _ _ .hosts (fun _ => by rw [tender]; rfl) trivial
  | hosts =>
    unfold Tend.tendStep
    rw [tender] at still ⊢
    cases input with
    | addNode node => exact still.addNode node (.inl rfl)
    | update => exact sound.move _ _ (.visit 0) (fun _ => by rw [tender]; rfl) trivial
    | proceed => exact sound.move _ _ (.visit 0) (fun _ => by rw [tender]; rfl) trivial
  | visit i =>
    unfold Tend.tendStep
    rw [tender]
    dsimp only
    cases listed : s.nodeV[i]? with
    | none => exact sound.move _ _ .services (fun _ => by rw [tender]; rfl) trivial
    | some cn =>
      dsimp only
      split
      · exact sound.move _ _ (.ping i cn) (fun _ => by rw [tender]; rfl) listed
      · refine sound.move _ _ (.masters i cn _) (fun _ => by rw [tender]; rfl) ⟨listed,?_⟩
        intro place inside
        exact .inl ((mem_positions _ place).mpr inside)
  | removed i cn =>
    unfold Tend.tendStep
    rw [tender] at still ⊢
    refine still.release cn .C s.held (.visit i) ?_ trivial
    intro other
    by_cases same : other = cn
    · simp [pending,same,Nat.add_comm]
    · simp [pending,same,Ne.symm same]
  | services =>
    unfold Tend.tendStep
    rw [tender] at still ⊢
    cases input with
    | addNode node => exact still.addNode node (.inr rfl)
    | update => exact sound.move _ _ .idle (fun _ => by rw [tender]; rfl) trivial
    | proceed => exact sound.move _ _ .idle (fun _ => by rw [tender]; rfl) trivial

theorem Sound.lifeStep {s : TendState n} (sound : Sound s) (event : TendEvent n) :
    Sound (lifeStep s event) := by
  have still : Sound {s with zeroed := []} :=
    ⟨sound.named,sound.count,nofun,sound.tender⟩
  unfold Tend.lifeStep
  cases event with
  | tend input => exact sound.tendStep input
  | tableGet ns pid write dice =>
    dsimp only
    split
    · exact still
    · exact sound.take _
  | getRandom =>
    dsimp only
    split
    · exact still
    · have moved (lastNode : Nat) : Sound {s with lastNode} :=
        ⟨sound.named,sound.count,sound.zeroed,sound.tender⟩
      exact (moved _).take _
  | put node =>
    dsimp only
    split
    · rename_i member
      refine sound.release node .T (s.held.erase node) s.tender ?_ sound.tender
      intro other
      have kept := (List.perm_cons_erase member).count_eq other
      rw [List.count_cons] at kept
      simp only [beq_iff_eq,eq_comm (a := node)] at kept
      omega
    · exact still

theorem start_sound (n : Nat) : Sound (TendState.start n) := by
  refine ⟨?_,?_,nofun,trivial⟩
  · rintro node ⟨place,inside,_⟩
    exact absurd inside (Nat.not_lt_zero _)
  · intro node
    rfl

/-- In every interleaving of a tend thread and transactions: a node named by a slot is in
the node list; and a node whose count reaches zero is then in no list, named by no slot
and held by no transaction. -/
theorem node_lifetime (n : Nat) (events : List (TendEvent n)) :
    let s := run lifeStep (TendState.start n) events
    (∀ node, Named node s.head → node ∈ s.nodeV) ∧
    (∀ node ∈ s.zeroed, ¬InUse s node) ∧
    ∀ node, s.count node = 0 → ¬InUse s node := by
  have preserved : ∀ s event, Sound s → Sound (lifeStep (n := n) s event) :=
    fun _ event sound => sound.lifeStep event
  have sound := run_invariant preserved (start_sound n) events
  refine ⟨sound.named,sound.zeroed,?_⟩
  intro node zero
  have total := sound.count node
  exact unused_of_count (by omega)

end Citrusleaf.Tend
