import Citrusleaf.ShmNodes

/-! The replicas texts in the shared entries and what the nodes told the updater. Beside the table a run keeps the
replies in their order and, for each entry, the node whose reply its text was copied from. -/
namespace Citrusleaf.Shm
open Lib

/-- A reply that the updater took in: a node with its generation, or the replicas of a node. -/
inductive Heard where
  | announced (node : CString) (generation : UInt32)
  | replicas (node : CString) (values : CString)
  deriving DecidableEq

/-- The entry that a ping finds or adds. -/
def pingEntry (maxNodes : Nat) (s : ClShm) (ping : Ping) : Option Nat :=
  match clShmFindNodeFromName s ping.seed.name with
  | some i => some i
  | none => (clShmAddNode maxNodes s ping.seed ping.lockInit).2

/-- The replicas reply that a ping copies into the entry. -/
def fetched (s : ClShm) (i : Nat) (request : ClNodeInfo) (ping : Ping) : Option CString :=
  if request.services ≠ none ∧ (s.nodeInfo i).partitionGeneration ≠ request.partitionGeneration then
    match clShmRequest id ping.replicas with
    | .ok values => some values
    | _ => none
  else none

structure Updates where
  shm : ClShm
  heard : List Heard
  source : Nat → Option CString
  /-- The entry of the last ping, if that returned `CL_SHM_OK`. -/
  pinged : Option Nat

def Updates.start : Updates := ⟨.start,[],fun _ => none,none⟩

def updateStep (maxNodes : Nat) (u : Updates) (ping : Ping) : Updates :=
  let (shm,rv) := clShmNodePing maxNodes u.shm ping
  match ping.request u.shm with
  | none => {u with shm,pinged := none}
  | some request =>
    let heard := u.heard ++ [.announced request.nodeName request.partitionGeneration]
    match pingEntry maxNodes u.shm ping with
    | none => {u with shm,heard,pinged := none}
    | some i =>
      let pinged := if rv = some 0 then some i else none
      match fetched u.shm i request ping with
      | none => {u with shm,heard,pinged}
      | some values =>
        let source := Function.update u.source i (some request.nodeName)
        ⟨shm,heard ++ [.replicas request.nodeName values],source,pinged⟩

/-- The text of the entry is a whole reply of the node, taken in after the node announced the entry's generation. -/
def Told (heard : List Heard) (node : CString) (shared : ClShmNinfo) : Prop :=
  ∃ before later, heard = before ++ later ∧ .announced node shared.partitionGeneration ∈ before ∧
    .replicas node shared.replicas ∈ later

/-- Where the last ping returned `CL_SHM_OK`, its entry has current replicas of the node that it names. -/
def CurrentReplicas (u : Updates) : Prop :=
  ∀ i ∈ u.pinged, Told u.heard (u.shm.nodeInfo i).nodeName (u.shm.nodeInfo i)

/-- The ping fetches a text that fits, or it skips the request for an entry whose text came from the node that
announces itself now. -/
def Sure (maxNodes : Nat) (u : Updates) (ping : Ping) : Prop :=
  ∀ request ∈ ping.request u.shm, ∀ i ∈ pingEntry maxNodes u.shm ping,
    (∀ values ∈ fetched u.shm i request ping, values.length < szReplicasText) ∧
    (request.services ≠ none → (u.shm.nodeInfo i).partitionGeneration = request.partitionGeneration →
      u.source i = some request.nodeName)

instance (maxNodes : Nat) (u : Updates) (ping : Ping) : Decidable (Sure maxNodes u ping) := by
  unfold Sure
  infer_instance

variable {maxNodes i : Nat} {s t : ClShm} {request : ClNodeInfo} {ping : Ping} {values node : CString} {u : Updates}
  {heard : List Heard} {shared : ClShmNinfo}

/-! ### What a ping writes -/

/-- The texts and generations are those of before. -/
def SameTexts (s t : ClShm) : Prop :=
  ∀ j, (t.nodeInfo j).replicas = (s.nodeInfo j).replicas ∧
    (t.nodeInfo j).partitionGeneration = (s.nodeInfo j).partitionGeneration

theorem setPartitionCount_texts (set : setPartitionCount s replies = some t) : SameTexts s t := by
  have same : t.nodeInfo = s.nodeInfo := by
    unfold setPartitionCount at set
    split at set
    · split at set
      · rw [Option.some.inj set]
      · cases set
      · rw [← Option.some.inj set]
    · rw [Option.some.inj set]
  intro j
  rw [same]
  exact ⟨rfl,rfl⟩

theorem addNode_texts (maxNodes : Nat) (s : ClShm) (seed : ClSeedNode) (lockInit : Bool) :
    SameTexts s (clShmAddNode maxNodes s seed lockInit).1 := by
  intro j
  unfold clShmAddNode
  split
  · exact ⟨rfl,rfl⟩
  · by_cases here : j = s.nodeCount
    · simp [ClShm.setNode,here]
    · simp [ClShm.setNode,here]

theorem addNode_entry (maxNodes : Nat) (s : ClShm) (seed : ClSeedNode) (lockInit : Bool) :
    (clShmAddNode maxNodes s seed lockInit).2 = if s.nodeCount < maxNodes ∧ lockInit = true then some s.nodeCount else none := by
  obtain ⟨t,entry,added⟩ : ∃ t entry, clShmAddNode maxNodes s seed lockInit = (t,entry) := ⟨_,_,rfl⟩
  rw [added]
  exact (addNode_table added).2.2

theorem SameTexts.trans {first second third : ClShm} (one : SameTexts first second) (two : SameTexts second third) :
    SameTexts first third :=
  fun j => ⟨(two j).1.trans (one j).1,(two j).2.trans (one j).2⟩

theorem fetched_congr (same : SameTexts s t) : fetched t i request ping = fetched s i request ping := by
  unfold fetched
  rw [(same i).2]

/-- A ping stores in its entry, or it returns an error and leaves all texts. -/
theorem ping_cases (maxNodes : Nat) (s : ClShm) (ping : Ping) :
    (∃ request i t add, ping.request s = some request ∧ pingEntry maxNodes s ping = some i ∧ SameTexts s t ∧
      clStrncpy request.nodeName nodeNameSize = request.nodeName ∧
      clShmNodePing maxNodes s ping = storeNode t i add request ping) ∨
    ((ping.request s = none ∨ pingEntry maxNodes s ping = none) ∧ (clShmNodePing maxNodes s ping).2 ≠ some 0 ∧
      SameTexts s (clShmNodePing maxNodes s ping).1) := by
  unfold clShmNodePing Ping.request pingEntry
  cases set : setPartitionCount s ping.nPartitions with
  | none => exact .inr ⟨.inl rfl,by simp,fun j => ⟨rfl,rfl⟩⟩
  | some t =>
    have texts := setPartitionCount_texts set
    obtain ⟨names,count⟩ := setPartitionCount_table set
    simp only [find_congr names count]
    cases answered : clShmRequest clRequestNodeInfo ping.nodeInfo with
    | error => exact .inr ⟨.inl rfl,by simp,texts⟩
    | crash => exact .inr ⟨.inl rfl,by simp,texts⟩
    | ok request =>
      obtain ⟨values,rfl⟩ := clShmRequest_ok answered
      have short := clRequestNodeInfo_nodeName values
      cases found : clShmFindNodeFromName s ping.seed.name with
      | some i => exact .inl ⟨_,i,t,false,rfl,rfl,texts,short,rfl⟩
      | none =>
        have kept := texts.trans (addNode_texts maxNodes t ping.seed ping.lockInit)
        have entry : (clShmAddNode maxNodes t ping.seed ping.lockInit).2 =
            (clShmAddNode maxNodes s ping.seed ping.lockInit).2 := by
          rw [addNode_entry,addNode_entry,count]
        rw [← entry]
        obtain ⟨u,added,done⟩ : ∃ u added, clShmAddNode maxNodes t ping.seed ping.lockInit = (u,added) := ⟨_,_,rfl⟩
        rw [done] at kept ⊢
        cases added with
        | none => exact .inr ⟨.inr rfl,by simp,kept⟩
        | some i => exact .inl ⟨_,i,u,true,rfl,rfl,kept,short,rfl⟩

/-- What is stored: the name, and the text with its generation or neither of them. -/
theorem storeNode_entry (s : ClShm) (i : Nat) (add : Bool) (request : ClNodeInfo) (ping : Ping)
    (short : clStrncpy request.nodeName nodeNameSize = request.nodeName) :
    let (t,rv) := storeNode s i add request ping
    (∀ j, j ≠ i → t.nodeInfo j = s.nodeInfo j) ∧ (t.nodeInfo i).nodeName = request.nodeName ∧
      match fetched s i request ping with
      | some values => (t.nodeInfo i).replicas = clStrncpy values szReplicasText ∧
          (t.nodeInfo i).partitionGeneration = request.partitionGeneration
      | none => (t.nodeInfo i).replicas = (s.nodeInfo i).replicas ∧
          (t.nodeInfo i).partitionGeneration = (s.nodeInfo i).partitionGeneration ∧
          (rv = some 0 → request.services ≠ none ∧ (s.nodeInfo i).partitionGeneration = request.partitionGeneration) := by
  unfold storeNode fetched
  cases request.services with
  | none => simp +contextual [ClShm.setNode,short]
  | some services =>
    simp only [fetchReplicas,ClShm.setNode,Function.update_self]
    by_cases same : (s.nodeInfo i).partitionGeneration = request.partitionGeneration
    · simp +contextual [short,same]
    · cases clShmRequest id ping.replicas <;> simp +contextual [short,same]

/-! ### Runs -/

theorem Told.append (told : Told heard node shared) (more : List Heard) : Told (heard ++ more) node shared := by
  obtain ⟨before,later,rfl,announced,replicas⟩ := told
  exact ⟨before,later ++ more,List.append_assoc ..,announced,List.mem_append_left _ replicas⟩

theorem Told.congr {other : ClShmNinfo} (told : Told heard node shared) (text : other.replicas = shared.replicas)
    (generation : other.partitionGeneration = shared.partitionGeneration) : Told heard node other := by
  rwa [Told,text,generation]

/-- The text of an entry is a reply of its source. -/
def Sourced (u : Updates) : Prop := ∀ i, ∀ node ∈ u.source i, Told u.heard node (u.shm.nodeInfo i)

theorem Sourced.more (sourced : Sourced u) (texts : SameTexts u.shm t) (more : List Heard) (pinged : Option Nat) :
    Sourced {u with shm := t,heard := u.heard ++ more,pinged} := by
  intro j node from_
  exact ((sourced j node from_).append more).congr (texts j).1 (texts j).2

theorem Sourced.step_idle (sourced : Sourced u) (idle : ping.request u.shm = none ∨ pingEntry maxNodes u.shm ping = none)
    (texts : SameTexts u.shm (clShmNodePing maxNodes u.shm ping).1) :
    Sourced (updateStep maxNodes u ping) ∧ CurrentReplicas (updateStep maxNodes u ping) := by
  unfold updateStep
  cases asked : ping.request u.shm with
  | none =>
    have kept := sourced.more texts [] none
    rw [List.append_nil] at kept
    exact ⟨kept,by simp [CurrentReplicas]⟩
  | some request =>
    have missing := idle.resolve_left (by simp [asked])
    simp only [missing]
    exact ⟨sourced.more texts _ none,by simp [CurrentReplicas]⟩

/-- A ping that skips the request relies on the text that is there. -/
theorem Sourced.step_skips (sourced : Sourced u) (asked : ping.request u.shm = some request)
    (entry : pingEntry maxNodes u.shm ping = some i) (skips : fetched u.shm i request ping = none)
    (pinged : clShmNodePing maxNodes u.shm ping = (t,rv)) (texts : SameTexts u.shm t)
    (name : (t.nodeInfo i).nodeName = request.nodeName) (known : rv = some 0 → u.source i = some request.nodeName) :
    Sourced (updateStep maxNodes u ping) ∧ CurrentReplicas (updateStep maxNodes u ping) := by
  have after : updateStep maxNodes u ping =
      {u with
        shm := t
        heard := u.heard ++ [.announced request.nodeName request.partitionGeneration]
        pinged := if rv = some 0 then some i else none} := by
    simp only [updateStep,pinged,asked,entry,skips]
  rw [after]
  have kept := sourced.more texts [.announced request.nodeName request.partitionGeneration]
    (if rv = some 0 then some i else none)
  refine ⟨kept,?_⟩
  intro j done
  by_cases ok : rv = some 0
  · obtain rfl : i = j := by simpa [ok] using done
    exact name ▸ kept i request.nodeName (known ok)
  · simp [ok] at done

/-- A ping that fetches a text that fits has it from the node that it names. -/
theorem Sourced.step_fetches (sourced : Sourced u) (asked : ping.request u.shm = some request)
    (entry : pingEntry maxNodes u.shm ping = some i) (fetches : fetched u.shm i request ping = some values)
    (pinged : clShmNodePing maxNodes u.shm ping = (t,rv)) (others : ∀ j, j ≠ i → (t.nodeInfo j).replicas = (u.shm.nodeInfo j).replicas ∧
      (t.nodeInfo j).partitionGeneration = (u.shm.nodeInfo j).partitionGeneration)
    (name : (t.nodeInfo i).nodeName = request.nodeName) (text : (t.nodeInfo i).replicas = values)
    (generation : (t.nodeInfo i).partitionGeneration = request.partitionGeneration) :
    Sourced (updateStep maxNodes u ping) ∧ CurrentReplicas (updateStep maxNodes u ping) := by
  have after : updateStep maxNodes u ping =
      ⟨t,u.heard ++ [.announced request.nodeName request.partitionGeneration] ++ [.replicas request.nodeName values],
        Function.update u.source i (some request.nodeName),if rv = some 0 then some i else none⟩ := by
    simp only [updateStep,pinged,asked,entry,fetches]
  have told : Told (u.heard ++ [.announced request.nodeName request.partitionGeneration] ++
      [.replicas request.nodeName values]) request.nodeName (t.nodeInfo i) :=
    ⟨_,_,rfl,by simp [generation],by simp [text]⟩
  rw [after]
  constructor
  · intro j node source
    by_cases here : j = i
    · subst here
      obtain rfl : request.nodeName = node := by simpa using source
      exact told
    · have old : node ∈ u.source j := by simpa [here] using source
      have kept := ((sourced j node old).append [.announced request.nodeName request.partitionGeneration]).append
        [.replicas request.nodeName values]
      exact kept.congr (others j here).1 (others j here).2
  · intro j done
    obtain ⟨_,rfl⟩ : rv = some 0 ∧ i = j := by simpa using done
    exact name ▸ told

theorem Sourced.step (sourced : Sourced u) (ping : Ping) (sure : Sure maxNodes u ping) :
    Sourced (updateStep maxNodes u ping) ∧ CurrentReplicas (updateStep maxNodes u ping) := by
  rcases ping_cases maxNodes u.shm ping with ⟨request,i,t,add,asked,entry,texts,short,stores⟩ | ⟨idle,_,texts⟩
  · obtain ⟨fits,known⟩ := sure request asked i entry
    obtain ⟨v,rv,done⟩ : ∃ v rv, storeNode t i add request ping = (v,rv) := ⟨_,_,rfl⟩
    have stored := storeNode_entry t i add request ping short
    rw [fetched_congr texts,done] at stored
    obtain ⟨others,name,stored⟩ := stored
    cases got : fetched u.shm i request ping with
    | none =>
      rw [got] at stored
      obtain ⟨text,generation,ok⟩ := stored
      have kept : SameTexts t v := by
        intro j
        by_cases here : j = i
        · subst here
          exact ⟨text,generation⟩
        · rw [others j here]
          exact ⟨rfl,rfl⟩
      refine sourced.step_skips asked entry got (stores.trans done) (texts.trans kept) name ?_
      intro zero
      exact known (ok zero).1 ((texts i).2.symm.trans (ok zero).2)
    | some values =>
      rw [got] at stored
      have whole : clStrncpy values szReplicasText = values := by
        have room := fits values got
        exact List.take_of_length_le (by omega)
      obtain ⟨text,generation⟩ := stored
      refine sourced.step_fetches asked entry got (stores.trans done) ?_ name (text.trans whole) generation
      intro j other
      rw [others j other]
      exact texts j
  · exact sourced.step_idle idle texts

def samplePing (generation : String) : Ping :=
  ⟨⟨text "A",[Vector.replicate 16 0]⟩,[.values (text "partitions\t4096\n")],
    [.values (text "node\tA\npartition-generation\t" ++ text generation ++ text "\nservices\t\n")],
    [.values (text "replicas-master\tns:AA==\n")],true⟩

end Citrusleaf.Shm
