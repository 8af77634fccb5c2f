import Citrusleaf.GenerationRuns
import Citrusleaf.PartitionCounts

/-! Where writes are sent. Once the servers keep their maps, a node that has answered one ping has all writes to the
partitions it is master of, whatever the tables held before and whatever pings come later. -/
namespace Citrusleaf.Generation
open Lib Citrusleaf.Partition Citrusleaf.Replicas

/-- What the guard asks of replies. -/
def AppliesReplies (s : PingState n) : PingEvent → Prop
  | .isNodePresent _ => True
  | event => Guard s event

/-- The node is master exactly where the reply says, in the namespaces it lists. -/
def AppliedMasters (head : Tables n) (cn : Node) (rbuf : CString) : Prop :=
  ∀ a ∈ masters rbuf, ∀ pid, (slot head a.ns pid).master = some cn ↔ ownership n (masters rbuf) a.ns pid = true

/-- A generation is forced, or that of an earlier reply, whose masters are in the table. -/
structure Mastered (s : PingState n) : Prop where
  sound : s.overrun = false
  sized : s.unsized = []
  separate : AllSeparate s.table.head
  complete : ∀ cn rbuf, (cn,rbuf) ∈ s.replies → ∀ g, announcedGeneration rbuf = some g → g ≠ 0xFFFFFFFF ∧ Complete n rbuf
  sourced : ∀ cn, s.table.partitionGeneration cn = 0xFFFFFFFF ∨
    ∃ rbuf, (cn,rbuf) ∈ s.replies ∧ announcedGeneration rbuf = some (s.table.partitionGeneration cn)
  recorded : ∀ cn rbuf, (cn,rbuf) ∈ s.replies → announcedGeneration rbuf = some (s.table.partitionGeneration cn) →
    AppliedMasters s.table.head cn rbuf

/-! ### Masters under one event -/

theorem present_master (head : Tables n) (cn : Node) (ns : CString) (pid : Fin n) :
    (slot (clPartitionTableIsNodePresent head cn).2.1 ns pid).master = (slot head ns pid).master := by
  rw [slot_isNodePresent]
  split
  · rfl
  · unfold dropProle
    split <;> rfl

theorem parse_separate {t : TableState n} (separate : AllSeparate t.head) (cn : Node) (rbuf : CString) :
    AllSeparate (clClusterNodeParseReplicas t cn rbuf).head := by
  let parsed : Replicas.Parsed n := parsePairs (t.partitionGeneration cn) rbuf
  let recorded : TableState n := {t with
    partitionGeneration := Function.update t.partitionGeneration cn parsed.partitionGeneration}
  have each (updates : List (Update n)) (t : TableState n) (separate : AllSeparate t.head) :
      AllSeparate (runUpdates t updates).head := by
    induction updates generalizing t with
    | nil => exact separate
    | cons u updates ih => exact ih _ (update_separate u.malloc u.node u.ns u.masters u.proles separate)
  exact each (parsed.updates cn) recorded separate

/-- Another node keeps its masters, or is forced to refresh. -/
theorem parse_masters {t : TableState n} (separate : AllSeparate t.head) (rbuf : CString) (different : node ≠ cn) :
    (clClusterNodeParseReplicas t cn rbuf).partitionGeneration node = 0xFFFFFFFF ∨
    ((clClusterNodeParseReplicas t cn rbuf).partitionGeneration node = t.partitionGeneration node ∧
      ∀ ns pid, (slot (clClusterNodeParseReplicas t cn rbuf).head ns pid).master = some node ↔
        (slot t.head ns pid).master = some node) := by
  refine (parse_other t cn rbuf different).imp_right fun ⟨kept,owned⟩ => ⟨kept,fun ns pid => ?_⟩
  have owns : Owns t.head node ns (fun pid => decide ((slot t.head ns pid).master = some node))
      (fun pid => decide ((slot t.head ns pid).prole = some node)) := by
    intro pid
    refine ⟨decide_eq_true_iff.symm,⟨fun prole => ⟨decide_eq_true prole,decide_eq_false fun master => ?_⟩,fun both => ?_⟩⟩
    · exact slot_separate separate ns pid node master prole
    · exact of_decide_eq_true both.1
  exact (owned ns _ _ owns pid).1.trans decide_eq_true_iff

/-- A node's masters are taken by another only where that one claims them. -/
theorem parse_frame (t : TableState n) (rbuf : CString) (complete : Complete n rbuf) (different : node ≠ cn)
    (unclaimed : ownership n (masters rbuf) ns pid = false) (holds : (slot t.head ns pid).master = some node) :
    (slot (clClusterNodeParseReplicas t cn rbuf).head ns pid).master = some node := by
  have masterItems : ∀ a ∈ masters rbuf, a.WellFormed n := fun a item =>
    complete.1 a (List.mem_append_left _ item)
  have here := slot_parseReplicas t cn rbuf ns pid
  simp only [accepted_items _ rbuf masterItems,announced_items _ masterItems,unclaimed] at here
  rw [here]
  split
  · refine ((updateSlot_frame cn false _ (slot t.head ns pid)).1 ?_ rfl).trans holds
    rw [holds]
    exact fun same => different (Option.some.inj same)
  · exact holds

theorem Applied.masters {head : Tables n} (applied : Applied head cn rbuf) : AppliedMasters head cn rbuf :=
  fun a item pid => ((applied a (List.mem_append_left _ item)).2 pid).1

theorem AppliedMasters.of_repeats {head : Tables n} (applied : AppliedMasters head cn rbuf) (complete : Complete n rbuf)
    (repeats : Repeats n earlier rbuf) : AppliedMasters head cn earlier := by
  intro a item pid
  obtain ⟨⟨b,listed,same⟩,bits,_⟩ := repeats a (List.mem_append_left _ item)
  obtain ⟨c,member,name⟩ : ∃ c ∈ Generation.masters rbuf, c.ns = a.ns := by
    rcases List.mem_append.mp listed with own | prole
    · exact ⟨b,own,same⟩
    · obtain ⟨c,member,name⟩ := complete.2 b prole
      exact ⟨c,member,name.trans same⟩
  rw [bits,← name]
  exact applied c member pid

/-! ### Runs -/

namespace Mastered
variable {s : PingState n}

theorem start (n : Nat) (nodeName : Node → CString) : Mastered (PingState.start n nodeName) :=
  ⟨rfl,rfl,nofun,nofun,fun _ => .inl rfl,nofun⟩

theorem fits (inv : Mastered s) (known : s.known = true) (cn : Node) (rbuf : CString) : parseReplicas s cn rbuf =
    {s with table := clClusterNodeParseReplicas s.table cn rbuf,replies := (cn,rbuf) :: s.replies} := by
  simp [parseReplicas,known,inv.sized]

theorem reply (inv : Mastered s) (cn : Node) (rbuf : CString) (applicable : Applicable s cn rbuf) :
    Mastered (parseReplicas s cn rbuf) := by
  obtain ⟨known,condition⟩ := applicable
  rw [inv.fits known]
  have complete : ∀ node reply, (node,reply) ∈ (cn,rbuf) :: s.replies →
      ∀ g, announcedGeneration reply = some g → g ≠ 0xFFFFFFFF ∧ Complete n reply := by
    intro node reply member g announces
    rcases List.mem_cons.mp member with new | old
    · obtain ⟨rfl,rfl⟩ := Prod.mk.inj new
      rw [announces] at condition
      exact ⟨condition.1,condition.2.1⟩
    · exact inv.complete node reply old g announces
  refine ⟨inv.sound,inv.sized,parse_separate inv.separate cn rbuf,complete,fun node => ?_,fun node reply member announces => ?_⟩
  · by_cases own : node = cn
    · subst own
      rcases parse_generation s.table node rbuf with forced | stored
      · exact .inl forced
      · cases given : announcedGeneration rbuf with
        | none =>
          rw [given] at condition stored
          exact .inl (stored.trans condition)
        | some g =>
          rw [given] at stored
          exact .inr ⟨rbuf,List.mem_cons_self,given.trans (congrArg some stored.symm)⟩
    · rcases parse_masters inv.separate rbuf own with forced | ⟨kept,_⟩
      · exact .inl forced
      · rw [kept]
        exact (inv.sourced node).imp_right fun ⟨earlier,member,announces⟩ =>
          ⟨earlier,List.mem_cons_of_mem _ member,announces⟩
  · have unforced := (complete node reply member _ announces).1
    by_cases own : node = cn
    · subst own
      rcases parse_generation s.table node rbuf with forced | stored
      · exact absurd forced unforced
      · cases given : announcedGeneration rbuf with
        | none =>
          rw [given] at condition stored
          exact absurd (stored.trans condition) unforced
        | some g =>
          rw [given] at condition stored
          have applied := (complete_applied s.table node rbuf condition.2.1).masters
          rcases List.mem_cons.mp member with new | old
          · obtain ⟨_,rfl⟩ := Prod.mk.inj new
            exact applied
          · exact applied.of_repeats condition.2.1 (condition.2.2 reply old (announces.trans (congrArg some stored)))
    · rcases parse_masters inv.separate rbuf own with forced | ⟨kept,same⟩
      · exact absurd forced unforced
      · rcases List.mem_cons.mp member with new | old
        · exact absurd (Prod.mk.inj new).1 own
        · intro a item pid
          exact (same a.ns pid).trans (inv.recorded node reply old (announces.trans (congrArg some kept)) a item pid)

theorem present (inv : Mastered s) (cn : Node) : Mastered {s with table := tableStep s.table (.isNodePresent cn)} := by
  have generation (node : Node) := isNodePresent_generation s.table cn
  refine ⟨inv.sound,inv.sized,present_separate cn inv.separate,inv.complete,fun node => ?_,fun node reply member announces => ?_⟩
  · rw [isNodePresent_generation]
    exact inv.sourced node
  · rw [isNodePresent_generation] at announces
    intro a item pid
    change (slot (clPartitionTableIsNodePresent s.table.head cn).2.1 a.ns pid).master = _ ↔ _
    rw [present_master]
    exact inv.recorded node reply member announces a item pid

theorem step (inv : Mastered s) (event : PingEvent) (applies : AppliesReplies s event) : Mastered (pingStep s event) := by
  unfold pingStep
  rw [if_neg (by simp [inv.sound])]
  cases event with
  | getNPartitions => exact ⟨inv.sound,inv.sized,inv.separate,inv.complete,inv.sourced,inv.recorded⟩
  | isNodePresent cn =>
    simp only [inv.sized,List.isEmpty_nil,Bool.not_true,Bool.and_false,Bool.false_eq_true,if_false]
    have after := inv.present cn
    exact ⟨after.sound,rfl,after.separate,after.complete,after.sourced,after.recorded⟩
  | pingNode cn check replicas =>
    dsimp only
    split
    · rename_i fetched
      cases replicas with
      | none => exact inv
      | some rbuf => exact inv.reply cn rbuf (applies fetched rbuf rfl)
    · exact inv

end Mastered

/-! ### Servers that keep their maps -/

/-- The generation of each node, and its replicas reply. No partition has two masters. -/
structure Servers (n : Nat) where
  generation : Node → UInt32
  replicas : Node → CString
  announces : ∀ cn, announcedGeneration (replicas cn) = some (generation cn)
  valid : ∀ cn, generation cn ≠ 0xFFFFFFFF
  complete : ∀ cn, Complete n (replicas cn)
  disjoint : ∀ cn other ns pid, ownership n (masters (replicas cn)) ns pid = true →
    ownership n (masters (replicas other)) ns pid = true → cn = other

namespace Servers

/-- The node is master of the partition. -/
def Claims (servers : Servers n) (cn : Node) (ns : CString) (pid : Fin n) : Prop :=
  ownership n (masters (servers.replicas cn)) ns pid = true

/-- A reply to the check: the name of the node, its generation, and lines of other names. -/
def Checks (servers : Servers n) (nodeName : CString) (cn : Node) (check : CString) : Prop :=
  ∃ value more, infoPairs check = (text "node",nodeName) :: (text "partition-generation",value) :: more ∧
    UInt32.ofInt (atoi value) = servers.generation cn ∧
    ∀ pair ∈ more, pair.1 ≠ text "node" ∧ pair.1 ≠ text "partition-generation"

/-- What arrives is what the servers send. -/
def Answers (servers : Servers n) (nodeName : Node → CString) : PingEvent → Prop
  | .pingNode cn check replicas => (∀ rbuf, check = some rbuf → servers.Checks (nodeName cn) cn rbuf) ∧
    ∀ rbuf, replicas = some rbuf → rbuf = servers.replicas cn
  | _ => True

/-- What a node sent with the same generation was the same. -/
def Kept (servers : Servers n) (s : PingState n) : Prop :=
  ∀ cn earlier, (cn,earlier) ∈ s.replies → announcedGeneration earlier = some (servers.generation cn) →
    Repeats n earlier (servers.replicas cn) ∧ Repeats n (servers.replicas cn) earlier

/-- All writes to the partitions of the node are sent there. -/
def Routed (servers : Servers n) (s : PingState n) (cn : Node) : Prop :=
  ∀ ns pid, servers.Claims cn ns pid → (slot s.table.head ns pid).master = some cn

end Servers

/-- A partition that is announced is one of a namespace that is listed. -/
theorem ownership_listed {items : List Announcement} {pid : Fin n} (claimed : ownership n items ns pid = true) :
    ∃ a ∈ items, a.ns = ns := by
  simp only [ownership,decide_eq_true_eq] at claimed
  obtain ⟨a,item,same,_⟩ := claimed
  exact ⟨a,item,same⟩

theorem repeats_refl (n : Nat) (rbuf : CString) : Repeats n rbuf rbuf := fun a item => ⟨⟨a,item,rfl⟩,rfl,rfl⟩

/-- A check reply makes the client fetch exactly when its generation is another one. -/
theorem Servers.Checks.fetch {servers : Servers n} (checks : servers.Checks nodeName cn check) (generation : UInt32) :
    clClusterNodeParseCheck nodeName generation check = (generation != servers.generation cn) := by
  obtain ⟨value,more,pairs,same,others⟩ := checks
  have rest (updates : Bool) : parseCheckPairs nodeName generation updates more = updates := by
    clear pairs
    induction more with
    | nil => rfl
    | cons pair more ih =>
      obtain ⟨name,value⟩ := pair
      obtain ⟨node,other⟩ := others _ List.mem_cons_self
      rw [parseCheckPairs,if_neg node,if_neg other]
      exact ih fun pair member => others pair (List.mem_cons_of_mem _ member)
  have distinct : text "partition-generation" ≠ text "node" := by decide
  rw [clClusterNodeParseCheck,pairs,parseCheckPairs,if_pos rfl,if_pos rfl,parseCheckPairs,if_neg distinct,if_pos rfl,rest,same,
    Bool.false_or]

/-- The state while the servers keep their maps. -/
structure Stable (servers : Servers n) (s : PingState n) : Prop where
  mastered : Mastered s
  known : s.known = true
  kept : servers.Kept s

namespace Stable
variable {servers : Servers n} {s : PingState n} {cn : Node}

theorem applicable (stable : Stable servers s) (cn : Node) : Applicable s cn (servers.replicas cn) := by
  refine ⟨stable.known,?_⟩
  rw [servers.announces]
  exact ⟨servers.valid cn,servers.complete cn,fun earlier member announces => (stable.kept cn earlier member announces).1⟩

theorem reply (stable : Stable servers s) (cn : Node) : Stable servers (parseReplicas s cn (servers.replicas cn)) := by
  refine ⟨stable.mastered.reply cn _ (stable.applicable cn),?_,?_⟩
  · rw [stable.mastered.fits stable.known]
    exact stable.known
  · rw [stable.mastered.fits stable.known]
    intro node earlier member announces
    rcases List.mem_cons.mp member with new | old
    · obtain ⟨rfl,rfl⟩ := Prod.mk.inj new
      exact ⟨repeats_refl _ _,repeats_refl _ _⟩
    · exact stable.kept node earlier old announces

theorem nodeName_step (s : PingState n) (event : PingEvent) : (pingStep s event).nodeName = s.nodeName := by
  unfold pingStep
  split
  · rfl
  · cases event with
    | getNPartitions => rfl
    | isNodePresent cn => dsimp only; split <;> rfl
    | pingNode cn check replicas =>
      dsimp only
      split
      · cases replicas with
        | none => rfl
        | some rbuf =>
          dsimp only
          unfold parseReplicas
          dsimp only
          split
          · split <;> rfl
          · rfl
      · rfl

theorem nodeName_run (s : PingState n) (events : List PingEvent) : (run pingStep s events).nodeName = s.nodeName := by
  induction events generalizing s with
  | nil => rfl
  | cons event events ih => exact (ih _).trans (nodeName_step s event)

theorem step (stable : Stable servers s) (event : PingEvent) (answers : servers.Answers s.nodeName event) :
    Stable servers (pingStep s event) := by
  have mastered := stable.mastered
  unfold pingStep
  rw [if_neg (by simp [mastered.sound])]
  cases event with
  | getNPartitions =>
    exact ⟨⟨mastered.sound,mastered.sized,mastered.separate,mastered.complete,mastered.sourced,mastered.recorded⟩,rfl,stable.kept⟩
  | isNodePresent cn =>
    simp only [mastered.sized,List.isEmpty_nil,Bool.not_true,Bool.and_false,Bool.false_eq_true,if_false]
    have after := mastered.present cn
    exact ⟨⟨after.sound,rfl,after.separate,after.complete,after.sourced,after.recorded⟩,stable.known,stable.kept⟩
  | pingNode cn check replicas =>
    dsimp only
    split
    · cases replicas with
      | none => exact stable
      | some rbuf =>
        rw [answers.2 rbuf rfl]
        exact stable.reply cn
    · exact stable

/-- The node's own reply. -/
theorem routes (stable : Stable servers s) (cn : Node) : servers.Routed (parseReplicas s cn (servers.replicas cn)) cn := by
  rw [stable.mastered.fits stable.known]
  intro ns pid claims
  have applied := (complete_applied s.table cn _ (servers.complete cn)).masters
  obtain ⟨a,item,rfl⟩ := ownership_listed claims
  exact (applied a item pid).mpr claims

/-- A node whose generation is the recorded one has its masters in the table. -/
theorem unchanged (stable : Stable servers s) (same : s.table.partitionGeneration cn = servers.generation cn) :
    servers.Routed s cn := by
  intro ns pid claims
  rcases stable.mastered.sourced cn with forced | ⟨earlier,member,announces⟩
  · exact absurd (same.symm.trans forced) (servers.valid cn)
  · have recorded := stable.mastered.recorded cn earlier member announces
    rw [same] at announces
    have repeats := (stable.kept cn earlier member announces).2
    have complete := (stable.mastered.complete cn earlier member _ announces).2
    obtain ⟨a,item,rfl⟩ := ownership_listed claims
    exact (recorded.of_repeats complete repeats a item pid).mpr claims

theorem keeps_routed (stable : Stable servers s) (routed : servers.Routed s cn) (event : PingEvent)
    (answers : servers.Answers s.nodeName event) : servers.Routed (pingStep s event) cn := by
  unfold pingStep
  rw [if_neg (by simp [stable.mastered.sound])]
  cases event with
  | getNPartitions => exact routed
  | isNodePresent other =>
    simp only [stable.mastered.sized,List.isEmpty_nil,Bool.not_true,Bool.and_false,Bool.false_eq_true,if_false]
    intro ns pid claims
    exact (present_master s.table.head other ns pid).trans (routed ns pid claims)
  | pingNode other check replicas =>
    dsimp only
    split
    · cases replicas with
      | none => exact routed
      | some rbuf =>
        rw [answers.2 rbuf rfl]
        by_cases own : cn = other
        · subst own
          exact stable.routes cn
        · dsimp only
          rw [stable.mastered.fits stable.known]
          intro ns pid claims
          have unclaimed : ownership n (masters (servers.replicas other)) ns pid = false :=
            Bool.eq_false_iff.mpr fun both => own (servers.disjoint cn other ns pid claims both)
          exact parse_frame s.table _ (servers.complete other) own unclaimed (routed ns pid claims)
    · exact routed

/-- A ping that is answered. -/
theorem ping_routes (stable : Stable servers s) (checks : servers.Checks (s.nodeName cn) cn check) :
    servers.Routed (pingStep s (.pingNode cn (some check) (some (servers.replicas cn)))) cn := by
  unfold pingStep
  rw [if_neg (by simp [stable.mastered.sound])]
  dsimp only
  split
  · exact stable.routes cn
  · rename_i kept
    rw [fetches,checks.fetch] at kept
    exact stable.unchanged (by simpa using kept)

theorem run_routed (stable : Stable servers s) (events : List PingEvent)
    (answers : ∀ event ∈ events, servers.Answers s.nodeName event)
    (routed : servers.Routed s cn ∨ ∃ check, .pingNode cn (some check) (some (servers.replicas cn)) ∈ events) :
    servers.Routed (run pingStep s events) cn := by
  induction events generalizing s with
  | nil => exact routed.resolve_right fun ⟨_,member⟩ => absurd member List.not_mem_nil
  | cons event events ih =>
    have now := answers event List.mem_cons_self
    have name := nodeName_step s event
    refine ih (stable.step event now) (fun event member => ?_) ?_
    · rw [name]
      exact answers event (List.mem_cons_of_mem _ member)
    · rcases routed with routed | ⟨check,member⟩
      · exact .inl (stable.keeps_routed routed event now)
      · rcases List.mem_cons.mp member with rfl | rest
        · exact .inl (stable.ping_routes (now.1 check rfl))
        · exact .inr ⟨check,rest⟩

end Stable

theorem get_master {head : Tables n} (master : (slot head ns pid).master = some cn) (dice : Bool) :
    clPartitionTableGet head ns pid true dice = some cn := by
  unfold clPartitionTableGet
  cases found : clPartitionTableGetByNs head ns with
  | none =>
    rw [slot_of_none found] at master
    cases master
  | some pt =>
    rw [slot_of_some found] at master
    simpa using master

/-- From the first answered ping of a node on, while the servers keep their maps, each write to a partition the node is
master of is sent to it. Before, the servers may have changed their maps in any way. -/
theorem writes_routed (nodeName : Node → CString) (before after : List PingEvent) (servers : Servers n)
    (applies : Guarded pingStep AppliesReplies (PingState.start n nodeName) before)
    (known : (run pingStep (PingState.start n nodeName) before).known = true)
    (kept : servers.Kept (run pingStep (PingState.start n nodeName) before))
    (answers : ∀ event ∈ after, servers.Answers nodeName event)
    (pinged : .pingNode cn (some check) (some (servers.replicas cn)) ∈ after)
    (claims : servers.Claims cn ns pid) (dice : Bool) :
    clPartitionTableGet (run pingStep (PingState.start n nodeName) (before ++ after)).table.head ns pid true dice = some cn := by
  have always : Always pingStep Mastered (PingState.start n nodeName) before :=
    always_of_guarded (fun _ event inv guard => inv.step event guard) (Mastered.start n nodeName) applies
  have stable : Stable servers (run pingStep (PingState.start n nodeName) before) :=
    ⟨(always_iff _ _ _ _).mp always before [] (List.append_nil _).symm,known,kept⟩
  have name := Stable.nodeName_run (PingState.start n nodeName) before
  rw [run_append]
  exact get_master (stable.run_routed after (name.symm ▸ answers) (.inr ⟨check,pinged⟩) ns pid claims) dice

/-! ### A partition that has moved -/

/-- Node 2 was master of partition 0, with generation 4. -/
def movedReply : CString := text "partition-generation\t4\nreplicas-master\ttest:gA==\n"

/-- What node 2 sends now. -/
def emptyReply : CString := text "partition-generation\t5\n"

def movedName (cn : Node) : CString := if cn = 1 then text "A" else text "B"

set_option maxRecDepth 4000 in
theorem movedReply_items : masters movedReply = [⟨text "test",some (text "gA==")⟩] ∧
    proles movedReply = [] ∧ announcedGeneration movedReply = some 4 := by
  decide

set_option maxRecDepth 4000 in
theorem emptyReply_items : masters emptyReply = [] ∧ proles emptyReply = [] ∧ announcedGeneration emptyReply = some 5 := by
  decide

theorem movedReply_complete : Complete 8 movedReply := by
  obtain ⟨own,none,_⟩ := movedReply_items
  constructor
  · rw [own,none]
    intro a member
    obtain rfl := List.mem_singleton.mp member
    exact ⟨by decide,by decide,[0x80],rfl,by decide⟩
  · rw [none]
    nofun

theorem emptyReply_unclaimed (ns : CString) (pid : Fin 8) : ownership 8 (masters emptyReply) ns pid = false := by
  rw [emptyReply_items.1]
  simp [ownership]

/-- Node 1 is master of partition 0 now. -/
def movedServers : Servers 8 where
  generation _ := 5
  replicas cn := if cn = 1 then sampleReply else emptyReply
  announces cn := by
    split
    · exact sampleReply_items.2.2
    · exact emptyReply_items.2.2
  valid _ := by decide
  complete cn := by
    split
    · exact sampleReply_complete
    · obtain ⟨own,none,_⟩ := emptyReply_items
      exact ⟨by rw [own,none]; nofun,by rw [none]; nofun⟩
  disjoint cn other ns pid := by
    split
    · split
      · intros
        subst cn other
        rfl
      · intro _ claims
        rw [emptyReply_unclaimed] at claims
        cases claims
    · intro claims
      rw [emptyReply_unclaimed] at claims
      cases claims

def movedBefore : List PingEvent :=
  [.getNPartitions,.pingNode 2 (some (text "node\tB\npartition-generation\t4\n")) (some movedReply)]

set_option maxRecDepth 4000 in
/-- The write goes to node 1 before node 2 is pinged again. -/
theorem writes_routed_moved :
    clPartitionTableGet (run pingStep (PingState.start 8 movedName) (movedBefore ++ [samplePing])).table.head (text "test") 0
      true false = some 1 := by
  have replies : (run pingStep (PingState.start 8 movedName) movedBefore).replies = [(2,movedReply)] := by decide
  have checks : movedServers.Checks (movedName 1) 1 sampleCheck :=
    ⟨text "5",[],by decide,by decide,fun _ more => absurd more List.not_mem_nil⟩
  have claims : movedServers.Claims 1 (text "test") 0 := by
    change ownership 8 (masters sampleReply) (text "test") 0 = true
    rw [sampleReply_items.1]
    simp only [ownership,decide_eq_true_eq]
    exact ⟨_,List.mem_singleton_self _,rfl,[0x80],by decide,by decide⟩
  refine writes_routed movedName movedBefore [samplePing] movedServers ⟨trivial,?_,trivial⟩ (by decide) ?_ ?_
    (List.mem_singleton_self samplePing) claims false
  · rintro _ rbuf ⟨⟩
    refine ⟨rfl,?_⟩
    rw [movedReply_items.2.2]
    exact ⟨by decide,movedReply_complete,fun _ member => absurd member List.not_mem_nil⟩
  · intro cn earlier member announces
    rw [replies] at member
    obtain ⟨rfl,rfl⟩ := Prod.mk.inj (List.mem_singleton.mp member)
    rw [movedReply_items.2.2] at announces
    exact absurd (Option.some.inj announces) (by decide)
  · intro event member
    obtain rfl := List.mem_singleton.mp member
    refine ⟨?_,?_⟩
    · rintro _ ⟨⟩
      exact checks
    · rintro _ ⟨⟩
      rfl

end Citrusleaf.Generation
