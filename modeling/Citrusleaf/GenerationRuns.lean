import Citrusleaf.Generation

/-! Runs of pings. When every fetched reply can be applied as it is recorded, a recorded
generation stands for an applied map all along the run. -/
namespace Citrusleaf.Generation
open Lib Citrusleaf.Partition Citrusleaf.Replicas

/-! ### One reply -/

theorem complete_applied (t : TableState n) (cn : Node) (rbuf : CString)
    (complete : Complete n rbuf) : Applied (clClusterNodeParseReplicas t cn rbuf).head cn rbuf := by
  intro a member
  refine ⟨complete.1 a member,?_⟩
  intro pid
  have masterItems : ∀ a ∈ masters rbuf, a.WellFormed n := fun a item =>
    complete.1 a (List.mem_append_left _ item)
  have proleItems : ∀ a ∈ proles rbuf, a.WellFormed n := fun a item =>
    complete.1 a (List.mem_append_right _ item)
  have here := slot_parseReplicas t cn rbuf a.ns pid
  simp only [accepted_items _ rbuf masterItems,accepted_items _ rbuf proleItems,
    announced_items _ masterItems,announced_items _ proleItems] at here
  have mastered : ∃ b ∈ masters rbuf, b.ns = a.ns := by
    rcases List.mem_append.mp member with own | prole
    · exact ⟨a,own,rfl⟩
    · exact complete.2 a prole
  obtain ⟨b,item,same⟩ := mastered
  rw [if_pos ⟨_,List.mem_map.mpr ⟨b,item,rfl⟩,same⟩] at here
  rw [here]
  exact updateSlot_owner ..

/-- The generation of the node that sent the reply. -/
theorem parse_generation (t : TableState n) (cn : Node) (rbuf : CString) :
    (clClusterNodeParseReplicas t cn rbuf).partitionGeneration cn = 0xFFFFFFFF ∨
    (clClusterNodeParseReplicas t cn rbuf).partitionGeneration cn =
      (announcedGeneration rbuf).getD (t.partitionGeneration cn) := by
  have generation := (parsePairs_spec (n := n) (t.partitionGeneration cn) rbuf).1
  let parsed : Replicas.Parsed n := parsePairs (t.partitionGeneration cn) rbuf
  let recorded : TableState n := {t with
    partitionGeneration := Function.update t.partitionGeneration cn parsed.partitionGeneration}
  rcases runUpdates_generation recorded (parsed.updates cn) cn with forced | ⟨kept,_⟩
  · exact .inl forced
  · right
    refine kept.trans ?_
    simpa [recorded] using generation

/-- Another node is forced to refresh, or keeps its generation and its slots. -/
theorem parse_other (t : TableState n) (cn : Node) (rbuf : CString) (different : node ≠ cn) :
    let after := clClusterNodeParseReplicas t cn rbuf
    after.partitionGeneration node = 0xFFFFFFFF ∨
    (after.partitionGeneration node = t.partitionGeneration node ∧
      ∀ ns masters proles, Owns t.head node ns masters proles → Owns after.head node ns masters proles) := by
  let parsed : Replicas.Parsed n := parsePairs (t.partitionGeneration cn) rbuf
  let recorded : TableState n := {t with
    partitionGeneration := Function.update t.partitionGeneration cn parsed.partitionGeneration}
  rcases runUpdates_generation recorded (parsed.updates cn) node with forced | ⟨kept,quiet⟩
  · exact .inl forced
  · right
    constructor
    · refine kept.trans ?_
      simp [recorded,different]
    · intro ns masters proles owns
      have foreign : ∀ u ∈ parsed.updates cn, ¬(u.node = node ∧ u.ns = ns) := by
        intro u member same
        obtain ⟨map,_,rfl⟩ := List.mem_map.mp member
        exact different same.1.symm
      rcases owns_or_forced recorded (parsed.updates cn) node ns foreign owns with forced | owned
      · exact absurd forced quiet
      · exact owned

theorem Applied.of_repeats {head : Tables n} (applied : Applied head cn rbuf)
    (complete : ∀ a ∈ masters earlier ++ proles earlier, a.WellFormed n)
    (repeats : Repeats n earlier rbuf) : Applied head cn earlier := by
  intro a member
  obtain ⟨⟨b,item,same⟩,masterBits,proleBits⟩ := repeats a member
  refine ⟨complete a member,?_⟩
  rw [masterBits,proleBits,← same]
  exact (applied b item).2

/-! ### Presence checks -/

theorem dropProle_other (different : other ≠ node) (p : ClPartition) :
    SameFor other (dropProle node p).1 p := by
  unfold dropProle
  split
  · rename_i prole
    exact ⟨Iff.rfl,by simp [prole,Ne.symm different]⟩
  · exact ⟨Iff.rfl,Iff.rfl⟩

/-- Slots change for no node but the one checked, and for that one only if it is prole
somewhere and master nowhere. -/
theorem present_keeps {masters proles : Fin n → Bool} (head : Tables n) (cn node : Node) (ns : CString)
    (safe : node ≠ cn ∨ isMaster head cn = true ∨ ∀ ns pid, (slot head ns pid).prole ≠ some cn)
    (owns : Owns head node ns masters proles) :
    Owns (clPartitionTableIsNodePresent head cn).2.1 node ns masters proles := by
  intro pid
  rw [slot_isNodePresent]
  split
  · exact owns pid
  · rename_i noMaster
    rcases safe with different | master | noProle
    · have same := dropProle_other different (slot head ns pid)
      exact ⟨same.1.trans (owns pid).1,same.2.trans (owns pid).2⟩
    · exact absurd master noMaster
    · rw [dropProle,if_neg (noProle ns pid)]
      exact owns pid

/-! ### Runs -/

/-- What guarded events keep: no table without slots was made, and every reply that gave a
generation was complete. -/
structure Inv (s : PingState n) : Prop where
  sound : s.overrun = false
  sized : s.unsized = []
  complete : ∀ cn rbuf, (cn,rbuf) ∈ s.replies → ∀ g, announcedGeneration rbuf = some g →
    g ≠ 0xFFFFFFFF ∧ Complete n rbuf
  recorded : Recorded s

theorem Inv.present (inv : Inv s) (cn : Node) (guard : Guard s (.isNodePresent cn)) :
    Recorded {s with table := tableStep s.table (.isNodePresent cn)} := by
  intro node rbuf member g announces same a item
  rw [isNodePresent_generation] at same
  obtain ⟨wellFormed,owns⟩ := inv.recorded node rbuf member g announces same a item
  refine ⟨wellFormed,present_keeps s.table.head cn node a.ns ?_ owns⟩
  by_cases different : node = cn
  · subst different
    rcases guard with master | forced | noProle
    · exact .inr (.inl master)
    · exact absurd (same.symm.trans forced) (inv.complete node rbuf member g announces).1
    · exact .inr (.inr noProle)
  · exact .inl different

theorem Inv.reply {s : PingState n} (inv : Inv s) (cn : Node) (rbuf : CString) (applicable : Applicable s cn rbuf) :
    Inv (parseReplicas s cn rbuf) := by
  obtain ⟨known,condition⟩ := applicable
  have fits : parseReplicas s cn rbuf =
      {s with
        table := clClusterNodeParseReplicas s.table cn rbuf
        replies := (cn,rbuf) :: s.replies} := by
    simp [parseReplicas,known,inv.sized]
  rw [fits]
  have complete : ∀ node reply, (node,reply) ∈ (cn,rbuf) :: s.replies →
      ∀ g, announcedGeneration reply = some g → g ≠ 0xFFFFFFFF ∧ Complete n reply := by
    intro node reply member g announces
    rcases List.mem_cons.mp member with new | old
    · obtain ⟨rfl,rfl⟩ := Prod.mk.inj new
      rw [announces] at condition
      exact ⟨condition.1,condition.2.1⟩
    · exact inv.complete node reply old g announces
  refine ⟨inv.sound,inv.sized,complete,?_⟩
  intro node reply member g announces same
  have unforced := (complete node reply member g announces).1
  by_cases own : node = cn
  · subst own
    rcases parse_generation s.table node rbuf with forced | stored
    · exact absurd (same.symm.trans forced) unforced
    · -- the node's generation is the one this reply gave, so this reply was complete
      cases given : announcedGeneration rbuf with
      | none =>
        rw [given] at condition stored
        exact absurd (same.symm.trans (stored.trans condition)) unforced
      | some h =>
        rw [given] at condition stored
        obtain rfl : h = g := stored.symm.trans same
        have applied := complete_applied s.table node rbuf condition.2.1
        rcases List.mem_cons.mp member with new | old
        · obtain ⟨_,rfl⟩ := Prod.mk.inj new
          exact applied
        · exact applied.of_repeats (complete node reply member h announces).2.1
            (condition.2.2 reply old announces)
  · rcases parse_other s.table cn rbuf own with forced | ⟨kept,owned⟩
    · exact absurd (same.symm.trans forced) unforced
    · rcases List.mem_cons.mp member with new | old
      · exact absurd (Prod.mk.inj new).1 own
      · intro a item
        obtain ⟨wellFormed,owns⟩ := inv.recorded node reply old g announces (kept.symm.trans same) a item
        exact ⟨wellFormed,owned _ _ _ owns⟩

theorem Inv.step (inv : Inv s) (event : PingEvent) (guard : Guard s event) :
    Inv (pingStep s event) := by
  unfold pingStep
  rw [if_neg (by simp [inv.sound])]
  cases event with
  | getNPartitions => exact ⟨inv.sound,inv.sized,inv.complete,inv.recorded⟩
  | isNodePresent cn =>
    simp only [inv.sized,List.isEmpty_nil,Bool.not_true,Bool.and_false,Bool.false_eq_true,if_false]
    exact ⟨inv.sound,rfl,inv.complete,inv.present cn guard⟩
  | pingNode cn check replicas =>
    dsimp only
    split
    · rename_i fetched
      cases replicas with
      | none => exact inv
      | some rbuf => exact inv.reply cn rbuf (guard fetched rbuf rfl)
    · exact inv

/-- While every fetched reply can be applied as it is recorded, a node whose generation is
one announced by a reply has exactly the ownership of that reply. -/
theorem generation_recorded (n : Nat) (nodeName : Node → CString) (events : List PingEvent)
    (guarded : Guarded pingStep Guard (PingState.start n nodeName) events) :
    Always pingStep Recorded (PingState.start n nodeName) events := by
  have initial : Inv (PingState.start n nodeName) := ⟨rfl,rfl,nofun,nofun⟩
  have always : Always pingStep Inv (PingState.start n nodeName) events :=
    always_of_guarded (fun s event inv guard => Inv.step inv event guard) initial guarded
  exact always.mono fun _ inv => inv.recorded

/-! ### One reply, too early and in time -/

def sampleCheck : CString := text "node\tA\npartition-generation\t5\n"

/-- The node claims partition 0 of 8. -/
def sampleReply : CString := text "partition-generation\t5\nreplicas-master\ttest:gA==\n"

def samplePing : PingEvent := .pingNode 1 (some sampleCheck) (some sampleReply)

set_option maxRecDepth 4000 in
theorem sampleReply_items : masters sampleReply = [⟨text "test",some (text "gA==")⟩] ∧
    proles sampleReply = [] ∧ announcedGeneration sampleReply = some 5 := by
  decide

theorem sampleReply_complete : Complete 8 sampleReply := by
  obtain ⟨own,none,_⟩ := sampleReply_items
  constructor
  · rw [own,none]
    intro a member
    obtain rfl := List.mem_singleton.mp member
    exact ⟨by decide,by decide,[0x80],rfl,by decide⟩
  · rw [none]
    nofun

/-- With the partition count known the reply is recorded and applied. -/
theorem generation_recorded_sample :
    Always pingStep Recorded (PingState.start 8 fun _ => text "A") [.getNPartitions,samplePing] := by
  refine generation_recorded 8 (fun _ => text "A") [.getNPartitions,samplePing] ⟨trivial,?_,trivial⟩
  rintro _ rbuf ⟨⟩
  refine ⟨rfl,?_⟩
  rw [sampleReply_items.2.2]
  exact ⟨by decide,sampleReply_complete,nofun⟩

set_option maxRecDepth 4000 in
/-- While `n_partitions` is zero the generation is recorded and the map is not; with the
count known, a later ping no longer fetches the replicas. -/
theorem recorded_before_n_partitions :
    ¬∀ events, Recorded (run pingStep (PingState.start 8 fun _ => text "A") events) := by
  intro every
  let events := [samplePing,.getNPartitions,samplePing]
  have stored : (run pingStep (PingState.start 8 fun _ => text "A") events).table.partitionGeneration 1 = 5 := by
    decide
  have read : (run pingStep (PingState.start 8 fun _ => text "A") events).replies = [(1,sampleReply)] := by
    decide
  have nothing : (run pingStep (PingState.start 8 fun _ => text "A") events).table.head = [] :=
    List.isEmpty_iff.mp (by decide)
  obtain ⟨own,none,announces⟩ := sampleReply_items
  have applied := every events 1 sampleReply (by rw [read]; exact List.mem_singleton_self _) 5
    announces stored ⟨text "test",some (text "gA==")⟩ (by rw [own,none]; exact List.mem_singleton_self _)
  rw [nothing,own] at applied
  have claimed : ownership 8 [⟨text "test",some (text "gA==")⟩] (text "test") 0 = true := by
    simp only [ownership,decide_eq_true_eq]
    exact ⟨_,List.mem_singleton_self _,rfl,[0x80],by decide,by decide⟩
  have owned := (applied.2 0).1.mpr claimed
  cases owned

end Citrusleaf.Generation
