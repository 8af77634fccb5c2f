import Citrusleaf.PartitionOwnership
import Citrusleaf.Replicas

/-! Pings and the generation they record. The generation of a reply is stored while its
lines are read, whatever becomes of its maps; the results say in which runs a recorded
generation still stands for an applied map. -/
namespace Citrusleaf.Generation
open Lib Citrusleaf.Partition Citrusleaf.Replicas

/-- `n` is the partition count of the cluster. The client knows it once `known` is set and
has `n_partitions` zero before, when a new table gets no slots. -/
structure PingState (n : Nat) where
  nodeName : Node → CString
  known : Bool
  unsized : Tables 0
  /-- A slot of a table without slots was used. -/
  overrun : Bool
  table : TableState n
  /-- Every replicas reply read so far, with the node that sent it. -/
  replies : List (Node × CString)

def PingState.start (n : Nat) (nodeName : Node → CString) : PingState n :=
  ⟨nodeName,false,[],false,.empty n fun _ => 0xFFFFFFFF,[]⟩

/-- The loop of `cl_cluster_node_parse_check`, with `update_partitions` so far. -/
def parseCheckPairs (nodeName : CString) (partitionGeneration : UInt32) :
    Bool → List (CString × CString) → Bool
  | updatePartitions,[] => updatePartitions
  | updatePartitions,(name,value) :: pairs =>
    if name = text "node" then
      if value = nodeName then parseCheckPairs nodeName partitionGeneration updatePartitions pairs
      else false
    else if name = text "partition-generation" then
      parseCheckPairs nodeName partitionGeneration
        (updatePartitions || partitionGeneration != UInt32.ofInt (atoi value)) pairs
    else parseCheckPairs nodeName partitionGeneration updatePartitions pairs

def clClusterNodeParseCheck (nodeName : CString) (partitionGeneration : UInt32) (rbuf : CString) :
    Bool :=
  parseCheckPairs nodeName partitionGeneration false (infoPairs rbuf)

inductive PingEvent where
  /-- `cluster_get_n_partitions` gets its answer. -/
  | getNPartitions
  /-- `cl_partition_table_is_node_present` -/
  | isNodePresent (cn : Node)
  /-- `cluster_ping_node`, with the replies that arrive. -/
  | pingNode (cn : Node) (check replicas : Option CString)

/-- `cl_cluster_node_parse_replicas` with the partition count the client has. -/
def parseReplicas (s : PingState n) (cn : Node) (rbuf : CString) : PingState n :=
  if s.known then
    let parsed : Replicas.Parsed n := parsePairs (s.table.partitionGeneration cn) rbuf
    if (parsed.updates cn).any fun u => (clPartitionTableGetByNs s.unsized u.ns).isSome then
      {s with overrun := true}
    else
      {s with
        table := clClusterNodeParseReplicas s.table cn rbuf
        replies := (cn,rbuf) :: s.replies}
  else
    let result := clClusterNodeParseReplicas ⟨s.unsized,s.table.calls,s.table.partitionGeneration⟩ cn rbuf
    {s with
      unsized := result.head
      table := ⟨s.table.head,result.calls,result.partitionGeneration⟩
      replies := (cn,rbuf) :: s.replies}

/-- The replicas are fetched: the node answers the check and its generation differs. -/
def fetches (s : PingState n) (cn : Node) : Option CString → Bool
  | none => false
  | some check => clClusterNodeParseCheck (s.nodeName cn) (s.table.partitionGeneration cn) check

/-- What follows an overrun is undefined; the model stays there. -/
def pingStep (s : PingState n) (event : PingEvent) : PingState n :=
  if s.overrun then s
  else match event with
  | .getNPartitions => {s with known := true}
  | .isNodePresent cn =>
    if s.known && !s.unsized.isEmpty then {s with overrun := true}
    else {s with table := tableStep s.table (.isNodePresent cn)}
  | .pingNode cn check replicas =>
    if fetches s cn check then
      match replicas with
      | none => s
      | some rbuf => parseReplicas s cn rbuf
    else s

/-! ### What a reply announces -/

/-- An item of a replicas list: its namespace, and its bitmap if a colon follows. -/
structure Announcement where
  listNs : CString
  bitmap : Option CString
  deriving DecidableEq

def Announcement.ns (a : Announcement) : CString := trim a.listNs

def cut (item : CString) : Announcement :=
  ⟨item.takeWhile (· ≠ 58),if 58 ∈ item then some ((item.dropWhile (· ≠ 58)).drop 1) else none⟩

def announcements (name : String) (rbuf : CString) : List Announcement :=
  (valuesOf (text name) (infoPairs rbuf)).flatMap fun value => (strSplit 59 value).map cut

abbrev masters := announcements "replicas-master"

abbrev proles := announcements "replicas-prole"

/-- A namespace of 1 to 31 characters with the base 64 of a bitmap of `n` bits. -/
def Announcement.WellFormed (n : Nat) (a : Announcement) : Prop :=
  a.ns ≠ [] ∧ a.ns.length ≤ 31 ∧
    ∃ bytes, bytes.length = (n + 7) / 8 ∧ a.bitmap = some (Base64.encode bytes)

open Classical in
/-- The partitions announced for a namespace. -/
noncomputable def ownership (n : Nat) (items : List Announcement) (ns : CString) : Fin n → Bool :=
  fun pid => decide (∃ a ∈ items, a.ns = ns ∧
    ∃ bytes, a.bitmap = some (Base64.encode bytes) ∧ bitmapBit bytes pid = true)

/-- The table gives the node exactly the announced ownership, in every namespace listed. -/
def Applied (head : Tables n) (cn : Node) (rbuf : CString) : Prop :=
  ∀ a ∈ masters rbuf ++ proles rbuf, a.WellFormed n ∧
    Owns head cn a.ns (ownership n (masters rbuf) a.ns) (ownership n (proles rbuf) a.ns)

/-- A node whose generation is one announced by a reply has the ownership of that reply. -/
def Recorded (s : PingState n) : Prop :=
  ∀ cn rbuf, (cn,rbuf) ∈ s.replies → ∀ g, announcedGeneration rbuf = some g →
    s.table.partitionGeneration cn = g → Applied s.table.head cn rbuf

/-- Every item can be applied: well formed, and with a master bitmap for its namespace. -/
def Complete (n : Nat) (rbuf : CString) : Prop :=
  (∀ a ∈ masters rbuf ++ proles rbuf, a.WellFormed n) ∧
    ∀ a ∈ proles rbuf, ∃ b ∈ masters rbuf, b.ns = a.ns

/-- The later reply lists what the earlier one lists, with the same ownership. -/
def Repeats (n : Nat) (earlier rbuf : CString) : Prop :=
  ∀ a ∈ masters earlier ++ proles earlier, (∃ b ∈ masters rbuf ++ proles rbuf, b.ns = a.ns) ∧
    ownership n (masters earlier) a.ns = ownership n (masters rbuf) a.ns ∧
    ownership n (proles earlier) a.ns = ownership n (proles rbuf) a.ns

/-- A reply read in this state will be applied as it is recorded. -/
def Applicable (s : PingState n) (cn : Node) (rbuf : CString) : Prop :=
  s.known = true ∧
  match announcedGeneration rbuf with
  | none => s.table.partitionGeneration cn = 0xFFFFFFFF
  | some g => g ≠ 0xFFFFFFFF ∧ Complete n rbuf ∧
      ∀ earlier, (cn,earlier) ∈ s.replies → announcedGeneration earlier = some g →
        Repeats n earlier rbuf

/-- The condition on one event: a fetched reply is applicable, and a presence check does
not drop the prole slots of a node without masters whose generation is not forced. -/
def Guard (s : PingState n) : PingEvent → Prop
  | .getNPartitions => True
  | .isNodePresent cn =>
    isMaster s.table.head cn = true ∨ s.table.partitionGeneration cn = 0xFFFFFFFF ∨
      ∀ ns pid, (slot s.table.head ns pid).prole ≠ some cn
  | .pingNode cn check replicas =>
    fetches s cn check = true → ∀ rbuf, replicas = some rbuf → Applicable s cn rbuf

/-! ### Items and segments -/

/-- Where the walk over a list stands after the characters since the last semicolon. -/
def walked (item : CString) : CString × Option CString := ((cut item).listNs,(cut item).bitmap)

theorem walked_cons (d : UInt8) (item : CString) :
    walked (d :: item) = if d = 58 then ([],some item) else (d :: (walked item).1,(walked item).2) := by
  by_cases colon : d = 58
  · simp [walked,cut,colon]
  · simp [walked,cut,colon,Ne.symm colon]

theorem walked_snoc (item : CString) (c : UInt8) :
    walked (item ++ [c]) =
      match walked item with
      | (listNs,some bitmap) => (listNs,some (bitmap ++ [c]))
      | (listNs,none) => if c = 58 then (listNs,some []) else (listNs ++ [c],none) := by
  induction item with
  | nil => exact walked_cons c []
  | cons d item ih =>
    rw [List.cons_append,walked_cons,walked_cons,ih]
    by_cases colon : d = 58
    · simp [colon]
    · rcases walked item with ⟨listNs,_ | bitmap⟩
      · by_cases last : c = 58 <;> simp [colon,last]
      · simp [colon]

/-- When every item has a colon, the segments are the items. -/
theorem replicaSegments_items (item value : CString)
    (colons : ∀ a ∈ (strSplitFrom 59 item value).map cut, a.bitmap.isSome) :
    replicaSegments (walked item).1 (walked item).2 value =
      (strSplitFrom 59 item value).map fun piece => ((cut piece).listNs,(cut piece).bitmap.getD []) := by
  induction value generalizing item with
  | nil =>
    by_cases empty : item = []
    · subst empty; rfl
    · have colon : (cut item).bitmap.isSome := colons _ (by simp [strSplitFrom,empty])
      obtain ⟨bitmap,found⟩ := Option.isSome_iff_exists.mp colon
      simp [strSplitFrom,empty,walked,found,replicaSegments]
  | cons c value ih =>
    by_cases semicolon : c = 59
    · subst semicolon
      simp only [strSplitFrom,if_true,List.map_cons,List.forall_mem_cons] at colons ⊢
      obtain ⟨bitmap,found⟩ := Option.isSome_iff_exists.mp colons.1
      have rest := ih [] colons.2
      simp only [walked,found,replicaSegments,if_true,Option.getD_some]
      exact congrArg _ rest
    · have different : ¬(59 : UInt8) = c := Ne.symm semicolon
      simp only [strSplitFrom,different,if_false] at colons ⊢
      rw [← ih (item ++ [c]) colons,walked_snoc]
      rcases walked item with ⟨listNs,_ | bitmap⟩
      · by_cases colon : c = 58 <;> simp [replicaSegments,colon]
      · simp [replicaSegments,semicolon]

/-- The segments of a list of well-formed items. -/
theorem listed_eq (name : String) (rbuf : CString)
    (wellFormed : ∀ a ∈ announcements name rbuf, a.WellFormed n) :
    listed (text name) rbuf =
      (announcements name rbuf).map fun a => (a.listNs,a.bitmap.getD []) := by
  unfold listed
  unfold announcements at wellFormed ⊢
  generalize valuesOf (text name) (infoPairs rbuf) = values at *
  induction values with
  | nil => rfl
  | cons value values ih =>
    simp only [List.flatMap_cons,List.forall_mem_append,List.map_append] at wellFormed ⊢
    rw [ih wellFormed.2]
    congr 1
    refine (replicaSegments_items [] value ?_).trans ?_
    · intro a member
      obtain ⟨_,_,bytes,_,found⟩ := wellFormed.1 a member
      simp [found]
    · rw [strSplit,List.map_map]
      rfl

theorem bitmapBit_decode (bytes : List UInt8) (pid : Nat) :
    bitmapBit (b64Decode (Base64.encode bytes)) pid = bitmapBit bytes pid := by
  rw [b64Decode_eq,Base64.decode_encode decodeArray_decodes,bitmapBit,bitmapBit]
  simp only [List.getD_eq_getElem?_getD,List.getElem?_append]
  split
  · rfl
  · rename_i outside
    have zeros (k : Nat) : ((List.replicate k (0 : UInt8))[pid / 8 - bytes.length]?).getD 0 = 0 := by
      rw [List.getElem?_replicate]; split <;> rfl
    rw [zeros,List.getElem?_eq_none (by omega)]
    rfl

/-- Well-formed items pass the checks of the parser. -/
theorem accepted_items (name : String) (rbuf : CString)
    (wellFormed : ∀ a ∈ announcements name rbuf, a.WellFormed n) :
    accepted n (listed (text name) rbuf) =
      (announcements name rbuf).map fun a => (a.listNs,a.bitmap.getD []) := by
  rw [listed_eq name rbuf wellFormed]
  refine List.filter_eq_self.mpr ?_
  intro segment member
  obtain ⟨a,item,rfl⟩ := List.mem_map.mp member
  obtain ⟨nonempty,short,bytes,length,found⟩ := wellFormed a item
  have size : (Base64.encode bytes).length = expectedEncodedLen n := by
    rw [Base64.encode_length,length]; rfl
  unfold Announcement.ns at nonempty short
  simp [segmentAccepted,found,size,nonempty,short]

/-- The parser reads the announced ownership. -/
theorem announced_items (items : List Announcement)
    (wellFormed : ∀ a ∈ items, a.WellFormed n) (ns : CString) (pid : Fin n) :
    announced (items.map fun a => (a.listNs,a.bitmap.getD [])) ns pid = ownership n items ns pid := by
  rw [Bool.eq_iff_iff]
  simp only [announced,ownership,List.any_map,List.any_eq_true,Function.comp_apply,
    Bool.and_eq_true,decide_eq_true_eq]
  constructor
  · rintro ⟨a,member,same,bit⟩
    obtain ⟨_,_,bytes,_,found⟩ := wellFormed a member
    rw [found,Option.getD_some,bitmapBit_decode] at bit
    exact ⟨a,member,same,bytes,found,bit⟩
  · rintro ⟨a,member,same,bytes,found,bit⟩
    refine ⟨a,member,same,?_⟩
    rw [found,Option.getD_some,bitmapBit_decode]
    exact bit

end Citrusleaf.Generation
