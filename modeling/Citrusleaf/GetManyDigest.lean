import Citrusleaf.BatchCompile
import Mathlib.Data.Finset.Card
import Mathlib.Data.List.Count

/-! `do_get_exists_many_digest`. The digests of a batch are grouped by node in two fixed
tables, each node's request goes to a worker, and the outcomes are collected in the order
in which the workers finish. -/
namespace Citrusleaf.GetManyDigest
open Lib

/-- `MAX_NODES` -/
def maxNodes : Nat := 32

/-- The entries of `unique_nodes` and `unique_nodes_count` at one index. -/
structure UniqueNode (ν : Type) where
  node : ν
  count : Nat

variable {ν : Type} [DecidableEq ν]

/-- One turn of the counting loop, with `j` entries passed over. A new entry behind the
last one is outside the tables. -/
def countNode (node : ν) (j : Nat) : List (UniqueNode ν) → Option (List (UniqueNode ν))
  | [] => if j < maxNodes then some [⟨node,1⟩] else none
  | unique :: table =>
    if unique.node = node then some ({unique with count := unique.count + 1} :: table)
    else (countNode node (j + 1) table).map (unique :: ·)

/-- The counting loop over all digests, `n_nodes` being the length of the table. -/
def uniqueNodes (table : List (UniqueNode ν)) : List (AssignedDigest ν) → Option (List (UniqueNode ν))
  | [] => some table
  | digest :: digests => do uniqueNodes (← countNode digest.node 0 table) digests

/-- The parts of a work item that its node decides. -/
structure DigestWork (ν : Type) where
  digests : List (AssignedDigest ν)
  myNode : ν
  myNodeDigestCount : Nat

/-- The work items that are pushed, one for each entry of the tables. -/
def requests (digests : List (AssignedDigest ν)) : Option (List (DigestWork ν)) :=
  (uniqueNodes [] digests).map fun table => table.map fun unique => ⟨digests,unique.node,unique.count⟩

/-- The indices of the digests a request carries. -/
def DigestWork.indices (work : DigestWork ν) : List Nat :=
  (List.range work.digests.length).filter fun i => work.digests[i]?.map (·.node) = some work.myNode

/-- The bytes of the digest array, as the `field_sz` of the request declares them. -/
def DigestWork.declared (work : DigestWork ν) : Nat :=
  clMsgFieldGetValueSz (leNat (leBytes 4 (digestFieldSz work.myNodeDigestCount)))

/-- The bytes `write_fields_batch_digests` copies. -/
def DigestWork.copied (work : DigestWork ν) : List UInt8 :=
  (myDigests work.digests work.myNode).flatMap Vector.toList

/-! ### The counting loop -/

/-- What the tables hold for a node. -/
def tally (node : ν) : List (UniqueNode ν) → Nat
  | [] => 0
  | unique :: table => (if unique.node = node then unique.count else 0) + tally node table

/-- A turn counts its node and no other, in a new entry if the node has none. -/
structure CountsOne (node : ν) (table new : List (UniqueNode ν)) : Prop where
  nodes : new.map (·.node) = table.map (·.node) ++ if node ∈ table.map (·.node) then [] else [node]
  tallies : ∀ other, tally other new = tally other table + if node = other then 1 else 0

theorem countNode_checked (node : ν) (table : List (UniqueNode ν)) (j : Nat) :
    Checked (node ∈ table.map (·.node) ∨ j + table.length < maxNodes) (CountsOne node table)
      (countNode node j table) := by
  induction table generalizing j with
  | nil =>
    rw [countNode]
    split
    · rename_i room
      exact .gives (.inr room) ⟨by simp,by simp [tally]⟩
    · rename_i full
      exact .fails (by simpa using full)
  | cons unique table ih =>
    rw [countNode]
    split
    · rename_i same
      apply Checked.gives
      · exact .inl (by simp [same])
      · constructor
        · simp [same]
        · intro other
          simp only [tally,same]
          split <;> omega
    · rename_i differ
      have absent : node ≠ unique.node := fun same => differ same.symm
      have rest : Checked _ (CountsOne node (unique :: table)) ((countNode node (j + 1) table).map (unique :: ·)) :=
        (ih (j + 1)).map fun new one =>
          ⟨by simp [one.nodes,absent],fun other => by simp [tally,one.tallies,Nat.add_assoc]⟩
      have later : j + 1 + table.length = j + (table.length + 1) := by omega
      apply rest.congr
      simp only [List.map_cons,List.mem_cons,absent,false_or,List.length_cons,later]

/-- The tables name each node met so far once and count its digests. -/
structure Counts (nodes : List ν) (table : List (UniqueNode ν)) : Prop where
  distinct : (table.map (·.node)).Nodup
  met : ∀ node, node ∈ table.map (·.node) ↔ node ∈ nodes
  counted : ∀ node, tally node table = nodes.count node
  room : table.length ≤ maxNodes

variable {nodes : List ν} {table : List (UniqueNode ν)}

theorem Counts.length (counts : Counts nodes table) : table.length = nodes.toFinset.card := by
  have same : (table.map (·.node)).toFinset = nodes.toFinset := by
    ext node
    simp only [List.mem_toFinset,counts.met]
  rw [← same,List.toFinset_card_of_nodup counts.distinct,List.length_map]

theorem Counts.count (counts : Counts nodes table) (member : unique ∈ table) :
    unique.count = nodes.count unique.node := by
  rw [← counts.counted]
  have distinct := counts.distinct
  clear counts
  induction table with
  | nil => cases member
  | cons first table ih =>
    obtain ⟨fresh,rest⟩ := List.nodup_cons.mp distinct
    have unmet (node : ν) (absent : node ∉ table.map (·.node)) : tally node table = 0 := by
      clear ih rest fresh distinct member
      induction table with
      | nil => rfl
      | cons second table ih =>
        simp only [List.map_cons,List.mem_cons,not_or] at absent
        simp [tally,ih absent.2,Ne.symm absent.1]
    rcases List.mem_cons.mp member with rfl | later
    · simp [tally,unmet _ fresh]
    · have differ : first.node ≠ unique.node := by
        intro same
        exact fresh (List.mem_map.mpr ⟨unique,later,same.symm⟩)
      simp [tally,differ,ih later rest]

/-- After a turn with room the tables also count its node. -/
theorem Counts.next (counts : Counts nodes table) (one : CountsOne node table new)
    (room : node ∈ table.map (·.node) ∨ 0 + table.length < maxNodes) :
    Counts (nodes ++ [node]) new := by
  have tallies (other : ν) : tally other new = (nodes ++ [node]).count other := by
    rw [one.tallies,counts.counted,List.count_append,List.count_singleton]
    simp
  have length := congrArg List.length one.nodes
  simp only [List.length_map,List.length_append] at length
  by_cases met : node ∈ table.map (·.node)
  · have same : new.map (·.node) = table.map (·.node) := by simpa [met] using one.nodes
    refine ⟨same ▸ counts.distinct,fun other => ?_,tallies,?_⟩
    · rw [same,counts.met,List.mem_append,List.mem_singleton]
      constructor
      · exact .inl
      · rintro (old | rfl)
        · exact old
        · exact (counts.met other).mp met
    · simp only [met,if_true,List.length_nil] at length
      have := counts.room
      omega
  · have more : new.map (·.node) = table.map (·.node) ++ [node] := by simpa [met] using one.nodes
    refine ⟨?_,fun other => ?_,tallies,?_⟩
    · rw [more]
      exact List.nodup_append.mpr ⟨counts.distinct,List.nodup_singleton node,fun a old b last => by
        obtain rfl := List.mem_singleton.mp last
        exact fun same => met (same ▸ old)⟩
    · rw [more,List.mem_append,List.mem_append,counts.met]
    · simp only [met,if_false,List.length_singleton] at length
      have := room.resolve_left met
      omega

theorem uniqueNodes_checked (digests : List (AssignedDigest ν)) (counts : Counts nodes table) :
    Checked ((nodes ++ digests.map (·.node)).toFinset.card ≤ maxNodes)
      (Counts (nodes ++ digests.map (·.node))) (uniqueNodes table digests) := by
  induction digests generalizing nodes table with
  | nil =>
    rw [uniqueNodes,List.map_nil,List.append_nil]
    exact .gives (counts.length ▸ counts.room) counts
  | cons digest digests ih =>
    have both := (countNode_checked digest.node table 0).bind (f := fun new => uniqueNodes new digests)
      fun new room one => ih (counts.next one room)
    simp only [List.append_assoc,List.singleton_append] at both
    apply both.congr
    constructor
    · exact And.right
    · intro few
      refine ⟨?_,few⟩
      by_contra full
      simp only [not_or] at full
      obtain ⟨unmet,full⟩ := full
      have fresh : digest.node ∉ nodes.toFinset := by
        rwa [List.mem_toFinset,← counts.met]
      have grown : insert digest.node nodes.toFinset ⊆
          (nodes ++ digest.node :: digests.map (·.node)).toFinset := by
        intro node member
        simp only [Finset.mem_insert,List.mem_toFinset] at member
        simp only [List.mem_toFinset,List.mem_append,List.mem_cons]
        tauto
      have more := Finset.card_le_card grown
      rw [Finset.card_insert_of_notMem fresh,← counts.length] at more
      simp only [List.map_cons] at few
      omega

/-! ### The requests -/

/-- One request a node, each index in one request, and each digest array as long as its
field declares. -/
structure Grouped (digests : List (AssignedDigest ν)) (works : List (DigestWork ν)) : Prop where
  bounded : works.length ≤ maxNodes
  distinct : (works.map (·.myNode)).Nodup
  nodes : ∀ node, node ∈ works.map (·.myNode) ↔ node ∈ digests.map (·.node)
  once : ∀ i < digests.length, ∃! work, work ∈ works ∧ i ∈ work.indices
  declared : ∀ work ∈ works, work.declared = work.copied.length

omit [DecidableEq ν] in
theorem declared_eq (work : DigestWork ν) : work.declared = 20 * work.myNodeDigestCount % 2 ^ 32 := by
  have low : (256 : Nat) ^ 4 = 2 ^ 32 := by decide
  rw [DigestWork.declared,digestFieldSz,leNat_leBytes,low,clMsgFieldGetValueSz]
  omega

theorem copied_length (work : DigestWork ν) :
    work.copied.length = 20 * (work.digests.map (·.node)).count work.myNode := by
  rw [DigestWork.copied,digests_length,myDigests,List.length_map,List.count,List.countP_map,List.countP_eq_length_filter]
  rfl

theorem mem_indices (work : DigestWork ν) :
    i ∈ work.indices ↔ ∃ digest, work.digests[i]? = some digest ∧ digest.node = work.myNode := by
  simp only [DigestWork.indices,List.mem_filter,List.mem_range,decide_eq_true_eq,Option.map_eq_some_iff]
  constructor
  · exact And.right
  · rintro ⟨digest,found,own⟩
    exact ⟨(List.getElem?_eq_some_iff.mp found).1,digest,found,own⟩

/-- The requests made from tables that count the nodes of all digests. -/
theorem Counts.grouped {digests : List (AssignedDigest ν)} (counts : Counts (digests.map (·.node)) table)
    (fits : ∀ node, 20 * (digests.map (·.node)).count node < 2 ^ 32) :
    Grouped digests (table.map fun unique => ⟨digests,unique.node,unique.count⟩) := by
  have names : (table.map fun unique => (⟨digests,unique.node,unique.count⟩ : DigestWork ν)).map (·.myNode) =
      table.map (·.node) := by simp
  refine ⟨?_,?_,?_,?_,?_⟩
  · simpa using counts.room
  · rw [names]
    exact counts.distinct
  · rw [names]
    exact counts.met
  · intro i inside
    have member : digests[i].node ∈ table.map (·.node) := by
      rw [counts.met]
      exact List.mem_map_of_mem (List.getElem_mem inside)
    obtain ⟨unique,listed,own⟩ := List.mem_map.mp member
    refine ⟨⟨digests,unique.node,unique.count⟩,⟨List.mem_map_of_mem listed,?_⟩,?_⟩
    · exact (mem_indices _).mpr ⟨digests[i],List.getElem?_eq_getElem inside,own.symm⟩
    · rintro other ⟨made,carries⟩
      obtain ⟨second,also,rfl⟩ := List.mem_map.mp made
      obtain ⟨digest,found,same⟩ := (mem_indices _).mp carries
      rw [List.getElem?_eq_getElem inside] at found
      obtain rfl := Option.some.inj found
      have one : second = unique := List.inj_on_of_nodup_map counts.distinct also listed (same.symm.trans own.symm)
      rw [one]
  · intro work made
    obtain ⟨unique,listed,rfl⟩ := List.mem_map.mp made
    rw [declared_eq,copied_length,counts.count listed,Nat.mod_eq_of_lt (fits _)]

/-- The digests are grouped into requests exactly when they lie on no more nodes than the
tables have entries, and no digest array is too long for its `field_sz`. -/
theorem batch_grouping (digests : List (AssignedDigest ν)) :
    (∃ works, requests digests = some works ∧ Grouped digests works) ↔
      (digests.map (·.node)).toFinset.card ≤ maxNodes ∧
        ∀ node, 20 * (digests.map (·.node)).count node < 2 ^ 32 := by
  have empty : Counts ([] : List ν) [] := ⟨List.nodup_nil,by simp,fun _ => rfl,Nat.zero_le _⟩
  have checked := uniqueNodes_checked digests empty
  rw [List.nil_append] at checked
  constructor
  · rintro ⟨works,made,grouped⟩
    obtain ⟨table,counted,rfl⟩ := Option.map_eq_some_iff.mp made
    refine ⟨checked.isSome_iff.mp (by rw [counted]; rfl),fun node => ?_⟩
    by_cases met : node ∈ digests.map (·.node)
    · obtain ⟨work,listed,rfl⟩ := List.mem_map.mp ((grouped.nodes node).mpr met)
      have declared := grouped.declared work listed
      obtain ⟨unique,_,rfl⟩ := List.mem_map.mp listed
      rw [declared_eq,copied_length] at declared
      have small := Nat.mod_lt (20 * unique.count) (Nat.two_pow_pos 32)
      rw [declared] at small
      exact small
    · rw [List.count_eq_zero.mpr met]
      exact Nat.two_pow_pos 32
  · rintro ⟨few,fits⟩
    obtain ⟨table,counted⟩ := Option.isSome_iff_exists.mp (checked.isSome_iff.mpr few)
    exact ⟨_,by rw [requests,counted]; rfl,(checked.meets counted).grouped fits⟩

/-- A digest on each of 33 nodes. -/
def wideBatch : List (AssignedDigest Nat) := (List.range 33).map fun i => ⟨.replicate 20 0,i⟩

theorem wide_batch_overruns : ¬∃ works, requests wideBatch = some works ∧ Grouped wideBatch works := by
  rintro ⟨works,made,_⟩
  have outside : (requests wideBatch).isNone = true := by decide
  rw [made] at outside
  cases outside

/-! ### The outcomes -/

/-- Collect the outcomes in the order in which the workers finish. -/
def collect (retval : Int) : List Int → Int
  | [] => retval
  | z :: outcomes => collect (if z ≠ 0 then z else retval) outcomes

/-- How `do_get_exists_many_digest` ends. -/
inductive BatchRun where
  /-- No memory for the array of nodes, or no node for a digest. -/
  | notSent
  | collected (outcomes : List Int)

def BatchRun.rv : BatchRun → Int
  | .notSent => citrusleafFailClient
  | .collected outcomes => collect 0 outcomes

/-- Every request was sent and succeeded. -/
def BatchRun.Succeeded : BatchRun → Prop
  | .notSent => False
  | .collected outcomes => ∀ z ∈ outcomes, z = 0

/-- What the direct call allocates: the result, its array and the bins of a record. -/
inductive Block where
  | br | records
  | bins (i : Nat)

/-- `citrusleaf_free_batchresult` -/
def freeBatchresult (numrecs : Nat) (live : List Block) : List Block :=
  live.filter fun
    | .br | .records => false
    | .bins i => numrecs ≤ i

/-- The return value, whether `*br` was set, and what is still allocated. -/
structure DirectResult where
  rv : Int
  brSet : Bool
  live : List Block

/-- `citrusleaf_get_many_digest_direct`, with the outcomes of its two allocations and the
number of records its callback has stored. -/
def getManyDigestDirect (mallocBr mallocRecords : Bool) (numrecs : Nat) (batch : BatchRun) : DirectResult :=
  if !mallocBr then ⟨citrusleafFailClient,false,[]⟩
  else if !mallocRecords then ⟨citrusleafFailClient,false,[]⟩
  else
    let localbr := [.br,.records] ++ (List.range numrecs).map .bins
    if batch.rv = citrusleafFailClient then ⟨citrusleafFailClient,false,freeBatchresult numrecs localbr⟩
    else ⟨citrusleafOk,true,localbr⟩

structure ReportsFailure (batch : BatchRun) (result : DirectResult) : Prop where
  complete : result.rv = citrusleafOk → batch.Succeeded
  undone : result.rv ≠ citrusleafOk → result.brSet = false ∧ result.live = []

/-- Either nothing failed, or the failure collected last is a local one. -/
def BatchRun.LocalLast : BatchRun → Prop
  | .notSent => True
  | .collected outcomes => ∀ z ∈ (outcomes.filter (· ≠ 0)).getLast?, z = citrusleafFailClient

theorem collect_eq (outcomes : List Int) (retval : Int) :
    collect retval outcomes = (outcomes.filter (· ≠ 0)).getLast?.getD retval := by
  induction outcomes generalizing retval with
  | nil => rfl
  | cons z outcomes ih =>
    rw [collect,ih]
    by_cases zero : z = 0
    · simp [zero]
    · simp [zero,List.getLast?_cons]

theorem freeBatchresult_all (numrecs : Nat) :
    freeBatchresult numrecs ([.br,.records] ++ (List.range numrecs).map .bins) = [] := by
  simp [freeBatchresult]

/-- A batch that is not complete is reported as failed, with nothing left behind, exactly
when it is not sent or the failure collected last is a local one. -/
theorem batch_failure_reported (mallocBr mallocRecords : Bool) (numrecs : Nat) (batch : BatchRun) :
    ReportsFailure batch (getManyDigestDirect mallocBr mallocRecords numrecs batch) ↔
      mallocBr = false ∨ mallocRecords = false ∨ batch.LocalLast := by
  have failed : ReportsFailure batch ⟨citrusleafFailClient,false,[]⟩ := ⟨nofun,fun _ => ⟨rfl,rfl⟩⟩
  cases mallocBr with
  | false => exact iff_of_true failed (.inl rfl)
  | true =>
    cases mallocRecords with
    | false => exact iff_of_true failed (.inr (.inl rfl))
    | true =>
      simp only [getManyDigestDirect,Bool.not_true,Bool.false_eq_true,if_false,freeBatchresult_all,
        reduceCtorEq,false_or]
      cases batch with
      | notSent => exact iff_of_true failed trivial
      | collected outcomes =>
        rw [BatchRun.rv,collect_eq,BatchRun.LocalLast]
        cases last : (outcomes.filter (· ≠ 0)).getLast? with
        | none =>
          have zeros : ∀ z ∈ outcomes, z = 0 := by
            simpa [List.filter_eq_nil_iff] using List.getLast?_eq_none_iff.mp last
          exact iff_of_true ⟨fun _ => zeros,fun wrong => absurd rfl wrong⟩ nofun
        | some z =>
          have member := List.mem_filter.mp (List.mem_of_getLast? last)
          have nonzero : z ≠ 0 := by simpa using member.2
          by_cases local_ : z = citrusleafFailClient
          · simp only [Option.getD_some,local_,if_true]
            exact iff_of_true failed (by simp)
          · simp only [Option.getD_some,local_,if_false]
            refine iff_of_false (fun reports => nonzero (reports.complete rfl z member.1)) ?_
            simpa using local_

theorem server_failure_complete : ¬ReportsFailure (.collected [0,citrusleafFailUnknown])
    (getManyDigestDirect true true 1 (.collected [0,citrusleafFailUnknown])) := by
  intro reports
  exact absurd (reports.complete rfl citrusleafFailUnknown (by decide)) (by decide)

end Citrusleaf.GetManyDigest
