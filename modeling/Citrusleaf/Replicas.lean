import Mathlib.Logic.Function.Basic
import Citrusleaf.Lib.Base64
import Citrusleaf.Lib.Runs
import Citrusleaf.Partition

/-! The replicas reply of cl_cluster.c: lines of names and values, lists of namespaces with
encoded bitmaps, and one table update for each namespace the node is master in. Small
allocations (the map vectors, a new table) succeed. -/
namespace Citrusleaf.Replicas
open Lib Citrusleaf.Partition

/-- The loop over the lines of an info reply, name1\tvalue1\nname2\tvalue2\n...: a line
without exactly two parts "will happen if a requested field is returned empty". -/
def infoPairs (rbuf : CString) : List (CString × CString) :=
  (strSplit 10 rbuf).filterMap fun line =>
    match strSplit 9 line with
    | [name,value] => some (name,value)
    | _ => none

structure NsPartitionMap (n : Nat) where
  ns : CString
  owns : Fin n → Bool

/-- `ns_partition_map_get`: the map of a namespace, appended with no bit set if absent. -/
def nsPartitionMapGet (maps : List (NsPartitionMap n)) (ns : CString) :
    NsPartitionMap n × List (NsPartitionMap n) :=
  match maps.find? fun map => map.ns = ns with
  | some map => (map,maps)
  | none => (⟨ns,fun _ => false⟩,maps ++ [⟨ns,fun _ => false⟩])

/-- `CF_BASE64_DECODE_ARRAY`, whose unlisted entries are zero. -/
def cfBase64DecodeArray (c : UInt8) : UInt8 :=
  if c = 43 then 62
  else if c = 47 then 63
  else if 48 ≤ c ∧ c ≤ 57 then c + 4
  else if 65 ≤ c ∧ c ≤ 90 then c - 65
  else if 97 ≤ c ∧ c ≤ 122 then c - 71
  else 0

/-- `b64_decode`, for a length that is a multiple of four. -/
def b64Decode : CString → List UInt8
  | a :: b :: c :: d :: rest =>
    (cfBase64DecodeArray a <<< 2 ||| cfBase64DecodeArray b >>> 4) ::
      (cfBase64DecodeArray b <<< 4 ||| cfBase64DecodeArray c >>> 2) ::
      (cfBase64DecodeArray c <<< 6 ||| cfBase64DecodeArray d) :: b64Decode rest
  | _ => []

/-- The test of the loop in `ns_partition_map_set`. -/
def bitmapBit (bitmap : List UInt8) (i : Nat) : Bool :=
  bitmap.getD (i / 8) 0 &&& (0x80 : UInt8) >>> (i % 8).toUInt8 != 0

/-- `ns_partition_map_set`: bits are added, none is cleared. -/
def nsPartitionMapSet (encodedBitmap : CString) (owns : Fin n → Bool) : Fin n → Bool :=
  let bitmap := b64Decode encodedBitmap
  fun i => bitmapBit bitmap i || owns i

/-- Write through the pointer that `ns_partition_map_get` returned. -/
def setMap (ns : CString) (owns : Fin n → Bool) : List (NsPartitionMap n) → List (NsPartitionMap n)
  | [] => []
  | map :: maps => if map.ns = ns then {map with owns} :: maps else map :: setMap ns owns maps

/-- The walk of `parse_replicas_map` over its text: the namespace read so far, and the
bitmap once its colon was found. A last namespace without a colon ends the walk. -/
def replicaSegments : CString → Option CString → CString → List (CString × CString)
  | _,none,[] => []
  | listNs,some encoded,[] => [(listNs,encoded)]
  | listNs,none,c :: p =>
    if c = 58 then replicaSegments listNs (some []) p else replicaSegments (listNs ++ [c]) none p
  | listNs,some encoded,c :: p =>
    if c = 59 then (listNs,encoded) :: replicaSegments [] none p
    else replicaSegments listNs (some (encoded ++ [c])) p

def expectedEncodedLen (n : Nat) : Nat :=
  let bitmapSize := (n + 7) / 8
  ((bitmapSize + 2) / 3) * 4

/-- The sanity checks on one segment. -/
def segmentAccepted (n : Nat) (segment : CString × CString) : Bool :=
  let ns := trim segment.1
  !(ns.length = 0 || ns.length > 31) && expectedEncodedLen n = segment.2.length

/-- One lap of `parse_replicas_map`, after its inner loops. -/
def parseSegment (maps : List (NsPartitionMap n)) (segment : CString × CString) :
    List (NsPartitionMap n) :=
  if segmentAccepted n segment then
    let ns := trim segment.1
    let (map,maps) := nsPartitionMapGet maps ns
    setMap ns (nsPartitionMapSet segment.2 map.owns) maps
  else maps

def parseReplicasMap (list : CString) (maps : List (NsPartitionMap n)) : List (NsPartitionMap n) :=
  (replicaSegments [] none list).foldl parseSegment maps

/-- What the lines of a reply have filled in. -/
structure Parsed (n : Nat) where
  partitionGeneration : UInt32
  masterMaps : List (NsPartitionMap n)
  proleMaps : List (NsPartitionMap n)

/-- One pair of `cl_cluster_node_parse_replicas`. -/
def parsePair (parsed : Parsed n) (pair : CString × CString) : Parsed n :=
  let (name,value) := pair
  if name = text "partition-generation" then
    {parsed with partitionGeneration := UInt32.ofInt (atoi value)}
  else if name = text "replicas-master" then
    {parsed with masterMaps := parseReplicasMap value parsed.masterMaps}
  else if name = text "replicas-prole" then
    {parsed with proleMaps := parseReplicasMap value parsed.proleMaps}
  else parsed

def parsePairs (partitionGeneration : UInt32) (rbuf : CString) : Parsed n :=
  (infoPairs rbuf).foldl parsePair ⟨partitionGeneration,[],[]⟩

/-- The calls of the last loop, one for each master map. -/
def Parsed.updates (parsed : Parsed n) (cn : Node) : List (Update n) :=
  parsed.masterMaps.map fun masterMap =>
    ⟨true,cn,masterMap.ns,masterMap.owns,(nsPartitionMapGet parsed.proleMaps masterMap.ns).1.owns⟩

def clClusterNodeParseReplicas (s : TableState n) (cn : Node) (rbuf : CString) : TableState n :=
  let parsed : Parsed n := parsePairs (s.partitionGeneration cn) rbuf
  let s := {s with
    partitionGeneration := Function.update s.partitionGeneration cn parsed.partitionGeneration}
  run tableStep s ((parsed.updates cn).map .update)

/-! ### Map vectors -/

theorem b64Decode_eq (encoded : CString) :
    b64Decode encoded = Base64.decode cfBase64DecodeArray encoded := by
  fun_induction b64Decode encoded with
  | case1 a b c d rest ih => simp [Base64.decode,ih]
  | case2 l short =>
    rw [Base64.decode]
    exact short

theorem decodeArray_decodes : Base64.Decodes cfBase64DecodeArray where
  digit := by decide
  pad := by decide

/-- The bits a map vector holds for a namespace. -/
def ownsOf (maps : List (NsPartitionMap n)) (ns : CString) : Fin n → Bool :=
  (nsPartitionMapGet maps ns).1.owns

/-- The namespaces of a map vector. -/
def names (maps : List (NsPartitionMap n)) : List CString := maps.map NsPartitionMap.ns

@[simp] theorem ownsOf_nil (ns : CString) : ownsOf ([] : List (NsPartitionMap n)) ns = fun _ => false := rfl

theorem ownsOf_cons (map : NsPartitionMap n) (maps : List (NsPartitionMap n)) (ns : CString) :
    ownsOf (map :: maps) ns = if map.ns = ns then map.owns else ownsOf maps ns := by
  unfold ownsOf nsPartitionMapGet
  by_cases here : map.ns = ns
  · simp [here]
  · simp only [List.find?_cons,here,decide_false,if_false]
    cases maps.find? fun map => map.ns = ns <;> rfl

theorem names_get (maps : List (NsPartitionMap n)) (ns : CString) :
    names (nsPartitionMapGet maps ns).2 = if ns ∈ names maps then names maps else names maps ++ [ns] := by
  unfold nsPartitionMapGet
  cases found : maps.find? fun map => map.ns = ns with
  | some map =>
    have member : ns ∈ names maps :=
      List.mem_map.mpr ⟨map,List.mem_of_find?_eq_some found,by simpa using List.find?_some found⟩
    rw [if_pos member]
  | none =>
    have absent : ns ∉ names maps := by simpa [names] using found
    rw [if_neg absent]
    simp [names]

theorem ownsOf_get (maps : List (NsPartitionMap n)) (ns other : CString) :
    ownsOf (nsPartitionMapGet maps ns).2 other = ownsOf maps other := by
  have append : ownsOf (maps ++ [⟨ns,fun _ => false⟩]) other = ownsOf maps other := by
    induction maps with
    | nil => simp [ownsOf_cons]
    | cons map maps ih => simp only [List.cons_append,ownsOf_cons,ih]
  unfold nsPartitionMapGet
  cases maps.find? fun map => map.ns = ns with
  | some map => rfl
  | none => exact append

@[simp] theorem names_setMap (ns : CString) (owns : Fin n → Bool) (maps : List (NsPartitionMap n)) :
    names (setMap ns owns maps) = names maps := by
  induction maps with
  | nil => rfl
  | cons map maps ih =>
    unfold setMap
    split
    · rfl
    · simpa [names] using ih

theorem ownsOf_setMap (ns : CString) (owns : Fin n → Bool) (maps : List (NsPartitionMap n))
    (member : ns ∈ names maps) (other : CString) :
    ownsOf (setMap ns owns maps) other = if other = ns then owns else ownsOf maps other := by
  induction maps with
  | nil => simp [names] at member
  | cons map maps ih =>
    by_cases here : map.ns = ns
    · subst here
      by_cases same : other = map.ns
      · simp [setMap,ownsOf_cons,same]
      · simp [setMap,ownsOf_cons,same,Ne.symm same]
    · have later : ns ∈ names maps := by
        simpa [names,Ne.symm here] using member
      simp only [setMap,here,if_false,ownsOf_cons,ih later]
      by_cases same : map.ns = other
      · simp [same,same ▸ here]
      · simp [same]

/-- The bit a list of segments announces: set if any segment of the namespace sets it. -/
def announced (segments : List (CString × CString)) (ns : CString) (pid : Nat) : Bool :=
  segments.any fun segment => decide (trim segment.1 = ns) && bitmapBit (b64Decode segment.2) pid

/-- The segments that pass the sanity checks. -/
def accepted (n : Nat) (segments : List (CString × CString)) : List (CString × CString) :=
  segments.filter fun segment => segmentAccepted n segment

theorem parseSegment_names (maps : List (NsPartitionMap n)) (segment : CString × CString)
    (pass : segmentAccepted n segment = true) :
    names (parseSegment maps segment) =
      if trim segment.1 ∈ names maps then names maps else names maps ++ [trim segment.1] := by
  simp [parseSegment,pass,names_get]

theorem parseSegment_ownsOf (maps : List (NsPartitionMap n)) (segment : CString × CString)
    (pass : segmentAccepted n segment = true) (ns : CString) (pid : Fin n) :
    ownsOf (parseSegment maps segment) ns pid =
      (ownsOf maps ns pid || announced [segment] ns pid) := by
  have member : trim segment.1 ∈ names (nsPartitionMapGet maps (trim segment.1)).2 := by
    rw [names_get]; split <;> simp_all
  simp only [parseSegment,pass,if_true,ownsOf_setMap _ _ _ member,ownsOf_get,announced,
    List.any_cons,List.any_nil,Bool.or_false]
  by_cases same : trim segment.1 = ns
  · subst same
    simp [nsPartitionMapSet,ownsOf,Bool.or_comm]
  · simp [same,Ne.symm same]

/-- A map vector holds the union of the accepted segments, one map for each namespace. -/
theorem parseSegments (segments : List (CString × CString)) (maps : List (NsPartitionMap n))
    (distinct : (names maps).Nodup) :
    (names (segments.foldl parseSegment maps)).Nodup ∧
    (∀ ns, ns ∈ names (segments.foldl parseSegment maps) ↔
      ns ∈ names maps ∨ ∃ segment ∈ accepted n segments, trim segment.1 = ns) ∧
    ∀ ns pid, ownsOf (segments.foldl parseSegment maps) ns pid =
      (ownsOf maps ns pid || announced (accepted n segments) ns pid) := by
  induction segments generalizing maps with
  | nil => simp [accepted,announced,distinct]
  | cons segment segments ih =>
    rw [List.foldl_cons]
    by_cases pass : segmentAccepted n segment = true
    · have step := parseSegment_names maps segment pass
      have once : (names (parseSegment maps segment)).Nodup := by
        rw [step]
        split
        · exact distinct
        · rename_i absent
          exact List.Nodup.append distinct (List.nodup_singleton _) (by simpa using absent)
      obtain ⟨nodup,members,bits⟩ := ih (parseSegment maps segment) once
      refine ⟨nodup,?_,?_⟩
      · intro ns
        rw [members,step]
        have here : (∃ part ∈ accepted n (segment :: segments), trim part.1 = ns) ↔
            trim segment.1 = ns ∨ ∃ part ∈ accepted n segments, trim part.1 = ns := by
          simp [accepted,pass]
        rw [here]
        split
        · rename_i present
          constructor
          · rintro (old | rest)
            · exact .inl old
            · exact .inr (.inr rest)
          · rintro (old | rfl | rest)
            · exact .inl old
            · exact .inl present
            · exact .inr rest
        · rw [List.mem_append,List.mem_singleton,or_assoc,eq_comm (a := ns)]
      · intro ns pid
        rw [bits,parseSegment_ownsOf _ _ pass]
        simp [accepted,pass,announced,Bool.or_assoc]
    · have same : parseSegment maps segment = maps := by simp [parseSegment,pass]
      simpa [same,accepted,pass] using ih maps distinct

/-! ### Lines -/

/-- The values of the lines of one name. -/
def valuesOf (wanted : CString) (pairs : List (CString × CString)) : List CString :=
  pairs.filterMap fun pair => if pair.1 = wanted then some pair.2 else none

/-- The segments a reply lists on its lines of one name. -/
def listed (wanted : CString) (rbuf : CString) : List (CString × CString) :=
  (valuesOf wanted (infoPairs rbuf)).flatMap (replicaSegments [] none)

/-- The generation of the last line that gives one. -/
def announcedGeneration (rbuf : CString) : Option UInt32 :=
  ((valuesOf (text "partition-generation") (infoPairs rbuf)).map fun value =>
    UInt32.ofInt (atoi value)).getLast?

theorem names_distinct : text "replicas-master" ≠ text "partition-generation" ∧
    text "replicas-prole" ≠ text "partition-generation" ∧
    text "replicas-prole" ≠ text "replicas-master" := by decide

theorem getLast_foldl (f : α → β) (values : List α) (start : β) :
    values.foldl (fun _ value => f value) start = (values.map f).getLast?.getD start := by
  induction values generalizing start with
  | nil => rfl
  | cons value values ih =>
    rw [List.foldl_cons,ih,List.map_cons,List.getLast?_cons]
    rfl

/-- Every field depends on the lines of its own name only. -/
theorem parsePairs_fields (pairs : List (CString × CString)) (parsed : Parsed n) :
    let result := pairs.foldl parsePair parsed
    let segments := fun name => (valuesOf name pairs).flatMap (replicaSegments [] none)
    result.partitionGeneration =
      ((valuesOf (text "partition-generation") pairs).map fun value =>
        UInt32.ofInt (atoi value)).getLast?.getD parsed.partitionGeneration ∧
    result.masterMaps = (segments (text "replicas-master")).foldl parseSegment parsed.masterMaps ∧
    result.proleMaps = (segments (text "replicas-prole")).foldl parseSegment parsed.proleMaps := by
  obtain ⟨master,prole,other⟩ := names_distinct
  simp only [← getLast_foldl]
  induction pairs generalizing parsed with
  | nil => exact ⟨rfl,rfl,rfl⟩
  | cons pair pairs ih =>
    rw [List.foldl_cons]
    obtain ⟨generation,masters,proles⟩ := ih (parsePair parsed pair)
    rw [generation,masters,proles]
    obtain ⟨name,value⟩ := pair
    by_cases g : name = text "partition-generation"
    · subst g
      simp [parsePair,valuesOf,Ne.symm master,Ne.symm prole]
    · by_cases m : name = text "replicas-master"
      · subst m
        simp [parsePair,valuesOf,master,Ne.symm other,parseReplicasMap]
      · by_cases p : name = text "replicas-prole"
        · subst p
          simp [parsePair,valuesOf,prole,other,parseReplicasMap]
        · simp [parsePair,valuesOf,g,m,p]

/-- What the lines of any reply leave behind. -/
theorem parsePairs_spec (generation : UInt32) (rbuf : CString) :
    let parsed : Parsed n := parsePairs generation rbuf
    parsed.partitionGeneration = (announcedGeneration rbuf).getD generation ∧
    (names parsed.masterMaps).Nodup ∧
    (∀ ns, ns ∈ names parsed.masterMaps ↔
      ∃ segment ∈ accepted n (listed (text "replicas-master") rbuf), trim segment.1 = ns) ∧
    (∀ ns pid, ownsOf parsed.masterMaps ns pid =
      announced (accepted n (listed (text "replicas-master") rbuf)) ns pid) ∧
    ∀ ns pid, ownsOf parsed.proleMaps ns pid =
      announced (accepted n (listed (text "replicas-prole") rbuf)) ns pid := by
  obtain ⟨generation,masters,proles⟩ :=
    parsePairs_fields (infoPairs rbuf) (⟨generation,[],[]⟩ : Parsed n)
  obtain ⟨distinct,members,bits⟩ := parseSegments (n := n)
    (listed (text "replicas-master") rbuf) [] (by simp [names])
  have proleBits := (parseSegments (n := n) (listed (text "replicas-prole") rbuf) []
    (by simp [names])).2.2
  refine ⟨generation,?_,?_,?_,?_⟩
  · rw [parsePairs,masters]
    exact distinct
  · intro ns
    rw [parsePairs,masters]
    exact (members ns).trans (by simp [names])
  · intro ns pid
    rw [parsePairs,masters]
    exact (bits ns pid).trans (by simp)
  · intro ns pid
    rw [parsePairs,proles]
    exact (proleBits ns pid).trans (by simp)

/-! ### The table after a reply -/

/-- Updates of different namespaces by one node: each rewrites its own slots. -/
theorem slot_runUpdates (s : TableState n) (updates : List (Update n))
    (ready : ∀ u ∈ updates, u.malloc = true) (distinct : (updates.map Update.ns).Nodup)
    (ns : CString) (pid : Fin n) :
    (∀ u ∈ updates, u.ns = ns → slot (run tableStep s (updates.map .update)).head ns pid =
      (updateSlot u.node (u.masters pid) (u.proles pid) (slot s.head ns pid)).1) ∧
    (ns ∉ updates.map Update.ns →
      slot (run tableStep s (updates.map .update)).head ns pid = slot s.head ns pid) := by
  induction updates generalizing s with
  | nil => simp
  | cons u updates ih =>
    rw [List.map_cons,List.nodup_cons] at distinct
    have step := slot_update u.malloc s.head u.node u.ns u.masters u.proles
      (.inr (ready u List.mem_cons_self)) ns pid
    obtain ⟨claimed,kept⟩ := ih (tableStep s (.update u))
      (fun v member => ready v (List.mem_cons_of_mem _ member)) distinct.2
    rw [List.map_cons,run_cons]
    constructor
    · intro v member same
      rcases List.mem_cons.mp member with rfl | later
      · rw [kept (same ▸ distinct.1)]
        exact step.trans (by simp [same])
      · have other : ns ≠ u.ns := by
          rintro rfl
          exact distinct.1 (List.mem_map.mpr ⟨v,later,same⟩)
        rw [claimed v later same]
        exact congrArg (fun p => (updateSlot _ _ _ p).1) (step.trans (if_neg other))
    · intro absent
      simp only [List.map_cons,List.mem_cons,not_or] at absent
      rw [kept absent.2]
      exact step.trans (if_neg absent.1)

/-- The map of a namespace in a vector without duplicates. -/
theorem ownsOf_mem (maps : List (NsPartitionMap n)) (distinct : (names maps).Nodup)
    (member : map ∈ maps) : ownsOf maps map.ns = map.owns := by
  induction maps with
  | nil => simp at member
  | cons first maps ih =>
    rw [names,List.map_cons,List.nodup_cons] at distinct
    rw [ownsOf_cons]
    rcases List.mem_cons.mp member with rfl | later
    · rw [if_pos rfl]
    · rw [if_neg,ih distinct.2 later]
      intro same
      exact distinct.1 (List.mem_map.mpr ⟨map,later,same.symm⟩)

/-- After any reply, the slots of the namespaces with an accepted master bitmap are those
of one `updateSlot` with the announced bits, and no other slot has changed. -/
theorem slot_parseReplicas (s : TableState n) (cn : Node) (rbuf : CString) (ns : CString)
    (pid : Fin n) :
    let masters := accepted n (listed (text "replicas-master") rbuf)
    let proles := accepted n (listed (text "replicas-prole") rbuf)
    slot (clClusterNodeParseReplicas s cn rbuf).head ns pid =
      if ∃ segment ∈ masters, trim segment.1 = ns then
        (updateSlot cn (announced masters ns pid) (announced proles ns pid) (slot s.head ns pid)).1
      else slot s.head ns pid := by
  obtain ⟨_,distinct,members,masterBits,proleBits⟩ :=
    parsePairs_spec (n := n) (s.partitionGeneration cn) rbuf
  intro masters proles
  generalize same : (parsePairs (s.partitionGeneration cn) rbuf : Parsed n) = parsed at *
  have updateNames : (parsed.updates cn).map Update.ns = names parsed.masterMaps := by
    simp [Parsed.updates,names,Function.comp_def]
  obtain ⟨claimed,kept⟩ := slot_runUpdates
    {s with partitionGeneration := Function.update s.partitionGeneration cn parsed.partitionGeneration}
    (parsed.updates cn) (by simp [Parsed.updates]) (updateNames ▸ distinct) ns pid
  rw [updateNames,members] at kept
  simp only [clClusterNodeParseReplicas,same]
  split
  · rename_i present
    obtain ⟨map,member,rfl⟩ := List.mem_map.mp ((members ns).mpr present)
    have own := claimed _ (List.mem_map.mpr ⟨map,member,rfl⟩) rfl
    refine own.trans ?_
    rw [← masterBits,← proleBits,ownsOf_mem _ distinct member]
    rfl
  · rename_i absent
    exact kept absent

end Citrusleaf.Replicas
