import Mathlib.Data.List.GetD
import Citrusleaf.PartitionOwnership
import Citrusleaf.Replicas

/-! Well-formed replicas replies. A reply is built from the ownership it announces, and
the parser gives exactly that ownership to the node. -/
namespace Citrusleaf.Replicas
open Lib Citrusleaf.Partition

/-- A namespace and the partitions announced for it. -/
structure Segment (n : Nat) where
  ns : CString
  owns : Fin n → Bool
  nonempty : ns ≠ []
  short : ns.length ≤ 31
  plain : ∀ c ∈ ns, c ≠ 0 ∧ c ≠ 58 ∧ c ≠ 59 ∧ isspace c = false

/-- The base 64 of the bitmap, first partition in the highest bit. -/
def Segment.bitmap (segment : Segment n) : CString :=
  Base64.encode (Base64.bitmap n fun i => if h : i < n then segment.owns ⟨i,h⟩ else false)

def Segment.text (segment : Segment n) : CString := segment.ns ++ 58 :: segment.bitmap

/-- A list of distinct namespaces, with or without a last semicolon. -/
structure ReplicasList (n : Nat) where
  segments : List (Segment n)
  distinct : (segments.map Segment.ns).Nodup
  trailing : Bool

def ReplicasList.text (list : ReplicasList n) : CString :=
  join 59 list.trailing (list.segments.map Segment.text)

/-- The ownership announced for a namespace; nothing for one that is not listed. -/
def ReplicasList.owns (list : ReplicasList n) (ns : CString) (pid : Fin n) : Bool :=
  list.segments.any fun segment => decide (segment.ns = ns) && segment.owns pid

/-- The three lines in any order. -/
structure Reply (n : Nat) where
  generation : CString
  masters : ReplicasList n
  proles : ReplicasList n
  plain : ∀ c ∈ generation, c ≠ 0 ∧ c ≠ 9 ∧ c ≠ 10
  pairs : List (CString × CString)
  arranged : pairs.Perm [(Citrusleaf.text "partition-generation",generation),
    (Citrusleaf.text "replicas-master",masters.text),
    (Citrusleaf.text "replicas-prole",proles.text)]
  trailing : Bool

def Reply.text (reply : Reply n) : CString :=
  join 10 reply.trailing (reply.pairs.map fun pair => pair.1 ++ 9 :: pair.2)

/-! ### Segments -/

theorem replicaSegments_bitmap (listNs encoded bitmap rest : CString) (clean : 59 ∉ bitmap) :
    replicaSegments listNs (some encoded) (bitmap ++ rest) =
      replicaSegments listNs (some (encoded ++ bitmap)) rest := by
  induction bitmap generalizing encoded with
  | nil => simp
  | cons c bitmap ih =>
    simp only [List.mem_cons,not_or] at clean
    simp [replicaSegments,Ne.symm clean.1,ih _ clean.2]

theorem replicaSegments_ns (listNs ns rest : CString) (clean : 58 ∉ ns) :
    replicaSegments listNs none (ns ++ 58 :: rest) =
      replicaSegments (listNs ++ ns) (some []) rest := by
  induction ns generalizing listNs with
  | nil => simp [replicaSegments]
  | cons c ns ih =>
    simp only [List.mem_cons,not_or] at clean
    simp [replicaSegments,Ne.symm clean.1,ih _ clean.2]

theorem Segment.bitmap_plain (segment : Segment n) (c : UInt8) (member : c ∈ segment.bitmap) :
    c ≠ 9 ∧ c ≠ 10 ∧ c ≠ 59 := by
  rcases (Base64.encode_symbol _ c member).cases with rfl | rfl | ⟨low,high⟩ | ⟨low,high⟩ | ⟨low,high⟩
  · decide
  · decide
  all_goals
    rw [UInt8.le_iff_toNat_le] at low high
    refine ⟨?_,?_,?_⟩ <;> rintro rfl <;> revert low high <;> decide

/-- The walk over the text of a list finds its namespaces and bitmaps. -/
theorem replicaSegments_join (trailing : Bool) (segments : List (Segment n)) :
    replicaSegments [] none (join 59 trailing (segments.map Segment.text)) =
      segments.map fun segment => (segment.ns,segment.bitmap) := by
  induction segments with
  | nil => rfl
  | cons segment segments ih =>
    have noColon : 58 ∉ segment.ns := fun member => (segment.plain _ member).2.1 rfl
    have noSemicolon : 59 ∉ segment.bitmap := fun member => (segment.bitmap_plain _ member).2.2 rfl
    cases segments with
    | nil =>
      have walk := replicaSegments_bitmap segment.ns [] segment.bitmap
      cases trailing
      · have last := walk [] noSemicolon
        simp only [List.append_nil,List.nil_append] at last
        simp [join,Segment.text,replicaSegments_ns _ _ _ noColon,last,replicaSegments]
      · simp [join,Segment.text,replicaSegments_ns _ _ _ noColon,walk _ noSemicolon,replicaSegments]
    | cons next segments =>
      have first (rest : CString) : replicaSegments [] none (segment.text ++ 59 :: rest) =
          (segment.ns,segment.bitmap) :: replicaSegments [] none rest := by
        simp [Segment.text,replicaSegments_ns _ _ _ noColon,
          replicaSegments_bitmap _ _ _ _ noSemicolon,replicaSegments]
      rw [List.map_cons,List.map_cons,join,first]
      exact congrArg _ ih

theorem Segment.accepted (segment : Segment n) :
    segmentAccepted n (segment.ns,segment.bitmap) = true := by
  have trimmed := trim_clean segment.ns fun c member => (segment.plain c member).2.2.2
  have length : segment.bitmap.length = expectedEncodedLen n := by
    simp [Segment.bitmap,Base64.encode_length,expectedEncodedLen]
  have nonempty := segment.nonempty
  have short := segment.short
  simp [segmentAccepted,trimmed,length,nonempty,short]

/-- The flag of every partition is found in the decoded bitmap. -/
theorem bitmapBit_encode (owns : Fin n → Bool) (pid : Fin n) :
    Replicas.bitmapBit (b64Decode (Base64.encode (Base64.bitmap n fun i => if h : i < n then owns ⟨i,h⟩ else false))) pid =
      owns pid := by
  have bit := Base64.bitmap_bit n (fun i => if h : i < n then owns ⟨i,h⟩ else false) pid pid.2
  simp only [pid.2,dif_pos] at bit
  rw [b64Decode_eq,Base64.decode_encode decodeArray_decodes,Replicas.bitmapBit,
    List.getD_append _ _ _ _ (by rw [Base64.bitmap_length]; have := pid.2; omega)]
  rw [Bool.eq_iff_iff,bne_iff_ne]
  exact bit

theorem Segment.bitmapBit (segment : Segment n) (pid : Fin n) :
    Replicas.bitmapBit (b64Decode segment.bitmap) pid = segment.owns pid := bitmapBit_encode segment.owns pid

/-! ### Lines -/

theorem ReplicasList.text_plain (list : ReplicasList n) (c : UInt8) (member : c ∈ list.text) :
    c ≠ 9 ∧ c ≠ 10 := by
  rcases mem_join member with rfl | ⟨item,present,inside⟩
  · decide
  · obtain ⟨segment,_,rfl⟩ := List.mem_map.mp present
    rcases List.mem_append.mp inside with name | rest
    · have space := (segment.plain c name).2.2.2
      constructor <;> rintro rfl <;> revert space <;> decide
    · rcases List.mem_cons.mp rest with rfl | bitmap
      · decide
      · have clean := segment.bitmap_plain c bitmap
        exact ⟨clean.1,clean.2.1⟩

theorem fieldNames_plain :
    (9 ∉ Citrusleaf.text "partition-generation" ∧ 10 ∉ Citrusleaf.text "partition-generation") ∧
    (9 ∉ Citrusleaf.text "replicas-master" ∧ 10 ∉ Citrusleaf.text "replicas-master") ∧
    (9 ∉ Citrusleaf.text "replicas-prole" ∧ 10 ∉ Citrusleaf.text "replicas-prole") := by decide

/-- The pairs of a reply, except that an empty value drops its line. -/
theorem Reply.infoPairs (reply : Reply n) :
    infoPairs reply.text = reply.pairs.filter fun pair => pair.2 ≠ [] := by
  have plain : ∀ pair ∈ reply.pairs,
      (9 ∉ pair.1 ∧ 9 ∉ pair.2) ∧ (10 ∉ pair.1 ∧ 10 ∉ pair.2) := by
    intro pair member
    have given := reply.arranged.mem_iff.mp member
    simp only [List.mem_cons,List.not_mem_nil,or_false] at given
    obtain ⟨generation,masters,proles⟩ := fieldNames_plain
    rcases given with rfl | rfl | rfl
    · exact ⟨⟨generation.1,fun c => (reply.plain _ c).2.1 rfl⟩,generation.2,fun c => (reply.plain _ c).2.2 rfl⟩
    · exact ⟨⟨masters.1,fun c => (reply.masters.text_plain _ c).1 rfl⟩,masters.2,
        fun c => (reply.masters.text_plain _ c).2 rfl⟩
    · exact ⟨⟨proles.1,fun c => (reply.proles.text_plain _ c).1 rfl⟩,proles.2,
        fun c => (reply.proles.text_plain _ c).2 rfl⟩
  have split := strSplit_join 10 reply.trailing (reply.pairs.map fun pair => pair.1 ++ 9 :: pair.2)
    (by
      intro item member
      obtain ⟨pair,present,rfl⟩ := List.mem_map.mp member
      simpa using (plain pair present).2)
    (by
      intro item member
      obtain ⟨pair,_,rfl⟩ := List.mem_map.mp member
      simp)
  rw [Replicas.infoPairs,Reply.text,split]
  generalize reply.pairs = pairs at plain
  induction pairs with
  | nil => rfl
  | cons pair pairs ih =>
    have tabs := (plain pair List.mem_cons_self).1
    have rest := ih fun p member => plain p (List.mem_cons_of_mem _ member)
    rw [List.map_cons,List.filterMap_cons,strSplit_pair 9 pair.1 pair.2 tabs.1 tabs.2,rest]
    by_cases empty : pair.2 = []
    · simp [empty]
    · simp [empty]

/-- The segments listed on a line that occurs once. -/
theorem Reply.listed_eq (reply : Reply n) (name value : CString)
    (once : valuesOf name ([(Citrusleaf.text "partition-generation",reply.generation),
      (Citrusleaf.text "replicas-master",reply.masters.text),
      (Citrusleaf.text "replicas-prole",reply.proles.text)].filter fun pair => pair.2 ≠ []) =
        if value = [] then [] else [value]) :
    listed name reply.text = replicaSegments [] none value := by
  have same := (reply.arranged.filter fun pair => decide (pair.2 ≠ [])).filterMap
    fun pair => if pair.1 = name then some pair.2 else none
  rw [← valuesOf,← valuesOf,once,← reply.infoPairs] at same
  unfold listed
  split at same
  · rename_i empty
    rw [List.perm_nil.mp same,empty]
    rfl
  · rw [List.perm_singleton.mp same]
    simp

theorem Reply.listed_masters (reply : Reply n) :
    listed (Citrusleaf.text "replicas-master") reply.text =
      reply.masters.segments.map fun segment => (segment.ns,segment.bitmap) := by
  obtain ⟨master,prole,other⟩ := names_distinct
  rw [reply.listed_eq _ reply.masters.text,ReplicasList.text,replicaSegments_join]
  by_cases empty : reply.masters.text = [] <;> by_cases g : reply.generation = [] <;>
    by_cases p : reply.proles.text = [] <;> simp [valuesOf,empty,g,p,Ne.symm master,other]

theorem Reply.listed_proles (reply : Reply n) :
    listed (Citrusleaf.text "replicas-prole") reply.text =
      reply.proles.segments.map fun segment => (segment.ns,segment.bitmap) := by
  obtain ⟨master,prole,other⟩ := names_distinct
  rw [reply.listed_eq _ reply.proles.text,ReplicasList.text,replicaSegments_join]
  by_cases empty : reply.proles.text = [] <;> by_cases g : reply.generation = [] <;>
    by_cases m : reply.masters.text = [] <;> simp [valuesOf,empty,g,m,Ne.symm prole,Ne.symm other]

/-! ### The map of a list -/

theorem accepted_segments (segments : List (Segment n)) :
    accepted n (segments.map fun segment => (segment.ns,segment.bitmap)) =
      segments.map fun segment => (segment.ns,segment.bitmap) := by
  refine List.filter_eq_self.mpr ?_
  intro pair member
  obtain ⟨segment,_,rfl⟩ := List.mem_map.mp member
  exact segment.accepted

theorem Segment.trim_ns (segment : Segment n) : trim segment.ns = segment.ns :=
  trim_clean _ fun c member => (segment.plain c member).2.2.2

theorem announced_segments (list : ReplicasList n) (ns : CString) (pid : Fin n) :
    announced (list.segments.map fun segment => (segment.ns,segment.bitmap)) ns pid =
      list.owns ns pid := by
  simp [announced,ReplicasList.owns,List.any_map,Function.comp_def,Segment.trim_ns,Segment.bitmapBit]

/-- A listed namespace has the bits of its own segment. -/
theorem ReplicasList.owns_mem {segment : Segment n} (list : ReplicasList n) (member : segment ∈ list.segments) :
    list.owns segment.ns = segment.owns := by
  funext pid
  have distinct := list.distinct
  unfold ReplicasList.owns
  generalize list.segments = segments at member distinct
  induction segments with
  | nil => simp at member
  | cons first segments ih =>
    rw [List.map_cons,List.nodup_cons] at distinct
    rw [List.any_cons]
    rcases List.mem_cons.mp member with rfl | later
    · have others : (segments.any fun other =>
          decide (other.ns = segment.ns) && other.owns pid) = false := by
        rw [List.any_eq_false]
        intro other present
        have different : other.ns ≠ segment.ns := fun same =>
          distinct.1 (List.mem_map.mpr ⟨other,present,same⟩)
        simp [different]
      simp [others]
    · have different : first.ns ≠ segment.ns := fun same =>
        distinct.1 (List.mem_map.mpr ⟨segment,later,same.symm⟩)
      simp [different,ih later distinct.2]

/-- After a well-formed reply the node is master and prole exactly where the reply says,
in every namespace it lists as master, and every slot entry that was not the node's and
is not claimed for it is what it was. -/
theorem replicas_reply_to_map (s : TableState n) (cn : Node) (reply : Reply n) :
    let after := (clClusterNodeParseReplicas s cn reply.text).head
    (∀ segment ∈ reply.masters.segments, ∀ pid,
      ((slot after segment.ns pid).master = some cn ↔ segment.owns pid = true) ∧
      ((slot after segment.ns pid).prole = some cn ↔
        reply.proles.owns segment.ns pid = true ∧ segment.owns pid = false)) ∧
    ∀ ns pid,
      ((slot s.head ns pid).master ≠ some cn → reply.masters.owns ns pid = false →
        (slot after ns pid).master = (slot s.head ns pid).master) ∧
      ((slot s.head ns pid).prole ≠ some cn →
        ¬(reply.proles.owns ns pid = true ∧ reply.masters.owns ns pid = false) →
        (slot after ns pid).prole = (slot s.head ns pid).prole) := by
  intro after
  have slots (ns : CString) (pid : Fin n) := slot_parseReplicas s cn reply.text ns pid
  simp only [reply.listed_masters,reply.listed_proles,accepted_segments,announced_segments] at slots
  constructor
  · intro segment member pid
    have here := slots segment.ns pid
    rw [if_pos ⟨_,List.mem_map.mpr ⟨segment,member,rfl⟩,segment.trim_ns⟩] at here
    rw [show slot after segment.ns pid = _ from here,reply.masters.owns_mem member]
    exact updateSlot_owner ..
  · intro ns pid
    have here := slots ns pid
    rw [show slot after ns pid = _ from here]
    split
    · exact updateSlot_frame ..
    · exact ⟨fun _ _ => rfl,fun _ _ => rfl⟩

end Citrusleaf.Replicas
