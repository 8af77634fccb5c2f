import Citrusleaf.Replicas
import Citrusleaf.Lib.CStrings

/-! The segments of a replicas list between its semicolons, and those that `parse_replicas_map` reads. It looks for
a colon first, so that a segment without one is read with the next one that has one. -/
namespace Citrusleaf.Replicas
open Lib Citrusleaf.Partition

/-- The namespace and the bitmap of a segment, parted at its first colon. -/
def ownSegment (piece : CString) : Option (CString × CString) :=
  if 58 ∈ piece then some (piece.takeWhile (· ≠ 58),(piece.dropWhile (· ≠ 58)).drop 1) else none

/-- What is applied: the trimmed namespaces with their bitmaps. -/
def trimmed (n : Nat) (segments : List (CString × CString)) : List (CString × CString) :=
  (accepted n segments).map fun segment => (trim segment.1,segment.2)

/-- The segments of the form namespace:bitmap between the semicolons. -/
def wellFormed (n : Nat) (list : CString) : List (CString × CString) :=
  trimmed n ((strSplit 59 list).filterMap ownSegment)

/-- What `parse_replicas_map` applies. -/
def applied (n : Nat) (list : CString) : List (CString × CString) := trimmed n (replicaSegments [] none list)

/-- The bits of a bitmap go to the map of its namespace. -/
def applySegment (maps : List (NsPartitionMap n)) (segment : CString × CString) : List (NsPartitionMap n) :=
  let (map,maps) := nsPartitionMapGet maps segment.1
  setMap segment.1 (nsPartitionMapSet segment.2 map.owns) maps

/-- A segment with a colon, and the segments without one directly before it. -/
structure Group where
  before : List CString
  own : CString × CString

def groups (before : List CString) : List CString → List Group
  | [] => []
  | piece :: pieces =>
    match ownSegment piece with
    | none => groups (before ++ [piece]) pieces
    | some own => ⟨before,own⟩ :: groups [] pieces

/-- What stands before the namespace. -/
def swallowed (before : List CString) : CString := before.flatMap (· ++ [59])

/-- How the walk reads the segment. -/
def Group.read (group : Group) : CString × CString := (swallowed group.before ++ group.own.1,group.own.2)

/-- The bitmap does not have the length that is expected, or the namespace is no namespace as it is read, nor by
itself. -/
def Group.Harmless (n : Nat) (group : Group) : Prop :=
  group.own.2.length ≠ expectedEncodedLen n ∨
    31 < (trim group.read.1).length ∧ ((trim group.own.1).length = 0 ∨ 31 < (trim group.own.1).length)

variable {c : UInt8} {s prev list : CString} {group : Group}

/-! ### What the walk reads -/

theorem parseReplicasMap_applied (list : CString) (maps : List (NsPartitionMap n)) :
    parseReplicasMap list maps = (applied n list).foldl applySegment maps := by
  unfold parseReplicasMap applied
  generalize replicaSegments [] none list = segments
  induction segments generalizing maps with
  | nil => rfl
  | cons segment segments ih =>
    rw [List.foldl_cons,ih]
    by_cases pass : segmentAccepted n segment = true
    · simp [trimmed,accepted,pass,parseSegment,applySegment]
    · simp [trimmed,accepted,pass,parseSegment]

theorem ownSegment_colon (clean : 58 ∉ s) (encoded : CString) : ownSegment (s ++ 58 :: encoded) = some (s,encoded) := by
  rw [ownSegment,if_pos (by simp),takeWhile_stop clean,dropWhile_stop clean]
  rfl

theorem groups_none (before : List CString) (clean : 58 ∉ s) (pieces : List CString) :
    groups before (s :: pieces) = groups (before ++ [s]) pieces := by
  simp [groups,show ownSegment s = none from if_neg clean]

theorem groups_colon (before : List CString) (clean : 58 ∉ s) (encoded : CString) (pieces : List CString) :
    groups before ((s ++ 58 :: encoded) :: pieces) = ⟨before,(s,encoded)⟩ :: groups [] pieces := by
  simp [groups,ownSegment_colon clean]

/-- The walk is behind the start of a segment, or behind its first colon. -/
theorem replicaSegments_groups_from (list : CString) :
    (∀ before prev, 58 ∉ prev →
      replicaSegments (swallowed before ++ prev) none list = (groups before (strSplitFrom 59 prev list)).map Group.read) ∧
    ∀ before ns encoded, 58 ∉ ns →
      replicaSegments (swallowed before ++ ns) (some encoded) list =
        (groups before (strSplitFrom 59 (ns ++ 58 :: encoded) list)).map Group.read := by
  induction list with
  | nil =>
    constructor
    · intro before prev clean
      rw [replicaSegments,strSplitFrom]
      split
      · rfl
      · rw [groups_none before clean]
        rfl
    · intro before ns encoded clean
      rw [replicaSegments,strSplitFrom,if_neg (by simp),groups_colon before clean]
      rfl
  | cons c list ih =>
    obtain ⟨plain,found⟩ := ih
    constructor
    · intro before prev clean
      rw [replicaSegments,strSplitFrom]
      by_cases colon : c = 58
      · subst colon
        rw [if_pos rfl,if_neg (by decide)]
        exact found before prev [] clean
      · by_cases semicolon : 59 = c
        · -- the segment ends without a colon
          subst semicolon
          have next := plain (before ++ [prev]) [] List.not_mem_nil
          rw [if_neg colon,if_pos rfl,groups_none before clean,← next]
          simp [swallowed]
        · rw [if_neg colon,if_neg semicolon,List.append_assoc]
          exact plain before (prev ++ [c]) (by simp [clean,Ne.symm colon])
    · intro before ns encoded clean
      rw [replicaSegments,strSplitFrom]
      by_cases semicolon : c = 59
      · subst semicolon
        have next := plain [] [] List.not_mem_nil
        rw [if_pos rfl,if_pos rfl,groups_colon before clean,List.map_cons,← next]
        rfl
      · rw [if_neg semicolon,if_neg (Ne.symm semicolon),List.append_assoc]
        exact found before ns (encoded ++ [c]) clean

theorem replicaSegments_groups (list : CString) :
    replicaSegments [] none list = (groups [] (strSplit 59 list)).map Group.read :=
  (replicaSegments_groups_from list).1 [] [] List.not_mem_nil

theorem groups_own (before : List CString) (pieces : List CString) :
    pieces.filterMap ownSegment = (groups before pieces).map Group.own := by
  induction pieces generalizing before with
  | nil => rfl
  | cons piece pieces ih =>
    unfold groups
    cases found : ownSegment piece with
    | none => rw [List.filterMap_cons_none found,ih]
    | some own => rw [List.filterMap_cons_some found,List.map_cons,← ih]

/-! ### Semicolons -/

theorem strSplitFrom_plain (splitC : UInt8) (list : CString) (clean : splitC ∉ prev) :
    ∀ piece ∈ strSplitFrom splitC prev list, splitC ∉ piece := by
  induction list generalizing prev with
  | nil =>
    unfold strSplitFrom
    split
    · simp
    · simpa using clean
  | cons c list ih =>
    unfold strSplitFrom
    split
    · intro piece member
      rcases List.mem_cons.mp member with rfl | later
      · exact clean
      · exact ih List.not_mem_nil piece later
    · rename_i other
      exact ih (by simp [clean,other])

theorem own_plain (list : CString) (member : group ∈ groups [] (strSplit 59 list)) : 59 ∉ group.own.1 := by
  have listed : group.own ∈ (strSplit 59 list).filterMap ownSegment := by
    rw [groups_own []]
    exact List.mem_map_of_mem member
  obtain ⟨piece,present,parted⟩ := List.mem_filterMap.mp listed
  have plain := strSplitFrom_plain 59 list List.not_mem_nil piece present
  unfold ownSegment at parted
  split at parted
  · rw [← Option.some.inj parted]
    exact fun semicolon => plain ((List.takeWhile_prefix _).subset semicolon)
  · cases parted

theorem mem_dropWhile_plain (p : UInt8 → Bool) (visible : p c = false) : c ∈ s.dropWhile p ↔ c ∈ s := by
  constructor
  · exact fun member => (List.dropWhile_suffix p).subset member
  · intro member
    rw [← List.takeWhile_append_dropWhile (p := p) (l := s)] at member
    rcases List.mem_append.mp member with before | after
    · simpa [visible] using List.mem_takeWhile_imp before
    · exact after

theorem mem_trim (visible : isspace c = false) : c ∈ trim s ↔ c ∈ s := by
  rw [trim,List.mem_reverse,mem_dropWhile_plain isspace visible,List.mem_reverse,mem_dropWhile_plain isspace visible]

theorem Group.read_semicolon (some : group.before ≠ []) : 59 ∈ trim group.read.1 := by
  rw [mem_trim (by decide)]
  obtain ⟨first,rest,parts⟩ := List.exists_cons_of_ne_nil some
  simp [Group.read,swallowed,parts]

theorem Group.read_own (none : group.before = []) : group.read = group.own := by
  simp [Group.read,swallowed,none]

theorem segmentAccepted_iff (segment : CString × CString) :
    segmentAccepted n segment = true ↔ ((trim segment.1).length ≠ 0 ∧ (trim segment.1).length ≤ 31) ∧
      segment.2.length = expectedEncodedLen n := by
  simp [segmentAccepted,eq_comm (a := expectedEncodedLen n)]

theorem Group.harmless_iff (some : group.before ≠ []) :
    group.Harmless n ↔ segmentAccepted n group.read = false ∧ segmentAccepted n group.own = false := by
  have long : (trim group.read.1).length ≠ 0 := List.length_pos_of_mem (group.read_semicolon some) |>.ne'
  have same : group.read.2 = group.own.2 := rfl
  rw [← Bool.not_eq_true,← Bool.not_eq_true,segmentAccepted_iff,segmentAccepted_iff,Group.Harmless,same]
  omega

/-! ### Which segments are applied -/

theorem filter_same {p q : α → Bool} {l : List α} (sub : ∀ a ∈ l, p a = true → q a = true)
    (same : (l.filter p).length = (l.filter q).length) (member : a ∈ l) (holds : q a = true) : p a = true := by
  have both : l.filter p = (l.filter q).filter p := by
    rw [List.filter_filter]
    refine List.filter_congr ?_
    intro b present
    by_cases holds : p b = true
    · simp [holds,sub b present holds]
    · simp [holds]
  have whole : (l.filter q).filter p = l.filter q := List.filter_sublist.eq_of_length (both ▸ same)
  have kept : a ∈ (l.filter q).filter p := by
    rw [whole]
    exact List.mem_filter.mpr ⟨member,holds⟩
  exact (List.mem_filter.mp kept).2

theorem trimmed_map (n : Nat) (f : Group → CString × CString) (gs : List Group) :
    trimmed n (gs.map f) = (gs.filter fun g => segmentAccepted n (f g)).map fun g => (trim (f g).1,(f g).2) := by
  simp [trimmed,accepted,List.filter_map,Function.comp_def]

theorem trimmed_congr {gs : List Group} (each : ∀ group ∈ gs, group.read = group.own ∨
      segmentAccepted n group.read = false ∧ segmentAccepted n group.own = false) :
    trimmed n (gs.map Group.read) = trimmed n (gs.map Group.own) := by
  rw [trimmed_map,trimmed_map]
  induction gs with
  | nil => rfl
  | cons group gs ih =>
    have later := ih fun other member => each other (List.mem_cons_of_mem _ member)
    rcases each group List.mem_cons_self with same | ⟨read,own⟩
    · simp only [List.filter_cons,same]
      split
      · rw [List.map_cons,List.map_cons,same,later]
      · exact later
    · simpa [List.filter_cons,read,own] using later

theorem applied_groups (n : Nat) (list : CString) :
    applied n list = trimmed n ((groups [] (strSplit 59 list)).map Group.read) := by
  rw [applied,replicaSegments_groups]

theorem wellFormed_groups (n : Nat) (list : CString) :
    wellFormed n list = trimmed n ((groups [] (strSplit 59 list)).map Group.own) := by
  rw [wellFormed,groups_own []]

/-- A segment that is applied under a name with a semicolon in it is none of the list. -/
theorem read_rejected (same : applied n list = wellFormed n list) (member : group ∈ groups [] (strSplit 59 list))
    (some : group.before ≠ []) : segmentAccepted n group.read = false := by
  by_contra pass
  have listed : (trim group.read.1,group.read.2) ∈ wellFormed n list := by
    rw [← same,applied_groups,trimmed_map]
    exact List.mem_map.mpr ⟨group,List.mem_filter.mpr ⟨member,by simpa using pass⟩,rfl⟩
  rw [wellFormed_groups,trimmed_map] at listed
  obtain ⟨other,present,parts⟩ := List.mem_map.mp listed
  have semicolon := group.read_semicolon some
  rw [← (Prod.mk.inj parts).1,mem_trim (by decide)] at semicolon
  exact own_plain list (List.mem_filter.mp present).1 semicolon

theorem applied_eq_iff (n : Nat) (list : CString) :
    applied n list = wellFormed n list ↔
      ∀ group ∈ groups [] (strSplit 59 list), group.before ≠ [] → group.Harmless n := by
  constructor
  · intro same group member some
    have rejected := read_rejected same member some
    refine (Group.harmless_iff some).mpr ⟨rejected,?_⟩
    by_contra pass
    have lengths := congrArg List.length same
    rw [applied_groups,wellFormed_groups,trimmed_map,trimmed_map,List.length_map,List.length_map] at lengths
    have read := filter_same (a := group) ?_ lengths member (by simpa using pass)
    · rw [rejected] at read
      cases read
    · intro other present reads
      by_cases empty : other.before = []
      · rwa [← other.read_own empty]
      · rw [read_rejected same present empty] at reads
        cases reads
  · intro harmless
    rw [applied_groups,wellFormed_groups]
    refine trimmed_congr ?_
    intro group member
    by_cases empty : group.before = []
    · exact .inl (group.read_own empty)
    · exact .inr ((Group.harmless_iff empty).mp (harmless group member empty))

/-- `parse_replicas_map` applies the segments of the form namespace:bitmap, and no others, exactly when each segment
with a colon that stands behind segments without one is applied neither with them nor by itself. -/
theorem segments_applied_iff (n : Nat) (list : CString) :
    (∀ maps : List (NsPartitionMap n), parseReplicasMap list maps = (applied n list).foldl applySegment maps) ∧
    (applied n list = wellFormed n list ↔
      ∀ group ∈ groups [] (strSplit 59 list), group.before ≠ [] → group.Harmless n) :=
  ⟨parseReplicasMap_applied list,applied_eq_iff n list⟩

/-- A bad segment takes the next one with it: the bitmap of b goes to a namespace called a;b. -/
theorem bad_segment_swallows :
    ¬∀ n list, 0 < n → ∀ maps : List (NsPartitionMap n),
      parseReplicasMap list maps = (wellFormed n list).foldl applySegment maps := by
  intro every
  have same := congrArg names (every 8 (text "a;b:gAAA") (by decide) [])
  exact absurd same (by decide)

end Citrusleaf.Replicas
