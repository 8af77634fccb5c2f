import Mathlib.Data.List.Nodup
import Mathlib.Logic.Function.Basic

/-! The hash table of cf_shash.c as a caller without mutexes sees it, used by one thread and with
allocations succeeding. A bucket is its head element, empty while not in use, and the chain behind
it. `ShashTable` is the table with its flags, its mutexes and its count in a word, whose calls
refine these. -/
namespace Citrusleaf

structure Bucket (κ ν : Type) where
  head : Option (κ × ν)
  next : List (κ × ν)

structure Shash (κ ν : Type) where
  hFn : κ → Nat
  tableLen : Nat
  elements : Nat
  table : Nat → Bucket κ ν

namespace Shash

variable {κ ν : Type} [DecidableEq κ]

def shashCreate (hFn : κ → Nat) (sz : Nat) : Shash κ ν := ⟨hFn,sz,0,fun _ => ⟨none,[]⟩⟩

/-- The bucket of a key. -/
def hash (h : Shash κ ν) (key : κ) : Nat := h.hFn key % h.tableLen

/-- The elements a walk of the bucket visits. -/
def elems (b : Bucket κ ν) : List (κ × ν) :=
  match b.head with
  | none => []
  | some e => e :: b.next

def shashGet (h : Shash κ ν) (key : κ) : Option ν :=
  ((elems (h.table (h.hash key))).find? fun e => e.1 = key).map Prod.snd

/-- Overwrite the value of the first element with the key. -/
def overwrite (key : κ) (value : ν) : List (κ × ν) → List (κ × ν)
  | [] => []
  | e :: es => if e.1 = key then (e.1,value) :: es else e :: overwrite key value es

/-- `shash_put` on its bucket, and whether it added an element. -/
def put (b : Bucket κ ν) (key : κ) (value : ν) : Bucket κ ν × Bool :=
  match b.head with
  | none => ({b with head := some (key,value)},true)
  | some e =>
    if e.1 = key then ({b with head := some (e.1,value)},false)
    else if b.next.any fun e => e.1 = key then ({b with next := overwrite key value b.next},false)
    else ({b with next := (key,value) :: b.next},true)

def shashPut (h : Shash κ ν) (key : κ) (value : ν) : Shash κ ν :=
  let (b,added) := put (h.table (h.hash key)) key value
  {h with
    table := Function.update h.table (h.hash key) b
    elements := if added then h.elements + 1 else h.elements}

/-- Every element of the table, bucket by bucket. -/
def entries (h : Shash κ ν) : List (κ × ν) :=
  (List.range h.tableLen).flatMap fun i => elems (h.table i)

def keys (entries : List (κ × ν)) : List κ := entries.map Prod.fst

/-! ### The table as a map -/

/-- Elements are in the bucket of their key, each key once. -/
structure WellFormed (h : Shash κ ν) : Prop where
  positive : 0 < h.tableLen
  placed : ∀ i, ∀ e ∈ elems (h.table i), h.hash e.1 = i
  distinct : ∀ i, (keys (elems (h.table i))).Nodup
  unused : ∀ i, (h.table i).head = none → (h.table i).next = []
  counted : h.elements = h.entries.length

omit [DecidableEq κ] in
theorem create_wellFormed (hFn : κ → Nat) (positive : 0 < sz) :
    WellFormed (shashCreate hFn sz : Shash κ ν) :=
  ⟨positive,fun _ _ member => absurd member List.not_mem_nil,fun _ => List.nodup_nil,
    fun _ _ => rfl,by simp [entries,shashCreate,elems]⟩

theorem find_iff {entries : List (κ × ν)} (distinct : (keys entries).Nodup) (key : κ) (value : ν) :
    (entries.find? fun e => e.1 = key).map Prod.snd = some value ↔ (key,value) ∈ entries := by
  induction entries with
  | nil => simp
  | cons e entries ih =>
    rw [keys,List.map_cons,List.nodup_cons] at distinct
    by_cases here : e.1 = key
    · subst here
      have absent : (e.1,value) ∉ entries := fun member =>
        distinct.1 (List.mem_map.mpr ⟨_,member,rfl⟩)
      simp [absent,Prod.ext_iff,eq_comm]
    · have different : (key,value) ≠ e := fun same => here (same ▸ rfl)
      rw [List.find?_cons_of_neg (by simpa using here),ih distinct.2,List.mem_cons]
      simp [different]

/-- A lookup finds exactly the elements of the table. -/
theorem WellFormed.get_iff {h : Shash κ ν} (wf : WellFormed h) (key : κ) (value : ν) :
    shashGet h key = some value ↔ (key,value) ∈ h.entries := by
  rw [shashGet,find_iff (wf.distinct _)]
  simp only [entries,List.mem_flatMap,List.mem_range]
  constructor
  · intro member
    exact ⟨h.hash key,Nat.mod_lt _ wf.positive,member⟩
  · rintro ⟨i,_,member⟩
    rwa [wf.placed i _ member]

omit [DecidableEq κ] in
theorem WellFormed.entries_nodup {h : Shash κ ν} (wf : WellFormed h) : (keys h.entries).Nodup := by
  rw [keys,entries,List.map_flatMap,List.nodup_flatMap]
  refine ⟨fun i _ => wf.distinct i,?_⟩
  refine List.nodup_range.imp ?_
  intro i j different
  apply List.disjoint_left.mpr
  intro key first second
  obtain ⟨e,member,rfl⟩ := List.mem_map.mp first
  obtain ⟨e',member',same⟩ := List.mem_map.mp second
  apply different
  rw [← wf.placed i e member,← wf.placed j e' member',same]

theorem overwrite_keys (key : κ) (value : ν) (entries : List (κ × ν)) :
    keys (overwrite key value entries) = keys entries := by
  induction entries with
  | nil => rfl
  | cons e entries ih =>
    unfold overwrite
    split
    · rfl
    · simpa [keys] using ih

theorem overwrite_find (key other : κ) (value : ν) (entries : List (κ × ν)) (member : key ∈ keys entries) :
    ((overwrite key value entries).find? fun e => e.1 = other).map Prod.snd =
      if other = key then some value else (entries.find? fun e => e.1 = other).map Prod.snd := by
  induction entries with
  | nil => simp [keys] at member
  | cons e entries ih =>
    by_cases here : e.1 = key
    · subst here
      by_cases same : other = e.1
      · simp [overwrite,same]
      · simp [overwrite,same,Ne.symm same]
    · have later : key ∈ keys entries := by simpa [keys,Ne.symm here] using member
      simp only [overwrite,here,if_false,List.find?_cons]
      by_cases same : e.1 = other
      · simp [same,same ▸ here]
      · simpa [same] using ih later

/-- What a put does to the elements of its bucket. -/
theorem put_elems (b : Bucket κ ν) (key : κ) (value : ν) (unused : b.head = none → b.next = []) :
    let result := put b key value
    (result.1.head = none → result.1.next = []) ∧
    (∀ other, (((elems result.1).find? fun e => e.1 = other).map Prod.snd) =
      if other = key then some value else ((elems b).find? fun e => e.1 = other).map Prod.snd) ∧
    ((key ∈ keys (elems b) ∧ keys (elems result.1) = keys (elems b) ∧ result.2 = false) ∨
      (key ∉ keys (elems b) ∧ (keys (elems result.1)).Perm (key :: keys (elems b)) ∧ result.2 = true)) := by
  obtain ⟨head,next⟩ := b
  cases head with
  | none =>
    obtain rfl : next = [] := unused rfl
    refine ⟨nofun,?_,.inr ⟨List.not_mem_nil,List.Perm.refl _,rfl⟩⟩
    intro other
    by_cases same : other = key
    · simp [put,elems,same]
    · simp [put,elems,same,Ne.symm same]
  | some e =>
    by_cases first : e.1 = key
    · subst first
      simp only [put,elems,if_true]
      refine ⟨nofun,?_,.inl ⟨List.mem_cons_self,rfl,trivial⟩⟩
      intro other
      by_cases same : other = e.1
      · simp [same]
      · simp [same,Ne.symm same]
    · by_cases later : (next.any fun e => e.1 = key) = true
      · have member : key ∈ keys next := by simpa [keys] using later
        simp only [put,elems,first,later,if_true,if_false]
        refine ⟨nofun,?_,.inl ⟨List.mem_cons_of_mem _ member,?_,trivial⟩⟩
        · intro other
          by_cases same : e.1 = other
          · simp [same,same ▸ first]
          · simpa [same] using overwrite_find key other value next member
        · exact congrArg (e.1 :: ·) (overwrite_keys key value next)
      · have absent : key ∉ keys next := by simpa [keys] using later
        simp only [put,elems,first,later,if_false,Bool.false_eq_true]
        refine ⟨nofun,?_,.inr ⟨?_,?_,trivial⟩⟩
        · intro other
          by_cases same : e.1 = other
          · simp [same,same ▸ first]
          · by_cases new : key = other
            · simp [same,new]
            · simp [same,new,Ne.symm new]
        · simp only [keys,List.map_cons,List.mem_cons,not_or]
          exact ⟨Ne.symm first,absent⟩
        · exact List.Perm.swap ..

/-- The elements of the table apart from those of one bucket. -/
def outside (h : Shash κ ν) (bucket : Nat) : List (κ × ν) :=
  ((List.range h.tableLen).filter (· != bucket)).flatMap fun i => elems (h.table i)

omit [DecidableEq κ] in
theorem entries_perm (h : Shash κ ν) (bucket : Nat) (inside : bucket < h.tableLen) :
    (entries h).Perm (elems (h.table bucket) ++ outside h bucket) := by
  have parts : (List.range h.tableLen).Perm
      (bucket :: (List.range h.tableLen).filter (· != bucket)) := by
    rw [← List.nodup_range.erase_eq_filter]
    exact List.perm_cons_erase (List.mem_range.mpr inside)
  exact (parts.flatMap_right _).trans (by rw [List.flatMap_cons]; rfl)

@[simp] theorem hash_put (h : Shash κ ν) (key other : κ) (value : ν) :
    hash (shashPut h key value) other = hash h other := rfl

theorem table_put (h : Shash κ ν) (key : κ) (value : ν) (i : Nat) :
    (shashPut h key value).table i =
      if i = hash h key then (put (h.table (hash h key)) key value).1 else h.table i := by
  by_cases same : i = hash h key
  · subst same; simp [shashPut]
  · simp [shashPut,same]

theorem outside_put (h : Shash κ ν) (key : κ) (value : ν) :
    outside (shashPut h key value) (hash h key) = outside h (hash h key) := by
  unfold outside
  apply List.flatMap_congr
  intro i member
  have other : i ≠ hash h key := by simpa using (List.mem_filter.mp member).2
  rw [table_put,if_neg other]

theorem put_wellFormed {h : Shash κ ν} (wf : WellFormed h) (key : κ) (value : ν) :
    WellFormed (shashPut h key value) := by
  obtain ⟨unused,_,change⟩ := put_elems (h.table (hash h key)) key value (wf.unused _)
  have inside : hash h key < h.tableLen := Nat.mod_lt _ wf.positive
  refine ⟨wf.positive,?_,?_,?_,?_⟩
  · intro i e member
    rw [table_put] at member
    split at member
    · rename_i same
      subst same
      have found : e.1 ∈ keys (elems (put (h.table (hash h key)) key value).1) :=
        List.mem_map.mpr ⟨e,member,rfl⟩
      have old : e.1 = key ∨ e.1 ∈ keys (elems (h.table (hash h key))) := by
        rcases change with ⟨_,kept,_⟩ | ⟨_,added,_⟩
        · exact .inr (kept ▸ found)
        · exact List.mem_cons.mp (added.mem_iff.mp found)
      rcases old with new | before
      · rw [hash_put,new]
      · obtain ⟨e',member',same⟩ := List.mem_map.mp before
        rw [hash_put,← same]
        exact wf.placed _ e' member'
    · exact wf.placed i e member
  · intro i
    rw [table_put]
    split
    · rcases change with ⟨_,kept,_⟩ | ⟨absent,added,_⟩
      · rw [kept]
        exact wf.distinct _
      · exact added.nodup_iff.mpr (List.nodup_cons.mpr ⟨absent,wf.distinct _⟩)
    · exact wf.distinct i
  · intro i
    rw [table_put]
    split
    · exact unused
    · exact wf.unused i
  · have before := (entries_perm h (hash h key) inside).length_eq
    have after := (entries_perm (shashPut h key value) (hash h key) inside).length_eq
    rw [outside_put,table_put,if_pos rfl] at after
    have count := wf.counted
    have elements : (shashPut h key value).elements =
        if (put (h.table (hash h key)) key value).2 then h.elements + 1 else h.elements := rfl
    rw [List.length_append] at before after
    rcases change with ⟨_,kept,flag⟩ | ⟨_,added,flag⟩
    · have size := congrArg List.length kept
      simp only [keys,List.length_map] at size
      rw [flag] at elements
      simp only [Bool.false_eq_true,if_false] at elements
      omega
    · have size := added.length_eq
      simp only [keys,List.length_map,List.length_cons] at size
      rw [flag,if_pos rfl] at elements
      omega

/-- A put binds its key and no other. -/
theorem get_put {h : Shash κ ν} (wf : WellFormed h) (key other : κ) (value : ν) :
    shashGet (shashPut h key value) other = if other = key then some value else shashGet h other := by
  obtain ⟨_,lookup,_⟩ := put_elems (h.table (hash h key)) key value (wf.unused _)
  rw [shashGet,hash_put,table_put]
  split
  · rename_i bucket
    rw [lookup,shashGet,bucket]
  · rename_i bucket
    have different : other ≠ key := fun same => bucket (same ▸ rfl)
    rw [if_neg different,shashGet]

theorem get_create (hFn : κ → Nat) (sz : Nat) (key : κ) :
    shashGet (shashCreate hFn sz : Shash κ ν) key = none := rfl

/-- The keys of the table are those a lookup finds. -/
theorem mem_keys {h : Shash κ ν} (wf : WellFormed h) (key : κ) :
    key ∈ keys (entries h) ↔ (shashGet h key).isSome := by
  rw [Option.isSome_iff_exists]
  simp only [wf.get_iff,keys,List.mem_map,Prod.exists,exists_and_right,exists_eq_right]

end Shash
end Citrusleaf
