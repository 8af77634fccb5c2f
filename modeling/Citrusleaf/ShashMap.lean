import Citrusleaf.ShashTable

/-! A table of cf_shash.c is a finite map, as far as its calls return. Each call changes the
elements of one bucket, or of every bucket in turn, and the map is what the buckets hold. -/
namespace Citrusleaf.ShashTable
open Shash

variable {κ ν : Type} [DecidableEq κ]

/-- Every element of the table, bucket by bucket. -/
def entries (h : ShashTable κ ν) : List (κ × ν) := (List.range h.tableLen).flatMap fun i => elems (h.table i)

/-- The table without its flags and mutexes. -/
def plain (h : ShashTable κ ν) : Shash κ ν := ⟨fun key => (h.hFn key).toNat,h.tableLen,h.entries.length,h.table⟩

/-- The map a table stands for. -/
def lookup (h : ShashTable κ ν) (key : κ) : Option ν := Shash.shashGet h.plain key

/-- Elements are in the bucket of their key, each key once, and they are counted in a word. -/
structure Sound (h : ShashTable κ ν) : Prop where
  positive : 0 < h.tableLen
  placed : ∀ i, ∀ key ∈ keys (elems (h.table i)), h.hash key = i
  distinct : ∀ i, (keys (elems (h.table i))).Nodup
  unused : ∀ i, (h.table i).head = none → (h.table i).next = []
  counted : h.elements = h.entries.length % 2 ^ 32

variable {h after : ShashTable κ ν}

omit [DecidableEq κ] in
theorem Sound.plain (sound : Sound h) : h.plain.WellFormed :=
  ⟨sound.positive,fun i e member => sound.placed i e.1 (List.mem_map_of_mem member),sound.distinct,sound.unused,rfl⟩

/-- A list of the pairs of a map, each key once. -/
structure Lists (m : κ → Option ν) (order : List (κ × ν)) : Prop where
  distinct : (keys order).Nodup
  pairs : ∀ key value, (key,value) ∈ order ↔ m key = some value

theorem Sound.lists (sound : Sound h) : Lists h.lookup h.entries :=
  ⟨sound.plain.entries_nodup,fun key value => (sound.plain.get_iff key value).symm⟩

omit [DecidableEq κ] in
theorem Sound.inside (sound : Sound h) (key : κ) : h.hash key < h.tableLen := Nat.mod_lt _ sound.positive

/-! ### Buckets -/

omit [DecidableEq κ] in
@[simp] theorem table_setBucket (h : ShashTable κ ν) (i j : Nat) (b : Bucket κ ν) (n : Nat) :
    (h.setBucket i b n).table j = if j = i then b else h.table j := by
  rw [setBucket]
  exact Function.update_apply ..

omit [DecidableEq κ] in
@[simp] theorem held_setBucket (h : ShashTable κ ν) (i : Nat) (b : Bucket κ ν) (n : Nat) :
    (h.setBucket i b n).held = h.held := rfl

omit [DecidableEq κ] in
@[simp] theorem flags_setBucket (h : ShashTable κ ν) (i : Nat) (b : Bucket κ ν) (n : Nat) :
    (h.setBucket i b n).flags = h.flags := rfl

omit [DecidableEq κ] in
theorem entries_setBucket (h : ShashTable κ ν) (inside : i < h.tableLen) (b : Bucket κ ν) (n : Nat) :
    (h.setBucket i b n).entries.length + (elems (h.table i)).length = h.entries.length + (elems b).length := by
  have before := (entries_perm h.plain i inside).length_eq
  have after := (entries_perm (h.setBucket i b n).plain i inside).length_eq
  have others : outside (h.setBucket i b n).plain i = outside h.plain i := by
    apply List.flatMap_congr
    intro j member
    have other : j ≠ i := by simpa using (List.mem_filter.mp member).2
    change elems ((h.setBucket i b n).table j) = _
    rw [table_setBucket,if_neg other]
    rfl
  have here : (h.setBucket i b n).plain.table i = b := by
    change (h.setBucket i b n).table i = b
    simp
  rw [others,here,List.length_append] at after
  rw [List.length_append] at before
  change h.entries.length = (elems (h.table i)).length + _ at before
  change (h.setBucket i b n).entries.length = _ at after
  omega

omit [DecidableEq κ] in
/-- A bucket may be replaced by one for the same keys, with the elements counted. -/
theorem Sound.setBucket (sound : Sound h) (inside : i < h.tableLen)
    (placed : ∀ key ∈ keys (elems b), h.hash key = i) (distinct : (keys (elems b)).Nodup)
    (unused : b.head = none → b.next = [])
    (counted : (n + (elems (h.table i)).length) % 2 ^ 32 = (h.elements + (elems b).length) % 2 ^ 32) :
    Sound (h.setBucket i b n) := by
  refine ⟨sound.positive,fun j => ?_,fun j => ?_,fun j => ?_,?_⟩
  · rw [table_setBucket]
    split
    · rename_i here
      exact here ▸ placed
    · exact sound.placed j
  · rw [table_setBucket]
    split
    · exact distinct
    · exact sound.distinct j
  · rw [table_setBucket]
    split
    · exact unused
    · exact sound.unused j
  · have count := entries_setBucket h inside b n
    have before := sound.counted
    change n % 2 ^ 32 = _
    omega

theorem lookup_setBucket (h : ShashTable κ ν) (i : Nat) (b : Bucket κ ν) (n : Nat) (key : κ) :
    (h.setBucket i b n).lookup key =
      if h.hash key = i then ((elems b).find? fun e => e.1 = key).map Prod.snd else h.lookup key := by
  change ((elems ((h.setBucket i b n).table (h.hash key))).find? fun e => e.1 = key).map Prod.snd = _
  rw [table_setBucket]
  split <;> rfl

/-! ### Mutexes -/

/-- A mutex that is taken or given back does not change the map. -/
structure Locks (h after : ShashTable κ ν) : Prop where
  sound : Sound h → Sound after
  hash : after.hash = h.hash
  table : after.table = h.table
  elements : after.elements = h.elements
  lookup : after.lookup = h.lookup
  tableLen : after.tableLen = h.tableLen
  plain : after.plain = h.plain

theorem Locks.held (h : ShashTable κ ν) (held : List ShashLock) : Locks h {h with held} :=
  ⟨fun sound => ⟨sound.positive,sound.placed,sound.distinct,sound.unused,sound.counted⟩,rfl,rfl,rfl,rfl,rfl,rfl⟩

theorem Locks.trans {middle : ShashTable κ ν} (first : Locks h middle) (second : Locks middle after) : Locks h after :=
  ⟨second.sound ∘ first.sound,second.hash.trans first.hash,second.table.trans first.table,
    second.elements.trans first.elements,second.lookup.trans first.lookup,second.tableLen.trans first.tableLen,
    second.plain.trans first.plain⟩

theorem Locks.lock (locked : h.lock l = some after) : Locks h after := by
  cases l with
  | none =>
    obtain rfl := Option.some.inj locked
    exact Locks.held h h.held
  | some l =>
    rw [ShashTable.lock] at locked
    split at locked
    · cases locked
    · obtain rfl := Option.some.inj locked
      exact Locks.held h _

theorem Locks.unlock (h : ShashTable κ ν) (l : Option ShashLock) : Locks h (h.unlock l) := by
  cases l with
  | none => exact Locks.held h h.held
  | some l => exact Locks.held h _

/-! ### Puts -/

/-- The bucket a put leaves, with its elements counted. -/
theorem Sound.put (sound : Sound h) (key : κ) (value : ν) :
    let stored := Shash.put (h.table (h.hash key)) key value
    let after := h.setBucket (h.hash key) stored.1 (if stored.2 then h.elements + 1 else h.elements)
    Sound after ∧ after.lookup = Function.update h.lookup key (some value) := by
  obtain ⟨unused,found,change⟩ := put_elems (h.table (h.hash key)) key value (sound.unused _)
  have old := sound.placed (h.hash key)
  have distinct := sound.distinct (h.hash key)
  constructor
  · apply sound.setBucket (sound.inside key)
    · intro other member
      rcases change with ⟨_,kept,_⟩ | ⟨_,added,_⟩
      · exact old other (kept ▸ member)
      · rcases List.mem_cons.mp (added.mem_iff.mp member) with rfl | before
        · rfl
        · exact old other before
    · rcases change with ⟨_,kept,_⟩ | ⟨absent,added,_⟩
      · exact kept ▸ distinct
      · exact added.nodup_iff.mpr (List.nodup_cons.mpr ⟨absent,distinct⟩)
    · exact unused
    · rcases change with ⟨_,kept,flag⟩ | ⟨_,added,flag⟩
      · have size := congrArg List.length kept
        simp only [keys,List.length_map] at size
        rw [flag,size,if_neg Bool.false_ne_true]
      · have size := added.length_eq
        simp only [keys,List.length_map,List.length_cons] at size
        rw [flag,size,if_pos rfl]
        omega
  · funext other
    rw [lookup_setBucket,Function.update_apply]
    split
    · rename_i same
      rw [found]
      split
      · rfl
      · rw [lookup,Shash.shashGet,← same]
        rfl
    · rename_i differ
      rw [if_neg fun same : other = key => differ (same ▸ rfl)]

theorem shashPut_spec (sound : Sound h) (done : h.shashPut key value = some (rv,after)) :
    rv = shashOk ∧ Sound after ∧ after.lookup = Function.update h.lookup key (some value) := by
  obtain ⟨locked,lock,done⟩ := Option.bind_eq_some_iff.mp done
  have locks := Locks.lock lock
  obtain ⟨stored,map⟩ := (locks.sound sound).put key value
  rw [locks.lookup] at map
  dsimp only at done
  split at done
  · rename_i added
    obtain ⟨rfl,rfl⟩ := Prod.mk.inj (Option.some.inj done)
    rw [if_pos added] at stored map
    have unlocks := Locks.unlock (locked.setBucket (locked.hash key) (put (locked.table (locked.hash key)) key value).1
      (locked.elements + 1)) (h.lockOf (h.hash key))
    exact ⟨rfl,unlocks.sound stored,unlocks.lookup.trans map⟩
  · rename_i kept
    obtain ⟨rfl,rfl⟩ := Prod.mk.inj (Option.some.inj done)
    rw [if_neg kept] at stored map
    have unlocks := Locks.unlock (locked.setBucket (locked.hash key) (put (locked.table (locked.hash key)) key value).1
      locked.elements) locked.bigLock
    exact ⟨rfl,unlocks.sound stored,unlocks.lookup.trans map⟩

/-- Without its count in a word, the table a put leaves is that of `Shash`. -/
theorem Sound.put_plain (sound : Sound h) (key : κ) (value : ν) (n : Nat) :
    (h.setBucket (h.hash key) (Shash.put (h.table (h.hash key)) key value).1 n).plain = Shash.shashPut h.plain key value := by
  -- the count of `Shash` is that of the elements, and both tables have the same ones
  have counted := (put_wellFormed sound.plain key value).counted
  exact congrArg (fun n => { Shash.shashPut h.plain key value with elements := n }) counted.symm

/-- A put refines that of `Shash`. -/
theorem shashPut_plain (sound : Sound h) (done : h.shashPut key value = some (rv,after)) :
    after.plain = Shash.shashPut h.plain key value := by
  obtain ⟨locked,lock,done⟩ := Option.bind_eq_some_iff.mp done
  have locks := Locks.lock lock
  have stored := (locks.sound sound).put_plain key value
  rw [locks.plain] at stored
  dsimp only at done
  split at done
  all_goals
    obtain ⟨_,rfl⟩ := Prod.mk.inj (Option.some.inj done)
    exact (Locks.unlock ..).plain.trans (stored _)

theorem lookup_isSome (h : ShashTable κ ν) (key : κ) :
    (h.lookup key).isSome ↔ key ∈ keys (elems (h.table (h.hash key))) := by
  change (((elems (h.table (h.hash key))).find? fun e => e.1 = key).map Prod.snd).isSome ↔ _
  simp [keys]

/-- The unique put is a put where the key is not there. -/
theorem putUnique_eq (b : Bucket κ ν) (key : κ) (value : ν) :
    putUnique b key value = if key ∈ keys (elems b) then none else some (put b key value).1 := by
  obtain ⟨head,next⟩ := b
  cases head with
  | none => simp [putUnique,elems,keys,put]
  | some e =>
    by_cases first : e.1 = key
    · simp [putUnique,elems,keys,first]
    · by_cases later : ∃ value, (key,value) ∈ next
      · obtain ⟨value,member⟩ := later
        have there : key ∈ keys next := List.mem_map.mpr ⟨_,member,rfl⟩
        have found : (next.any fun e => e.1 = key) = true := by simpa [keys] using there
        have all : key ∈ keys (elems ⟨some e,next⟩) := List.mem_cons_of_mem _ there
        rw [if_pos all]
        simp [putUnique,found]
      · have absent : key ∉ keys next := by simpa [keys] using later
        have none : (next.any fun e => e.1 = key) = false := by
          rw [← Bool.not_eq_true]
          exact fun found => absent (by simpa [keys] using found)
        have all : key ∉ keys (elems ⟨some e,next⟩) := by
          simp only [elems,keys,List.map_cons,List.mem_cons,not_or]
          exact ⟨Ne.symm first,absent⟩
        rw [if_neg all]
        simp [putUnique,put,first,none]

theorem shashPutUnique_spec (sound : Sound h) (done : h.shashPutUnique key value = some (rv,after)) :
    Sound after ∧ if (h.lookup key).isSome then rv = shashErrFound ∧ after.lookup = h.lookup
      else rv = shashOk ∧ after.lookup = Function.update h.lookup key (some value) := by
  obtain ⟨locked,lock,done⟩ := Option.bind_eq_some_iff.mp done
  have locks := Locks.lock lock
  have sound := locks.sound sound
  have there := lookup_isSome locked key
  rw [← locks.lookup]
  rw [putUnique_eq] at done
  by_cases found : key ∈ keys (elems (locked.table (locked.hash key)))
  · rw [if_pos found] at done
    obtain ⟨rfl,rfl⟩ := Prod.mk.inj (Option.some.inj done)
    have unlocks := Locks.unlock locked (h.lockOf (h.hash key))
    rw [if_pos (there.mpr found)]
    exact ⟨unlocks.sound sound,rfl,unlocks.lookup⟩
  · rw [if_neg found] at done
    obtain ⟨rfl,rfl⟩ := Prod.mk.inj (Option.some.inj done)
    obtain ⟨_,_,change⟩ := put_elems (locked.table (locked.hash key)) key value (sound.unused _)
    have added := (change.resolve_left fun kept => found kept.1).2.2
    obtain ⟨stored,map⟩ := sound.put key value
    rw [if_pos added] at stored map
    have unlocks := Locks.unlock (locked.setBucket (locked.hash key) (put (locked.table (locked.hash key)) key value).1
      (locked.elements + 1)) (h.lockOf (h.hash key))
    rw [if_neg (mt there.mp found)]
    exact ⟨unlocks.sound stored,rfl,unlocks.lookup.trans map⟩

/-! ### Gets -/

theorem shashGet_locks (done : h.shashGet key = some (rv,value,after)) :
    rv = (if (h.lookup key).isSome then shashOk else shashErrNotfound) ∧ value = h.lookup key ∧ Locks h after := by
  obtain ⟨locked,lock,done⟩ := Option.bind_eq_some_iff.mp done
  have locks := Locks.lock lock
  have unlocks := Locks.unlock locked (h.lockOf (h.hash key))
  have found : locked.lookup key =
    ((elems (locked.table (locked.hash key))).find? fun e => e.1 = key).map Prod.snd := rfl
  rw [← locks.lookup,found]
  split at done
  all_goals
    rename_i search
    obtain ⟨rfl,rest⟩ := Prod.mk.inj (Option.some.inj done)
    obtain ⟨rfl,rfl⟩ := Prod.mk.inj rest
    rw [search]
    exact ⟨rfl,rfl,locks.trans unlocks⟩

theorem shashGet_spec (sound : Sound h) (done : h.shashGet key = some (rv,value,after)) :
    rv = (if (h.lookup key).isSome then shashOk else shashErrNotfound) ∧ value = h.lookup key ∧ Sound after ∧
      after.lookup = h.lookup := by
  obtain ⟨code,found,locks⟩ := shashGet_locks done
  exact ⟨code,found,locks.sound sound,locks.lookup⟩

/-- A get refines that of `Shash`. -/
theorem shashGet_plain (done : h.shashGet key = some (rv,value,after)) :
    value = Shash.shashGet h.plain key ∧ after.plain = h.plain := by
  obtain ⟨_,found,locks⟩ := shashGet_locks done
  exact ⟨found,locks.plain⟩

/-! ### Deletions -/

/-- An element that is taken out of a chain. -/
inductive Unlinked (key : κ) (value : ν) (before after : List (κ × ν)) : Prop where
  | mk (first later : List (κ × ν)) : before = first ++ (key,value) :: later → after = first ++ later →
      key ∉ keys first → Unlinked key value before after

theorem unlinkNext_none (key : κ) (next : List (κ × ν)) : unlinkNext key next = none ↔ key ∉ keys next := by
  induction next with
  | nil => simp [unlinkNext,keys]
  | cons e next ih =>
    rw [unlinkNext]
    split
    · rename_i here
      simp [keys,here]
    · rename_i other
      rw [Option.map_eq_none_iff,ih]
      simp [keys,Ne.symm other]

theorem unlinkNext_some {key : κ} {value : ν} {next rest : List (κ × ν)} (done : unlinkNext key next = some (value,rest)) : Unlinked key value next rest := by
  induction next generalizing rest with
  | nil => cases done
  | cons e next ih =>
    rw [unlinkNext] at done
    split at done
    · rename_i here
      obtain ⟨rfl,rfl⟩ := Prod.mk.inj (Option.some.inj done)
      exact .mk [] next (by rw [← here]; rfl) rfl List.not_mem_nil
    · rename_i other
      obtain ⟨⟨_,left⟩,found,done⟩ := Option.map_eq_some_iff.mp done
      obtain ⟨rfl,rfl⟩ := Prod.mk.inj done
      obtain ⟨first,later,rfl,rfl,fresh⟩ := ih found
      refine .mk (e :: first) later rfl rfl ?_
      simp only [keys,List.map_cons,List.mem_cons,not_or]
      exact ⟨Ne.symm other,fresh⟩

theorem unlink_none (key : κ) (b : Bucket κ ν) : unlink key b = none ↔ key ∉ keys (elems b) := by
  obtain ⟨head,next⟩ := b
  cases head with
  | none => simp [unlink,elems,keys]
  | some e =>
    by_cases here : e.1 = key
    · simp only [unlink,here,if_true,elems,keys,List.map_cons,List.mem_cons,true_or,not_true,iff_false]
      split <;> exact Option.some_ne_none _
    · simp only [unlink,here,if_false,Option.map_eq_none_iff,unlinkNext_none]
      simp [elems,keys,Ne.symm here]

theorem unlink_some {key : κ} {value : ν} {b rest : Bucket κ ν} (done : unlink key b = some (value,rest)) :
    Unlinked key value (elems b) (elems rest) ∧ (rest.head = none → rest.next = []) := by
  obtain ⟨head,next⟩ := b
  cases head with
  | none => cases done
  | some e =>
    by_cases here : e.1 = key
    · simp only [unlink,here,if_true] at done
      split at done
      all_goals
        rename_i empty
        obtain ⟨rfl,rfl⟩ := Prod.mk.inj (Option.some.inj done)
        exact ⟨.mk [] _ (by rw [← here]; rfl) rfl List.not_mem_nil,by simp⟩
    · simp only [unlink,here,if_false] at done
      obtain ⟨⟨_,left⟩,found,done⟩ := Option.map_eq_some_iff.mp done
      obtain ⟨rfl,rfl⟩ := Prod.mk.inj done
      obtain ⟨first,later,rfl,rfl,fresh⟩ := unlinkNext_some found
      refine ⟨.mk (e :: first) later rfl rfl ?_,nofun⟩
      simp only [keys,List.map_cons,List.mem_cons,not_or]
      exact ⟨Ne.symm here,fresh⟩

/-- The lookups after an element of distinct keys is gone. -/
theorem Unlinked.find {key : κ} {before after : List (κ × ν)} (unlinked : Unlinked key value before after)
    (distinct : (keys before).Nodup) (other : κ) :
    (after.find? fun e => e.1 = other).map Prod.snd =
      if other = key then none else (before.find? fun e => e.1 = other).map Prod.snd := by
  obtain ⟨first,later,rfl,rfl,fresh⟩ := unlinked
  split
  · rename_i same
    subst same
    simp only [keys,List.map_append,List.map_cons,List.nodup_append,List.nodup_cons] at distinct
    have gone : other ∉ keys later := distinct.2.1.1
    simp only [keys,List.mem_map,not_exists,not_and] at fresh gone
    rw [Option.map_eq_none_iff,List.find?_eq_none]
    intro e member
    rcases List.mem_append.mp member with one | two
    · simpa using fresh e one
    · simpa using gone e two
  · rename_i differ
    rw [List.find?_append,List.find?_append,List.find?_cons_of_neg (by simpa using Ne.symm differ)]

theorem Unlinked.value {key : κ} {value : ν} {before after : List (κ × ν)} (unlinked : Unlinked key value before after) :
    (before.find? fun e => e.1 = key).map Prod.snd = some value := by
  obtain ⟨first,later,rfl,rfl,fresh⟩ := unlinked
  have none : (first.find? fun e => e.1 = key) = none := by
    rw [List.find?_eq_none]
    intro e member same
    exact fresh (List.mem_map.mpr ⟨e,member,by simpa using same⟩)
  simp [List.find?_append,none]

omit [DecidableEq κ] in
/-- Elements that stay keep their places. -/
theorem Sound.shrink (sound : Sound h) (inside : i < h.tableLen) (fewer : (elems b).Sublist (elems (h.table i)))
    (unused : b.head = none → b.next = [])
    (counted : n + (elems (h.table i)).length = h.elements + (elems b).length + 2 ^ 32 * k) :
    Sound (h.setBucket i b n) := by
  have names := fewer.map Prod.fst
  refine sound.setBucket inside (fun key member => sound.placed i key (names.subset member))
    ((sound.distinct i).sublist names) unused ?_
  rw [counted,Nat.add_mul_mod_self_left]

theorem Sound.destroyElem (sound : Sound h) (key : κ) :
    (h.destroyElem key).1 = h.lookup key ∧ Sound (h.destroyElem key).2 ∧
      (h.destroyElem key).2.lookup = Function.update h.lookup key none := by
  have found : h.lookup key = ((elems (h.table (h.hash key))).find? fun e => e.1 = key).map Prod.snd := rfl
  rw [ShashTable.destroyElem]
  split
  · rename_i missing
    have absent := mt (lookup_isSome h key).mp ((unlink_none key _).mp missing)
    have none : h.lookup key = none := by simpa using absent
    refine ⟨none.symm,sound,?_⟩
    rw [← none,Function.update_eq_self]
  · rename_i value b taken
    obtain ⟨unlinked,unused⟩ := unlink_some taken
    have distinct := sound.distinct (h.hash key)
    refine ⟨by rw [found,unlinked.value],?_,?_⟩
    · obtain ⟨first,later,before,rest,_⟩ := unlinked
      apply sound.shrink (k := 1) (sound.inside key) _ unused
      · rw [before,rest]
        simp only [List.length_append,List.length_cons]
        omega
      · rw [before,rest]
        exact (List.Sublist.refl first).append (List.sublist_cons_self _ later)
    · funext other
      rw [lookup_setBucket,unlinked.find distinct,Function.update_apply]
      split
      · rename_i same
        split
        · rfl
        · rw [lookup,Shash.shashGet,← same]
          rfl
      · rename_i differ
        rw [if_neg fun same : other = key => differ (same ▸ rfl)]

theorem shashDelete_spec (sound : Sound h) (done : h.shashDelete key = some (rv,after)) :
    rv = deleteCode (h.lookup key) ∧ Sound after ∧ after.lookup = Function.update h.lookup key none := by
  obtain ⟨locked,lock,done⟩ := Option.bind_eq_some_iff.mp done
  have locks := Locks.lock lock
  obtain ⟨value,stored,map⟩ := (locks.sound sound).destroyElem key
  have unlocks := Locks.unlock (locked.destroyElem key).2 (h.lockOf (h.hash key))
  obtain ⟨rfl,rfl⟩ := Prod.mk.inj (Option.some.inj done)
  rw [← locks.lookup]
  exact ⟨congrArg deleteCode value,unlocks.sound stored,unlocks.lookup.trans map⟩

theorem shashDeleteLockfree_spec (sound : Sound h) (key : κ) :
    (h.shashDeleteLockfree key).1 = deleteCode (h.lookup key) ∧ Sound (h.shashDeleteLockfree key).2 ∧
      (h.shashDeleteLockfree key).2.lookup = Function.update h.lookup key none := by
  obtain ⟨value,stored,map⟩ := sound.destroyElem key
  exact ⟨congrArg deleteCode value,stored,map⟩

theorem shashGetAndDelete_spec (sound : Sound h) (done : h.shashGetAndDelete key = some (rv,value,after)) :
    rv = deleteCode (h.lookup key) ∧ value = h.lookup key ∧ Sound after ∧
      after.lookup = Function.update h.lookup key none := by
  obtain ⟨locked,lock,done⟩ := Option.bind_eq_some_iff.mp done
  have locks := Locks.lock lock
  obtain ⟨same,stored,map⟩ := (locks.sound sound).destroyElem key
  have unlocks := Locks.unlock (locked.destroyElem key).2 (h.lockOf (h.hash key))
  obtain ⟨rfl,rest⟩ := Prod.mk.inj (Option.some.inj done)
  obtain ⟨rfl,rfl⟩ := Prod.mk.inj rest
  rw [← locks.lookup]
  exact ⟨congrArg deleteCode same,same,unlocks.sound stored,unlocks.lookup.trans map⟩

/-! ### Reduces -/

/-- A reduce over some pairs after others: it goes on while the callback returns 0. -/
inductive Visits (f : ReduceFn κ ν) : List (κ × ν) → List (κ × ν) → Int → List (κ × ν) → Prop where
  | done : Visits f before [] 0 before
  | stop : f before e ≠ 0 → Visits f before (e :: order) (f before e) (before ++ [e])
  | next : f before e = 0 → Visits f (before ++ [e]) order rv visited → Visits f before (e :: order) rv visited

/-- A reduce that deletes, over some pairs after others, and the pairs that stay. -/
inductive Deletes (f : ReduceFn κ ν) :
    List (κ × ν) → List (κ × ν) → Int → List (κ × ν) → List (κ × ν) → Prop where
  | done : Deletes f before [] 0 before []
  | stop : f before e ≠ 0 → f before e ≠ shashReduceDeleteRv →
      Deletes f before (e :: order) (f before e) (before ++ [e]) (e :: order)
  | keep : f before e = 0 → Deletes f (before ++ [e]) order rv visited stay →
      Deletes f before (e :: order) rv visited (e :: stay)
  | delete : f before e = shashReduceDeleteRv → Deletes f (before ++ [e]) order rv visited stay →
      Deletes f before (e :: order) rv visited stay

section
variable {f : ReduceFn κ ν}

omit [DecidableEq κ]

/-- Buckets are visited one after the other, as long as the callback returns 0. -/
theorem Visits.append (first : Visits f before order 0 middle) (later : Visits f middle rest rv visited) :
    Visits f before (order ++ rest) rv visited := by
  generalize zero : (0 : Int) = code at first
  induction first with
  | done => exact later
  | stop other => exact absurd zero.symm other
  | next answer _ ih => exact .next answer (ih later zero)

theorem Visits.stopped (first : Visits f before order rv visited) (stopped : rv ≠ 0) (rest : List (κ × ν)) :
    Visits f before (order ++ rest) rv visited := by
  induction first with
  | done => exact absurd rfl stopped
  | stop other => exact .stop other
  | next answer _ ih => exact .next answer (ih stopped)

theorem Deletes.append (first : Deletes f before order 0 middle stay) (later : Deletes f middle rest rv visited more) :
    Deletes f before (order ++ rest) rv visited (stay ++ more) := by
  generalize zero : (0 : Int) = code at first
  induction first with
  | done => exact later
  | stop other => exact absurd zero.symm other
  | keep answer _ ih => exact .keep answer (ih later zero)
  | delete answer _ ih => exact .delete answer (ih later zero)

theorem Deletes.stopped (first : Deletes f before order rv visited stay) (stopped : rv ≠ 0) (rest : List (κ × ν)) :
    Deletes f before (order ++ rest) rv visited (stay ++ rest) := by
  induction first with
  | done => exact absurd rfl stopped
  | stop other differ => exact .stop other differ
  | keep answer _ ih => exact .keep answer (ih stopped)
  | delete answer _ ih => exact .delete answer (ih stopped)

theorem Deletes.sublist (deletes : Deletes f before order rv visited stay) : stay.Sublist order := by
  induction deletes with
  | done => exact List.Sublist.refl _
  | stop => exact List.Sublist.refl _
  | keep _ _ ih => exact ih.cons_cons _
  | delete _ _ ih => exact ih.cons _

theorem reduceElems_visits (f : ReduceFn κ ν) (before order : List (κ × ν)) :
    Visits f before order (reduceElems f before order).1 (reduceElems f before order).2 := by
  induction order generalizing before with
  | nil => exact .done
  | cons e order ih =>
    rw [reduceElems]
    split
    · rename_i other
      exact .stop other
    · rename_i answer
      exact .next (not_not.mp answer) (ih _)

theorem reduceDeleteNext_deletes (f : ReduceFn κ ν) (before next : List (κ × ν)) :
    Deletes f before next (reduceDeleteNext f before next).rv (reduceDeleteNext f before next).visited
      (reduceDeleteNext f before next).stay := by
  induction next generalizing before with
  | nil => exact .done
  | cons e next ih =>
    rw [reduceDeleteNext]
    dsimp only
    split
    · rename_i answer
      exact .delete answer (ih _)
    split
    · rename_i differ other
      exact .stop other differ
    · rename_i answer
      exact .keep (not_not.mp answer) (ih _)

theorem reduceDeleteHead_deletes (f : ReduceFn κ ν) (before : List (κ × ν)) (e : κ × ν) (next : List (κ × ν)) :
    let out := reduceDeleteHead f before e next
    Deletes f before (e :: next) out.1 out.2.1 (elems out.2.2) ∧ (out.2.2.head = none → out.2.2.next = []) := by
  induction next generalizing before e with
  | nil =>
    simp only [reduceDeleteHead]
    split
    · rename_i answer
      exact ⟨.delete answer .done,fun _ => rfl⟩
    · rename_i differ
      refine ⟨?_,nofun⟩
      by_cases zero : f before e = 0
      · rw [zero]
        exact .keep zero .done
      · exact .stop zero differ
  | cons t next ih =>
    simp only [reduceDeleteHead]
    split
    · rename_i answer
      obtain ⟨deletes,unused⟩ := ih (before ++ [e]) t
      exact ⟨.delete answer deletes,unused⟩
    split
    · rename_i differ other
      exact ⟨.stop other differ,nofun⟩
    · rename_i answer
      exact ⟨.keep (not_not.mp answer) (reduceDeleteNext_deletes f _ _),nofun⟩

theorem reduceDeleteBucket_deletes (f : ReduceFn κ ν) (before : List (κ × ν)) (b : Bucket κ ν)
    (unused : b.head = none → b.next = []) :
    let out := reduceDeleteBucket f before b
    Deletes f before (elems b) out.1 out.2.1 (elems out.2.2) ∧ (out.2.2.head = none → out.2.2.next = []) := by
  obtain ⟨head,next⟩ := b
  cases head with
  | none => exact ⟨.done,unused⟩
  | some e => exact reduceDeleteHead_deletes f before e next

end

theorem reduceBuckets_visits {f : ReduceFn κ ν} (done : reduceBuckets f is before h = some (rv,visited,after)) :
    Visits f before (is.flatMap fun i => elems (h.table i)) rv visited ∧ Locks h after := by
  induction is generalizing before h with
  | nil =>
    obtain ⟨rfl,rest⟩ := Prod.mk.inj (Option.some.inj done)
    obtain ⟨rfl,rfl⟩ := Prod.mk.inj rest
    exact ⟨.done,Locks.held h h.held⟩
  | cons i is ih =>
    obtain ⟨locked,lock,done⟩ := Option.bind_eq_some_iff.mp done
    have locks := (Locks.lock lock).trans (Locks.unlock locked (h.bucketLock i))
    have here := reduceElems_visits f before (elems (locked.table i))
    rw [List.flatMap_cons,← (Locks.lock lock).table]
    dsimp only at done
    split at done
    · rename_i stopped
      obtain ⟨rfl,rest⟩ := Prod.mk.inj (Option.some.inj done)
      obtain ⟨rfl,rfl⟩ := Prod.mk.inj rest
      exact ⟨here.stopped stopped _,locks⟩
    · rename_i on
      obtain ⟨later,rest⟩ := ih done
      rw [not_not.mp on] at here
      rw [(Locks.unlock locked (h.bucketLock i)).table] at later
      exact ⟨here.append later,locks.trans rest⟩

theorem shashReduce_spec (sound : Sound h) {f : ReduceFn κ ν} (done : h.shashReduce f = some (rv,visited,after)) :
    Visits f [] h.entries rv visited ∧ Sound after ∧ after.lookup = h.lookup := by
  obtain ⟨locked,lock,done⟩ := Option.bind_eq_some_iff.mp done
  obtain ⟨⟨_,_,reduced⟩,loop,done⟩ := Option.bind_eq_some_iff.mp done
  obtain ⟨rfl,rest⟩ := Prod.mk.inj (Option.some.inj done)
  obtain ⟨rfl,rfl⟩ := Prod.mk.inj rest
  obtain ⟨visits,inner⟩ := reduceBuckets_visits loop
  have locks := ((Locks.lock lock).trans inner).trans (Locks.unlock reduced h.bigLock)
  rw [(Locks.lock lock).table,(Locks.lock lock).tableLen] at visits
  exact ⟨visits,locks.sound sound,locks.lookup⟩

omit [DecidableEq κ] in
/-- One bucket of a reduce that deletes. -/
theorem Sound.reduceDeleteBucket (sound : Sound h) (f : ReduceFn κ ν) (before : List (κ × ν)) (inside : i < h.tableLen) :
    let out := ShashTable.reduceDeleteBucket f before (h.table i)
    let gone := (elems (h.table i)).length - (elems out.2.2).length
    let after := h.setBucket i out.2.2 (h.elements + (2 ^ 32 - 1) * gone)
    Deletes f before (elems (h.table i)) out.1 out.2.1 (elems (after.table i)) ∧
      (∀ j, j ≠ i → after.table j = h.table j) ∧ Sound after := by
  obtain ⟨here,unused⟩ := reduceDeleteBucket_deletes f before (h.table i) (sound.unused i)
  intro out gone after
  refine ⟨?_,fun j other => ?_,?_⟩
  · rw [table_setBucket,if_pos rfl]
    exact here
  · rw [table_setBucket,if_neg other]
  · have fewer : (elems out.2.2).length ≤ _ := here.sublist.length_le
    exact sound.shrink (k := gone) inside here.sublist unused (by omega)

/-- The buckets of a list after a reduce that deletes from them. -/
theorem reduceDeleteBuckets_deletes (sound : Sound h) {f : ReduceFn κ ν} (inside : ∀ i ∈ is, i < h.tableLen)
    (distinct : is.Nodup) (done : reduceDeleteBuckets f is before h = some (rv,visited,after)) :
    Deletes f before (is.flatMap fun i => elems (h.table i)) rv visited (is.flatMap fun i => elems (after.table i)) ∧
      (∀ j ∉ is, after.table j = h.table j) ∧ after.tableLen = h.tableLen ∧ Sound after := by
  induction is generalizing before h with
  | nil =>
    obtain ⟨rfl,rest⟩ := Prod.mk.inj (Option.some.inj done)
    obtain ⟨rfl,rfl⟩ := Prod.mk.inj rest
    exact ⟨.done,fun _ _ => rfl,rfl,sound⟩
  | cons i is ih =>
    obtain ⟨locked,lock,done⟩ := Option.bind_eq_some_iff.mp done
    have locks := Locks.lock lock
    obtain ⟨fresh,distinct⟩ := List.nodup_cons.mp distinct
    rw [← locks.tableLen] at inside ⊢
    rw [List.flatMap_cons,← locks.table]
    obtain ⟨here,others,stored⟩ := (locks.sound sound).reduceDeleteBucket f before (inside i List.mem_cons_self)
    have unlocks := Locks.unlock (locked.setBucket i (ShashTable.reduceDeleteBucket f before (locked.table i)).2.2
      (locked.elements + (2 ^ 32 - 1) * ((elems (locked.table i)).length -
        (elems (ShashTable.reduceDeleteBucket f before (locked.table i)).2.2).length))) (h.bucketLock i)
    rw [← unlocks.table] at here others
    replace stored := unlocks.sound stored
    have len := unlocks.tableLen
    change _ = locked.tableLen at len
    dsimp only at done
    -- only the table after this bucket matters from here on
    generalize (locked.setBucket i _ _).unlock (h.bucketLock i) = next at done here others stored len
    have rest : (is.flatMap fun j => elems (locked.table j)) = is.flatMap fun j => elems (next.table j) := by
      apply List.flatMap_congr
      intro j member
      rw [others j fun same => fresh (same ▸ member)]
    rw [rest,List.flatMap_cons]
    split at done
    · rename_i stopped
      obtain ⟨rfl,rest⟩ := Prod.mk.inj (Option.some.inj done)
      obtain ⟨rfl,rfl⟩ := Prod.mk.inj rest
      exact ⟨here.stopped stopped _,fun j outside => others j fun same => outside (same ▸ List.mem_cons_self),len,stored⟩
    · rename_i on
      obtain ⟨later,kept,same,sound⟩ := ih stored
        (fun j member => len ▸ inside j (List.mem_cons_of_mem _ member)) distinct done
      rw [not_not.mp on] at here
      rw [kept i fresh]
      refine ⟨here.append later,fun j outside => ?_,same.trans len,sound⟩
      rw [List.mem_cons,not_or] at outside
      rw [kept j outside.2,others j outside.1]

theorem shashReduceDelete_spec (sound : Sound h) {f : ReduceFn κ ν}
    (done : h.shashReduceDelete f = some (rv,visited,after)) :
    Deletes f [] h.entries rv visited after.entries ∧ Sound after := by
  obtain ⟨locked,lock,done⟩ := Option.bind_eq_some_iff.mp done
  obtain ⟨⟨_,_,reduced⟩,loop,done⟩ := Option.bind_eq_some_iff.mp done
  obtain ⟨rfl,rest⟩ := Prod.mk.inj (Option.some.inj done)
  obtain ⟨rfl,rfl⟩ := Prod.mk.inj rest
  have locks := Locks.lock lock
  obtain ⟨deletes,_,len,stored⟩ := reduceDeleteBuckets_deletes (locks.sound sound)
    (fun i member => List.mem_range.mp member) List.nodup_range loop
  have unlocks := Locks.unlock reduced h.bigLock
  have total := (unlocks.tableLen.trans len).trans locks.tableLen
  rw [locks.table,locks.tableLen,← unlocks.table] at deletes
  refine ⟨?_,unlocks.sound stored⟩
  rw [entries,entries,total]
  exact deletes

end Citrusleaf.ShashTable
