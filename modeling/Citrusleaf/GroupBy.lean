import Mathlib.Data.UInt
import Citrusleaf.Shash
import Citrusleaf.Text

/-! The group-by of php_cl_query.c: a table of groups whose values point to tables of
distinct attributes. `shash_get` copies a value out, so what is done to the copy is not
done to the table. -/
namespace Citrusleaf.GroupBy
open Shash

def maxFieldSize : Nat := 80

/-- The bytes of a `stats_key`: cleared, then filled by `strncpy`. -/
abbrev StatsKey := List UInt8

def statsKey (attr : CString) : StatsKey :=
  let copied := attr.take maxFieldSize
  copied ++ List.replicate (maxFieldSize + 1 - copied.length) 0

/-- `FNV32` over the characters before the NUL. -/
def fnv32 (key : StatsKey) : Nat :=
  ((key.takeWhile (· ≠ 0)).foldl (fun hash c => (hash ^^^ c.toUInt32) * 16777619)
    (2166136261 : UInt32)).toNat

structure StatsCount where
  /-- The address of a table, an index into `distinctTables`. -/
  distinctHash : Nat
  clickCount : UInt64

structure GroupQuery where
  groupHash : Shash StatsKey StatsCount
  distinctTables : List (Shash StatsKey Int)

/-- `group_hash` as `group_query` creates it. -/
def GroupQuery.start : GroupQuery := ⟨shashCreate fnv32 1024,[]⟩

/-- Add the distinct attribute if it is not there. -/
def addDistinct (tables : List (Shash StatsKey Int)) (distinctHash : Nat) (key2 : StatsKey) :
    List (Shash StatsKey Int) :=
  tables.modify distinctHash fun table =>
    match shashGet table key2 with
    | some _ => table
    | none => shashPut table key2 1

/-- The first and second path of `add_stats`. The click count that is added to is the one
in the copy, which is dropped. -/
def addExisting (q : GroupQuery) (value : StatsCount) (clicks : UInt64) (key2 : StatsKey) : GroupQuery :=
  let value := {value with clickCount := value.clickCount + clicks}
  {q with distinctTables := addDistinct q.distinctTables value.distinctHash key2}

def addStats (q : GroupQuery) (distinctAttr : CString) (clicks : Int64) (groupAttr : CString) : GroupQuery :=
  let key1 := statsKey groupAttr
  let key2 := statsKey distinctAttr
  match shashGet q.groupHash key1 with
  | some value => addExisting q value clicks.toUInt64 key2
  | none =>
    -- under `group_query_lock`, in case another thread has created the item
    match shashGet q.groupHash key1 with
    | some value => addExisting q value clicks.toUInt64 key2
    | none =>
      let distinctHash := shashPut (shashCreate fnv32 200000) key2 1
      let value := ⟨q.distinctTables.length,clicks.toUInt64⟩
      ⟨shashPut q.groupHash key1 value,q.distinctTables ++ [distinctHash]⟩

/-- A row whose attributes are strings of at most 80 bytes. -/
structure Row where
  group : CString
  distinct : CString
  clicks : Int64
  groupFits : group.length ≤ maxFieldSize ∧ 0 ∉ group
  distinctFits : distinct.length ≤ maxFieldSize ∧ 0 ∉ distinct

def addRows (rows : List Row) : GroupQuery :=
  rows.foldl (fun q row => addStats q row.distinct row.clicks row.group) .start

/-! ### What the rows say -/

/-- The click counts of a group, in order. -/
def clicksOf (rows : List Row) (group : CString) : List UInt64 :=
  (rows.filter fun row => row.group = group).map fun row => row.clicks.toUInt64

/-- One entry per group, with the clicks and the distinct attributes of its rows. -/
def Exact (rows : List Row) (q : GroupQuery) : Prop :=
  (keys (entries q.groupHash)).Nodup ∧
  (∀ key, key ∈ keys (entries q.groupHash) ↔ ∃ row ∈ rows, statsKey row.group = key) ∧
  ∀ row ∈ rows, ∃ value table, (statsKey row.group,value) ∈ entries q.groupHash ∧
    value.clickCount = (clicksOf rows row.group).sum ∧
    q.distinctTables[value.distinctHash]? = some table ∧
    (keys (entries table)).Nodup ∧
    ∀ key, key ∈ keys (entries table) ↔
      ∃ other ∈ rows, other.group = row.group ∧ statsKey other.distinct = key

/-! ### Keys -/

/-- An attribute that fits is all of its key before the first NUL. -/
theorem statsKey_takeWhile (attr : CString) (fits : attr.length ≤ maxFieldSize ∧ 0 ∉ attr) :
    (statsKey attr).takeWhile (· ≠ 0) = attr := by
  have whole : attr.take maxFieldSize = attr := List.take_of_length_le fits.1
  have padded : (List.replicate (maxFieldSize + 1 - attr.length) (0 : UInt8)).takeWhile (· ≠ 0) = [] := by
    rw [List.takeWhile_replicate]
    rfl
  rw [statsKey,whole]
  rw [List.takeWhile_append_of_pos,padded,List.append_nil]
  intro c member
  have nonzero : c ≠ 0 := fun zero => fits.2 (zero ▸ member)
  simpa using nonzero

theorem statsKey_group (row other : Row) :
    statsKey row.group = statsKey other.group ↔ row.group = other.group := by
  constructor
  · intro same
    rw [← statsKey_takeWhile row.group row.groupFits,← statsKey_takeWhile other.group other.groupFits,same]
  · intro same
    rw [same]

/-! ### Rows added one by one -/

/-- The rows of the group with this key. -/
def rowsOf (rows : List Row) (key : StatsKey) : List Row :=
  rows.filter fun row => statsKey row.group = key

theorem rowsOf_snoc (rows : List Row) (row : Row) (key : StatsKey) :
    rowsOf (rows ++ [row]) key = rowsOf rows key ++ if statsKey row.group = key then [row] else [] := by
  by_cases same : statsKey row.group = key <;> simp [rowsOf,same]

/-- What the entry of a key says about its rows: the clicks of the first, and the distinct
attributes of all. -/
def Describes (rows : List Row) (tables : List (Shash StatsKey Int)) (key : StatsKey) : Option StatsCount → Prop
  | none => rowsOf rows key = []
  | some value =>
    (rowsOf rows key).head?.map (fun row => row.clicks.toUInt64) = some value.clickCount ∧
    ∃ table, tables[value.distinctHash]? = some table ∧ WellFormed table ∧
      ∀ key2, (shashGet table key2).isSome ↔ ∃ row ∈ rowsOf rows key, statsKey row.distinct = key2

structure Inv (rows : List Row) (q : GroupQuery) : Prop where
  wellFormed : WellFormed q.groupHash
  described : ∀ key, Describes rows q.distinctTables key (shashGet q.groupHash key)
  /-- No two groups share a table. -/
  apart : ∀ key other value value', shashGet q.groupHash key = some value →
    shashGet q.groupHash other = some value' → value.distinctHash = value'.distinctHash → key = other

/-- Rows of other groups change nothing about a key. -/
theorem Describes.other {tables tables' : List (Shash StatsKey Int)} (row : Row)
    (described : Describes rows tables key entry) (different : statsKey row.group ≠ key)
    (kept : ∀ value, entry = some value →
      tables'[value.distinctHash]? = tables[value.distinctHash]?) :
    Describes (rows ++ [row]) tables' key entry := by
  have same : rowsOf (rows ++ [row]) key = rowsOf rows key := by
    rw [rowsOf_snoc,if_neg different,List.append_nil]
  cases entry with
  | none => exact same.trans described
  | some value =>
    simp only [Describes,same,kept value rfl]
    exact described

/-- The table of distinct attributes after one more attribute. -/
theorem addDistinct_table (table : Shash StatsKey Int) (wf : WellFormed table) (key2 : StatsKey) :
    let added := match shashGet table key2 with
      | some _ => table
      | none => shashPut table key2 1
    WellFormed added ∧ ∀ other, (shashGet added other).isSome ↔
      (shashGet table other).isSome ∨ key2 = other := by
  cases found : shashGet table key2 with
  | some one =>
    refine ⟨wf,?_⟩
    intro other
    constructor
    · exact .inl
    · rintro (present | rfl)
      · exact present
      · exact Option.isSome_iff_exists.mpr ⟨one,found⟩
  | none =>
    refine ⟨put_wellFormed wf key2 1,?_⟩
    intro other
    rw [get_put wf]
    by_cases same : other = key2
    · simp [same]
    · simp [same,Ne.symm same]

theorem addStats_existing (q : GroupQuery) (row : Row) (value : StatsCount)
    (found : shashGet q.groupHash (statsKey row.group) = some value) :
    addStats q row.distinct row.clicks row.group =
      {q with distinctTables := addDistinct q.distinctTables value.distinctHash (statsKey row.distinct)} := by
  simp only [addStats,found]
  rfl

theorem addStats_new (q : GroupQuery) (row : Row)
    (missing : shashGet q.groupHash (statsKey row.group) = none) :
    addStats q row.distinct row.clicks row.group =
      ⟨shashPut q.groupHash (statsKey row.group) ⟨q.distinctTables.length,row.clicks.toUInt64⟩,
        q.distinctTables ++ [shashPut (shashCreate fnv32 200000) (statsKey row.distinct) 1]⟩ := by
  simp only [addStats,missing]

theorem Inv.existing (inv : Inv rows q) (row : Row) (value : StatsCount)
    (found : shashGet q.groupHash (statsKey row.group) = some value) :
    Inv (rows ++ [row]) (addStats q row.distinct row.clicks row.group) := by
  rw [addStats_existing q row value found]
  refine ⟨inv.wellFormed,?_,inv.apart⟩
  intro key
  by_cases own : statsKey row.group = key
  · subst own
    have described := inv.described (statsKey row.group)
    rw [found] at described ⊢
    obtain ⟨first,table,address,wf,members⟩ := described
    obtain ⟨grown,has⟩ := addDistinct_table table wf (statsKey row.distinct)
    refine ⟨?_,_,?_,grown,?_⟩
    · rw [rowsOf_snoc,if_pos rfl]
      cases before : rowsOf rows (statsKey row.group) with
      | nil => rw [before] at first; exact absurd first nofun
      | cons row' rest => rw [before] at first; exact first
    · simp only [addDistinct,List.getElem?_modify_eq,address]
      rfl
    · intro key2
      rw [has,members,rowsOf_snoc,if_pos rfl]
      simp [or_and_right,exists_or]
  · refine (inv.described key).other row own ?_
    intro other entry
    have separate : value.distinctHash ≠ other.distinctHash := fun same =>
      own (inv.apart _ _ _ _ found entry same)
    simp [addDistinct,separate]

theorem Inv.new (inv : Inv rows q) (row : Row)
    (missing : shashGet q.groupHash (statsKey row.group) = none) :
    Inv (rows ++ [row]) (addStats q row.distinct row.clicks row.group) := by
  rw [addStats_new q row missing]
  -- tables of earlier groups are inside the list, the new one is at its end
  have inside (key : StatsKey) (value : StatsCount) (entry : shashGet q.groupHash key = some value) :
      value.distinctHash < q.distinctTables.length := by
    have described := inv.described key
    rw [entry] at described
    obtain ⟨_,table,address,_⟩ := described
    exact (List.getElem?_eq_some_iff.mp address).1
  refine ⟨put_wellFormed inv.wellFormed _ _,?_,?_⟩
  · intro key
    rw [get_put inv.wellFormed]
    by_cases own : key = statsKey row.group
    · subst own
      have none := inv.described (statsKey row.group)
      rw [missing] at none
      have fresh : WellFormed (shashCreate fnv32 200000 : Shash StatsKey Int) :=
        create_wellFormed fnv32 (by decide)
      rw [if_pos rfl]
      refine ⟨?_,_,List.getElem?_concat_length,put_wellFormed fresh _ _,?_⟩
      · rw [rowsOf_snoc,show rowsOf rows _ = [] from none,if_pos rfl]
        rfl
      · intro key2
        rw [get_put fresh,get_create,rowsOf_snoc,show rowsOf rows _ = [] from none,if_pos rfl]
        by_cases same : key2 = statsKey row.distinct
        · simp [same]
        · simp [same,Ne.symm same]
    · rw [if_neg own]
      refine (inv.described key).other row (Ne.symm own) ?_
      intro value entry
      exact List.getElem?_append_left (inside key value entry)
  · intro key other value value'
    rw [get_put inv.wellFormed,get_put inv.wellFormed]
    split <;> split
    · rename_i here there
      intro _ _ _
      exact here.trans there.symm
    · intro entry entry' same
      obtain rfl := Option.some.inj entry
      exact absurd same (Nat.ne_of_gt (inside _ _ entry'))
    · intro entry entry' same
      obtain rfl := Option.some.inj entry'
      exact absurd same (Nat.ne_of_lt (inside _ _ entry))
    · exact inv.apart key other value value'

theorem addRows_inv (rows : List Row) : Inv rows (addRows rows) := by
  induction rows using List.reverseRecOn with
  | nil => exact ⟨create_wellFormed fnv32 (by decide),fun _ => rfl,nofun⟩
  | append_singleton rows row ih =>
    rw [addRows,List.foldl_append]
    cases found : shashGet (addRows rows).groupHash (statsKey row.group) with
    | some value => exact ih.existing row value found
    | none => exact ih.new row found

/-! ### The result -/

theorem rowsOf_group (rows : List Row) (row : Row) :
    rowsOf rows (statsKey row.group) = rows.filter fun other => other.group = row.group := by
  simp only [rowsOf,statsKey_group]

theorem clicksOf_rows (rows : List Row) (row : Row) :
    clicksOf rows row.group =
      (rowsOf rows (statsKey row.group)).map fun other => other.clicks.toUInt64 := by
  rw [rowsOf_group,clicksOf]

/-- The entry of a row's group, with its table and the clicks of the first row. -/
theorem Inv.entry {rows : List Row} (inv : Inv rows q) (row : Row) (member : row ∈ rows) :
    ∃ value table, (statsKey row.group,value) ∈ entries q.groupHash ∧
      (clicksOf rows row.group).head? = some value.clickCount ∧
      q.distinctTables[value.distinctHash]? = some table ∧ (keys (entries table)).Nodup ∧
      ∀ key, key ∈ keys (entries table) ↔
        ∃ other ∈ rows, other.group = row.group ∧ statsKey other.distinct = key := by
  have described := inv.described (statsKey row.group)
  have own : row ∈ rowsOf rows (statsKey row.group) := by simpa [rowsOf] using member
  cases found : shashGet q.groupHash (statsKey row.group) with
  | none =>
    rw [found] at described
    rw [show rowsOf rows _ = [] from described] at own
    exact absurd own List.not_mem_nil
  | some value =>
    rw [found] at described
    obtain ⟨first,table,address,wf,members⟩ := described
    refine ⟨value,table,(inv.wellFormed.get_iff _ _).mp found,?_,address,wf.entries_nodup,?_⟩
    · rw [clicksOf_rows,List.head?_map]
      exact first
    · intro key
      rw [mem_keys wf,members,rowsOf_group]
      simp [and_assoc]

theorem Inv.groups {rows : List Row} (inv : Inv rows q) (key : StatsKey) :
    key ∈ keys (entries q.groupHash) ↔ ∃ row ∈ rows, statsKey row.group = key := by
  rw [mem_keys inv.wellFormed]
  have described := inv.described key
  cases found : shashGet q.groupHash key with
  | none =>
    rw [found] at described
    have none : ∀ row ∈ rows, statsKey row.group ≠ key := by
      simpa [Describes,rowsOf] using described
    simpa using none
  | some value =>
    rw [found] at described
    have some := described.1
    refine iff_of_true rfl ?_
    cases group : rowsOf rows key with
    | nil => rw [group] at some; exact absurd some nofun
    | cons row rest =>
      have member : row ∈ rowsOf rows key := group ▸ List.mem_cons_self
      obtain ⟨inRows,same⟩ := List.mem_filter.mp member
      exact ⟨row,inRows,by simpa using same⟩

theorem add_eq_left (a b : UInt64) : a = a + b ↔ b = 0 := by
  constructor
  · intro same
    have shifted := congrArg (· - a) same
    simpa [add_sub_cancel_left] using shifted.symm
  · rintro rfl
    simp

/-- The group-by has one entry per group with the right distinct attributes whatever the
rows; its counts are exact if and only if, in every group, the clicks of the rows after the
first add up to zero: only the first row of a group is counted. -/
theorem group_by_exact (rows : List Row) :
    Exact rows (addRows rows) ↔ ∀ row ∈ rows, (clicksOf rows row.group).tail.sum = 0 := by
  have inv := addRows_inv rows
  have total (row : Row) (value : StatsCount)
      (first : (clicksOf rows row.group).head? = some value.clickCount) :
      value.clickCount = (clicksOf rows row.group).sum ↔ (clicksOf rows row.group).tail.sum = 0 := by
    cases clicks : clicksOf rows row.group with
    | nil => rw [clicks] at first; exact absurd first nofun
    | cons click later =>
      rw [clicks] at first
      obtain rfl := Option.some.inj first
      rw [List.sum_cons,add_eq_left]
      rfl
  constructor
  · rintro ⟨_,_,exact⟩ row member
    obtain ⟨value,table,entry,first,_⟩ := inv.entry row member
    obtain ⟨value',_,entry',sum,_⟩ := exact row member
    obtain rfl : value = value' := Option.some.inj
      (((inv.wellFormed.get_iff _ _).mpr entry).symm.trans ((inv.wellFormed.get_iff _ _).mpr entry'))
    exact (total row value first).mp sum
  · intro zero
    refine ⟨inv.wellFormed.entries_nodup,inv.groups,?_⟩
    intro row member
    obtain ⟨value,table,entry,first,rest⟩ := inv.entry row member
    exact ⟨value,table,entry,(total row value first).mpr (zero row member),rest⟩

/-- Two rows of one group with one click each count as one click. -/
theorem second_click_lost :
    ¬∀ rows, Exact rows (addRows rows) := by
  intro every
  let row (distinct : String) (fits : (text distinct).length ≤ maxFieldSize ∧ 0 ∉ text distinct) : Row :=
    ⟨text "ad",text distinct,1,by decide,fits⟩
  let rows := [row "a" (by decide),row "b" (by decide)]
  obtain ⟨value,_,entry,sum,_⟩ := (every rows).2.2 (row "a" (by decide)) List.mem_cons_self
  have inv := addRows_inv rows
  obtain ⟨value',_,entry',first,_⟩ := inv.entry (row "a" (by decide)) List.mem_cons_self
  obtain rfl : value = value' := Option.some.inj
    (((inv.wellFormed.get_iff _ _).mpr entry).symm.trans ((inv.wellFormed.get_iff _ _).mpr entry'))
  have one : some value.clickCount = some 1 := first.symm.trans (by decide)
  have two : value.clickCount = 2 := sum.trans (by decide)
  exact absurd ((Option.some.inj one).symm.trans two) (by decide)

end Citrusleaf.GroupBy
