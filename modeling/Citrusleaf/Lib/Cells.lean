import Citrusleaf.Lib.Bytes

/-! Blocks of memory as arrays of cells of one width. Reads and writes of whole cells are
described cell by cell, whatever the width. -/
namespace Citrusleaf.Lib

/-- The bytes of a cell. -/
def cellAt (sz : Nat) (mem : List UInt8) (i : Nat) : List UInt8 := (mem.drop (i * sz)).take sz

variable {sz n m a i j k : Nat} {mem bytes before after : List UInt8}

theorem cellAt_byte (sz : Nat) (mem : List UInt8) (i k : Nat) :
    (cellAt sz mem i)[k]? = if k < sz then mem[i * sz + k]? else none := by
  rw [cellAt]
  split
  · rename_i inside
    rw [List.getElem?_take_of_lt inside,List.getElem?_drop]
  · rename_i outside
    exact List.getElem?_take_eq_none (Nat.not_lt.mp outside)

/-- A byte of a cell lies before another cell exactly if its cell does. -/
theorem cell_byte_lt (inside : k < sz) : i * sz + k < a * sz ↔ i < a := by
  rw [← Nat.div_lt_iff_lt_mul (Nat.zero_lt_of_lt inside),Nat.add_comm,
    Nat.add_mul_div_right _ _ (Nat.zero_lt_of_lt inside),Nat.div_eq_of_lt inside,Nat.zero_add]

theorem readBytes_cell (size : n * sz ≤ mem.length) (inside : i < n) :
    readBytes mem (i * sz) sz = some (cellAt sz mem i) := by
  have fits : (i + 1) * sz ≤ n * sz := Nat.mul_le_mul_right sz inside
  rw [Nat.add_mul,Nat.one_mul] at fits
  rw [readBytes,if_pos (by omega),cellAt]

theorem readBytes_cells (size : n * sz ≤ mem.length) (inside : a + m ≤ n) :
    readBytes mem (a * sz) (m * sz) = some ((mem.drop (a * sz)).take (m * sz)) := by
  have fits : (a + m) * sz ≤ n * sz := Nat.mul_le_mul_right sz inside
  rw [Nat.add_mul] at fits
  rw [readBytes,if_pos (by omega)]

theorem cells_length (size : n * sz ≤ mem.length) (inside : a + m ≤ n) :
    ((mem.drop (a * sz)).take (m * sz)).length = m * sz := by
  have fits : (a + m) * sz ≤ n * sz := Nat.mul_le_mul_right sz inside
  rw [Nat.add_mul] at fits
  rw [List.length_take,List.length_drop]
  omega

theorem cellAt_cells (inside : j < m) : cellAt sz ((mem.drop (a * sz)).take (m * sz)) j = cellAt sz mem (a + j) := by
  apply List.ext_getElem?
  intro k
  rw [cellAt_byte,cellAt_byte]
  split
  · rename_i small
    rw [List.getElem?_take_of_lt ((cell_byte_lt small).mpr inside),List.getElem?_drop,Nat.add_mul,Nat.add_assoc]
  · rfl

/-- Blocks with one beginning have the cells of it in common. -/
theorem cellAt_prefix {other : List UInt8} (same : mem.take (n * sz) = other.take (n * sz)) (inside : i < n) :
    cellAt sz mem i = cellAt sz other i := by
  have cut (block : List UInt8) : cellAt sz (block.take (n * sz)) i = cellAt sz block i := by
    have part := @cellAt_cells sz n 0 i block inside
    rwa [Nat.zero_mul,List.drop_zero,Nat.zero_add] at part
  rw [← cut mem,same,cut other]

theorem cellAt_append (size : before.length = n * sz) (i : Nat) :
    cellAt sz (before ++ after) i = if i < n then cellAt sz before i else cellAt sz after (i - n) := by
  apply List.ext_getElem?
  intro k
  rw [cellAt_byte]
  split
  · rename_i small
    split
    · rename_i first
      rw [cellAt_byte,if_pos small,List.getElem?_append_left (by rw [size]; exact (cell_byte_lt small).mpr first)]
    · rename_i later
      have past : n * sz ≤ i * sz + k := Nat.not_lt.mp (mt (cell_byte_lt small).mp later)
      have whole : i * sz = (i - n) * sz + n * sz := by
        rw [← Nat.add_mul,Nat.sub_add_cancel (Nat.not_lt.mp later)]
      rw [cellAt_byte,if_pos small,List.getElem?_append_right (by rw [size]; exact past),size]
      congr 1
      omega
  · rename_i large
    split <;> rw [cellAt_byte,if_neg large]

/-- Cells that are written, with the other cells as they were. -/
theorem writeBytes_cells (size : n * sz ≤ mem.length) (width : bytes.length = m * sz) (inside : a + m ≤ n) :
    ∃ after, writeBytes mem (a * sz) bytes = some after ∧ after.length = mem.length ∧
      ∀ j, cellAt sz after j = if a ≤ j ∧ j < a + m then cellAt sz bytes (j - a) else cellAt sz mem j := by
  have fits : (a + m) * sz ≤ n * sz := Nat.mul_le_mul_right sz inside
  rw [Nat.add_mul] at fits
  have written : writeBytes mem (a * sz) bytes =
      some (mem.take (a * sz) ++ (bytes ++ mem.drop (a * sz + bytes.length))) := by
    rw [writeBytes,if_pos (by omega)]
  have head : (mem.take (a * sz)).length = a * sz := List.length_take_of_le (by omega)
  refine ⟨_,written,(writeBytes_agree written).size.symm,fun j => ?_⟩
  rw [cellAt_append head,cellAt_append width]
  by_cases before : j < a
  · rw [if_pos before,if_neg (by omega)]
    have same := @cellAt_cells sz a 0 j mem before
    rwa [Nat.zero_mul,List.drop_zero,Nat.zero_add] at same
  · rw [if_neg before]
    by_cases middle : j < a + m
    · rw [if_pos (by omega),if_pos (by omega)]
    · rw [if_neg (by omega),if_neg (by omega),width,← Nat.add_mul]
      have whole : (a + m) * sz + (j - a - m) * sz = j * sz := by
        rw [← Nat.add_mul]
        congr 1
        omega
      rw [cellAt,List.drop_drop,whole,cellAt]

/-- Cells from `a` on that are copied to the start of a block, and those before `a` behind them. -/
theorem rotateBytes_cells {block : List UInt8} (size : n * sz ≤ mem.length) (room : m * sz ≤ block.length) (cut : a ≤ n)
    (fits : n ≤ m) :
    ∃ front one two after, readBytes mem (a * sz) ((n - a) * sz) = some front ∧ writeBytes block 0 front = some one ∧
      readBytes mem 0 (a * sz) = some two ∧ writeBytes one ((n - a) * sz) two = some after ∧ after.length = block.length ∧
      ∀ k < n, cellAt sz after k = cellAt sz mem (if a + k < n then a + k else a + k - n) := by
  have tail := readBytes_cells (a := a) (m := n - a) size (by omega)
  have head := readBytes_cells (a := 0) (m := a) size (by omega)
  obtain ⟨one,wroteOne,lengthOne,cellsOne⟩ := writeBytes_cells (a := 0) (n := m) room
    (cells_length (a := a) (m := n - a) size (by omega)) (by omega)
  obtain ⟨after,wroteTwo,lengthTwo,cellsTwo⟩ := writeBytes_cells (a := n - a) (n := m) (lengthOne ▸ room)
    (cells_length (a := 0) (m := a) size (by omega)) (by omega)
  rw [Nat.zero_mul] at head wroteOne wroteTwo
  refine ⟨_,one,_,after,tail,wroteOne,head,wroteTwo,lengthTwo.trans lengthOne,fun k inside => ?_⟩
  rw [cellsTwo,cellsOne]
  by_cases before : k < n - a
  · rw [if_neg (by omega),if_pos (by omega),if_pos (by omega),Nat.sub_zero,cellAt_cells (by omega)]
  · have second := @cellAt_cells sz a 0 (k - (n - a)) mem (by omega)
    rw [if_pos (by omega),if_neg (by omega),second]
    congr 1
    omega

/-- Every cell of a block. -/
def cellsOf (sz : Nat) (mem : List UInt8) : List (List UInt8) := (List.range (mem.length / sz)).map (cellAt sz mem)

theorem cellsOf_append (positive : 0 < sz) (size : before.length = n * sz) :
    cellsOf sz (before ++ after) = cellsOf sz before ++ cellsOf sz after := by
  have count : (before ++ after).length / sz = n + after.length / sz := by
    rw [List.length_append,size,Nat.add_comm,Nat.add_mul_div_right _ _ positive,Nat.add_comm]
  rw [cellsOf,cellsOf,cellsOf,count,size,Nat.mul_div_cancel _ positive,List.range_add,List.map_append,List.map_map]
  congr 1
  · apply List.map_congr_left
    intro i inside
    rw [cellAt_append size,if_pos (List.mem_range.mp inside)]
  · apply List.map_congr_left
    intro i _
    rw [Function.comp_apply,cellAt_append size,if_neg (by omega),Nat.add_sub_cancel_left]

/-! ### Blocks that are allocated -/

/-- What the allocator answers a request of some size: nothing, or a block with any bytes. -/
abbrev Malloc := Nat → Option (Nat → UInt8)

def mallocBlock (malloc : Malloc) (n : Nat) : Option (List UInt8) :=
  (malloc n).map fun garbage => (List.range n).map garbage

theorem mallocBlock_length {malloc : Malloc} (given : mallocBlock malloc n = some mem) : mem.length = n := by
  obtain ⟨_,_,rfl⟩ := Option.map_eq_some_iff.mp given
  simp

theorem mallocBlock_gives {malloc : Malloc} (gives : ∀ n, (malloc n).isSome) (n : Nat) :
    ∃ block, mallocBlock malloc n = some block ∧ block.length = n := by
  obtain ⟨garbage,given⟩ := Option.isSome_iff_exists.mp (gives n)
  exact ⟨_,by rw [mallocBlock,given]; rfl,by simp⟩

/-! ### Moves inside a block -/

/-- `memmove` inside a block. -/
def moveBytes (mem : List UInt8) (dst src n : Nat) : Option (List UInt8) := do
  writeBytes mem dst (← readBytes mem src n)

/-- Cells that are moved, whether or not they overlap. -/
theorem moveBytes_cells (size : n * sz ≤ mem.length) (dst : a + m ≤ n) (src : b + m ≤ n) :
    ∃ after, moveBytes mem (a * sz) (b * sz) (m * sz) = some after ∧ after.length = mem.length ∧
      ∀ j, cellAt sz after j = if a ≤ j ∧ j < a + m then cellAt sz mem (b + (j - a)) else cellAt sz mem j := by
  obtain ⟨after,written,length,cells⟩ := writeBytes_cells size (cells_length size src) dst
  refine ⟨after,?_,length,fun j => ?_⟩
  · rw [moveBytes,readBytes_cells size src]
    exact written
  · rw [cells]
    split
    · exact cellAt_cells (by omega)
    · rfl

end Citrusleaf.Lib
