import Citrusleaf.Lib.Checked
import Mathlib.Algebra.Ring.Nat
import Mathlib.Data.List.Basic

/-! Fixed-width integers as bytes, and blocks of memory with checked accesses: an access
that is not wholly inside the block gives `none`. A block laid out as a concatenation is
read and written part by part; a block seen through a moving cursor is compared from
the cursor on. -/
namespace Citrusleaf.Lib

/-! ### Integers -/

/-- The low bytes of a number, least significant first. -/
def leBytes : Nat → Nat → List UInt8
  | 0,_ => []
  | width + 1,n => n.toUInt8 :: leBytes width (n / 256)

def leNat : List UInt8 → Nat
  | [] => 0
  | b :: bytes => b.toNat + 256 * leNat bytes

def beBytes (width n : Nat) : List UInt8 := (leBytes width n).reverse

def beNat (bytes : List UInt8) : Nat := leNat bytes.reverse

@[simp] theorem leBytes_length (width n : Nat) : (leBytes width n).length = width := by
  induction width generalizing n with
  | zero => rfl
  | succ width ih => rw [leBytes,List.length_cons,ih]

@[simp] theorem beBytes_length (width n : Nat) : (beBytes width n).length = width := by
  rw [beBytes,List.length_reverse,leBytes_length]

theorem leNat_leBytes (width n : Nat) : leNat (leBytes width n) = n % 256 ^ width := by
  induction width generalizing n with
  | zero => rw [leBytes,leNat,Nat.pow_zero,Nat.mod_one]
  | succ width ih =>
    have low : n.toUInt8.toNat = n % 256 := UInt8.toNat_ofNat'
    rw [leBytes,leNat,ih,low,Nat.pow_succ,Nat.mul_comm _ 256,Nat.mod_mul]

theorem leNat_leBytes_of_lt (fits : n < 256 ^ width) : leNat (leBytes width n) = n := by
  rw [leNat_leBytes,Nat.mod_eq_of_lt fits]

theorem beNat_beBytes (width n : Nat) : beNat (beBytes width n) = n % 256 ^ width := by
  rw [beNat,beBytes,List.reverse_reverse,leNat_leBytes]

theorem beNat_beBytes_of_lt (fits : n < 256 ^ width) : beNat (beBytes width n) = n := by
  rw [beNat_beBytes,Nat.mod_eq_of_lt fits]

theorem leNat_lt (bytes : List UInt8) : leNat bytes < 256 ^ bytes.length := by
  induction bytes with
  | nil => exact Nat.one_pos
  | cons b bytes ih =>
    have small := b.toNat_lt
    rw [leNat,List.length_cons,Nat.pow_succ]
    omega

theorem beNat_lt (bytes : List UInt8) : beNat bytes < 256 ^ bytes.length := by
  have bound := leNat_lt bytes.reverse
  rwa [List.length_reverse] at bound

theorem leBytes_leNat (bytes : List UInt8) : leBytes bytes.length (leNat bytes) = bytes := by
  induction bytes with
  | nil => rfl
  | cons b bytes ih =>
    have first : (b.toNat + 256 * leNat bytes).toUInt8 = b := by
      apply UInt8.toNat_inj.mp
      rw [UInt8.toNat_ofNat',Nat.add_mul_mod_self_left,Nat.mod_eq_of_lt b.toNat_lt]
    have later : (b.toNat + 256 * leNat bytes) / 256 = leNat bytes := by
      have small := b.toNat_lt
      omega
    rw [List.length_cons,leNat,leBytes,first,later,ih]

/-- Bytes inside a block are those of the number they make. -/
theorem beBytes_beNat {mem : List UInt8} (inside : p + n ≤ mem.length) :
    beBytes n (beNat ((mem.drop p).take n)) = (mem.drop p).take n := by
  have size : ((mem.drop p).take n).reverse.length = n := by
    rw [List.length_reverse,List.length_take_of_le (by rw [List.length_drop]; omega)]
  have same := leBytes_leNat ((mem.drop p).take n).reverse
  rw [size] at same
  rw [beBytes,beNat,same,List.reverse_reverse]

/-! ### Checked accesses -/

def readBytes (mem : List UInt8) (p n : Nat) : Option (List UInt8) :=
  if p + n ≤ mem.length then some ((mem.drop p).take n) else none

def writeBytes (mem : List UInt8) (p : Nat) (bytes : List UInt8) : Option (List UInt8) :=
  if p + bytes.length ≤ mem.length then
    some (mem.take p ++ (bytes ++ mem.drop (p + bytes.length)))
  else none

/-- Reverse the order of some bytes in place. -/
def swapBytes (mem : List UInt8) (p n : Nat) : Option (List UInt8) := do
  let bytes ← readBytes mem p n
  writeBytes mem p bytes.reverse

def readByte (mem : List UInt8) (p : Nat) : Option UInt8 := mem[p]?

/-! ### Blocks laid out in parts -/

theorem readBytes_at (before part after : List UInt8) (start : p = before.length)
    (size : n = part.length) : readBytes (before ++ (part ++ after)) p n = some part := by
  subst start size
  rw [readBytes,if_pos (by simp only [List.length_append]; omega),List.drop_left,List.take_left]

theorem writeBytes_at (before part after bytes : List UInt8) (start : p = before.length)
    (size : part.length = bytes.length) :
    writeBytes (before ++ (part ++ after)) p bytes = some (before ++ (bytes ++ after)) := by
  subst start
  rw [writeBytes,if_pos (by simp only [List.length_append]; omega),List.take_left,← size,
    ← List.drop_drop,List.drop_left,List.drop_left]

theorem writeBytes_front (mem bytes : List UInt8) (fits : bytes.length ≤ mem.length) :
    writeBytes mem 0 bytes = some (bytes ++ mem.drop bytes.length) := by
  rw [writeBytes,if_pos (by omega),List.take_zero,List.nil_append,Nat.zero_add]

theorem swapBytes_at (before part after : List UInt8) (start : p = before.length)
    (size : n = part.length) :
    swapBytes (before ++ (part ++ after)) p n = some (before ++ (part.reverse ++ after)) := by
  rw [swapBytes,readBytes_at before part after start size]
  exact writeBytes_at before part after part.reverse start List.length_reverse.symm

theorem readByte_at (before : List UInt8) (b : UInt8) (after : List UInt8) (start : p = before.length) :
    readByte (before ++ ([b] ++ after)) p = some b := by
  subst start
  rw [readByte,List.getElem?_append_right (Nat.le_refl _),Nat.sub_self]
  rfl

theorem readByte_behind (before rest : List UInt8) (k : Nat) : readByte (before ++ rest) (before.length + k) = rest[k]? := by
  rw [readByte,List.getElem?_append_right (Nat.le_add_right _ k),Nat.add_sub_cancel_left]

theorem readByte_within (before part after : List UInt8) (k : Nat) (inside : k < part.length) :
    readByte (before ++ (part ++ after)) (before.length + k) = part[k]? := by
  rw [readByte_behind,List.getElem?_append_left inside]

/-- A write behind what is done goes into the room left. -/
theorem writeBytes_behind (done room bytes : List UInt8) (fits : bytes.length ≤ room.length) :
    writeBytes (done ++ room) done.length bytes = some (done ++ (bytes ++ room.drop bytes.length)) := by
  have size : (room.take bytes.length).length = bytes.length := List.length_take_of_le fits
  have written := writeBytes_at done (room.take bytes.length) (room.drop bytes.length) bytes rfl size
  rwa [List.take_append_drop] at written

/-! ### Blocks behind a cursor -/

/-- Two blocks of one size with the same bytes from the cursor on. -/
structure Agree (p : Nat) (mem other : List UInt8) : Prop where
  size : mem.length = other.length
  rest : mem.drop p = other.drop p

theorem Agree.refl (p : Nat) (mem : List UInt8) : Agree p mem mem := ⟨rfl,rfl⟩

theorem Agree.later (agree : Agree p mem other) (later : p ≤ q) : Agree q mem other := by
  refine ⟨agree.size,?_⟩
  rw [← Nat.add_sub_cancel' later,← List.drop_drop,← List.drop_drop,agree.rest]

theorem Agree.trans (first : Agree p a b) (second : Agree p b c) : Agree p a c :=
  ⟨first.size.trans second.size,first.rest.trans second.rest⟩

theorem Agree.readBytes (agree : Agree p mem other) (later : p ≤ q) :
    readBytes mem q n = readBytes other q n := by
  unfold Lib.readBytes
  rw [agree.size,(agree.later later).rest]

theorem Agree.readByte (agree : Agree p mem other) (later : p ≤ q) :
    readByte mem q = readByte other q := by
  have same := congrArg (·[0]?) (agree.later later).rest
  simpa only [List.getElem?_drop,Nat.add_zero,Lib.readByte] using same

/-- The byte at a position, and the big-endian word there. -/
def byteAt (mem : List UInt8) (p : Nat) : UInt8 := mem.getD p 0

def wordAt (mem : List UInt8) (p : Nat) : Nat := beNat ((mem.drop p).take 4)

theorem wordAt_lt (mem : List UInt8) (p : Nat) : wordAt mem p < 2 ^ 32 := by
  have bound := beNat_lt ((mem.drop p).take 4)
  have short : ((mem.drop p).take 4).length ≤ 4 := List.length_take_le 4 _
  exact Nat.lt_of_lt_of_le bound (Nat.pow_le_pow_right (by omega) short)

theorem drop_byteAt {mem : List UInt8} (inside : p < mem.length) : mem.drop p = byteAt mem p :: mem.drop (p + 1) := by
  rw [List.drop_eq_getElem_cons inside,byteAt,List.getD_eq_getElem?_getD,List.getElem?_eq_getElem inside,
    Option.getD_some]

theorem Agree.readBytes_checked (agree : Agree p mem other) (later : p ≤ q) :
    Checked (q + n ≤ mem.length) (· = (mem.drop q).take n) (Lib.readBytes other q n) := by
  rw [← agree.readBytes later,Lib.readBytes]
  split
  · exact .gives ‹_› rfl
  · exact .fails ‹_›

theorem Agree.readByte_checked (agree : Agree p mem other) (later : p ≤ q) :
    Checked (q < mem.length) (· = byteAt mem q) (Lib.readByte other q) := by
  rw [← agree.readByte later,Lib.readByte,byteAt,List.getD_eq_getElem?_getD]
  cases found : mem[q]? with
  | none => exact .fails (Nat.not_lt.mpr (List.getElem?_eq_none_iff.mp found))
  | some b => exact .gives (List.getElem?_eq_some_iff.mp found).1 rfl

theorem writeBytes_agree (written : writeBytes mem p bytes = some after) :
    Agree (p + bytes.length) mem after := by
  unfold writeBytes at written
  split at written
  · rename_i inside
    obtain rfl := Option.some.inj written
    have length : (mem.take p).length = p := List.length_take_of_le (by omega)
    constructor
    · simp only [List.length_append,length,List.length_drop]
      omega
    · rw [← List.append_assoc,List.drop_left' (by rw [List.length_append,length])]
  · cases written

/-- A write needs its bytes inside the block, and keeps its size. -/
theorem writeBytes_length (written : writeBytes mem p bytes = some after) :
    after.length = mem.length ∧ p + bytes.length ≤ mem.length := by
  refine ⟨(writeBytes_agree written).size.symm,?_⟩
  by_contra outside
  rw [writeBytes,if_neg outside] at written
  cases written

theorem writeBytes_checked (mem : List UInt8) (p : Nat) (bytes : List UInt8) :
    Checked (p + bytes.length ≤ mem.length) (fun after => after.length = mem.length) (writeBytes mem p bytes) := by
  cases written : writeBytes mem p bytes with
  | some after =>
    obtain ⟨same,inside⟩ := writeBytes_length written
    exact .gives inside same
  | none =>
    refine .fails fun inside => ?_
    rw [writeBytes,if_pos inside] at written
    cases written

theorem swapBytes_inside (inside : p + n ≤ mem.length) :
    ∃ after, swapBytes mem p n = some after ∧ Agree (p + n) mem after ∧
      readBytes after p n = some ((mem.drop p).take n).reverse := by
  have parts : mem = mem.take p ++ ((mem.drop p).take n ++ (mem.drop p).drop n) := by
    rw [List.take_append_drop,List.take_append_drop]
  have start : p = (mem.take p).length := (List.length_take_of_le (by omega)).symm
  have size : n = ((mem.drop p).take n).length :=
    (List.length_take_of_le (by rw [List.length_drop]; omega)).symm
  have swapped := swapBytes_at (mem.take p) ((mem.drop p).take n) ((mem.drop p).drop n) start size
  rw [← parts] at swapped
  refine ⟨_,swapped,?_,readBytes_at _ _ _ start (by rw [List.length_reverse]; exact size)⟩
  have written := swapped
  rw [swapBytes,readBytes,if_pos inside] at written
  change writeBytes mem p ((mem.drop p).take n).reverse = some _ at written
  have agree := writeBytes_agree written
  rwa [List.length_reverse,← size] at agree

/-- A word is swapped where it lies in the block; nothing after it changes, and it then
reads as its big-endian value. -/
theorem Agree.swapWord_checked (agree : Agree p mem other) :
    Checked (p + 4 ≤ mem.length)
      (fun after => Agree (p + 4) mem after ∧ (Lib.readBytes after p 4).map leNat = some (wordAt mem p))
      (swapBytes other p 4) := by
  by_cases inside : p + 4 ≤ mem.length
  · obtain ⟨after,swapped,same,reads⟩ := swapBytes_inside (agree.size ▸ inside : p + 4 ≤ other.length)
    rw [swapped]
    refine .gives inside ⟨(agree.later (Nat.le_add_right p 4)).trans same,?_⟩
    rw [reads,← agree.rest]
    rfl
  · rw [swapBytes,Lib.readBytes,if_neg (agree.size ▸ inside)]
    exact .fails inside

/-! ### Blocks before a position -/

/-- A block changed from a position on. -/
structure Keeps (n : Nat) (mem out : List UInt8) : Prop where
  length : out.length = mem.length
  head : out.take n = mem.take n

theorem Keeps.refl (n : Nat) (mem : List UInt8) : Keeps n mem mem := ⟨rfl,rfl⟩

theorem Keeps.trans (first : Keeps n a b) (second : Keeps n b c) : Keeps n a c :=
  ⟨second.length.trans first.length,second.head.trans first.head⟩

theorem Keeps.earlier (keeps : Keeps n mem out) (earlier : m ≤ n) : Keeps m mem out := by
  have head := congrArg (List.take m) keeps.head
  rw [List.take_take,List.take_take,Nat.min_eq_left earlier] at head
  exact ⟨keeps.length,head⟩

theorem Keeps.readBytes (keeps : Keeps n mem out) (before : p + k ≤ n) :
    Lib.readBytes out p k = Lib.readBytes mem p k := by
  have cut (block : List UInt8) : (block.drop p).take k = ((block.take n).drop p).take k := by
    rw [List.drop_take,List.take_take,Nat.min_eq_left (by omega)]
  rw [Lib.readBytes,Lib.readBytes,keeps.length,cut out,cut mem,keeps.head]

theorem Keeps.get (keeps : Keeps n mem out) (before : i < n) : out[i]? = mem[i]? := by
  rw [← List.getElem?_take_of_lt before,keeps.head,List.getElem?_take_of_lt before]

theorem writeBytes_keeps (written : writeBytes mem p bytes = some out) : Keeps p mem out := by
  refine ⟨(writeBytes_agree written).size.symm,?_⟩
  unfold writeBytes at written
  split at written
  · obtain rfl := Option.some.inj written
    exact List.take_left' (List.length_take_of_le (by omega))
  · cases written

end Citrusleaf.Lib
