import Citrusleaf.Lib.Bytes
import Mathlib.Data.List.TakeWhile

/-! Texts in a block of memory, each with a zero behind it. Reading a text that no zero ends inside
the block gives `none`. -/
namespace Citrusleaf.Lib

/-- The text at a position, without its zero. -/
def textAt (mem : List UInt8) (p : Nat) : Option (List UInt8) :=
  let s := (mem.drop p).takeWhile (· ≠ 0)
  if p + s.length < mem.length then some s else none

variable {mem out before after s : List UInt8} {p n : Nat}

theorem takeWhile_zero (s after : List UInt8) : (s ++ 0 :: after).takeWhile (· ≠ 0) = s.takeWhile (· ≠ 0) := by
  rw [List.takeWhile_append]
  split
  · rename_i whole
    have plain : s.takeWhile (· ≠ 0) = s := (List.takeWhile_prefix _).eq_of_length whole
    rw [plain,List.takeWhile_cons_of_neg (by simp),List.append_nil]
  · rfl

section

variable [DecidableEq α] {a : α} {l : List α}

/-- A list parted at the first place of an element. -/
theorem takeWhile_stop (absent : a ∉ l) (after : List α) : (l ++ a :: after).takeWhile (· ≠ a) = l := by
  rw [List.takeWhile_append_of_pos]
  · simp
  · intro b member
    simpa using fun same : b = a => absent (same ▸ member)

theorem dropWhile_stop (absent : a ∉ l) (after : List α) : (l ++ a :: after).dropWhile (· ≠ a) = a :: after := by
  rw [List.dropWhile_append_of_pos]
  · simp
  · intro b member
    simpa using fun same : b = a => absent (same ▸ member)

/-- A first field without the separator is told by it. -/
theorem field_inj {m after rest : List α} (absent : a ∉ l) (absent' : a ∉ m) (joined : l ++ a :: after = m ++ a :: rest) :
    l = m ∧ after = rest := by
  have field := takeWhile_stop absent after
  rw [joined,takeWhile_stop absent' rest] at field
  subst field
  exact ⟨rfl,(List.cons.inj (List.append_cancel_left joined)).2⟩

theorem takeWhile_all (absent : a ∉ l) : l.takeWhile (· ≠ a) = l :=
  List.takeWhile_eq_self_iff.mpr fun _ member => decide_eq_true fun same => absent (same ▸ member)

theorem dropWhile_all (absent : a ∉ l) : l.dropWhile (· ≠ a) = [] :=
  List.dropWhile_eq_nil_iff.mpr fun _ member => decide_eq_true fun same => absent (same ▸ member)

end

theorem textAt_append (before : List UInt8) (plain : 0 ∉ s) (after : List UInt8) (start : p = before.length) :
    textAt (before ++ (s ++ 0 :: after)) p = some s := by
  subst start
  rw [textAt,List.drop_left,takeWhile_stop plain]
  exact if_pos (by simp)

/-- Bytes with a zero behind them hold the text up to their first zero. -/
theorem textAt_zero (s after : List UInt8) : textAt (s ++ 0 :: after) 0 = some (s.takeWhile (· ≠ 0)) := by
  have short : (s.takeWhile (· ≠ 0)).length ≤ s.length := (List.takeWhile_prefix _).length_le
  rw [textAt,List.drop_zero,takeWhile_zero]
  refine if_pos ?_
  rw [List.length_append,List.length_cons]
  omega

/-- Where a text was read, the block is what comes before it, the text, a zero and the rest. -/
theorem textAt_parts (found : textAt mem p = some s) :
    0 ∉ s ∧ p ≤ mem.length ∧ ∃ after, mem = mem.take p ++ (s ++ 0 :: after) := by
  rw [textAt] at found
  split at found
  · rename_i inside
    obtain rfl := Option.some.inj found
    refine ⟨fun zero => by simpa using List.mem_takeWhile_imp zero,by omega,?_⟩
    have cut := List.takeWhile_append_dropWhile (p := fun c : UInt8 => decide (c ≠ 0)) (l := mem.drop p)
    have length := congrArg List.length cut
    rw [List.length_append,List.length_drop] at length
    cases rest : (mem.drop p).dropWhile (· ≠ 0) with
    | nil =>
      rw [rest,List.length_nil] at length
      omega
    | cons c after =>
      have zero : c = 0 := by
        have last := List.head?_dropWhile_not (fun c : UInt8 => decide (c ≠ 0)) (mem.drop p)
        rw [rest] at last
        simpa using last
      rw [rest,zero] at cut
      exact ⟨after,by rw [cut,List.take_append_drop]⟩
  · cases found

/-- A change behind a text leaves it. -/
theorem Keeps.textAt (keeps : Keeps n mem out) (found : Lib.textAt mem p = some s) (before : p + s.length < n) :
    Lib.textAt out p = some s := by
  obtain ⟨plain,inside,after,parts⟩ := textAt_parts found
  have start : (mem.take p).length = p := List.length_take_of_le inside
  have head : out.take n = mem.take p ++ (s ++ 0 :: after.take (n - (p + s.length + 1))) := by
    rw [keeps.head]
    conv_lhs => rw [parts]
    have one : n - p - s.length = n - (p + s.length + 1) + 1 := by omega
    rw [List.take_append,start,List.take_of_length_le (show (mem.take p).length ≤ n by omega),List.take_append,
      List.take_of_length_le (show s.length ≤ n - p by omega),one,List.take_succ_cons]
  have whole := List.take_append_drop n out
  rw [head,List.append_assoc,List.append_assoc,List.cons_append] at whole
  rw [← whole]
  exact textAt_append _ plain _ start.symm

end Citrusleaf.Lib
