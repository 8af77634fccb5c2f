import Mathlib.Data.List.Basic

/-! A list kept in a ring of cells, as a window behind a read offset that counts up without
wrapping. Cells are a function of their index, so the rules apply to any array. -/
namespace Citrusleaf.Lib

/-- The cells from a read offset on. -/
def window (cell : Nat → α) (n read len : Nat) : List α :=
  (List.range len).map fun k => cell ((read + k) % n)

variable {cell after : Nat → α} {n read len k : Nat}

@[simp] theorem window_length : (window cell n read len).length = len := by simp [window]

@[simp] theorem window_zero : window cell n read 0 = [] := rfl

theorem window_getElem? (j : Nat) :
    (window cell n read len)[j]? = if j < len then some (cell ((read + j) % n)) else none := by
  split
  · rename_i inside
    simp [window,inside]
  · rename_i outside
    simp [window,Nat.not_lt.mp outside]

/-- An index of the ring wraps at most once. -/
theorem ring_index (short : k ≤ n) (positive : 0 < n) :
    (read + k) % n = if read % n + k < n then read % n + k else read % n + k - n := by
  have bound := Nat.mod_lt read positive
  rw [← Nat.mod_add_mod]
  split
  · rename_i inside
    exact Nat.mod_eq_of_lt inside
  · rename_i wrapped
    rw [Nat.mod_eq_sub_mod (by omega),Nat.mod_eq_of_lt (by omega)]

theorem ring_index_injective (positive : 0 < n) (one : j < n) (two : k < n)
    (same : (read + j) % n = (read + k) % n) : j = k := by
  rw [ring_index (by omega) positive,ring_index (by omega) positive] at same
  split at same <;> split at same <;> omega

theorem window_congr {other : Nat} (same : ∀ k < len, after ((other + k) % m) = cell ((read + k) % n)) :
    window after m other len = window cell n read len := by
  apply List.map_congr_left
  intro k inside
  exact same k (List.mem_range.mp inside)

/-- The offset may be taken modulo the size of the ring. -/
theorem window_mod : window cell n (read % n) len = window cell n read len :=
  window_congr fun k _ => by rw [Nat.mod_add_mod]

theorem window_succ : window cell n read (len + 1) = window cell n read len ++ [cell ((read + len) % n)] := by
  rw [window,window,List.range_succ,List.map_append]
  rfl

theorem window_head : window cell n read (len + 1) = cell (read % n) :: window cell n (read + 1) len := by
  rw [window,List.range_succ_eq_map,List.map_cons,List.map_map,Nat.add_zero]
  refine congrArg (_ :: ·) (List.map_congr_left fun k _ => ?_)
  simp only [Function.comp]
  congr 2
  omega

/-- A cell behind the window is written. -/
theorem window_push (room : len < n) (written : ∀ j, after j = if j = (read + len) % n then e else cell j) :
    window after n read (len + 1) = window cell n read len ++ [e] := by
  rw [window_succ,written,if_pos rfl]
  congr 1
  apply window_congr
  intro k inside
  rw [written,if_neg]
  intro same
  have := ring_index_injective (Nat.zero_lt_of_lt room) (by omega) room same
  omega

/-- The cells before the removed one move up, and the window starts one later. -/
theorem window_move_up (fits : len ≤ n) (inside : k < len) (unwrapped : read % n + k < n)
    (moved : ∀ j, after j = if read % n + 1 ≤ j ∧ j < read % n + 1 + k then cell (j - 1) else cell j) :
    window after n (read + 1) (len - 1) = (window cell n read len).eraseIdx k := by
  apply List.ext_getElem?
  intro j
  rw [window_getElem?,List.getElem?_eraseIdx,window_getElem?,window_getElem?]
  by_cases short : j < len - 1
  · have one := @ring_index n read (1 + j) (by omega) (by omega)
    have old := @ring_index n read j (by omega) (by omega)
    by_cases before : j < k
    · rw [if_pos short,if_pos before,if_pos (by omega),Nat.add_assoc,one,old,if_pos (by omega),if_pos (by omega),
        moved,if_pos (by omega)]
      congr 2
      omega
    · rw [if_pos short,if_neg before,if_pos (by omega),Nat.add_assoc,Nat.add_comm j 1,one,moved,if_neg]
      split <;> omega
  · rw [if_neg short]
    split
    · rw [if_neg (by omega)]
    · rw [if_neg (by omega)]

/-- The cells behind the removed one move down. -/
theorem window_move_down (fits : len ≤ n) (inside : k < len) (wrapped : n ≤ read % n + k)
    (moved : ∀ j, after j =
      if read % n + k - n ≤ j ∧ j < read % n + k - n + (len - k - 1) then cell (j + 1) else cell j) :
    window after n read (len - 1) = (window cell n read len).eraseIdx k := by
  have bound := Nat.mod_lt read (show 0 < n by omega)
  apply List.ext_getElem?
  intro j
  rw [window_getElem?,List.getElem?_eraseIdx,window_getElem?,window_getElem?]
  by_cases short : j < len - 1
  · have old := @ring_index n read j (by omega) (by omega)
    have next := @ring_index n read (j + 1) (by omega) (by omega)
    by_cases before : j < k
    · rw [if_pos short,if_pos before,if_pos (by omega),old,moved,if_neg]
      split <;> omega
    · rw [if_pos short,if_neg before,if_pos (by omega),old,next,if_neg (by omega),if_neg (by omega),moved,
        if_pos (by omega)]
      congr 2
      omega
  · rw [if_neg short]
    split
    · rw [if_neg (by omega)]
    · rw [if_neg (by omega)]

end Citrusleaf.Lib
