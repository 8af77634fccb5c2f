import Mathlib.Algebra.Ring.Int.Defs
import Mathlib.Algebra.Ring.Nat
import Mathlib.Data.List.Basic

/-! C strings and the in-place text helpers of cl_cluster.c. A C string is the list of
its bytes before the terminating NUL; a helper that writes NULs into its argument
returns the strings those NULs cut off. -/
namespace Citrusleaf

abbrev CString := List UInt8

/-- The bytes of a Lean literal, for the fixed names of the protocol. -/
def text (literal : String) : CString := literal.toList.map fun c => c.toNat.toUInt8

/-- `str_split`: every separator ends a segment, and a last segment is kept only if it
is not empty. `prev` holds the bytes since the last separator. -/
def strSplitFrom (splitC : UInt8) (prev : CString) : CString → List CString
  | [] => if prev = [] then [] else [prev]
  | c :: str =>
    if splitC = c then prev :: strSplitFrom splitC [] str
    else strSplitFrom splitC (prev ++ [c]) str

def strSplit (splitC : UInt8) (str : CString) : List CString := strSplitFrom splitC [] str

/-- `isspace` in the C locale. -/
def isspace (c : UInt8) : Bool := c == 32 || (9 ≤ c && c ≤ 13)

def trim (str : CString) : CString :=
  ((str.dropWhile isspace).reverse.dropWhile isspace).reverse

/-- The value of the leading decimal digits, continuing a number read so far. -/
def leadingDigits (value : Nat) : CString → Nat
  | [] => value
  | c :: str =>
    if 48 ≤ c ∧ c ≤ 57 then leadingDigits (value * 10 + (c.toNat - 48)) str else value

/-- `strtol` in base 10, which clamps to the range of a 64-bit `long`. -/
def strtol (str : CString) : Int :=
  match str.dropWhile isspace with
  | 45 :: digits => max (-leadingDigits 0 digits) (-2 ^ 63)
  | 43 :: digits => min (leadingDigits 0 digits) (2 ^ 63 - 1)
  | digits => min (leadingDigits 0 digits) (2 ^ 63 - 1)

/-- `atoi` is `(int)strtol`. -/
def atoi (str : CString) : Int := (BitVec.ofInt 32 (strtol str)).toInt

/-! ### Separated lists -/

/-- Items with a separator between them, and after the last one if asked for. -/
def join (splitC : UInt8) (trailing : Bool) : List CString → CString
  | [] => []
  | [item] => item ++ if trailing then [splitC] else []
  | item :: next :: items => item ++ splitC :: join splitC trailing (next :: items)

theorem mem_join (member : c ∈ join splitC trailing items) :
    c = splitC ∨ ∃ item ∈ items, c ∈ item := by
  induction items with
  | nil => simp [join] at member
  | cons item items ih =>
    cases items with
    | nil =>
      rcases List.mem_append.mp member with inside | last
      · exact .inr ⟨item,by simp,inside⟩
      · cases trailing <;> simp_all
    | cons next items =>
      rcases List.mem_append.mp member with inside | rest
      · exact .inr ⟨item,by simp,inside⟩
      · rcases List.mem_cons.mp rest with rfl | later
        · exact .inl rfl
        · rcases ih later with rfl | ⟨other,present,inside⟩
          · exact .inl rfl
          · exact .inr ⟨other,List.mem_cons_of_mem _ present,inside⟩

theorem strSplitFrom_item (splitC : UInt8) (prev item rest : CString) (clean : splitC ∉ item) :
    strSplitFrom splitC prev (item ++ rest) = strSplitFrom splitC (prev ++ item) rest := by
  induction item generalizing prev with
  | nil => simp
  | cons c item ih =>
    simp only [List.mem_cons,not_or] at clean
    simp [strSplitFrom,clean.1,ih _ clean.2]

/-- Splitting a separated list gives its items back when no item is empty. -/
theorem strSplit_join (splitC : UInt8) (trailing : Bool) (items : List CString)
    (clean : ∀ item ∈ items, splitC ∉ item) (nonempty : ∀ item ∈ items, item ≠ []) :
    strSplit splitC (join splitC trailing items) = items := by
  unfold strSplit
  induction items with
  | nil => rfl
  | cons item items ih =>
    have here := clean item List.mem_cons_self
    have some := nonempty item List.mem_cons_self
    have later := ih (fun i member => clean i (List.mem_cons_of_mem _ member))
      fun i member => nonempty i (List.mem_cons_of_mem _ member)
    cases items with
    | nil =>
      cases trailing
      · have last := strSplitFrom_item splitC [] item [] here
        simp only [List.append_nil,List.nil_append] at last
        simp [join,last,strSplitFrom,some]
      · simpa [join,some,strSplitFrom] using strSplitFrom_item splitC [] item [splitC] here
    | cons next items =>
      rw [join,strSplitFrom_item _ _ _ _ here]
      simpa [strSplitFrom] using later

/-- One separator gives two parts, or one when nothing follows it. -/
theorem strSplit_pair (splitC : UInt8) (first second : CString) (left : splitC ∉ first)
    (right : splitC ∉ second) :
    strSplit splitC (first ++ splitC :: second) = if second = [] then [first] else [first,second] := by
  have tail := strSplitFrom_item splitC [] second [] right
  simp only [List.append_nil,List.nil_append] at tail
  unfold strSplit
  rw [strSplitFrom_item _ _ _ _ left]
  simp only [strSplitFrom,tail,if_pos]
  split <;> simp

theorem trim_clean (str : CString) (clean : ∀ c ∈ str, isspace c = false) : trim str = str := by
  have keep (l : CString) (none : ∀ c ∈ l, isspace c = false) : l.dropWhile isspace = l := by
    cases l with
    | nil => rfl
    | cons c l => simp [List.dropWhile,none c List.mem_cons_self]
  rw [trim,keep str clean,keep _ fun c member => clean c (List.mem_reverse.mp member),
    List.reverse_reverse]

end Citrusleaf
