import Mathlib.Algebra.Order.Ring.Int
import Mathlib.Tactic.Ring
import Citrusleaf.Text

/-! Dates in text. `sscanf` reads one with the directives the sources use, `mktime` counts
from 1970 in UTC, and `make_date_hour` prints the hours. -/
namespace Citrusleaf

/-! ### Reading -/

def isdigit (c : UInt8) : Bool := 48 ≤ c && c ≤ 57

/-- A directive of a scan format: `%wd`, white space, or a character that stands for itself. -/
inductive Directive where
  | int (width : Nat)
  | space
  | char (c : UInt8)

/-- White space before a number does not count towards its width, a sign does. -/
def scanInt (width : Nat) (str : CString) : Option (Int × CString) :=
  let (negative,signs,str) := match str.dropWhile isspace with
    | 45 :: rest => (true,1,rest)
    | 43 :: rest => (false,1,rest)
    | rest => (false,0,rest)
  let digits := (str.take (width - signs)).takeWhile isdigit
  if digits = [] then none
  else
    let value : Int := leadingDigits 0 digits
    some (if negative then -value else value,str.drop digits.length)

/-- The numbers that `sscanf` stores before its input ends or does not match. -/
def sscanf : List Directive → CString → List Int
  | [],_ => []
  | .int width :: format,str =>
    match scanInt width str with
    | none => []
    | some (value,str) => value :: sscanf format str
  | .space :: format,str => sscanf format (str.dropWhile isspace)
  | .char c :: format,str =>
    match str with
    | [] => []
    | d :: str => if d = c then sscanf format str else []

structure DateFields where
  year : Int
  month : Int
  day : Int
  hour : Int
  deriving DecidableEq

/-- What is not scanned stays zero. -/
def scanDate (format : List Directive) (str : CString) : DateFields :=
  let values := sscanf format str
  ⟨values.getD 0 0,values.getD 1 0,values.getD 2 0,values.getD 3 0⟩

/-! ### Counting -/

def leapyear (year : Int) : Bool := year % 4 == 0 && (year % 100 != 0 || year % 400 == 0)

/-- Days from the first of January of 1970 to that of another year. -/
def daysToYear (year : Int) : Int :=
  365 * (year - 1970) + ((year - 1) / 4 - (year - 1) / 100 + (year - 1) / 400 - 477)

/-- Days before a month, counted from zero. -/
def monYday (leap : Bool) (mon : Nat) : Int :=
  [0,31,59,90,120,151,181,212,243,273,304,334].getD mon 0 + if leap && 1 < mon then 1 else 0

/-- The hours from 1970 to a date in UTC, with the month from one; fields outside their
ranges carry over. -/
def hourNumber (date : DateFields) : Int :=
  let mon := date.month - 1
  let year := date.year + mon / 12
  let days := daysToYear year + monYday (leapyear year) (mon % 12).toNat + (date.day - 1)
  days * 24 + date.hour

/-- `mktime` of a date without minutes and seconds. -/
def mktime (date : DateFields) : Int := hourNumber date * 60 * 60

/-! ### Printing -/

/-- `%u` and its wider forms. -/
def decimal (n : Nat) : CString := text n.repr

/-- `%d` -/
def decimalInt (z : Int) : CString := if z < 0 then 45 :: decimal z.natAbs else decimal z.toNat

/-- `make_date_hour`: what it writes into its argument before the terminator. -/
def makeDateHour (date : DateFields) : CString :=
  let timeRawFormat := mktime date
  if timeRawFormat = -1 then []
  else decimal (BitVec.ofInt 64 (timeRawFormat.tdiv 3600)).toNat

/-! ### Decimal texts -/

theorem decimal_eq (n : Nat) : decimal n = (Nat.toDigits 10 n).map fun c => c.toNat.toUInt8 := by
  simp [decimal,text]

theorem decimal_length (n k : Nat) (positive : 0 < k) : (decimal n).length ≤ k ↔ n < 10 ^ k := by
  rw [decimal_eq,List.length_map]
  exact Nat.length_toDigits_le_iff (by omega) positive

theorem digit_byte {c : Char} (digit : c.isDigit = true) :
    48 ≤ c.toNat ∧ c.toNat ≤ 57 ∧ c.toNat.toUInt8.toNat = c.toNat := by
  have range : 48 ≤ c.toNat ∧ c.toNat ≤ 57 := by
    simp only [Char.isDigit,Bool.and_eq_true,decide_eq_true_eq,ge_iff_le,UInt32.le_iff_toNat_le] at digit
    exact digit
  refine ⟨range.1,range.2,?_⟩
  simp only [Nat.toUInt8,UInt8.toNat_ofNat']
  omega

theorem leadingDigits_text (cs : List Char) (digits : ∀ c ∈ cs, c.isDigit = true) (value : Nat) :
    leadingDigits value (cs.map fun c => c.toNat.toUInt8) = Nat.ofDigitChars 10 cs value := by
  induction cs generalizing value with
  | nil => simp [leadingDigits]
  | cons c cs ih =>
    obtain ⟨low,high,byte⟩ := digit_byte (digits c (.head _))
    have range : 48 ≤ c.toNat.toUInt8 ∧ c.toNat.toUInt8 ≤ 57 := by
      rw [UInt8.le_iff_toNat_le,UInt8.le_iff_toNat_le,byte]
      exact ⟨low,high⟩
    rw [List.map_cons,leadingDigits,if_pos range,ih fun d member => digits d (.tail _ member)]
    rw [Nat.ofDigitChars_cons,byte,Nat.mul_comm 10 value]
    rfl

theorem leadingDigits_lt (str : CString) (value : Nat) :
    leadingDigits value str < (value + 1) * 10 ^ str.length := by
  induction str generalizing value with
  | nil => simp [leadingDigits]
  | cons c str ih =>
    unfold leadingDigits
    split
    · rename_i digit
      have low := UInt8.le_iff_toNat_le.mp digit.1
      have high := UInt8.le_iff_toNat_le.mp digit.2
      have next := ih (value * 10 + (c.toNat - 48))
      simp at low high
      have step : value * 10 + (c.toNat - 48) + 1 ≤ (value + 1) * 10 := by omega
      calc
        _ < (value * 10 + (c.toNat - 48) + 1) * 10 ^ str.length := next
        _ ≤ (value + 1) * 10 * 10 ^ str.length := Nat.mul_le_mul_right _ step
        _ = (value + 1) * 10 ^ (c :: str).length := by
          rw [List.length_cons]
          ring
    · have power : 0 < 10 ^ (c :: str).length := Nat.pow_pos (by omega)
      have : (value + 1) * 1 ≤ (value + 1) * 10 ^ (c :: str).length := Nat.mul_le_mul_left _ power
      omega

/-- A decimal text is read back. -/
theorem strtol_decimal (n : Nat) (small : n < 2 ^ 63) : strtol (decimal n) = n := by
  have digits (c : Char) (member : c ∈ Nat.toDigits 10 n) : c.isDigit = true :=
    Nat.isDigit_of_mem_toDigits (by omega) (by omega) member
  have value : leadingDigits 0 (decimal n) = n := by
    rw [decimal_eq,leadingDigits_text _ digits,Nat.ofDigitChars_ten_toDigits]
  obtain ⟨c,rest,first⟩ := List.exists_cons_of_ne_nil (Nat.toDigits_ne_nil (n := n) (b := 10))
  obtain ⟨low,high,byte⟩ := digit_byte (digits c (first ▸ .head _))
  have head : decimal n = c.toNat.toUInt8 :: rest.map fun c => c.toNat.toUInt8 := by
    rw [decimal_eq,first,List.map_cons]
  generalize c.toNat.toUInt8 = d at byte head
  have plain : isspace d = false ∧ d ≠ 45 ∧ d ≠ 43 := by
    simp [isspace,UInt8.le_iff_toNat_le,← UInt8.toNat_inj]
    omega
  have unspaced : (decimal n).dropWhile isspace = decimal n := by
    rw [head,List.dropWhile_cons_of_neg (by simp [plain.1])]
  unfold strtol
  rw [unspaced]
  split
  · rename_i minus
    rw [head] at minus
    exact absurd (List.cons.inj minus).1 plain.2.1
  · rename_i plus
    rw [head] at plus
    exact absurd (List.cons.inj plus).1 plain.2.2
  · rw [value]
    omega

theorem atoi_decimal (n : Nat) (small : n < 2 ^ 31) : atoi (decimal n) = n := by
  rw [atoi,strtol_decimal n (by omega),BitVec.toInt_ofInt]
  exact Int.bmod_eq_of_le (by omega) (by omega)

/-! ### The printed hour -/

theorem scanInt_range (width : Nat) (str rest : CString) (value : Int)
    (scanned : scanInt width str = some (value,rest)) : -10 ^ width < value ∧ value < 10 ^ width := by
  unfold scanInt at scanned
  generalize (match str.dropWhile isspace with
    | 45 :: rest => (true,1,rest)
    | 43 :: rest => (false,1,rest)
    | rest => (false,0,rest) : Bool × Nat × CString) = start at scanned
  obtain ⟨negative,signs,str⟩ := start
  simp only at scanned
  generalize found : (str.take (width - signs)).takeWhile isdigit = digits at scanned
  split at scanned
  · exact nomatch scanned
  · obtain ⟨rfl,_⟩ := Prod.mk.inj (Option.some.inj scanned)
    have length : digits.length ≤ width := by
      rw [← found]
      exact ((List.takeWhile_sublist _).length_le.trans (List.length_take_le _ _)).trans (Nat.sub_le ..)
    have bound : leadingDigits 0 digits < 10 ^ width := by
      have below := leadingDigits_lt digits 0
      rw [Nat.zero_add,Nat.one_mul] at below
      exact below.trans_le (Nat.pow_le_pow_right (by omega) length)
    have whole : (leadingDigits 0 digits : Int) < 10 ^ width := by exact_mod_cast bound
    split <;> omega

/-- No directive of these formats is wider than four. -/
def Narrow (format : List Directive) : Prop := ∀ width, .int width ∈ format → width ≤ 4

theorem sscanf_range (format : List Directive) (narrow : Narrow format) (str : CString) :
    ∀ value ∈ sscanf format str, -10000 < value ∧ value < 10000 := by
  induction format generalizing str with
  | nil => simp [sscanf]
  | cons directive format ih =>
    have rest : Narrow format := fun width member => narrow width (.tail _ member)
    cases directive with
    | int width =>
      unfold sscanf
      cases scanned : scanInt width str with
      | none => simp
      | some result =>
        obtain ⟨first,later⟩ := result
        have wide : (10 : Int) ^ width ≤ 10 ^ 4 :=
          pow_le_pow_right₀ (by omega) (narrow width (.head _))
        have range := scanInt_range width str later first scanned
        intro value member
        rcases List.mem_cons.mp member with rfl | member
        · omega
        · exact ih rest later value member
    | space => exact ih rest _
    | char c =>
      unfold sscanf
      cases str with
      | nil => simp
      | cons d str =>
        simp only
        split
        · exact ih rest str
        · simp

theorem scanDate_range (format : List Directive) (narrow : Narrow format) (str : CString)
    (i : Nat) : -10000 < (sscanf format str).getD i 0 ∧ (sscanf format str).getD i 0 < 10000 := by
  rw [List.getD_eq_getElem?_getD]
  cases found : (sscanf format str)[i]? with
  | none => simp
  | some value => exact sscanf_range format narrow str value (List.mem_of_getElem? found)

theorem monYday_range (leap : Bool) (mon : Nat) : 0 ≤ monYday leap mon ∧ monYday leap mon ≤ 335 := by
  have table : ∀ days ∈ ([0,31,59,90,120,151,181,212,243,273,304,334] : List Int),
      0 ≤ days ∧ days ≤ 334 := by simp
  have days : 0 ≤ ([0,31,59,90,120,151,181,212,243,273,304,334] : List Int).getD mon 0 ∧
      ([0,31,59,90,120,151,181,212,243,273,304,334] : List Int).getD mon 0 ≤ 334 := by
    rw [List.getD_eq_getElem?_getD]
    cases found : ([0,31,59,90,120,151,181,212,243,273,304,334] : List Int)[mon]? with
    | none => simp
    | some days => exact table days (List.mem_of_getElem? found)
  unfold monYday
  split <;> omega

/-- The hour of any date that is scanned has at most nine digits. -/
theorem hourNumber_range (format : List Directive) (narrow : Narrow format) (str : CString) :
    -10 ^ 9 < hourNumber (scanDate format str) ∧ hourNumber (scanDate format str) < 10 ^ 9 := by
  have year := scanDate_range format narrow str 0
  have month := scanDate_range format narrow str 1
  have day := scanDate_range format narrow str 2
  have hour := scanDate_range format narrow str 3
  simp only [hourNumber,scanDate,daysToYear]
  generalize (sscanf format str).getD 0 0 = y at *
  generalize (sscanf format str).getD 1 0 = m at *
  have yday := monYday_range (leapyear (y + (m - 1) / 12)) ((m - 1) % 12).toNat
  omega

theorem makeDateHour_eq (date : DateFields) :
    makeDateHour date = decimal (BitVec.ofInt 64 (hourNumber date)).toNat := by
  have whole : (mktime date).tdiv 3600 = hourNumber date := by
    have product : mktime date = hourNumber date * 3600 := by simp only [mktime]; omega
    rw [product,Int.mul_tdiv_cancel _ (by omega)]
  have valid : mktime date ≠ -1 := by
    simp only [mktime]
    omega
  simp [makeDateHour,valid,whole]

theorem makeDateHour_later (format : List Directive) (narrow : Narrow format) (str : CString)
    (later : 0 ≤ hourNumber (scanDate format str)) :
    makeDateHour (scanDate format str) = decimal (hourNumber (scanDate format str)).toNat := by
  have range := hourNumber_range format narrow str
  rw [makeDateHour_eq]
  generalize hourNumber (scanDate format str) = z at *
  congr 1
  rw [BitVec.toNat_ofInt]
  omega

/-- `make_date_hour` keeps to ten characters exactly for the dates from 1970 on. -/
theorem makeDateHour_fits (format : List Directive) (narrow : Narrow format) (str : CString) :
    (makeDateHour (scanDate format str)).length ≤ 10 ↔ 0 ≤ hourNumber (scanDate format str) := by
  have range := hourNumber_range format narrow str
  rw [makeDateHour_eq,decimal_length _ _ (by omega),BitVec.toNat_ofInt]
  omega

end Citrusleaf
