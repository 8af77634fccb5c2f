import Citrusleaf.RequestRoundTrip

/-! The integers of responses. A short integer whose first byte has the sign bit is not read
from its bytes: the first byte becomes the most significant of eight. -/
namespace Citrusleaf
open Lib

/-- `value_to_op_int`: the bytes that are written. -/
def valueToOpInt (value : Int64) : List UInt8 := beBytes 8 value.toUInt64.toNat

theorem opValue_int (code : UInt8) (object : ClObject) (int : object.type = clInt) :
    opValue code object = some (some (valueToOpInt object.u.toI64)) := by
  rw [opValue,int]
  rfl

/-- The two's-complement number that big-endian bytes stand for. -/
def signedBe (bytes : List UInt8) : Int :=
  if 2 * beNat bytes < 256 ^ bytes.length then beNat bytes else beNat bytes - (256 ^ bytes.length : Nat)

/-- What `op_to_value_int` makes of at most eight bytes. -/
def decodedInt : List UInt8 → Int64
  | [] => 0
  | first :: rest =>
    if rest.length = 7 ∨ first < 0x80 then Int64.ofNat (beNat (first :: rest)) else Int64.ofNat (first.toNat * 2 ^ 56)

theorem beNat_cons (first : UInt8) (rest : List UInt8) :
    beNat (first :: rest) = first.toNat * 256 ^ rest.length + beNat rest := by
  have append (front : List UInt8) : leNat (front ++ [first]) = leNat front + first.toNat * 256 ^ front.length := by
    induction front with
    | nil => simp [leNat]
    | cons b front ih =>
      rw [List.cons_append,leNat,leNat,ih,List.length_cons,Nat.pow_succ]
      grind
  rw [beNat,beNat,List.reverse_cons,append,List.length_reverse,Nat.add_comm]

/-- `__cpu_to_be64` of one byte. -/
theorem beNat_leBytes_byte (first : UInt8) : beNat (leBytes 8 first.toNat) = first.toNat * 2 ^ 56 := by
  have high : first.toNat / 256 = 0 := Nat.div_eq_of_lt first.toNat_lt
  have bytes : leBytes 8 first.toNat = [first,0,0,0,0,0,0,0] := by
    simp only [leBytes,high,Nat.zero_div]
    congr 1
    exact UInt8.ofNat_toNat
  have zero : beNat [0,0,0,0,0,0,0] = 0 := rfl
  rw [bytes,beNat_cons,zero,Nat.add_zero]
  exact congrArg (first.toNat * ·) (by decide : 256 ^ 7 = 2 ^ 56)

theorem readByte_first (read : readBytes buf p (rest.length + 1) = some (first :: rest)) :
    readByte buf p = some first := by
  rw [readBytes] at read
  split at read
  · have head := congrArg (·[0]?) (Option.some.inj read)
    simpa [readByte] using head
  · cases read

theorem opToValueInt_short (bytes : List UInt8) (read : readBytes buf p bytes.length = some bytes)
    (short : bytes.length ≤ 8) : opToValueInt buf p (toInt bytes.length) = some (0,some (decodedInt bytes)) := by
  have size : toInt bytes.length = bytes.length := by
    rw [toInt,if_pos (by omega)]
  rw [size,opToValueInt,if_neg (by omega)]
  cases bytes with
  | nil => rfl
  | cons first rest =>
    have sign := signed_byte first
    rw [List.length_cons] at read short ⊢
    rw [decodedInt]
    by_cases eight : rest.length = 7
    · have all : ((rest.length + 1 : Nat) : Int) = 8 := by omega
      rw [eight] at read
      rw [if_pos all,if_pos (.inl eight)]
      exact bind_given read rfl
    · have fewer : ¬((rest.length + 1 : Nat) : Int) = 8 := by omega
      have some : ¬((rest.length + 1 : Nat) : Int) = 0 := by omega
      have positive : ¬((rest.length + 1 : Nat) : Int) < 0 := by omega
      rw [if_neg fewer,if_neg some]
      apply bind_given (readByte_first read)
      by_cases small : first < 0x80
      · rw [if_pos (show rest.length = 7 ∨ first < 0x80 from .inr small)]
        split
        · rename_i single
          have none : rest = [] := List.length_eq_zero_iff.mp (by omega)
          subst none
          rfl
        · rw [if_neg (mt sign.mp (not_not.mpr small)),Int.toNat_natCast]
          exact bind_given read rfl
      · have large : ¬first < 0x7f := by
          rw [UInt8.lt_iff_toNat_lt] at small ⊢
          exact fun less => small (Nat.lt_trans less (by decide))
        rw [if_neg fun single => large single.2,if_pos (sign.mpr small),if_neg positive,Int.toNat_natCast,
          if_neg (not_or.mpr ⟨eight,small⟩)]
        apply bind_given read
        rw [beNat_leBytes_byte]
        rfl

theorem toInt_ofNat_eq (small : n < 2 ^ 64) :
    (Int64.ofNat n).toInt = if 2 * n < 2 ^ 64 then (n : Int) else n - 2 ^ 64 := by
  rw [Int64.toInt_ofNat',Int64.size,Int.bmod]
  split <;> split <;> omega

/-- The decoded number is the one the bytes stand for, unless a sign bit leads fewer than eight. -/
theorem decodedInt_iff (bytes : List UInt8) (short : bytes.length ≤ 8) :
    (decodedInt bytes).toInt = signedBe bytes ↔ bytes.length = 8 ∨ ∀ first ∈ bytes.head?, first < 0x80 := by
  cases bytes with
  | nil => simp [decodedInt,signedBe,beNat,leNat]
  | cons first rest =>
    have bound := beNat_lt (first :: rest)
    have value := beNat_cons first rest
    have low := beNat_lt rest
    have byte := first.toNat_lt
    have sign : first < 0x80 ↔ first.toNat < 128 := UInt8.lt_iff_toNat_lt
    rw [List.length_cons] at short bound
    simp only [decodedInt,signedBe,List.length_cons,List.head?_cons,Option.mem_def,Option.some.injEq,forall_eq']
    by_cases eight : rest.length = 7
    · rw [eight] at bound ⊢
      have wide : (256 : Nat) ^ (7 + 1) = 2 ^ 64 := by decide
      rw [wide] at bound ⊢
      rw [if_pos (.inl rfl),toInt_ofNat_eq bound]
      simp
    · have most : 256 ^ rest.length ≤ 2 ^ 48 := by
        calc 256 ^ rest.length ≤ 256 ^ 6 := Nat.pow_le_pow_right (by decide) (by omega)
          _ = 2 ^ 48 := by decide
      rw [Nat.pow_succ] at bound ⊢
      by_cases small : first < 0x80
      · have less := Nat.mul_le_mul_right (256 ^ rest.length) (Nat.le_of_lt_succ (sign.mp small))
        rw [if_pos (.inr small),toInt_ofNat_eq (by omega),if_pos (by omega),if_pos (by omega)]
        simp [small]
      · have high : 128 ≤ first.toNat := Nat.not_lt.mp (mt sign.mpr small)
        have more := Nat.mul_le_mul_right (256 ^ rest.length) high
        rw [if_neg (not_or.mpr ⟨eight,small⟩),toInt_ofNat_eq (by omega),if_neg (by omega),if_neg (by omega)]
        refine iff_of_false ?_ (not_or.mpr ⟨by omega,small⟩)
        omega

/-- An integer of up to eight bytes is read as the number it stands for exactly where it has eight
bytes or no sign bit; what the client itself writes is read back. -/
theorem wire_int_iff (buf : List UInt8) (p : Nat) (bytes : List UInt8)
    (placed : readBytes buf p bytes.length = some bytes) (short : bytes.length ≤ 8) :
    ((∃ value, opToValueInt buf p (toInt bytes.length) = some (0,some value) ∧ value.toInt = signedBe bytes) ↔
      bytes.length = 8 ∨ ∀ first ∈ bytes.head?, first < 0x80) ∧
    ∀ value, bytes = valueToOpInt value → opToValueInt buf p (toInt bytes.length) = some (0,some value) := by
  have decoded := opToValueInt_short bytes placed short
  constructor
  · rw [← decodedInt_iff bytes short,decoded]
    simp
  · rintro value rfl
    have eight : (valueToOpInt value).length = 8 := beBytes_length 8 _
    rw [eight] at placed ⊢
    exact opToValueInt_eight buf p value placed

theorem wire_int_iff_sample :
    ((∃ value, opToValueInt [7,1,44] 1 (toInt 2) = some (0,some value) ∧ value.toInt = signedBe [1,44]) ↔
      [1,44].length = 8 ∨ ∀ first ∈ [(1 : UInt8),44].head?, first < 0x80) ∧
    ∀ value, [1,44] = valueToOpInt value → opToValueInt [7,1,44] 1 (toInt 2) = some (0,some value) :=
  wire_int_iff [7,1,44] 1 [1,44] (by decide) (by decide)

/-- Minus one in one byte. -/
theorem short_negative_int :
    signedBe [0xff] = -1 ∧ opToValueInt [0xff] 0 (toInt 1) = some (0,some (-72057594037927936)) ∧
      ¬∃ value, opToValueInt [0xff] 0 (toInt 1) = some (0,some value) ∧ value.toInt = signedBe [0xff] := by
  have read : opToValueInt [0xff] 0 (toInt 1) = some (0,some (-72057594037927936)) := by decide
  refine ⟨by decide,read,?_⟩
  rintro ⟨value,again,same⟩
  rw [read] at again
  obtain rfl := Option.some.inj (Prod.mk.inj (Option.some.inj again)).2
  exact absurd same (by decide)

end Citrusleaf
