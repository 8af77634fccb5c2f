import Mathlib.Data.List.Basic
import Mathlib.Tactic.IntervalCases

/-! Padded base 64 and packed bitmaps, as mathematics on bytes. A decoder is any
function on characters that returns the value of each digit and zero for the pad; the
shift-and-or form in which C code writes it is shown to invert the encoding. -/
namespace Citrusleaf.Lib.Base64

/-- The character of a six-bit value. -/
def digit (v : Nat) : UInt8 :=
  if v < 26 then (65 + v).toUInt8
  else if v < 52 then (71 + v).toUInt8
  else if v < 62 then (v - 4).toUInt8
  else if v = 62 then 43 else 47

def pad : UInt8 := 61

def encode : List UInt8 → List UInt8
  | [] => []
  | [a] => [digit (a.toNat / 4),digit (a.toNat % 4 * 16),pad,pad]
  | [a,b] => [digit (a.toNat / 4),digit (a.toNat % 4 * 16 + b.toNat / 16),
      digit (b.toNat % 16 * 4),pad]
  | a :: b :: c :: rest =>
    digit (a.toNat / 4) :: digit (a.toNat % 4 * 16 + b.toNat / 16) ::
      digit (b.toNat % 16 * 4 + c.toNat / 64) :: digit (c.toNat % 64) :: encode rest

theorem encode_length (bytes : List UInt8) :
    (encode bytes).length = (bytes.length + 2) / 3 * 4 := by
  fun_induction encode bytes with
  | case1 => rfl
  | case2 => simp
  | case3 => simp
  | case4 a b c rest ih =>
    simp only [List.length_cons,ih]
    omega

/-- Characters of the alphabet, and the pad. -/
def Symbol (c : UInt8) : Prop := c = pad ∨ ∃ v, v < 64 ∧ c = digit v

theorem encode_symbol (bytes : List UInt8) : ∀ c ∈ encode bytes, Symbol c := by
  have bound (x : UInt8) : x.toNat < 256 := x.toNat_lt
  have symbol (v : Nat) (small : v < 64) : Symbol (digit v) := .inr ⟨v,small,rfl⟩
  fun_induction encode bytes with
  | case1 => simp
  | case2 a =>
    have := bound a
    simp only [List.mem_cons,forall_eq_or_imp]
    exact ⟨symbol _ (by omega),symbol _ (by omega),.inl rfl,.inl rfl,nofun⟩
  | case3 a b =>
    have := bound a; have := bound b
    simp only [List.mem_cons,forall_eq_or_imp]
    exact ⟨symbol _ (by omega),symbol _ (by omega),symbol _ (by omega),.inl rfl,nofun⟩
  | case4 a b c rest ih =>
    have := bound a; have := bound b; have := bound c
    simp only [List.mem_cons,forall_eq_or_imp]
    exact ⟨symbol _ (by omega),symbol _ (by omega),symbol _ (by omega),symbol _ (by omega),ih⟩

/-- Symbols are letters, digits, `+`, `/` or `=`. -/
theorem Symbol.cases (symbol : Symbol c) :
    c = 43 ∨ c = 61 ∨ (47 ≤ c ∧ c ≤ 57) ∨ (65 ≤ c ∧ c ≤ 90) ∨ (97 ≤ c ∧ c ≤ 122) := by
  rcases symbol with rfl | ⟨v,small,rfl⟩
  · decide
  · revert v
    decide

/-- The pieces of a byte that an encoder masks out. -/
structure Pieces (a : UInt8) : Prop where
  high6 : ((a &&& 0xfc) >>> 2).toNat = a.toNat / 4
  low2 : ((a &&& 0x03) <<< 4).toNat = a.toNat % 4 * 16
  high4 : ((a &&& 0xf0) >>> 4).toNat = a.toNat / 16
  low4 : ((a &&& 0x0f) <<< 2).toNat = a.toNat % 16 * 4
  high2 : ((a &&& 0xc0) >>> 6).toNat = a.toNat / 64
  low6 : (a &&& 0x3f).toNat = a.toNat % 64

theorem pieces (a : UInt8) : Pieces a := by
  have all : ∀ n : Fin 256, let a : UInt8 := n.val.toUInt8
      ((a &&& 0xfc) >>> 2).toNat = n / 4 ∧ ((a &&& 0x03) <<< 4).toNat = n % 4 * 16 ∧
      ((a &&& 0xf0) >>> 4).toNat = n / 16 ∧ ((a &&& 0x0f) <<< 2).toNat = n % 16 * 4 ∧
      ((a &&& 0xc0) >>> 6).toNat = n / 64 ∧ (a &&& 0x3f).toNat = n % 64 := by
    decide +kernel
  have one := all ⟨a.toNat,a.toNat_lt⟩
  have same : a.toNat.toUInt8 = a := by simp
  simp only [same] at one
  obtain ⟨high6,low2,high4,low4,high2,low6⟩ := one
  exact ⟨high6,low2,high4,low4,high2,low6⟩

theorem digit_ne_pad : ∀ v, v < 64 → digit v ≠ pad := by decide

/-- Everything before the last two characters is a digit, and these tell the length. -/
structure Ending (bytes text front : List UInt8) (c d : UInt8) : Prop where
  parts : text = front ++ [c,d]
  digits : ∀ x ∈ front, ∃ v, v < 64 ∧ x = digit v
  first : c = pad ↔ bytes.length % 3 = 1
  last : d = pad ↔ bytes.length % 3 ≠ 0

theorem encode_ending (bytes : List UInt8) (nonempty : bytes ≠ []) :
    ∃ front c d, Ending bytes (encode bytes) front c d := by
  have bound (x : UInt8) : x.toNat < 256 := x.toNat_lt
  have digits2 (v w : Nat) (hv : v < 64) (hw : w < 64) : ∀ x ∈ [digit v,digit w], ∃ v, v < 64 ∧ x = digit v := by
    intro x member
    rcases List.mem_pair.mp member with rfl | rfl
    · exact ⟨v,hv,rfl⟩
    · exact ⟨w,hw,rfl⟩
  fun_induction encode bytes with
  | case1 => exact absurd rfl nonempty
  | case2 a =>
    have := bound a
    exact ⟨_,pad,pad,rfl,digits2 _ _ (by omega) (by omega),by simp,by simp⟩
  | case3 a b =>
    have := bound a; have := bound b
    have digit_ := digit_ne_pad (b.toNat % 16 * 4) (by omega)
    exact ⟨_,_,pad,rfl,digits2 _ _ (by omega) (by omega),by simpa using digit_,by simp⟩
  | case4 a b c rest ih =>
    have := bound a; have := bound b; have := bound c
    have front := digits2 (a.toNat / 4) (a.toNat % 4 * 16 + b.toNat / 16) (by omega) (by omega)
    have third := digit_ne_pad (b.toNat % 16 * 4 + c.toNat / 64) (by omega)
    have fourth := digit_ne_pad (c.toNat % 64) (by omega)
    have same : (a :: b :: c :: rest).length % 3 = rest.length % 3 := by
      simp only [List.length_cons]; omega
    rcases rest with _ | ⟨x,more⟩
    · exact ⟨_,_,_,rfl,front,by simpa using third,by simpa using fourth⟩
    · obtain ⟨inner,y,z,ending⟩ := ih (List.cons_ne_nil x more)
      refine ⟨digit (a.toNat / 4) :: digit (a.toNat % 4 * 16 + b.toNat / 16) ::
        digit (b.toNat % 16 * 4 + c.toNat / 64) :: digit (c.toNat % 64) :: inner,y,z,?_,?_,?_,?_⟩
      · rw [ending.parts]
        rfl
      · have back := digits2 (b.toNat % 16 * 4 + c.toNat / 64) (c.toNat % 64) (by omega) (by omega)
        simp only [List.mem_cons,forall_eq_or_imp] at front back ⊢
        exact ⟨front.1,front.2.1,back.1,back.2.1,ending.digits⟩
      · rw [same]
        exact ending.first
      · rw [same]
        exact ending.last

/-- The value of every digit, and zero for the pad. -/
structure Decodes (value : UInt8 → UInt8) : Prop where
  digit : ∀ v, v < 64 → value (digit v) = v.toUInt8
  pad : value pad = 0

/-- Four characters to three bytes, written with the shifts of the usual C decoder. -/
def decode (value : UInt8 → UInt8) : List UInt8 → List UInt8
  | a :: b :: c :: d :: rest =>
    (value a <<< 2 ||| value b >>> 4) :: (value b <<< 4 ||| value c >>> 2) ::
      (value c <<< 6 ||| value d) :: decode value rest
  | _ => []

/-- A text without a group. -/
theorem few (short : ∀ a b c d rest, l = a :: b :: c :: d :: rest → False) : l.length < 4 := by
  rcases l with _ | ⟨a,_ | ⟨b,_ | ⟨c,_ | ⟨d,rest⟩⟩⟩⟩
  · simp
  · simp
  · simp
  · simp
  · exact absurd rfl (short a b c d rest)

theorem decode_length (value : UInt8 → UInt8) (text : List UInt8) :
    (decode value text).length = text.length / 4 * 3 := by
  fun_induction decode value text with
  | case1 a b c d rest ih =>
    simp only [List.length_cons,ih]
    omega
  | case2 l short =>
    simp [Nat.div_eq_of_lt (few short)]

/-- Joining a digit shifted left with the top bits of the next one is addition. -/
theorem join_toNat (high low : Nat) (shift : UInt8) (range : high < 64)
    (fits : low < 2 ^ (shift.toNat % 8)) :
    (high.toUInt8 <<< shift ||| low.toUInt8).toNat =
      (high * 2 ^ (shift.toNat % 8)) % 256 + low := by
  have lt : shift.toNat % 8 < 8 := Nat.mod_lt _ (by decide)
  rw [UInt8.toNat_or,UInt8.toNat_shiftLeft]
  simp only [Nat.toUInt8_eq,UInt8.toNat_ofNat']
  generalize shift.toNat % 8 = k at *
  have small : low < 2 ^ 8 := Nat.lt_trans fits (Nat.pow_lt_pow_right (by decide) lt)
  rw [Nat.mod_eq_of_lt (a := high) (by omega),Nat.mod_eq_of_lt small]
  have wrap : high <<< k % 2 ^ 8 = (high % 2 ^ (8 - k)) <<< k := by
    rw [Nat.shiftLeft_eq,Nat.shiftLeft_eq]
    have halves : (2:Nat) ^ 8 = 2 ^ (8 - k) * 2 ^ k := by
      rw [← Nat.pow_add]; congr 1; omega
    rw [halves,Nat.mul_mod_mul_right]
  rw [wrap,← Nat.shiftLeft_add_eq_or_of_lt fits,← wrap,Nat.shiftLeft_eq]
  rfl

theorem shiftRight_toUInt8 (v : Nat) (shift : UInt8) (range : v < 64) :
    v.toUInt8 >>> shift = (v / 2 ^ (shift.toNat % 8)).toUInt8 := by
  apply UInt8.toNat_inj.mp
  rw [UInt8.toNat_shiftRight]
  generalize shift.toNat % 8 = k
  have smaller : v / 2 ^ k ≤ v := Nat.div_le_self _ _
  simp only [Nat.toUInt8_eq,UInt8.toNat_ofNat',Nat.shiftRight_eq_div_pow]
  rw [Nat.mod_eq_of_lt (a := v) (by omega),Nat.mod_eq_of_lt (by omega)]

/-- Whole bytes come back from the pieces the encoder cuts them into. -/
theorem decode_encode {value : UInt8 → UInt8} (decodes : Decodes value) (bytes : List UInt8) :
    decode value (encode bytes) = bytes ++ List.replicate ((3 - bytes.length % 3) % 3) 0 := by
  have bound (x : UInt8) : x.toNat < 256 := x.toNat_lt
  have first (a b : Nat) (ha : a < 256) (hb : b < 16) :
      value (digit (a / 4)) <<< 2 ||| value (digit (a % 4 * 16 + b)) >>> 4 = a.toUInt8 := by
    rw [decodes.digit _ (by omega),decodes.digit _ (by omega),shiftRight_toUInt8 _ _ (by omega)]
    apply UInt8.toNat_inj.mp
    rw [join_toNat _ _ _ (by omega) (by simp; omega)]
    simp; omega
  have second (a b c : Nat) (hb : b < 256) (hc : c < 4) :
      value (digit (a % 4 * 16 + b / 16)) <<< 4 ||| value (digit (b % 16 * 4 + c)) >>> 2 =
        b.toUInt8 := by
    rw [decodes.digit _ (by omega),decodes.digit _ (by omega),shiftRight_toUInt8 _ _ (by omega)]
    apply UInt8.toNat_inj.mp
    rw [join_toNat _ _ _ (by omega) (by simp; omega)]
    simp; omega
  have third (b c : Nat) (hc : c < 256) :
      value (digit (b % 16 * 4 + c / 64)) <<< 6 ||| value (digit (c % 64)) = c.toUInt8 := by
    rw [decodes.digit _ (by omega),decodes.digit _ (by omega)]
    apply UInt8.toNat_inj.mp
    rw [join_toNat _ _ _ (by omega) (by simp; omega)]
    simp; omega
  have byte (x : UInt8) : x.toNat.toUInt8 = x := by simp
  fun_induction encode bytes with
  | case1 => rfl
  | case2 a =>
    have one := first a.toNat 0 (bound a) (by decide)
    have two := second a.toNat 0 0 (by decide) (by decide)
    have three := third 0 0 (by decide)
    simp only [Nat.zero_div,Nat.zero_mod,Nat.zero_mul,Nat.add_zero] at one two three
    have zero : value Base64.pad = value (digit 0) := by
      rw [decodes.pad,decodes.digit 0 (by decide)]; rfl
    simp only [decode,zero,one,two,three,byte]
    rfl
  | case3 a b =>
    have one := first a.toNat (b.toNat / 16) (bound a) (by have := bound b; omega)
    have two := second a.toNat b.toNat 0 (bound b) (by decide)
    have three := third b.toNat 0 (by decide)
    simp only [Nat.zero_div,Nat.zero_mod,Nat.add_zero] at two three
    have zero : value Base64.pad = value (digit 0) := by
      rw [decodes.pad,decodes.digit 0 (by decide)]; rfl
    simp only [decode,zero,one,two,three,byte]
    rfl
  | case4 a b c rest ih =>
    have one := first a.toNat (b.toNat / 16) (bound a) (by have := bound b; omega)
    have two := second a.toNat b.toNat (c.toNat / 64) (bound b) (by have := bound c; omega)
    have three := third b.toNat c.toNat (bound c)
    simp only [decode,one,two,three,byte,ih]
    have same : (a :: b :: c :: rest).length % 3 = rest.length % 3 := by
      simp only [List.length_cons]; omega
    rw [same]
    rfl

/-! ### Bitmaps, the first flag in the highest bit of the first byte -/

def msbByte (a b c d e f g h : Bool) : UInt8 :=
  a.toUInt8 <<< 7 ||| b.toUInt8 <<< 6 ||| c.toUInt8 <<< 5 ||| d.toUInt8 <<< 4 |||
    e.toUInt8 <<< 3 ||| f.toUInt8 <<< 2 ||| g.toUInt8 <<< 1 ||| h.toUInt8

theorem msbByte_bit : ∀ a b c d e f g h : Bool, ∀ k : Fin 8,
    (msbByte a b c d e f g h &&& (0x80 : UInt8) >>> k.val.toUInt8 ≠ 0) ↔
      [a,b,c,d,e,f,g,h][k.val]! = true := by
  decide +kernel

/-- The first `n` flags, eight to a byte, with clear bits up to the end of the last byte. -/
def bitmap (n : Nat) (flags : Nat → Bool) : List UInt8 :=
  (List.range ((n + 7) / 8)).map fun k =>
    let flag := fun j => decide (8 * k + j < n) && flags (8 * k + j)
    msbByte (flag 0) (flag 1) (flag 2) (flag 3) (flag 4) (flag 5) (flag 6) (flag 7)

@[simp] theorem bitmap_length (n : Nat) (flags : Nat → Bool) :
    (bitmap n flags).length = (n + 7) / 8 := by simp [bitmap]

/-- Masking the byte of a flag with the bit of the flag reads the flag. -/
theorem bitmap_bit (n : Nat) (flags : Nat → Bool) (i : Nat) (range : i < n) :
    ((bitmap n flags).getD (i / 8) 0 &&& (0x80 : UInt8) >>> (i % 8).toUInt8 ≠ 0) ↔
      flags i = true := by
  have inside : i / 8 < (n + 7) / 8 := by omega
  simp only [bitmap,List.getD_eq_getElem?_getD,List.getElem?_map,List.getElem?_range inside,
    Option.map_some,Option.getD_some]
  have bit := msbByte_bit
    (decide (8 * (i / 8) + 0 < n) && flags (8 * (i / 8) + 0))
    (decide (8 * (i / 8) + 1 < n) && flags (8 * (i / 8) + 1))
    (decide (8 * (i / 8) + 2 < n) && flags (8 * (i / 8) + 2))
    (decide (8 * (i / 8) + 3 < n) && flags (8 * (i / 8) + 3))
    (decide (8 * (i / 8) + 4 < n) && flags (8 * (i / 8) + 4))
    (decide (8 * (i / 8) + 5 < n) && flags (8 * (i / 8) + 5))
    (decide (8 * (i / 8) + 6 < n) && flags (8 * (i / 8) + 6))
    (decide (8 * (i / 8) + 7 < n) && flags (8 * (i / 8) + 7)) ⟨i % 8,Nat.mod_lt _ (by decide)⟩
  refine bit.trans ?_
  have whole : 8 * (i / 8) + i % 8 = i := by omega
  have cases : i % 8 = 0 ∨ i % 8 = 1 ∨ i % 8 = 2 ∨ i % 8 = 3 ∨ i % 8 = 4 ∨ i % 8 = 5 ∨
      i % 8 = 6 ∨ i % 8 = 7 := by omega
  rcases cases with k | k | k | k | k | k | k | k <;> rw [k] at whole <;> simp [k,whole,range]

end Citrusleaf.Lib.Base64
