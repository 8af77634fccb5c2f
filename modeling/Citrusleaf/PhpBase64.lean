import Citrusleaf.Lib.Base64
import Citrusleaf.Lib.Bytes
import Citrusleaf.Text

/-! The base 64 functions of php_cl_utils.c on blocks of memory; an access outside a block gives
`none`. Lengths are `int`s that are not negative, and small enough for the counters of the loops
to be `int`s as well: blocks of text are shorter than 2 GiB. -/
namespace Citrusleaf.PhpBase64
open Lib

/-- Signed arithmetic stays inside `int`. -/
def fitsInt (n : Nat) : Option Unit := if n < 2 ^ 31 then some () else none

/-- `base64_bytes`, and `base64_chars` with the same entries. -/
def base64Bytes : List UInt8 := text "ABCDEFGHIJKLMNOPQRSTUVWXYZabcdefghijklmnopqrstuvwxyz0123456789+/"

/-- `base64_valid_a` -/
def base64ValidA (c : UInt8) : Bool :=
  c = 43 || c = 47 || (48 ≤ c && c ≤ 57) || (65 ≤ c && c ≤ 90) || (97 ≤ c && c ≤ 122)

/-- `base64_decode_a`, whose unlisted entries are zero. -/
def base64DecodeA (c : UInt8) : UInt8 :=
  if c = 43 then 62
  else if c = 47 then 63
  else if 48 ≤ c ∧ c ≤ 57 then c + 4
  else if 65 ≤ c ∧ c ≤ 90 then c - 65
  else if 97 ≤ c ∧ c ≤ 122 then c - 71
  else 0

/-- The loop of `base64_validate_input`, with `n` characters to go. -/
def validFrom (b : List UInt8) : Nat → Nat → Option Bool
  | 0,_ => some true
  | n + 1,i => do
    if base64ValidA (← readByte b i) then validFrom b n (i + 1) else return false

/-- `base64_validate_input`. What comes behind the loop looks at the first two characters. -/
def base64ValidateInput (b : List UInt8) (len : Nat) : Option Bool :=
  if len % 4 ≠ 0 then some false
  else do
    if ← validFrom b (len - 2) 0 then
      let b1 ← readByte b 1
      let b0 ← readByte b 0
      if b1 = 61 ∧ b0 = 61 then return true
      else if base64ValidA b0 then return base64ValidA b1
      else return false
    else return false

def base64EncodeMaxlen (len : Nat) : Option Nat := do
  fitsInt (len + 2)
  let len := (len + 2) / 3
  fitsInt (len * 4)
  let len := len * 4
  fitsInt (len + 1)
  return len + 1

/-- The loop of `base64_encode` and `base64_tostring`, and the one or two bytes it leaves. -/
def encodeFrom (chars inBytes : List UInt8) : Nat → Nat → Nat → List UInt8 → Option (List UInt8 × Nat)
  | len + 3,i,j,outBytes => do
    let a ← readByte inBytes i
    let b ← readByte inBytes (i + 1)
    let c ← readByte inBytes (i + 2)
    let outBytes ← writeBytes outBytes j [
      ← chars[((a &&& 0xfc) >>> 2).toNat]?,
      ← chars[(((a &&& 0x03) <<< 4) + ((b &&& 0xf0) >>> 4)).toNat]?,
      ← chars[(((b &&& 0x0f) <<< 2) + ((c &&& 0xc0) >>> 6)).toNat]?,
      ← chars[(c &&& 0x3f).toNat]?]
    encodeFrom chars inBytes len (i + 3) (j + 4) outBytes
  | 2,i,j,outBytes => do
    let a ← readByte inBytes i
    let b ← readByte inBytes (i + 1)
    let outBytes ← writeBytes outBytes j [
      ← chars[((a &&& 0xfc) >>> 2).toNat]?,
      ← chars[(((a &&& 0x03) <<< 4) + ((b &&& 0xf0) >>> 4)).toNat]?,
      ← chars[((b &&& 0x0f) <<< 2).toNat]?,
      61]
    return (outBytes,j + 4)
  | 1,i,j,outBytes => do
    let a ← readByte inBytes i
    let outBytes ← writeBytes outBytes j [
      ← chars[((a &&& 0xfc) >>> 2).toNat]?,
      ← chars[((a &&& 0x03) <<< 4).toNat]?,
      61,
      61]
    return (outBytes,j + 4)
  | 0,_,j,outBytes => some (outBytes,j)

/-- `base64_encode`: the output block, and the length that is written back. -/
def base64Encode (inBytes outBytes : List UInt8) (len : Nat) : Option (List UInt8 × Nat) :=
  encodeFrom base64Bytes inBytes len 0 0 outBytes

/-- `base64_tostring`, which counts its zero as well. -/
def base64Tostring (inBytes outBytes : List UInt8) (len : Nat) : Option (List UInt8 × Nat) := do
  let (outBytes,j) ← encodeFrom base64Bytes inBytes len 0 0 outBytes
  return (← writeBytes outBytes j [0],j + 1)

/-- The loop of `base64_decode` and of `b64_decode`, over the decoding table `da`. -/
def decodeFrom (da : UInt8 → UInt8) (inBytes : List UInt8) (len i j : Nat) (outBytes : List UInt8) :
    Option (List UInt8 × Nat × Nat) :=
  if i < len then do
    let a ← readByte inBytes i
    let b ← readByte inBytes (i + 1)
    let c ← readByte inBytes (i + 2)
    let d ← readByte inBytes (i + 3)
    let outBytes ← writeBytes outBytes j [da a <<< 2 ||| da b >>> 4,da b <<< 4 ||| da c >>> 2,da c <<< 6 ||| da d]
    decodeFrom da inBytes len (i + 4) (j + 3) outBytes
  else some (outBytes,i,j)
termination_by len - i

/-- The loop of `base64_decode_inplace`, which reads four bytes before it writes three. -/
def decodeInplaceFrom (len i j : Nat) (bytes : List UInt8) : Option (List UInt8 × Nat) :=
  if i < len then do
    let a ← readByte bytes i
    let b ← readByte bytes (i + 1)
    let c ← readByte bytes (i + 2)
    let d ← readByte bytes (i + 3)
    let bytes ← writeBytes bytes j [
      base64DecodeA a <<< 2 ||| base64DecodeA b >>> 4,
      base64DecodeA b <<< 4 ||| base64DecodeA c >>> 2,
      base64DecodeA c <<< 6 ||| base64DecodeA d]
    decodeInplaceFrom len (i + 4) (j + 3) bytes
  else some (bytes,j)
termination_by len - i

/-- The byte `k` before a position. -/
def readBefore (mem : List UInt8) (p k : Nat) : Option UInt8 := if k ≤ p then readByte mem (p - k) else none

/-- What a decoder returns, the block it wrote, and the length it left. -/
structure Decoded where
  rv : Int
  bytes : List UInt8
  lenR : Nat

/-- The guard in front of both decoders. -/
def inputAccepted (bytes : List UInt8) (len : Nat) (validate : Bool) : Option Bool :=
  if validate then base64ValidateInput bytes len else some true

/-- The pad that `base64_decode_inplace` looks for before its loop. -/
def lenCor (bytes : List UInt8) (len : Nat) : Option Nat := do
  if (← readBefore bytes len 1) = 61 then
    if (← readBefore bytes len 2) = 61 then return 2 else return 1
  else return 0

def base64DecodeInplace (bytes : List UInt8) (len : Nat) (validate : Bool) : Option Decoded := do
  if ← inputAccepted bytes len validate then
    let cor ← lenCor bytes len
    let (bytes,j) ← decodeInplaceFrom len 0 0 bytes
    return ⟨0,bytes,j - cor⟩
  else return ⟨-1,bytes,len⟩

def base64Decode (inBytes outBytes : List UInt8) (len : Nat) (validate : Bool) : Option Decoded := do
  if ← inputAccepted inBytes len validate then
    let (outBytes,i,j) ← decodeFrom base64DecodeA inBytes len 0 0 outBytes
    let j := if (← readBefore inBytes i 1) = 61 then j - 1 else j
    let j := if (← readBefore inBytes i 2) = 61 then j - 1 else j
    return ⟨0,outBytes,j⟩
  else return ⟨-1,outBytes,len⟩

/-! ### The loops -/

theorem base64Bytes_digit : ∀ v, v < 64 → base64Bytes[v]? = some (Base64.digit v) := by decide
theorem digit_valid : ∀ v, v < 64 → base64ValidA (Base64.digit v) = true := by decide

theorem decodeA_decodes : Base64.Decodes base64DecodeA where
  digit := by decide
  pad := by decide

theorem fitsInt_small (small : n < 2 ^ 31) : fitsInt n = some () := if_pos small

/-! The characters that a lap of the encoder looks up. -/

theorem lookup_first (a : UInt8) : base64Bytes[((a &&& 0xfc) >>> 2).toNat]? = some (Base64.digit (a.toNat / 4)) := by
  have bound : a.toNat < 256 := a.toNat_lt
  rw [(Base64.pieces a).high6,base64Bytes_digit _ (by omega)]

theorem lookup_second (a b : UInt8) : base64Bytes[(((a &&& 0x03) <<< 4) + ((b &&& 0xf0) >>> 4)).toNat]? =
    some (Base64.digit (a.toNat % 4 * 16 + b.toNat / 16)) := by
  have bound : b.toNat < 256 := b.toNat_lt
  rw [UInt8.toNat_add,(Base64.pieces a).low2,(Base64.pieces b).high4,Nat.mod_eq_of_lt (by omega),
    base64Bytes_digit _ (by omega)]

theorem lookup_third (b c : UInt8) : base64Bytes[(((b &&& 0x0f) <<< 2) + ((c &&& 0xc0) >>> 6)).toNat]? =
    some (Base64.digit (b.toNat % 16 * 4 + c.toNat / 64)) := by
  have bound : c.toNat < 256 := c.toNat_lt
  rw [UInt8.toNat_add,(Base64.pieces b).low4,(Base64.pieces c).high2,Nat.mod_eq_of_lt (by omega),
    base64Bytes_digit _ (by omega)]

theorem lookup_fourth (c : UInt8) : base64Bytes[(c &&& 0x3f).toNat]? = some (Base64.digit (c.toNat % 64)) := by
  rw [(Base64.pieces c).low6,base64Bytes_digit _ (by omega)]

/-- The last character of one byte, and of two. -/
theorem lookup_last (a : UInt8) : base64Bytes[((a &&& 0x03) <<< 4).toNat]? = some (Base64.digit (a.toNat % 4 * 16)) ∧
    base64Bytes[((a &&& 0x0f) <<< 2).toNat]? = some (Base64.digit (a.toNat % 16 * 4)) := by
  rw [(Base64.pieces a).low2,(Base64.pieces a).low4]
  exact ⟨base64Bytes_digit _ (by omega),base64Bytes_digit _ (by omega)⟩

/-- The encoder's loop writes the encoding behind what it has written. -/
theorem encodeFrom_eq (bytes before after done room : List UInt8)
    (fits : (Base64.encode bytes).length ≤ room.length) :
    encodeFrom base64Bytes (before ++ (bytes ++ after)) bytes.length before.length done.length (done ++ room) =
      some (done ++ (Base64.encode bytes ++ room.drop (Base64.encode bytes).length),
        done.length + (Base64.encode bytes).length) := by
  fun_induction Base64.encode bytes generalizing before done room with
  | case1 => simp [encodeFrom]
  | case2 a =>
    refine bind_given (readByte_within before [a] after 0 (by simp)) ?_
    refine bind_given (lookup_first a) (bind_given (lookup_last a).1 ?_)
    exact bind_given (writeBytes_behind done room _ fits) rfl
  | case3 a b =>
    refine bind_given (readByte_within before [a,b] after 0 (by simp)) ?_
    refine bind_given (readByte_within before [a,b] after 1 (by simp)) ?_
    refine bind_given (lookup_first a) (bind_given (lookup_second a b) (bind_given (lookup_last b).2 ?_))
    exact bind_given (writeBytes_behind done room _ fits) rfl
  | case4 a b c rest ih =>
    simp only [List.length_cons] at fits
    refine bind_given (readByte_within before (a :: b :: c :: rest) after 0 (by simp)) ?_
    refine bind_given (readByte_within before (a :: b :: c :: rest) after 1 (by simp)) ?_
    refine bind_given (readByte_within before (a :: b :: c :: rest) after 2 (by simp)) ?_
    refine bind_given (lookup_first a) (bind_given (lookup_second a b) ?_)
    refine bind_given (lookup_third b c) (bind_given (lookup_fourth c) ?_)
    refine bind_given (writeBytes_behind done room _ (by simp only [List.length_cons,List.length_nil]; omega)) ?_
    have later := ih (before ++ [a,b,c]) (done ++ [Base64.digit (a.toNat / 4),
      Base64.digit (a.toNat % 4 * 16 + b.toNat / 16),Base64.digit (b.toNat % 16 * 4 + c.toNat / 64),
      Base64.digit (c.toNat % 64)]) (room.drop 4)
      (by rw [List.length_drop]; omega)
    simp only [List.length_append,List.length_cons,List.length_nil,List.append_assoc,List.cons_append,
      List.nil_append,List.drop_drop] at later ⊢
    have four : (Base64.encode rest).length + 1 + 1 + 1 + 1 = 4 + (Base64.encode rest).length := by omega
    rw [four,← Nat.add_assoc]
    exact later

/-- The decoders' loop writes whole groups behind what it has written. -/
theorem decodeFrom_eq (da : UInt8 → UInt8) (text before after done room : List UInt8) (whole : text.length % 4 = 0)
    (fits : (Base64.decode da text).length ≤ room.length) :
    decodeFrom da (before ++ (text ++ after)) (before.length + text.length) before.length done.length (done ++ room) =
      some (done ++ (Base64.decode da text ++ room.drop (Base64.decode da text).length),
        before.length + text.length,done.length + (Base64.decode da text).length) := by
  fun_induction Base64.decode da text generalizing before done room with
  | case1 a b c d rest ih =>
    simp only [List.length_cons] at whole fits
    rw [decodeFrom,if_pos (by simp)]
    refine bind_given (readByte_within before (a :: b :: c :: d :: rest) after 0 (by simp)) ?_
    refine bind_given (readByte_within before (a :: b :: c :: d :: rest) after 1 (by simp)) ?_
    refine bind_given (readByte_within before (a :: b :: c :: d :: rest) after 2 (by simp)) ?_
    refine bind_given (readByte_within before (a :: b :: c :: d :: rest) after 3 (by simp)) ?_
    refine bind_given (writeBytes_behind done room _ (by simp only [List.length_cons,List.length_nil]; omega)) ?_
    have later := ih (before ++ [a,b,c,d]) (done ++ [da a <<< 2 ||| da b >>> 4,da b <<< 4 ||| da c >>> 2,
      da c <<< 6 ||| da d]) (room.drop 3) (by omega) (by rw [List.length_drop]; omega)
    simp only [List.length_append,List.length_cons,List.length_nil,List.append_assoc,List.cons_append,
      List.nil_append,List.drop_drop] at later ⊢
    have four : rest.length + 1 + 1 + 1 + 1 = 4 + rest.length := by omega
    have three : (Base64.decode da rest).length + 1 + 1 + 1 = 3 + (Base64.decode da rest).length := by omega
    rw [four,three,← Nat.add_assoc,← Nat.add_assoc]
    exact later
  | case2 text short =>
    have size := Base64.few short
    obtain rfl : text = [] := List.eq_nil_of_length_eq_zero (by omega)
    rw [decodeFrom,if_neg (by simp)]
    simp

/-- In place the groups are written over text that was read before: what lies between
the cursors is old. -/
theorem decodeInplaceFrom_eq (text done gap after : List UInt8) (whole : text.length % 4 = 0) :
    ∃ rest, decodeInplaceFrom (done.length + gap.length + text.length) (done.length + gap.length) done.length
        (done ++ (gap ++ (text ++ after))) =
      some (done ++ (Base64.decode base64DecodeA text ++ rest),
        done.length + (Base64.decode base64DecodeA text).length) := by
  have read (text done gap : List UInt8) (k : Nat) (inside : k < text.length) :
      readByte (done ++ (gap ++ (text ++ after))) (done.length + gap.length + k) = text[k]? := by
    rw [← List.append_assoc,← List.length_append,readByte_within _ text after k inside]
  fun_induction Base64.decode base64DecodeA text generalizing done gap with
  | case1 a b c d rest ih =>
    simp only [List.length_cons] at whole
    rw [decodeInplaceFrom,if_pos (by simp)]
    have gapSize : ((gap ++ [a,b,c,d]).drop 3).length = gap.length + 1 := by simp
    have moved : (gap ++ (a :: b :: c :: d :: rest ++ after)).drop 3 =
        (gap ++ [a,b,c,d]).drop 3 ++ (rest ++ after) := by
      rw [← List.drop_append_of_le_length (by simp)]
      simp
    obtain ⟨last,later⟩ := ih (done ++ [base64DecodeA a <<< 2 ||| base64DecodeA b >>> 4,
      base64DecodeA b <<< 4 ||| base64DecodeA c >>> 2,base64DecodeA c <<< 6 ||| base64DecodeA d])
      ((gap ++ [a,b,c,d]).drop 3) (by omega)
    refine ⟨last,?_⟩
    refine bind_given (read (a :: b :: c :: d :: rest) done gap 0 (by simp)) ?_
    refine bind_given (read (a :: b :: c :: d :: rest) done gap 1 (by simp)) ?_
    refine bind_given (read (a :: b :: c :: d :: rest) done gap 2 (by simp)) ?_
    refine bind_given (read (a :: b :: c :: d :: rest) done gap 3 (by simp)) ?_
    refine bind_given (writeBytes_behind done _ _ (by simp only [List.length_append,List.length_cons,List.length_nil]; omega)) ?_
    rw [gapSize] at later
    simp only [List.length_append,List.length_cons,List.length_nil,List.append_assoc,List.cons_append,
      List.nil_append] at later moved ⊢
    rw [moved]
    have len : done.length + gap.length + (rest.length + 1 + 1 + 1 + 1) =
      done.length + (0 + 1 + 1 + 1) + (gap.length + 1) + rest.length := by omega
    have next : done.length + gap.length + 4 = done.length + (0 + 1 + 1 + 1) + (gap.length + 1) := by omega
    rw [len,next]
    have written : done.length + ((Base64.decode base64DecodeA rest).length + 1 + 1 + 1) =
      done.length + (0 + 1 + 1 + 1) + (Base64.decode base64DecodeA rest).length := by omega
    rw [written]
    exact later
  | case2 text short =>
    have size := Base64.few short
    obtain rfl : text = [] := List.eq_nil_of_length_eq_zero (by omega)
    refine ⟨gap ++ after,?_⟩
    rw [decodeInplaceFrom,if_neg (by simp)]
    simp

/-! ### The validator -/

theorem validFrom_eq (text before after : List UInt8) :
    validFrom (before ++ (text ++ after)) text.length before.length = some (text.all base64ValidA) := by
  induction text generalizing before with
  | nil => rfl
  | cons c text ih =>
    refine bind_given (readByte_behind before _ 0) ?_
    cases valid : base64ValidA c with
    | false => simp [valid]
    | true =>
      have later := ih (before ++ [c])
      simp only [List.append_assoc,List.cons_append,List.nil_append,List.length_append,List.length_singleton] at later
      simp [later,valid]

/-- On whole groups the validator looks at all characters but the last two. -/
theorem validate_eq (front after : List UInt8) (c d : UInt8) (whole : (front.length + 2) % 4 = 0) :
    base64ValidateInput (front ++ (c :: d :: after)) (front.length + 2) = some (front.all base64ValidA) := by
  rw [base64ValidateInput,if_neg (by omega)]
  refine bind_given (validFrom_eq front [] (c :: d :: after)) ?_
  rcases front with _ | ⟨x,_ | ⟨y,front⟩⟩
  · cases whole
  · cases whole
  · cases valid : (x :: y :: front).all base64ValidA with
    | false => rfl
    | true =>
      simp only [List.all_cons,Bool.and_eq_true] at valid
      have notPad : x ≠ 61 := by
        rintro rfl
        cases valid.1
      simp [readByte,valid,notPad]

theorem validate_ragged (ragged : len % 4 ≠ 0) : base64ValidateInput b len = some false := if_pos ragged


/-! ### The round trip -/

/-- A decoder returns 0 and gives back the bytes and their number. -/
def GivesBack (bytes : List UInt8) (result : Option Decoded) : Prop :=
  ∃ out, result = some ⟨0,out,bytes.length⟩ ∧ out.take bytes.length = bytes

/-- In any buffer of `base64_encode_maxlen` bytes the encoder keeps a byte of room, and both
decoders undo it, the one with any block that takes the groups. -/
def RoundTrips (bytes : List UInt8) : Prop :=
  ∃ maxlen, base64EncodeMaxlen bytes.length = some maxlen ∧
    ∀ buf : List UInt8, maxlen ≤ buf.length →
      ∃ b64Buf len, base64Encode bytes buf bytes.length = some (b64Buf,len) ∧ len < maxlen ∧
        b64Buf.drop len = buf.drop len ∧
        ∀ validate, GivesBack bytes (base64DecodeInplace b64Buf len validate) ∧
          ∀ out : List UInt8, len / 4 * 3 ≤ out.length → GivesBack bytes (base64Decode b64Buf out len validate)

theorem readBefore_end (front after : List UInt8) (c d : UInt8) :
    readBefore (front ++ (c :: d :: after)) (front.length + 2) 1 = some d ∧
    readBefore (front ++ (c :: d :: after)) (front.length + 2) 2 = some c := by
  constructor
  · exact readByte_behind front (c :: d :: after) 1
  · exact readByte_behind front (c :: d :: after) 0

/-- The zeros that the decoded text of some bytes ends in. -/
def zeros (bytes : List UInt8) : Nat := (3 - bytes.length % 3) % 3

theorem maxlen_small (short : bytes.length < 2 ^ 29) :
    base64EncodeMaxlen bytes.length = some ((Base64.encode bytes).length + 1) := by
  rw [Base64.encode_length]
  refine bind_given (fitsInt_small (by omega)) ?_
  refine bind_given (fitsInt_small (by omega)) ?_
  exact bind_given (fitsInt_small (by omega)) rfl

theorem encode_block (bytes buf : List UInt8) (room : (Base64.encode bytes).length ≤ buf.length) :
    base64Encode bytes buf bytes.length =
      some (Base64.encode bytes ++ buf.drop (Base64.encode bytes).length,(Base64.encode bytes).length) := by
  have written := encodeFrom_eq bytes [] [] [] buf room
  simpa [base64Encode] using written

theorem ending_accepted (ending : Base64.Ending bytes (Base64.encode bytes) front c d) (after : List UInt8)
    (validate : Bool) :
    inputAccepted (Base64.encode bytes ++ after) (Base64.encode bytes).length validate = some true := by
  have size := congrArg List.length ending.parts
  rw [Base64.encode_length,List.length_append] at size
  simp only [List.length_cons,List.length_nil,Nat.zero_add,Nat.reduceAdd] at size
  have valid : front.all base64ValidA = true := by
    rw [List.all_eq_true]
    intro x member
    obtain ⟨v,small,rfl⟩ := ending.digits x member
    exact digit_valid v small
  have checked := validate_eq front after c d (by omega)
  rw [valid] at checked
  cases validate with
  | false => rfl
  | true => simpa [inputAccepted,ending.parts] using checked

/-- The pads say how many zeros there are, and the first is not without the last. -/
theorem ending_zeros (ending : Base64.Ending bytes encoded front c d) :
    zeros bytes = (if d = 61 then if c = 61 then 2 else 1 else 0) ∧ (c = 61 → d = 61) := by
  have first := ending.first
  have last := ending.last
  simp only [Base64.pad] at first last
  simp only [first,last,zeros]
  refine ⟨?_,by omega⟩
  split
  · split <;> omega
  · omega

theorem ending_lenCor {encoded : List UInt8} (ending : Base64.Ending bytes encoded front c d) (after : List UInt8) :
    lenCor (encoded ++ after) encoded.length = some (zeros bytes) := by
  obtain ⟨readLast,readFirst⟩ := readBefore_end front after c d
  rw [(ending_zeros ending).1,lenCor]
  by_cases last : d = 61
  · by_cases first : c = 61 <;> simp_all [ending.parts]
  · simp_all [ending.parts]

theorem decoded_bytes (bytes : List UInt8) :
    Base64.decode base64DecodeA (Base64.encode bytes) = bytes ++ List.replicate (zeros bytes) 0 :=
  Base64.decode_encode decodeA_decodes bytes

theorem inplace_gives_back (ending : Base64.Ending bytes (Base64.encode bytes) front c d) (after : List UInt8) (validate : Bool) :
    GivesBack bytes (base64DecodeInplace (Base64.encode bytes ++ after) (Base64.encode bytes).length validate) := by
  have size := Base64.encode_length bytes
  obtain ⟨rest,decoded⟩ := decodeInplaceFrom_eq (Base64.encode bytes) [] [] after (by omega)
  simp only [decoded_bytes,List.nil_append,List.length_nil,Nat.zero_add] at decoded
  refine ⟨bytes ++ List.replicate (zeros bytes) 0 ++ rest,?_,?_⟩
  · refine bind_given (ending_accepted ending after validate) ?_
    refine bind_given (ending_lenCor ending after) ?_
    refine bind_given decoded ?_
    simp
  · rw [List.append_assoc,List.take_left]

theorem decode_gives_back (ending : Base64.Ending bytes (Base64.encode bytes) front c d) (after out : List UInt8)
    (room : (Base64.encode bytes).length / 4 * 3 ≤ out.length) (validate : Bool) :
    GivesBack bytes (base64Decode (Base64.encode bytes ++ after) out (Base64.encode bytes).length validate) := by
  have size := Base64.encode_length bytes
  have decoded := decodeFrom_eq base64DecodeA (Base64.encode bytes) [] after [] out (by omega)
    (by rw [Base64.decode_length]; exact room)
  simp only [decoded_bytes,List.nil_append,List.length_nil,Nat.zero_add] at decoded
  obtain ⟨readLast,readFirst⟩ := readBefore_end front after c d
  refine ⟨bytes ++ List.replicate (zeros bytes) 0 ++ out.drop (bytes ++ List.replicate (zeros bytes) 0).length,?_,?_⟩
  · refine bind_given (ending_accepted ending after validate) ?_
    refine bind_given decoded ?_
    obtain ⟨pads,both⟩ := ending_zeros ending
    simp only [List.length_append,List.length_replicate]
    by_cases last : d = 61
    · by_cases first : c = 61 <;> simp_all [ending.parts]
    · have first : c ≠ 61 := mt both last
      simp_all [ending.parts]
  · rw [List.append_assoc,List.take_left]

theorem round_trip (bytes : List UInt8) (nonempty : bytes ≠ []) (short : bytes.length < 2 ^ 29) : RoundTrips bytes := by
  obtain ⟨front,c,d,ending⟩ := Base64.encode_ending bytes nonempty
  refine ⟨_,maxlen_small short,fun buf room => ?_⟩
  refine ⟨_,_,encode_block bytes buf (by omega),Nat.lt_succ_self _,List.drop_left,fun validate => ?_⟩
  exact ⟨inplace_gives_back ending _ validate,fun out fits => decode_gives_back ending _ out fits validate⟩

theorem round_trip_two : RoundTrips [77,97] := round_trip [77,97] (by decide) (by decide)

/-! ### What the validator misses -/

/-- The last two characters: both of the alphabet, one of it and a pad, or two pads. -/
def LastTwo (c d : UInt8) : Prop :=
  (c ∈ base64Bytes ∧ d ∈ base64Bytes) ∨ (c ∈ base64Bytes ∧ d = 61) ∨ (c = 61 ∧ d = 61)

/-- Groups of four characters, with pads only at the end. -/
def WellFormed (b : List UInt8) : Prop :=
  b.length % 4 = 0 ∧ ∃ front c d, b = front ++ [c,d] ∧ (∀ x ∈ front, x ∈ base64Bytes) ∧ LastTwo c d

/-- What the validator lets through is the digit of what it is decoded to. -/
theorem valid_digit (c : UInt8) (valid : base64ValidA c = true) :
    (base64DecodeA c).toNat < 64 ∧ Base64.digit (base64DecodeA c).toNat = c := by
  have all : ∀ n : Fin 256, base64ValidA n.val.toUInt8 = true → (base64DecodeA n.val.toUInt8).toNat < 64 ∧
      Base64.digit (base64DecodeA n.val.toUInt8).toNat = n.val.toUInt8 := by decide +kernel
  have one := all ⟨c.toNat,c.toNat_lt⟩
  have same : c.toNat.toUInt8 = c := by simp
  rw [same] at one
  exact one valid

/-- The table of the validator is the alphabet of the encoder. -/
theorem valid_iff (c : UInt8) : base64ValidA c = true ↔ c ∈ base64Bytes := by
  constructor
  · intro valid
    obtain ⟨small,digit⟩ := valid_digit c valid
    exact List.mem_of_getElem? (digit ▸ base64Bytes_digit _ small)
  · have all : base64Bytes.all base64ValidA = true := by decide +kernel
    exact List.all_eq_true.mp all c

theorem wellFormed_iff (front : List UInt8) (c d : UInt8) (whole : (front.length + 2) % 4 = 0) :
    WellFormed (front ++ [c,d]) ↔ (∀ x ∈ front, x ∈ base64Bytes) ∧ LastTwo c d := by
  constructor
  · rintro ⟨_,other,e,f,same,valid,last⟩
    obtain ⟨rfl,tail⟩ := List.append_inj' same rfl
    obtain ⟨rfl,rfl⟩ : c = e ∧ d = f := by simpa using tail
    exact ⟨valid,last⟩
  · rintro ⟨valid,last⟩
    exact ⟨by simpa using whole,front,c,d,rfl,valid,last⟩

/-- The validator answers, without reading outside, whether the string is base 64. -/
def Validates (b : List UInt8) : Prop :=
  ∃ accepted, base64ValidateInput b b.length = some accepted ∧ (accepted = true ↔ WellFormed b)

/-- Whole groups: the code asks for nothing of the last two characters. -/
theorem validates_whole (front : List UInt8) (c d : UInt8) (whole : (front.length + 2) % 4 = 0) :
    Validates (front ++ [c,d]) ↔ (∃ x ∈ front, x ∉ base64Bytes) ∨ LastTwo c d := by
  have answer := validate_eq front [] c d whole
  have spec := wellFormed_iff front c d whole
  rw [Validates,List.length_append]
  simp only [List.length_cons,List.length_nil,Nat.zero_add,Nat.reduceAdd,answer,Option.some.injEq,exists_eq_left',
    spec,List.all_eq_true,valid_iff]
  constructor
  · intro same
    by_cases valid : ∀ x ∈ front, x ∈ base64Bytes
    · exact .inr (same.mp valid).2
    · simp only [not_forall] at valid
      obtain ⟨x,member,wrong⟩ := valid
      exact .inl ⟨x,member,wrong⟩
  · rintro (⟨x,member,wrong⟩ | last)
    · exact iff_of_false (fun valid => wrong (valid x member)) (fun both => wrong (both.1 x member))
    · exact ⟨fun valid => ⟨valid,last⟩,And.left⟩

/-- It does so exactly if the string is ragged, or its last two characters, which are not
looked at, are right or come after a wrong one. -/
theorem validates_iff (b : List UInt8) :
    Validates b ↔ b.length % 4 ≠ 0 ∨
      ∃ front c d, b = front ++ [c,d] ∧ ((∃ x ∈ front, x ∉ base64Bytes) ∨ LastTwo c d) := by
  by_cases whole : b.length % 4 = 0
  · rcases List.eq_nil_or_concat b with rfl | ⟨init,d,rfl⟩
    · simp [Validates,base64ValidateInput,validFrom,readByte]
    · rcases List.eq_nil_or_concat init with rfl | ⟨front,c,rfl⟩
      · cases whole
      · have shape : (front ++ [c]) ++ [d] = front ++ [c,d] := by simp
        rw [List.concat_eq_append,List.concat_eq_append,shape] at whole ⊢
        rw [validates_whole front c d (by simpa using whole)]
        constructor
        · exact fun right => .inr ⟨front,c,d,rfl,right⟩
        · rintro (ragged | ⟨other,e,f,same,right⟩)
          · exact absurd whole ragged
          · obtain ⟨rfl,tail⟩ := List.append_inj' same rfl
            obtain ⟨rfl,rfl⟩ : c = e ∧ d = f := by simpa using tail
            exact right
  · refine iff_of_true ⟨false,validate_ragged whole,?_⟩ (.inl whole)
    exact iff_of_false Bool.false_ne_true fun wellFormed => whole wellFormed.1

/-- A pad before the last character is let through; for the empty string the code reads
outside it. -/
theorem pad_before_last : ¬Validates (text "AA=A") ∧ ¬Validates [] := by
  constructor
  · rw [show text "AA=A" = text "AA" ++ [61,65] from rfl,validates_whole (text "AA") 61 65 rfl]
    have pad : (61 : UInt8) ∉ base64Bytes := mt (valid_iff 61).mpr (by decide)
    rintro (⟨x,member,other⟩ | ⟨first,_⟩ | ⟨first,_⟩ | ⟨_,second⟩)
    · have inside : ∀ x ∈ text "AA", base64ValidA x = true := List.all_eq_true.mp (by decide)
      exact other ((valid_iff x).mp (inside x member))
    · exact pad first
    · exact pad first
    · exact absurd second (by decide)
  · simp [Validates,base64ValidateInput,validFrom,readByte]

end Citrusleaf.PhpBase64
