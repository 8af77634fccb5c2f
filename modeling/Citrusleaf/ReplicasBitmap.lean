import Citrusleaf.PhpBase64
import Citrusleaf.ReplicasReply

/-! `ns_partition_map_set` with its memory: the text, the block on the stack that it is
decoded into, and the array that the bits are added to. -/
namespace Citrusleaf.Replicas
open Lib

/-- `b64_decode` into a block. -/
def b64DecodeBlock (encoded : List UInt8) (len : Nat) (out : List UInt8) : Option (List UInt8) :=
  (PhpBase64.decodeFrom cfBase64DecodeArray encoded len 0 0 out).map (·.1)

/-- The loop of `ns_partition_map_set` over the partitions to go. -/
def expandBitmap (bitmap : List UInt8) : List (Fin n) → (Fin n → Bool) → Option (Fin n → Bool)
  | [],owns => some owns
  | i :: rest,owns => do
    let byte ← readByte bitmap (i.val >>> 3)
    expandBitmap bitmap rest
      (if byte &&& (0x80 : UInt8) >>> (i.val &&& 7).toUInt8 ≠ 0 then Function.update owns i true else owns)

/-- `ns_partition_map_set`; what `alloca` gives holds any bytes. -/
def nsPartitionMapSetBlock (alloca : Nat → UInt8) (encodedBitmap : List UInt8) (encodedBitmapLen : Nat)
    (owns : Fin n → Bool) : Option (Fin n → Bool) := do
  let bitmap ← b64DecodeBlock encodedBitmap encodedBitmapLen ((List.range (encodedBitmapLen / 4 * 3)).map alloca)
  expandBitmap bitmap (List.finRange n) owns

theorem readByte_flag (bitmap : List UInt8) (i : Nat) (inside : i / 8 < bitmap.length) :
    ∃ byte, readByte bitmap (i >>> 3) = some byte ∧
      (byte &&& (0x80 : UInt8) >>> (i &&& 7).toUInt8 ≠ 0 ↔ bitmapBit bitmap i = true) := by
  have byteIndex : i >>> 3 = i / 8 := Nat.shiftRight_eq_div_pow i 3
  have bitIndex : i &&& 7 = i % 8 := Nat.and_two_pow_sub_one_eq_mod i 3
  refine ⟨bitmap[i / 8],?_,?_⟩
  · rw [readByte,byteIndex,List.getElem?_eq_getElem inside]
  · rw [bitIndex,bitmapBit,bne_iff_ne,List.getD_eq_getElem?_getD,List.getElem?_eq_getElem inside,Option.getD_some]

/-- Every flag is looked up inside the bitmap, and the flags found are added. -/
theorem expandBitmap_eq (bitmap : List UInt8) (big : (n + 7) / 8 ≤ bitmap.length) (rest : List (Fin n))
    (owns : Fin n → Bool) :
    expandBitmap bitmap rest owns = some fun i => (rest.contains i && bitmapBit bitmap i) || owns i := by
  induction rest generalizing owns with
  | nil => simp [expandBitmap]
  | cons i rest ih =>
    have range := i.isLt
    obtain ⟨byte,read,flag⟩ := readByte_flag bitmap i (by omega)
    refine bind_given read ?_
    rw [ih]
    congr 1
    funext j
    by_cases set : bitmapBit bitmap i = true
    · rw [if_pos (flag.mpr set),Function.update_apply,List.contains_cons]
      by_cases same : j = i
      · simp [same,set]
      · simp [same,beq_false_of_ne same]
    · rw [if_neg (mt flag.mp set),List.contains_cons]
      by_cases same : j = i
      · simp [same,set]
      · simp [beq_false_of_ne same]

/-- A text of whole groups that hold a bit for each partition is decoded in bounds. -/
theorem nsPartitionMapSetBlock_eq (alloca : Nat → UInt8) (encodedBitmap : List UInt8) (owns : Fin n → Bool)
    (whole : encodedBitmap.length % 4 = 0) (big : (n + 7) / 8 ≤ encodedBitmap.length / 4 * 3) :
    nsPartitionMapSetBlock alloca encodedBitmap encodedBitmap.length owns =
      some (nsPartitionMapSet encodedBitmap owns) := by
  have decoded := PhpBase64.decodeFrom_eq cfBase64DecodeArray encodedBitmap [] [] []
    ((List.range (encodedBitmap.length / 4 * 3)).map alloca) whole (by simp [Base64.decode_length])
  simp only [List.nil_append,List.append_nil,List.length_nil,Nat.zero_add,Base64.decode_length] at decoded
  have block : b64DecodeBlock encodedBitmap encodedBitmap.length
      ((List.range (encodedBitmap.length / 4 * 3)).map alloca) = some (b64Decode encodedBitmap) := by
    rw [b64DecodeBlock,decoded,b64Decode_eq]
    simp
  refine bind_given block ?_
  rw [expandBitmap_eq _ (by rw [b64Decode_eq,Base64.decode_length]; exact big)]
  simp [nsPartitionMapSet]

/-- The length check of `parse_replicas_map` is enough for that, whatever the text holds. -/
theorem accepted_in_bounds (alloca : Nat → UInt8) (encodedBitmap : List UInt8) (owns : Fin n → Bool)
    (length : expectedEncodedLen n = encodedBitmap.length) :
    nsPartitionMapSetBlock alloca encodedBitmap encodedBitmap.length owns =
      some (nsPartitionMapSet encodedBitmap owns) := by
  simp only [expectedEncodedLen] at length
  exact nsPartitionMapSetBlock_eq alloca encodedBitmap owns (by omega) (by omega)

/-- The flags of the partitions as bytes, first partition in the highest bit. -/
def ownsBitmap (owns : Fin n → Bool) : List UInt8 := Base64.bitmap n fun i => if h : i < n then owns ⟨i,h⟩ else false

/-- In any buffer with room for it, the bitmap is encoded to the expected length, and a fresh
map is filled with the flags again. -/
theorem bitmap_announces (owns : Fin n → Bool) (alloca : Nat → UInt8) (buf : List UInt8)
    (room : expectedEncodedLen n ≤ buf.length) :
    ∃ b64Buf, PhpBase64.base64Encode (ownsBitmap owns) buf ((n + 7) / 8) = some (b64Buf,expectedEncodedLen n) ∧
      nsPartitionMapSetBlock alloca (b64Buf.take (expectedEncodedLen n)) (expectedEncodedLen n) (fun _ : Fin n => false) =
        some owns := by
  have bytes : (ownsBitmap owns).length = (n + 7) / 8 := Base64.bitmap_length n _
  have size : (Base64.encode (ownsBitmap owns)).length = expectedEncodedLen n := by
    rw [Base64.encode_length,bytes]
    rfl
  have written := PhpBase64.encode_block (ownsBitmap owns) buf (by rw [size]; exact room)
  rw [bytes,size] at written
  refine ⟨_,written,?_⟩
  rw [List.take_left' size]
  have set := accepted_in_bounds alloca (Base64.encode (ownsBitmap owns)) (fun _ : Fin n => false) size.symm
  rw [size] at set
  rw [set]
  congr 1
  funext pid
  have flag := bitmapBit_encode owns pid
  rw [← flag]
  exact Bool.or_false _

/-- The second partition out of three is not owned. -/
def outerTwo : Fin 3 → Bool := fun pid => pid.val != 1

theorem bitmap_announces_three : ∃ b64Buf,
    PhpBase64.base64Encode (ownsBitmap outerTwo) [0,0,0,0] 1 = some (b64Buf,4) ∧
      nsPartitionMapSetBlock (fun _ => 0) (b64Buf.take 4) 4 (fun _ : Fin 3 => false) = some outerTwo :=
  bitmap_announces outerTwo (fun _ => 0) [0,0,0,0] (by decide)

end Citrusleaf.Replicas
