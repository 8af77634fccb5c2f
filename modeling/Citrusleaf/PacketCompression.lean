import Citrusleaf.Lib.Cells
import Citrusleaf.Stream

/-! cf_packet_compression.c and `batch_decompress` over a given zlib. The outer `none` stands
for an access outside a buffer, the inner one for a return other than 0. -/
namespace Citrusleaf
open Lib

/-- The functions of zlib that the client calls, with the bytes they write if they succeed.
A number of bytes that may be written is given to each; `inflate` is called once for a whole
stream, with `Z_FINISH`. -/
structure Zlib where
  compress2 : Nat → List UInt8 → Int → Option (List UInt8)
  uncompress : Nat → List UInt8 → Option (List UInt8)
  inflateInit : Bool
  inflate : List UInt8 → Nat → Option (List UInt8)

def zDefaultCompression : Int := -1
def compressionZlib : Nat := 1

variable (zlib : Zlib) (malloc : Malloc)

/-- The new bytes of `out_buf`. Any other type of compression leaves them as they are. -/
def cfCompress (compressionType : Nat) (buf : List UInt8) (outBufLen : Nat) : Option (List UInt8) :=
  if compressionType = compressionZlib then zlib.compress2 outBufLen buf zDefaultCompression else some []

def cfDecompress (compressionType : Nat) (buf : List UInt8) (outBufLen : Nat) : Option (List UInt8) :=
  if compressionType = compressionZlib then zlib.uncompress outBufLen buf else some []

def callocBlock (n : Nat) : Option (List UInt8) := (mallocBlock malloc n).map fun block => List.replicate block.length 0

/-- A `cl_comp_proto`: `proto` (8), `org_sz` (8, in host order), `data`. -/
def cfPacketCompression (buf : List UInt8) : Option (Option (List UInt8)) :=
  match cfCompress zlib compressionZlib buf stackBufSz with
  | none => some none
  | some data =>
    match callocBlock malloc (16 + data.length) with
    | none => some none
    | some packet => do
      let packet ← writeBytes packet 0
        (ClProto.bytes ⟨clProtoVersion,clProtoTypeClMsgCompressed,16 + data.length - 8⟩)
      let packet ← clProtoSwap packet 0
      let packet ← writeBytes packet 8 (leBytes 8 buf.length)
      return some (← writeBytes packet 16 data)

/-- The packet is read with its header in host order. The new block is not checked. -/
def cfPacketDecompression (buf : List UInt8) : Option (Option (List UInt8)) := do
  let proto ← readProto buf 0
  if proto.type ≠ clProtoTypeClMsgCompressed then return none
  else
    let orgSz ← (readBytes buf 8 8).map leNat
    -- `proto.sz` has 48 bits, and so has what is left of it
    let bufSz := (proto.sz + (2 ^ 48 - 8)) % 2 ^ 48
    let decompressedPacket ← callocBlock malloc orgSz
    match cfDecompress zlib compressionZlib (← readBytes buf 16 bufSz) orgSz with
    | none => return none
    | some data => return some (← writeBytes decompressedPacket 0 data)

/-- The new block and `out_sz`. `avail_in` and `avail_out` are of type `uInt`. -/
def batchDecompress (inBuf : List UInt8) : Option (Option (List UInt8 × Nat)) :=
  if ¬zlib.inflateInit then some none
  else do
    let bSzAlloc ← (readBytes inBuf 0 8).map leNat
    match mallocBlock malloc bSzAlloc with
    | none => return none
    | some b =>
      let availIn := (inBuf.length + (2 ^ 64 - 8)) % 2 ^ 32
      let availOut := bSzAlloc % 2 ^ 32
      match zlib.inflate (← readBytes inBuf 8 availIn) availOut with
      | none => return none
      | some data => return some (← writeBytes b 0 data,bSzAlloc - (availOut - data.length))

/-- What `do_batch_monte` reads messages from once a proto is decompressed. -/
def batchInflate (inBuf : List UInt8) : Option (List UInt8) := do
  let (outBuf,outSz) ← (batchDecompress zlib malloc inBuf).join
  readBytes outBuf 0 outSz

end Citrusleaf
