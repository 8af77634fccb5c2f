import Citrusleaf.PacketCompression
import Citrusleaf.StreamFrames

/-! A compressed packet is its header, the length of the request and the compressed bytes, and
both functions that decompress find the three where they were put. -/
namespace Citrusleaf
open Lib

/-- What zlib documents: output stays inside its buffer, `uncompress` and `inflate` undo
`compress2` where the room is enough, and 1032 is the largest factor of compression. -/
structure Zlib.Inverse (zlib : Zlib) : Prop where
  inside : zlib.compress2 room source level = some data → data.length ≤ room
  ratio : zlib.compress2 room source level = some data → source.length ≤ 1032 * data.length
  init : zlib.inflateInit = true
  uncompress : zlib.compress2 room source level = some data → source.length ≤ space →
    zlib.uncompress space data = some source
  inflate : zlib.compress2 room source level = some data → source.length ≤ space →
    zlib.inflate data space = some source

variable {zlib : Zlib} {malloc : Malloc} {buf data packet : List UInt8}

/-- The header of a packet with so much data. -/
def compHeader (data : List UInt8) : ClProto := ⟨clProtoVersion,clProtoTypeClMsgCompressed,16 + data.length - 8⟩

def compPacket (buf data : List UInt8) : List UInt8 := (compHeader data).wire ++ (leBytes 8 buf.length ++ data)

theorem callocBlock_zeros (given : callocBlock malloc n = some block) : block = List.replicate n 0 := by
  obtain ⟨garbage,made,rfl⟩ := Option.map_eq_some_iff.mp given
  obtain ⟨bytes,_,rfl⟩ := Option.map_eq_some_iff.mp made
  rw [List.length_map,List.length_range]

theorem callocBlock_gives (gives : ∀ n, (malloc n).isSome) (n : Nat) : callocBlock malloc n = some (List.replicate n 0) := by
  obtain ⟨block,given,length⟩ := mallocBlock_gives gives n
  rw [callocBlock,given,← length]
  rfl

/-- The writes into a new packet. -/
theorem compPacket_written (buf data : List UInt8) :
    (do
      let packet ← writeBytes (List.replicate (16 + data.length) 0) 0 (compHeader data).bytes
      let packet ← clProtoSwap packet 0
      let packet ← writeBytes packet 8 (leBytes 8 buf.length)
      return some (← writeBytes packet 16 data)) = some (some (compPacket buf data)) := by
  have header : (compHeader data).bytes.length = 8 := by simp [ClProto.bytes]
  have whole : List.replicate (16 + data.length) (0 : UInt8) =
      List.replicate 8 0 ++ (List.replicate 8 0 ++ List.replicate data.length 0) := by
    rw [← List.replicate_add,← List.replicate_add,← Nat.add_assoc]
  have one := writeBytes_at [] (List.replicate 8 0) (List.replicate 8 0 ++ List.replicate data.length 0)
    (compHeader data).bytes rfl (by rw [header,List.length_replicate])
  have two := clProtoSwap_bytes (compHeader data) (List.replicate 8 0 ++ List.replicate data.length 0)
  have three := writeBytes_at (compHeader data).wire (List.replicate 8 0) (List.replicate data.length 0)
    (leBytes 8 buf.length) (ClProto.wire_length _).symm (by rw [List.length_replicate,leBytes_length])
  have four := writeBytes_at ((compHeader data).wire ++ leBytes 8 buf.length) (List.replicate data.length 0) [] data
    (p := 16) (by rw [List.length_append,ClProto.wire_length,leBytes_length]) (List.length_replicate ..)
  rw [List.append_nil,List.append_nil,List.append_assoc,List.append_assoc] at four
  rw [whole]
  exact bind_given one (bind_given two (bind_given three (bind_given four rfl)))

/-- A return of 0 leaves such a packet. -/
theorem cfPacketCompression_packet (done : cfPacketCompression zlib malloc buf = some (some packet)) :
    ∃ data, zlib.compress2 stackBufSz buf zDefaultCompression = some data ∧ packet = compPacket buf data := by
  rw [cfPacketCompression,cfCompress,if_pos rfl] at done
  split at done
  · cases done
  · rename_i data compressed
    split at done
    · cases done
    · rename_i block given
      obtain rfl := callocBlock_zeros given
      have written := (compPacket_written buf data).symm.trans done
      exact ⟨data,compressed,(Option.some.inj (Option.some.inj written)).symm⟩

/-! ### Reading a packet back -/

theorem compPacket_length (buf data : List UInt8) : (compPacket buf data).length = 16 + data.length := by
  rw [compPacket,List.length_append,List.length_append,ClProto.wire_length,leBytes_length]
  omega

/-- What a request of this size and its compressed bytes are short for. -/
theorem Zlib.Inverse.sizes (inverse : zlib.Inverse) (compressed : zlib.compress2 stackBufSz buf zDefaultCompression = some data) :
    data.length ≤ 16384 ∧ buf.length < 2 ^ 32 := by
  have inside : data.length ≤ 1024 * 16 := inverse.inside compressed
  have ratio := inverse.ratio compressed
  omega

theorem leNat_size (small : buf.length < 2 ^ 32) : leNat (leBytes 8 buf.length) = buf.length :=
  leNat_leBytes_of_lt (Nat.lt_trans small (by decide))

theorem cfPacketDecompression_packet (inverse : zlib.Inverse) (gives : ∀ n, (malloc n).isSome)
    (compressed : zlib.compress2 stackBufSz buf zDefaultCompression = some data) :
    cfPacketDecompression zlib malloc ((compHeader data).bytes ++ (leBytes 8 buf.length ++ data)) = some (some buf) := by
  obtain ⟨inside,small⟩ := inverse.sizes compressed
  have header : (compHeader data).bytes.length = 8 := by simp [ClProto.bytes]
  have proto := readProto_bytes (compHeader data) (leBytes 8 buf.length ++ data) (by rw [compHeader]; dsimp only; omega)
  have size := readBytes_at (compHeader data).bytes (leBytes 8 buf.length) data header.symm (leBytes_length 8 _).symm
  have length : ((compHeader data).sz + (2 ^ 48 - 8)) % 2 ^ 48 = data.length := by
    rw [compHeader]
    dsimp only
    omega
  have body := readBytes_at ((compHeader data).bytes ++ leBytes 8 buf.length) data [] (p := 16)
    (by rw [List.length_append,header,leBytes_length]) length
  have written := writeBytes_at [] (List.replicate buf.length 0) [] buf rfl (List.length_replicate ..)
  rw [List.append_nil,List.append_assoc] at body
  rw [List.nil_append,List.append_nil,List.nil_append,List.append_nil] at written
  unfold cfPacketDecompression
  apply bind_given proto
  have type : (compHeader data).type = clProtoTypeClMsgCompressed := rfl
  rw [type,if_neg (not_not.mpr rfl),size,Option.map_some,leNat_size small,Option.bind_eq_bind,Option.bind_some]
  apply bind_given (callocBlock_gives gives buf.length)
  apply bind_given body
  rw [cfDecompress,if_pos rfl,inverse.uncompress compressed (Nat.le_refl _)]
  exact bind_given written rfl

theorem batchDecompress_packet (inverse : zlib.Inverse) (gives : ∀ n, (malloc n).isSome)
    (compressed : zlib.compress2 stackBufSz buf zDefaultCompression = some data) :
    batchDecompress zlib malloc (leBytes 8 buf.length ++ data) = some (some (buf,buf.length)) := by
  obtain ⟨inside,small⟩ := inverse.sizes compressed
  obtain ⟨block,given,length⟩ := mallocBlock_gives gives buf.length
  have size := readBytes_at [] (leBytes 8 buf.length) data (p := 0) rfl (leBytes_length 8 _).symm
  have availIn : ((leBytes 8 buf.length ++ data).length + (2 ^ 64 - 8)) % 2 ^ 32 = data.length := by
    rw [List.length_append,leBytes_length]
    omega
  have body := readBytes_at (leBytes 8 buf.length) data [] (p := 8) (leBytes_length 8 _).symm availIn
  have written := writeBytes_at [] block [] buf rfl length
  rw [List.nil_append] at size
  rw [List.append_nil] at body
  rw [List.nil_append,List.append_nil,List.nil_append,List.append_nil] at written
  have fits : buf.length ≤ buf.length % 2 ^ 32 := by omega
  rw [batchDecompress,if_neg (not_not.mpr inverse.init),size,Option.map_some,leNat_size small,Option.bind_eq_bind,
    Option.bind_some,given]
  dsimp only
  apply bind_given body
  rw [inverse.inflate compressed fits]
  refine bind_given written ?_
  rw [Nat.mod_eq_of_lt small,Nat.sub_self,Nat.sub_zero]
  rfl

/-- A packet decodes to what was compressed, through either function. -/
theorem compression_round_trip (inverse : zlib.Inverse) {other : Malloc} (gives : ∀ n, (other n).isSome)
    (done : cfPacketCompression zlib malloc buf = some (some packet)) :
    (∃ swapped proto, clProtoSwap packet 0 = some swapped ∧ readProto swapped 0 = some proto ∧
      proto.type = clProtoTypeClMsgCompressed ∧ proto.sz = packet.length - 8 ∧
      cfPacketDecompression zlib other swapped = some (some buf)) ∧
    batchDecompress zlib other (packet.drop 8) = some (some (buf,buf.length)) := by
  obtain ⟨data,compressed,rfl⟩ := cfPacketCompression_packet done
  obtain ⟨inside,_⟩ := inverse.sizes compressed
  have swapped := clProtoSwap_wire (compHeader data) (leBytes 8 buf.length ++ data)
  have proto := readProto_bytes (compHeader data) (leBytes 8 buf.length ++ data) (by rw [compHeader]; dsimp only; omega)
  refine ⟨⟨_,compHeader data,swapped,proto,rfl,?_,cfPacketDecompression_packet inverse gives compressed⟩,?_⟩
  · rw [compPacket_length]
    rfl
  · have behind : (compPacket buf data).drop 8 = leBytes 8 buf.length ++ data :=
      List.drop_left' (ClProto.wire_length _)
    rw [behind]
    exact batchDecompress_packet inverse gives compressed

/-- Some zlib on the request of one byte `1`, and no other. -/
def zlibSample : Zlib where
  compress2 room source level :=
    if source = [1] ∧ level = zDefaultCompression ∧ 9 ≤ room then some [120,156,99,4,0,0,2,0,2] else none
  uncompress space data := if data = [120,156,99,4,0,0,2,0,2] ∧ 1 ≤ space then some [1] else none
  inflateInit := true
  inflate data space := if data = [120,156,99,4,0,0,2,0,2] ∧ 1 ≤ space then some [1] else none

theorem zlibSample_compress2 (done : zlibSample.compress2 room source level = some data) :
    source = [1] ∧ data = [120,156,99,4,0,0,2,0,2] ∧ 9 ≤ room := by
  obtain ⟨⟨one,_,room⟩,same⟩ := Option.ite_none_right_eq_some.mp done
  exact ⟨one,(Option.some.inj same).symm,room⟩

theorem zlibSample_inverse : zlibSample.Inverse where
  inside done := by
    obtain ⟨rfl,rfl,room⟩ := zlibSample_compress2 done
    exact room
  ratio done := by
    obtain ⟨rfl,rfl,_⟩ := zlibSample_compress2 done
    decide
  init := rfl
  uncompress done space := by
    obtain ⟨rfl,rfl,_⟩ := zlibSample_compress2 done
    exact if_pos ⟨rfl,space⟩
  inflate done space := by
    obtain ⟨rfl,rfl,_⟩ := zlibSample_compress2 done
    exact if_pos ⟨rfl,space⟩

theorem compression_round_trip_sample :
    let packet := compPacket [1] [120,156,99,4,0,0,2,0,2]
    cfPacketCompression zlibSample (fun _ => some fun _ => 7) [1] = some (some packet) ∧
      batchDecompress zlibSample (fun _ => some fun _ => 7) (packet.drop 8) = some (some ([1],1)) := by
  intro packet
  have done : cfPacketCompression zlibSample (fun _ => some fun _ => 7) [1] = some (some packet) := by decide +kernel
  exact ⟨done,(compression_round_trip zlibSample_inverse (fun _ => rfl) done).2⟩

/-! ### Compressed protos of a batch -/

theorem batchInflate_packet (inverse : zlib.Inverse) (gives : ∀ n, (malloc n).isSome)
    (compressed : zlib.compress2 stackBufSz buf zDefaultCompression = some data) :
    batchInflate zlib malloc (leBytes 8 buf.length ++ data) = some buf := by
  have read := readBytes_at [] buf [] (p := 0) rfl rfl
  rw [List.nil_append,List.append_nil] at read
  rw [batchInflate,batchDecompress_packet inverse gives compressed]
  exact read

/-- A packet made of messages is a well-formed proto for the read loop of a batch. -/
theorem compressed_wellFormed (inverse : zlib.Inverse) {other : Malloc} (gives : ∀ n, (other n).isSome) (cb : Bool)
    {messages : List StreamMessage} (formed : ∀ msg ∈ messages, msg.WellFormed)
    (done : cfPacketCompression zlib malloc (messages.flatMap StreamMessage.wire) = some (some packet)) :
    ∃ proto : StreamProto, proto.messages = messages ∧ proto.wire = packet ∧
      proto.WellFormed (doBatchMonte (batchInflate zlib other) cb) := by
  obtain ⟨data,compressed,rfl⟩ := cfPacketCompression_packet done
  obtain ⟨inside,small⟩ := inverse.sizes compressed
  refine ⟨⟨messages,some (leBytes 8 (messages.flatMap StreamMessage.wire).length ++ data)⟩,rfl,?_,formed,small,?_,?_⟩
  · have size : (leBytes 8 (messages.flatMap StreamMessage.wire).length ++ data).length = 16 + data.length - 8 := by
      rw [List.length_append,leBytes_length]
      omega
    rw [StreamProto.wire,StreamProto.header,StreamProto.payload,Option.getD_some,size]
    rfl
  · rw [StreamProto.payload,Option.getD_some,List.length_append,leBytes_length]
    omega
  · intro payload packed
    obtain rfl := Option.some.inj packed
    exact ⟨_,rfl,batchInflate_packet inverse gives compressed⟩

end Citrusleaf
