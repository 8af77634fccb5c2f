import Citrusleaf.CompileLayout
import Citrusleaf.SocketWrite
import Citrusleaf.Lib.Cells
import Citrusleaf.Lib.CStrings

/-! `cl_cluster_node_get_info`. One buffer takes the request, the header of the response and, if there is
room, its body, each over what was there before; the byte behind the body is left to chance. `none` stands
for an access outside the buffer or the block. -/
namespace Citrusleaf
open Lib

def infoStackBufSize : Nat := 16 * 1024

def clProtoTypeInfo : UInt8 := 1

/-- What meets a request: whether `cl_cluster_node_prep_info_fd` finds a socket, what the writes and the
reads on it do, and what the node sends. -/
structure InfoExchange where
  prepared : Bool
  write : WriteAttempt
  stream : List UInt8
  header : ReadAttempt
  body : ReadAttempt

/-- The pointer that is returned. -/
inductive InfoRbuf where
  | null
  | stack
  | heap (rbuf : List UInt8)

/-- The pointer, the buffer of the caller, and whether the socket was closed. -/
structure InfoReturn where
  rbuf : InfoRbuf
  stackBuf : List UInt8
  closed : Bool

/-- The request in the buffer. -/
def infoRequest (names stackBuf : List UInt8) : Option (List UInt8) := do
  let buf ← writeBytes stackBuf 0 (ClProto.bytes ⟨clProtoVersion,clProtoTypeInfo,names.length⟩)
  writeBytes (← clProtoSwap buf 0) 8 names

/-- The return value of the read of the body into a block, and the block, which is terminated if that is zero. -/
def readInfoBody (timeoutMs : Nat) (body : ReadAttempt) (stream : List UInt8) (sz : Nat) (rbuf : List UInt8) :
    Option (Nat × List UInt8) := do
  let read := cfSocketReadTimeout stream sz 0 timeoutMs body
  let rbuf ← writeBytes rbuf 0 read.buf
  if read.rv ≠ 0 then return (read.rv,rbuf)
  -- rbuf_size is one more than the size of the body
  return (0,← writeBytes rbuf (sz + 1) [0])

/-- From the sanity check of the size on. -/
def infoResponse (malloc : Malloc) (timeoutMs : Nat) (body : ReadAttempt) (stream : List UInt8) (sz : Nat)
    (stackBuf : List UInt8) : Option InfoReturn :=
  if sz = 0 ∨ sz > 512 * 1024 then some ⟨.null,stackBuf,true⟩
  else if sz + 1 > infoStackBufSize then
    match mallocBlock malloc (sz + 1) with
    | none => some ⟨.null,stackBuf,true⟩
    | some rbuf => do
      let (rv,rbuf) ← readInfoBody timeoutMs body stream sz rbuf
      if rv ≠ 0 then return ⟨.null,stackBuf,true⟩
      return ⟨.heap rbuf,stackBuf,false⟩
  else do
    let (rv,stackBuf) ← readInfoBody timeoutMs body stream sz stackBuf
    if rv ≠ 0 then return ⟨.null,stackBuf,true⟩
    return ⟨.stack,stackBuf,false⟩

def clClusterNodeGetInfo (malloc : Malloc) (names : List UInt8) (timeoutMs : Nat) (stackBuf : List UInt8)
    (x : InfoExchange) : Option InfoReturn := do
  if x.prepared = false then return ⟨.null,stackBuf,false⟩
  let stackBuf ← infoRequest names stackBuf
  let request ← readBytes stackBuf 0 (8 + names.length)
  if (cfSocketWriteTimeout request 0 timeoutMs x.write).rv ≠ 0 then return ⟨.null,stackBuf,true⟩
  -- the header goes over the request
  let header := cfSocketReadTimeout x.stream 8 0 timeoutMs x.header
  let stackBuf ← writeBytes stackBuf 0 header.buf
  if header.rv ≠ 0 then return ⟨.null,stackBuf,true⟩
  let stackBuf ← clProtoSwap stackBuf 0
  let sz ← (readBytes stackBuf 2 6).map leNat
  infoResponse malloc timeoutMs x.body header.left sz stackBuf

def infoStrCheck : CString := text "node\npartition-generation\nservices\n"

def infoStrGetReplicas : CString := text "partition-generation\nreplicas-master\nreplicas-prole\n"

/-! ### What a response is -/

/-- The header of the response on the wire, its size, and the body. -/
def InfoExchange.head (x : InfoExchange) : List UInt8 := x.stream.take 8

def InfoExchange.sz (x : InfoExchange) : Nat := beNat (x.head.drop 2)

def InfoExchange.reply (x : InfoExchange) : List UInt8 := (x.stream.drop 8).take x.sz

/-- The request on the wire. -/
def infoWire (names : List UInt8) : List UInt8 := ClProto.wire ⟨clProtoVersion,clProtoTypeInfo,names.length⟩ ++ names

/-- The request goes out, a response of a legal size comes in, and there is memory for it. -/
structure InfoExchange.Answered (malloc : Malloc) (names : List UInt8) (timeoutMs : Nat) (x : InfoExchange) : Prop where
  prepared : x.prepared = true
  sent : (cfSocketWriteTimeout (infoWire names) 0 timeoutMs x.write).rv = 0
  header : (cfSocketReadTimeout x.stream 8 0 timeoutMs x.header).rv = 0
  some : 0 < x.sz
  most : x.sz ≤ 512 * 1024
  memory : infoStackBufSize < x.sz + 1 → (malloc (x.sz + 1)).isSome
  body : (cfSocketReadTimeout (x.stream.drop 8) x.sz 0 timeoutMs x.body).rv = 0

/-- The buffer just before the body is read: the header in host order over the request, and behind the request
what was there before. -/
def staleBuf (names : List UInt8) (x : InfoExchange) (stackBuf : List UInt8) : List UInt8 :=
  (x.head.take 2 ++ (x.head.drop 2).reverse) ++ (names ++ stackBuf.drop (8 + names.length))

/-- The block behind the pointer. -/
def InfoReturn.block (r : InfoReturn) : Option (List UInt8) :=
  match r.rbuf with
  | .null => none
  | .stack => some r.stackBuf
  | .heap rbuf => some rbuf

/-- A block starts with a text that ends where it should. -/
structure Terminated (mem body : List UInt8) : Prop where
  front : mem.take body.length = body
  last : mem[body.length]? = some 0
  text : mem.takeWhile (· ≠ 0) = body.takeWhile (· ≠ 0)

/-- Every write is inside, and a pointer that is returned points at the terminated body. -/
def InfoPromise (result : Option InfoReturn) (body : List UInt8) : Prop :=
  ∃ r, result = some r ∧ ∀ mem, r.block = some mem → Terminated mem body

/-! ### The buffer up to the body -/

section

variable {malloc : Malloc} {names stackBuf rbuf stream mem bytes t : List UInt8} {timeoutMs sz : Nat} {body : ReadAttempt}
  {x : InfoExchange}

theorem infoWire_length (names : List UInt8) : (infoWire names).length = 8 + names.length := by
  rw [infoWire,List.length_append,ClProto.wire_length]

theorem infoWire_read (names rest : List UInt8) : readBytes (infoWire names ++ rest) 0 (8 + names.length) = some (infoWire names) :=
  readBytes_at [] (infoWire names) rest rfl (infoWire_length names).symm

theorem infoRequest_eq (room : 8 + names.length ≤ stackBuf.length) :
    infoRequest names stackBuf = some (infoWire names ++ stackBuf.drop (8 + names.length)) := by
  have eight : (ClProto.bytes ⟨clProtoVersion,clProtoTypeInfo,names.length⟩).length = 8 := by simp [ClProto.bytes]
  have first := writeBytes_front stackBuf (ClProto.bytes ⟨clProtoVersion,clProtoTypeInfo,names.length⟩) (by omega)
  have second := clProtoSwap_bytes ⟨clProtoVersion,clProtoTypeInfo,names.length⟩ (stackBuf.drop 8)
  have third := writeBytes_at (ClProto.wire ⟨clProtoVersion,clProtoTypeInfo,names.length⟩)
    ((stackBuf.drop 8).take names.length) ((stackBuf.drop 8).drop names.length) names (ClProto.wire_length _).symm
    (List.length_take_of_le (by rw [List.length_drop]; omega))
  rw [List.take_append_drop,List.drop_drop] at third
  rw [eight] at first
  rw [infoRequest,first]
  simp only [Option.bind_eq_bind,Option.bind_some,second,third,infoWire,List.append_assoc]

theorem header_head (header : (cfSocketReadTimeout x.stream 8 0 timeoutMs x.header).rv = 0) : x.head.length = 8 := by
  have reads := socketRead_reads x.stream 8 0 timeoutMs x.header
  rw [InfoExchange.head,← (reads.take header).1,reads.full header]

/-- Once the header is read, the rest works on the buffer that the request has left. -/
theorem get_info_eq (malloc : Malloc) (timeoutMs : Nat) (room : 8 + names.length ≤ stackBuf.length)
    (prepared : x.prepared = true) (sent : (cfSocketWriteTimeout (infoWire names) 0 timeoutMs x.write).rv = 0)
    (header : (cfSocketReadTimeout x.stream 8 0 timeoutMs x.header).rv = 0) :
    clClusterNodeGetInfo malloc names timeoutMs stackBuf x =
      infoResponse malloc timeoutMs x.body (x.stream.drop 8) x.sz (staleBuf names x stackBuf) := by
  have reads := socketRead_reads x.stream 8 0 timeoutMs x.header
  obtain ⟨buf,left⟩ := reads.take header
  have eight := header_head header
  have request := infoWire_read names (stackBuf.drop (8 + names.length))
  have written := writeBytes_front (infoWire names ++ stackBuf.drop (8 + names.length)) x.head (by
    rw [List.length_append,infoWire_length,eight]
    omega)
  have behind : (infoWire names ++ stackBuf.drop (8 + names.length)).drop 8 = names ++ stackBuf.drop (8 + names.length) := by
    rw [infoWire,List.append_assoc]
    exact List.drop_left' (ClProto.wire_length _)
  have two : (x.head.take 2).length = 2 := List.length_take_of_le (by omega)
  have six : (x.head.drop 2).length = 6 := by rw [List.length_drop,eight]
  have swapped := clProtoSwap_at (p := 0) [] (x.head.take 2) (x.head.drop 2) (names ++ stackBuf.drop (8 + names.length)) rfl two six
  have sz := readBytes_at (x.head.take 2) (x.head.drop 2).reverse (names ++ stackBuf.drop (8 + names.length)) two.symm
    (by rw [List.length_reverse,six] : 6 = _)
  rw [eight,behind] at written
  rw [List.nil_append,List.nil_append,← List.append_assoc,List.take_append_drop] at swapped
  rw [clClusterNodeGetInfo,if_neg (by rw [prepared]; decide),infoRequest_eq room]
  simp only [Option.bind_eq_bind,Option.bind_some,request,sent,header,ne_eq,not_true,if_false,buf,left]
  rw [show x.stream.take 8 = x.head from rfl,written]
  simp only [Option.bind_some,swapped,sz,Option.map_some]
  rw [staleBuf,List.append_assoc]
  rfl

/-- Up to there nothing is written outside, and what fails returns null. -/
theorem get_info_null (malloc : Malloc) (room : 8 + names.length ≤ stackBuf.length)
    (fails : ¬(x.prepared = true ∧ (cfSocketWriteTimeout (infoWire names) 0 timeoutMs x.write).rv = 0 ∧
      (cfSocketReadTimeout x.stream 8 0 timeoutMs x.header).rv = 0)) :
    ∃ r, clClusterNodeGetInfo malloc names timeoutMs stackBuf x = some r ∧ r.rbuf = .null := by
  have request := infoWire_read names (stackBuf.drop (8 + names.length))
  have reads := socketRead_reads x.stream 8 0 timeoutMs x.header
  have written := writeBytes_front (infoWire names ++ stackBuf.drop (8 + names.length))
    (cfSocketReadTimeout x.stream 8 0 timeoutMs x.header).buf (by
      rw [List.length_append,infoWire_length]
      exact Nat.le_trans reads.most (by omega))
  rw [clClusterNodeGetInfo]
  split
  · exact ⟨_,rfl,rfl⟩
  rename_i prepared
  rw [infoRequest_eq room]
  simp only [Option.bind_eq_bind,Option.bind_some,request]
  split
  · exact ⟨_,rfl,rfl⟩
  rename_i sent
  simp only [written,Option.bind_some]
  split
  · exact ⟨_,rfl,rfl⟩
  · rename_i header
    exact absurd ⟨by simpa using prepared,not_not.mp sent,not_not.mp header⟩ fails

/-! ### The body -/

theorem readInfoBody_failed (sized : sz ≤ rbuf.length) (failed : (cfSocketReadTimeout stream sz 0 timeoutMs body).rv ≠ 0) :
    ∃ rv after, readInfoBody timeoutMs body stream sz rbuf = some (rv,after) ∧ rv ≠ 0 := by
  have most := (socketRead_reads stream sz 0 timeoutMs body).most
  have written := writeBytes_front rbuf (cfSocketReadTimeout stream sz 0 timeoutMs body).buf (by omega)
  refine ⟨_,(cfSocketReadTimeout stream sz 0 timeoutMs body).buf ++
    rbuf.drop (cfSocketReadTimeout stream sz 0 timeoutMs body).buf.length,?_,failed⟩
  simp only [readInfoBody,written,Option.bind_eq_bind,Option.bind_some,ne_eq,failed,not_false_eq_true,if_true]
  rfl

/-- The body goes over the front of the block, the terminator to the second byte behind it. -/
theorem readInfoBody_done (sized : sz ≤ rbuf.length) (done : (cfSocketReadTimeout stream sz 0 timeoutMs body).rv = 0) :
    readInfoBody timeoutMs body stream sz rbuf =
      (writeBytes (stream.take sz ++ rbuf.drop sz) (sz + 1) [0]).map fun rbuf => (0,rbuf) := by
  have reads := socketRead_reads stream sz 0 timeoutMs body
  have size := reads.full done
  have written := writeBytes_front rbuf (cfSocketReadTimeout stream sz 0 timeoutMs body).buf (by omega)
  rw [(reads.take done).1] at size written
  rw [size] at written
  simp only [readInfoBody,(reads.take done).1,written,Option.bind_eq_bind,Option.bind_some,ne_eq,done,not_true,if_false]
  cases writeBytes (stream.take sz ++ rbuf.drop sz) (sz + 1) [0] <;> rfl

/-- A text ends where a zero stands behind it. -/
theorem terminated_iff (front : mem.take bytes.length = bytes) : Terminated mem bytes ↔ mem[bytes.length]? = some 0 := by
  refine ⟨Terminated.last,fun last => ⟨front,last,?_⟩⟩
  obtain ⟨inside,zero⟩ := List.getElem?_eq_some_iff.mp last
  have parts : mem = bytes ++ 0 :: mem.drop (bytes.length + 1) := by
    have cut := List.take_append_drop bytes.length mem
    rw [front,List.drop_eq_getElem_cons inside,zero] at cut
    exact cut.symm
  rw [parts,takeWhile_zero]

/-- The text ends where the body does exactly if there is room for a zero one byte further on, and one before it. -/
theorem readInfoBody_terminated (sized : sz ≤ rbuf.length)
    (done : (cfSocketReadTimeout stream sz 0 timeoutMs body).rv = 0) :
    (∃ after, readInfoBody timeoutMs body stream sz rbuf = some (0,after) ∧ Terminated after (stream.take sz)) ↔
      sz + 1 < rbuf.length ∧ rbuf[sz]? = some 0 := by
  have reads := socketRead_reads stream sz 0 timeoutMs body
  have size : (stream.take sz).length = sz := (reads.take done).1 ▸ reads.full done
  have whole : (stream.take sz ++ rbuf.drop sz).length = rbuf.length := by
    rw [List.length_append,size,List.length_drop]
    omega
  have behind : (stream.take sz ++ rbuf.drop sz)[sz]? = rbuf[sz]? := by
    rw [List.getElem?_append_right (by omega),List.getElem?_drop,size,Nat.sub_self,Nat.add_zero]
  rw [readInfoBody_done sized done]
  cases written : writeBytes (stream.take sz ++ rbuf.drop sz) (sz + 1) [0] with
  | none =>
    refine iff_of_false (by simp) fun fits => ?_
    rw [writeBytes,if_pos (by rw [whole]; exact fits.1)] at written
    cases written
  | some t =>
    have inside := (writeBytes_length written).2
    have keeps := writeBytes_keeps written
    have front : t.take (stream.take sz).length = stream.take sz := by
      rw [size,(keeps.earlier (Nat.le_succ sz)).head]
      exact List.take_left' size
    have last : t[sz]? = rbuf[sz]? := (keeps.get (Nat.lt_succ_self sz)).trans behind
    rw [whole] at inside
    have terminated : Terminated t (stream.take sz) ↔ rbuf[sz]? = some 0 := by
      rw [terminated_iff front,size,last]
    rw [and_iff_right (show sz + 1 < rbuf.length from inside),← terminated]
    constructor
    · rintro ⟨after,same,holds⟩
      obtain ⟨_,rfl⟩ := Prod.mk.inj (Option.some.inj same)
      exact holds
    · intro holds
      exact ⟨t,rfl,holds⟩

theorem promise_null (null : r.rbuf = .null) : InfoPromise (some r) bytes := by
  refine ⟨r,rfl,fun mem there => ?_⟩
  rw [InfoReturn.block,null] at there
  cases there

/-- What is returned with a block that the body was read into. -/
theorem promise_block (give null : List UInt8 → InfoReturn) (gives : ∀ rbuf, (give rbuf).block = some rbuf)
    (sized : sz ≤ rbuf.length) (done : (cfSocketReadTimeout stream sz 0 timeoutMs body).rv = 0) :
    InfoPromise ((readInfoBody timeoutMs body stream sz rbuf).bind fun (rv,rbuf) =>
        if rv ≠ 0 then some (null rbuf) else some (give rbuf)) (stream.take sz) ↔
      sz + 1 < rbuf.length ∧ rbuf[sz]? = some 0 := by
  rw [← readInfoBody_terminated sized done,readInfoBody_done sized done]
  cases writeBytes (stream.take sz ++ rbuf.drop sz) (sz + 1) [0] with
  | none => simp [InfoPromise]
  | some t => simp [InfoPromise,gives]

theorem infoResponse_null (malloc : Malloc) (sized : sz < infoStackBufSize → sz ≤ stackBuf.length)
    (fails : ¬(0 < sz ∧ sz ≤ 512 * 1024 ∧ (infoStackBufSize < sz + 1 → (malloc (sz + 1)).isSome) ∧
      (cfSocketReadTimeout stream sz 0 timeoutMs body).rv = 0)) :
    ∃ r, infoResponse malloc timeoutMs body stream sz stackBuf = some r ∧ r.rbuf = .null := by
  rw [infoResponse]
  split
  · exact ⟨_,rfl,rfl⟩
  rename_i legal
  split
  · rename_i large
    cases given : mallocBlock malloc (sz + 1) with
    | none => exact ⟨_,rfl,rfl⟩
    | some rbuf =>
      have memory : (malloc (sz + 1)).isSome := by
        rw [← Option.isSome_map,← mallocBlock,given]
        rfl
      have room : sz ≤ rbuf.length := by
        rw [mallocBlock_length given]
        omega
      obtain ⟨rv,after,read,failed⟩ := readInfoBody_failed room fun done => fails ⟨by omega,by omega,fun _ => memory,done⟩
      refine ⟨⟨.null,stackBuf,true⟩,?_,rfl⟩
      simp [read,failed]
  · rename_i small
    have room : sz ≤ stackBuf.length := sized (by omega)
    obtain ⟨rv,after,read,failed⟩ := readInfoBody_failed room fun done =>
      fails ⟨by omega,by omega,fun large => absurd large small,done⟩
    refine ⟨⟨.null,after,true⟩,?_,rfl⟩
    simp [read,failed]

theorem staleBuf_length (x : InfoExchange) (head : x.head.length = 8) (room : 8 + names.length ≤ stackBuf.length) :
    (staleBuf names x stackBuf).length = stackBuf.length := by
  simp only [staleBuf,List.length_append,List.length_take,List.length_reverse,List.length_drop,head]
  omega

/-- A response that comes back whole. -/
theorem answered_promise (size : stackBuf.length = infoStackBufSize) (room : 8 + names.length ≤ stackBuf.length)
    (answered : x.Answered malloc names timeoutMs) :
    InfoPromise (clClusterNodeGetInfo malloc names timeoutMs stackBuf x) x.reply ↔
      x.sz + 1 < infoStackBufSize ∧ (staleBuf names x stackBuf)[x.sz]? = some 0 := by
  have sized := (staleBuf_length x (header_head answered.header) room).trans size
  have legal : ¬(x.sz = 0 ∨ x.sz > 512 * 1024) := not_or.mpr ⟨Nat.ne_of_gt answered.some,Nat.not_lt.mpr answered.most⟩
  rw [get_info_eq malloc timeoutMs room answered.prepared answered.sent answered.header,infoResponse,if_neg legal]
  split
  · rename_i large
    obtain ⟨garbage,memory⟩ := Option.isSome_iff_exists.mp (answered.memory large)
    have given : mallocBlock malloc (x.sz + 1) = some ((List.range (x.sz + 1)).map garbage) := by
      rw [mallocBlock,memory]
      rfl
    have promise := promise_block (fun rbuf => ⟨.heap rbuf,staleBuf names x stackBuf,false⟩)
      (fun _ => ⟨.null,staleBuf names x stackBuf,true⟩) (fun _ => rfl)
      (show x.sz ≤ ((List.range (x.sz + 1)).map garbage).length by simp) answered.body
    rw [given]
    -- the terminator goes behind the block, whatever its size
    refine promise.trans (iff_of_false (fun fits => ?_) fun fits => ?_)
    · rw [List.length_map,List.length_range] at fits
      exact Nat.lt_irrefl _ fits.1
    · omega
  · rename_i small
    have promise := promise_block (fun rbuf => ⟨.stack,rbuf,false⟩) (fun rbuf => ⟨.null,rbuf,true⟩) (fun _ => rfl)
      (show x.sz ≤ (staleBuf names x stackBuf).length by omega) answered.body
    rw [sized] at promise
    exact promise

end

/-- A response ends where it should exactly if nothing came back, or its size leaves two bytes of the caller's
buffer and the first of them was zero before. -/
theorem get_info_terminated_iff (malloc : Malloc) {names stackBuf : List UInt8} (timeoutMs : Nat)
    (size : stackBuf.length = infoStackBufSize) (room : 8 + names.length ≤ infoStackBufSize) (x : InfoExchange) :
    InfoPromise (clClusterNodeGetInfo malloc names timeoutMs stackBuf x) x.reply ↔
      (x.Answered malloc names timeoutMs →
        x.sz + 1 < infoStackBufSize ∧ (staleBuf names x stackBuf)[x.sz]? = some 0) := by
  rw [← size] at room
  by_cases answered : x.Answered malloc names timeoutMs
  · rw [forall_prop_of_true answered]
    exact answered_promise size room answered
  refine iff_of_true ?_ fun holds => absurd holds answered
  by_cases started : x.prepared = true ∧ (cfSocketWriteTimeout (infoWire names) 0 timeoutMs x.write).rv = 0 ∧
      (cfSocketReadTimeout x.stream 8 0 timeoutMs x.header).rv = 0
  · obtain ⟨prepared,sent,header⟩ := started
    have sized := (staleBuf_length x (header_head header) room).trans size
    obtain ⟨r,same,null⟩ := infoResponse_null malloc
      (show x.sz < infoStackBufSize → x.sz ≤ (staleBuf names x stackBuf).length by omega)
      fun holds => answered ⟨prepared,sent,header,holds.1,holds.2.1,holds.2.2.1,holds.2.2.2⟩
    rw [get_info_eq malloc timeoutMs room prepared sent header,same]
    exact promise_null null
  · obtain ⟨r,same,null⟩ := get_info_null malloc room started
    rw [same]
    exact promise_null null

/-- A response of so many bytes, in an exchange without delays. -/
def quickReply (reply : List UInt8) : InfoExchange where
  prepared := true
  write := ⟨none,0,[⟨0,.took 100⟩]⟩
  stream := ClProto.wire ⟨clProtoVersion,clProtoTypeInfo,reply.length⟩ ++ reply
  header := ⟨none,0,[⟨0,.arrived 8⟩]⟩
  body := ⟨none,0,[⟨0,.arrived 100⟩]⟩

/-- A response of three bytes ends in the header, where its size leaves a zero. -/
theorem get_info_terminated_iff_short :
    InfoPromise (clClusterNodeGetInfo (fun _ => none) infoStrCheck 1000 (List.replicate infoStackBufSize 7) (quickReply [1,2,3]))
      (quickReply [1,2,3]).reply :=
  (get_info_terminated_iff (fun _ => none) 1000 List.length_replicate (by decide) (quickReply [1,2,3])).mpr
    fun _ => ⟨by decide,rfl⟩

/-- A response of eight bytes runs on into the names that were asked for, in a buffer of zeros. -/
theorem get_info_runs_on : (quickReply (text "node\tBB9")).reply = text "node\tBB9" ∧
    ¬InfoPromise (clClusterNodeGetInfo (fun _ => none) infoStrCheck 1000 (List.replicate infoStackBufSize 0)
      (quickReply (text "node\tBB9"))) (quickReply (text "node\tBB9")).reply := by
  have answered : (quickReply (text "node\tBB9")).Answered (fun _ => none) infoStrCheck 1000 :=
    ⟨rfl,rfl,rfl,by decide,by decide,fun large => absurd large (by decide),rfl⟩
  refine ⟨rfl,fun promise => ?_⟩
  have fits := (answered_promise List.length_replicate (by rw [List.length_replicate]; decide) answered).mp promise
  have name : (staleBuf infoStrCheck (quickReply (text "node\tBB9")) (List.replicate infoStackBufSize 0))[8]? = some 110 := rfl
  exact absurd (name.symm.trans fits.2) (by decide)

end Citrusleaf
