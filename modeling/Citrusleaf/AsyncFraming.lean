import Citrusleaf.Lib.Runs
import Citrusleaf.AsyncReceive

/-! The connections of async work items. A connection belongs to one work item from the time its
command is sent until its response is read to the end, and goes back to the pool of its node
only then; threads visit work items in any order. -/
namespace Citrusleaf
open Lib

/-- An `as_msg` and the body whose size it says. -/
structure AsyncResponse where
  bytes : List UInt8
  whole : bytes.length = asMsgSize + asyncBodySize (bytes.take asMsgSize)

/-- A work item on the queue or with a thread, the server's response to it, and what the client
has not read of its connection. -/
structure AsyncOutstanding where
  work : AsyncWork
  response : AsyncResponse
  unread : List UInt8

/-- What is unread on each connection of the pools, the work items, and each header that was
decoded with the response it was decoded for. -/
structure AsyncConnections where
  pool : List (List UInt8)
  outstanding : List AsyncOutstanding
  decoded : List (AsyncResponse × List UInt8)

inductive ConnectionEvent where
  /-- A work item is sent on a new connection, or on one of the pool. -/
  | submit (work : AsyncWork) (response : AsyncResponse) (pooled : Option Nat)
  /-- A thread, with its `rd_buf`, visits a work item. -/
  | visit (item : Nat) (world : ReceiverWorld) (rdBuf : RdBuf) (fresh : Nat)

namespace AsyncConnections

def start : AsyncConnections := ⟨[],[],[]⟩

/-- What a visit leaves of the connection: it waits with its work item, goes to the pool, or is
closed. A work item whose push fails is lost with its connection. -/
def settle (s : AsyncConnections) (i : Nat) (item : AsyncOutstanding) (visited : AsyncTurn) : AsyncConnections :=
  let s := {s with decoded := s.decoded ++ (visited.header.map fun header => (item.response,header)).toList}
  if .putBack ∈ visited.effects then
    {s with outstanding := s.outstanding.set i {item with unread := visited.left}}
  else if .fdPut item.work.node item.work.fd ∈ visited.effects then
    {s with outstanding := s.outstanding.eraseIdx i,pool := s.pool ++ [visited.left]}
  else {s with outstanding := s.outstanding.eraseIdx i}

def step (s : AsyncConnections) : ConnectionEvent → AsyncConnections
  | .submit work response none => {s with outstanding := s.outstanding ++ [⟨work,response,response.bytes⟩]}
  | .submit work response (some i) =>
    match s.pool[i]? with
    | none => s
    | some unread =>
      {s with pool := s.pool.eraseIdx i,outstanding := s.outstanding ++ [⟨work,response,unread ++ response.bytes⟩]}
  | .visit i world rdBuf fresh =>
    match s.outstanding[i]? with
    | none => s
    | some item => s.settle i item (asyncReceive item.work item.unread world rdBuf fresh)

/-- Each header decoded is the first bytes of its response, and of the response to a work item
that waits nothing was read. -/
structure Framed (s : AsyncConnections) : Prop where
  decoded : ∀ header ∈ s.decoded, header.2 = header.1.bytes.take asMsgSize
  waiting : ∀ item ∈ s.outstanding, item.unread = item.response.bytes

/-- No visit that puts its work item back was cut short in the header. -/
def Uncut (s : AsyncConnections) : ConnectionEvent → Prop
  | .submit .. => True
  | .visit i world _ _ => ∀ item, s.outstanding[i]? = some item → ¬overdue item.work world → world.queuePush = true →
    ¬CutShort item.unread asMsgSize item.work.deadline defaultProgressTimeout world.header

end AsyncConnections

/-! ### A visit -/

open ReceiverEffect

variable {work : AsyncWork} {world : ReceiverWorld} {fd : Option Nat} {rdBuf : RdBuf} {rv : Int} {result : Option Int}
  {stream : List UInt8} {fresh : Nat}

theorem asyncOk_putBack : .putBack ∉ asyncOk work world fd rdBuf rv result := by
  rw [asyncOk]
  split
  all_goals cases world.poolPush
  all_goals cases fd
  all_goals cases rdBuf
  all_goals simp [freeRdBuf]

/-- An error closes the connection. -/
theorem asyncError_closes (node fd : Nat) :
    .putBack ∉ asyncError work world rdBuf rv ∧ .fdPut node fd ∉ asyncError work world rdBuf rv := by
  rw [asyncError,asyncOk]
  split
  all_goals cases world.poolPush
  all_goals cases rdBuf
  all_goals simp [freeRdBuf]

/-- A body is read to the end, or the connection closed. -/
theorem asyncBody_connection (msg : List UInt8) (node fd : Nat) :
    .putBack ∉ (asyncBody work world rdBuf msg stream).effects ∧
    (.fdPut node fd ∈ (asyncBody work world rdBuf msg stream).effects →
      (asyncBody work world rdBuf msg stream).left = stream.drop (asyncBodySize msg)) := by
  have reads : Reads stream (asyncBodySize msg) (readBody work stream world rdBuf msg) := socketRead_reads _ _ _ _ _
  rw [asyncBody]
  dsimp only
  split
  · obtain ⟨notPut,closed⟩ := @asyncError_closes work world rdBuf (readBody work stream world rdBuf msg).rv node fd
    refine ⟨List.not_mem_cons_of_ne_of_not_mem ReceiverEffect.noConfusion notPut,fun put => absurd put ?_⟩
    exact List.not_mem_cons_of_ne_of_not_mem ReceiverEffect.noConfusion closed
  · rename_i done
    refine ⟨List.not_mem_cons_of_ne_of_not_mem ReceiverEffect.noConfusion asyncOk_putBack,fun _ => ?_⟩
    exact (reads.take (not_not.mp done)).2

/-- What a visit has done to the connection when it is over. -/
structure KeepsConnection (work : AsyncWork) (stream : List UInt8) (world : ReceiverWorld) (visited : AsyncTurn) : Prop where
  header : ∀ header ∈ visited.header, header = stream.take asMsgSize
  putBack : .putBack ∈ visited.effects ↔
    (readHeader work stream world).rv = etimedout ∧ ¬overdue work world ∧ world.queuePush = true
  waits : .putBack ∈ visited.effects → visited.left = (readHeader work stream world).left
  pooled : ∀ node fd, .fdPut node fd ∈ visited.effects →
    visited.left = (stream.drop asMsgSize).drop (asyncBodySize (stream.take asMsgSize))

theorem asyncReceive_keeps (work : AsyncWork) (stream : List UInt8) (world : ReceiverWorld) (rdBuf : RdBuf) (fresh : Nat) :
    KeepsConnection work stream world (asyncReceive work stream world rdBuf fresh) := by
  have turns := asyncReceive_turns work stream world rdBuf fresh
  generalize asyncReceive work stream world rdBuf fresh = visited at turns
  have reads : Reads stream asMsgSize (readHeader work stream world) := socketRead_reads _ _ _ _ _
  have zero : (readHeader work stream world).rv = 0 → (readHeader work stream world).rv ≠ etimedout :=
    fun read out => Nat.ne_of_lt etimedout.2 (read.symm.trans out)
  cases turns with
  | failed rv error notPut nonzero =>
    have closes := @asyncError_closes work world rdBuf rv
    exact ⟨nofun,iff_of_false (closes 0 0).1 fun put => notPut ⟨put.1,put.2.1⟩,
      fun put => absurd put (closes 0 0).1,fun node fd put => absurd put (closes node fd).2⟩
  | put timedOut time =>
    refine ⟨nofun,?_,fun _ => rfl,fun node fd put => ?_⟩
    · cases world.queuePush
      all_goals cases rdBuf
      all_goals simp [freeRdBuf,timedOut,time]
    · cases pushed : world.queuePush
      all_goals rw [pushed] at put
      all_goals cases rdBuf
      all_goals simp [freeRdBuf] at put
  | empty read size =>
    obtain ⟨front,left⟩ := reads.take read
    rw [front] at size
    refine ⟨fun header same => (Option.some.inj same).symm.trans front,iff_of_false asyncOk_putBack fun put => zero read put.1,
      fun put => absurd put asyncOk_putBack,fun _ _ _ => ?_⟩
    rw [size]
    exact left
  | small read some size =>
    obtain ⟨front,left⟩ := reads.take read
    rw [front,left]
    have body := @asyncBody_connection work world rdBuf (stream.drop asMsgSize) (stream.take asMsgSize)
    exact ⟨fun header same => (Option.some.inj same).symm,iff_of_false (body 0 0).1 fun put => zero read put.1,
      fun put => absurd put (body 0 0).1,fun node fd => (body node fd).2⟩
  | large read size =>
    obtain ⟨front,left⟩ := reads.take read
    rw [front,left]
    have body := @asyncBody_connection work world (.block fresh) (stream.drop asMsgSize) (stream.take asMsgSize)
    have notPut : .putBack ∉ .malloc fresh :: (asyncBody work world (.block fresh) (stream.take asMsgSize)
        (stream.drop asMsgSize)).effects :=
      List.not_mem_cons_of_ne_of_not_mem ReceiverEffect.noConfusion (body 0 0).1
    exact ⟨fun header same => (Option.some.inj same).symm,iff_of_false notPut fun put => zero read put.1,
      fun put => absurd put notPut,
      fun node fd put => (body node fd).2 ((List.mem_cons.mp put).resolve_left ReceiverEffect.noConfusion)⟩
  | noMemory read size =>
    obtain ⟨front,left⟩ := reads.take read
    have closes := @asyncError_closes work world .null (-1)
    exact ⟨fun header same => (Option.some.inj same).symm.trans front,iff_of_false (closes 0 0).1 fun put => zero read put.1,
      fun put => absurd put (closes 0 0).1,fun node fd put => absurd put (closes node fd).2⟩

namespace AsyncConnections

variable {s : AsyncConnections} {i : Nat} {item : AsyncOutstanding} {visited : AsyncTurn}

/-- Framed, and a connection in a pool has nothing unread. -/
structure Clean (s : AsyncConnections) : Prop where
  framed : Framed s
  pool : ∀ unread ∈ s.pool, unread = []

theorem start_clean : Clean start := ⟨⟨nofun,nofun⟩,nofun⟩

theorem Clean.submit (clean : Clean s) (work : AsyncWork) (response : AsyncResponse) (pooled : Option Nat) :
    Clean (s.step (.submit work response pooled)) := by
  have waiting {unread : List UInt8} (empty : unread = []) :
      ∀ item ∈ s.outstanding ++ [⟨work,response,unread ++ response.bytes⟩], item.unread = item.response.bytes := by
    intro item member
    rcases List.mem_append.mp member with old | new
    · exact clean.framed.waiting item old
    · rw [List.mem_singleton.mp new,empty]
      rfl
  cases pooled with
  | none => exact ⟨⟨clean.framed.decoded,@waiting [] rfl⟩,clean.pool⟩
  | some i =>
    rw [step]
    split
    · exact clean
    · rename_i unread there
      have empty := clean.pool unread (List.mem_of_getElem? there)
      exact ⟨⟨clean.framed.decoded,waiting empty⟩,fun other member => clean.pool other (List.mem_of_mem_eraseIdx member)⟩

/-- The header a work item is put back with was cut short, or nothing of it was read. -/
theorem putBack_cutShort {work : AsyncWork} {stream : List UInt8} {world : ReceiverWorld}
    (timedOut : (readHeader work stream world).rv = etimedout) :
    CutShort stream asMsgSize work.deadline defaultProgressTimeout world.header ↔ (readHeader work stream world).left ≠ stream :=
  (socketRead_cutShort (by decide) stream work.deadline defaultProgressTimeout world.header).trans (and_iff_right timedOut)

theorem Clean.settle {world : ReceiverWorld} (clean : Clean s) (there : s.outstanding[i]? = some item)
    (keeps : KeepsConnection item.work item.unread world visited)
    (uncut : ¬overdue item.work world → world.queuePush = true →
      ¬CutShort item.unread asMsgSize item.work.deadline defaultProgressTimeout world.header) :
    Clean (s.settle i item visited) := by
  have unread := clean.framed.waiting item (List.mem_of_getElem? there)
  have decoded : ∀ header ∈ s.decoded ++ (visited.header.map fun header => (item.response,header)).toList,
      header.2 = header.1.bytes.take asMsgSize := by
    intro header member
    rcases List.mem_append.mp member with old | new
    · exact clean.framed.decoded header old
    · obtain ⟨bytes,same,rfl⟩ := Option.map_eq_some_iff.mp (Option.mem_toList.mp new)
      exact (keeps.header bytes same).trans (by rw [unread])
  rw [AsyncConnections.settle]
  split
  · rename_i put
    obtain ⟨timedOut,time,pushed⟩ := keeps.putBack.mp put
    have whole : visited.left = item.unread := (keeps.waits put).trans
      (not_not.mp fun moved => uncut time pushed ((putBack_cutShort timedOut).mpr moved))
    refine ⟨⟨decoded,fun other member => ?_⟩,clean.pool⟩
    rcases List.mem_or_eq_of_mem_set member with old | rfl
    · exact clean.framed.waiting other old
    · exact whole.trans unread
  · have rest : ∀ other ∈ s.outstanding.eraseIdx i, other.unread = other.response.bytes :=
      fun other member => clean.framed.waiting other (List.mem_of_mem_eraseIdx member)
    split
    · rename_i put
      refine ⟨⟨decoded,rest⟩,fun left member => ?_⟩
      rcases List.mem_append.mp member with old | new
      · exact clean.pool left old
      · rw [List.mem_singleton.mp new,keeps.pooled _ _ put,unread,List.drop_drop]
        exact List.drop_eq_nil_of_le (Nat.le_of_eq item.response.whole)
    · exact ⟨⟨decoded,rest⟩,clean.pool⟩

theorem Clean.step (clean : Clean s) (event : ConnectionEvent) (uncut : s.Uncut event) : Clean (s.step event) := by
  cases event with
  | submit work response pooled => exact clean.submit work response pooled
  | visit i world rdBuf fresh =>
    rw [AsyncConnections.step]
    split
    · exact clean
    · rename_i item there
      exact clean.settle there (asyncReceive_keeps item.work item.unread world rdBuf fresh) (uncut item there)

/-- Where a work item that is put back has its response whole, it was not cut short. -/
theorem Clean.uncut (clean : Clean s) (event : ConnectionEvent) (framed : Framed (s.step event)) : s.Uncut event := by
  cases event with
  | submit => trivial
  | visit i world rdBuf fresh =>
    intro item there time pushed cut
    have keeps := asyncReceive_keeps item.work item.unread world rdBuf fresh
    have timedOut := ((socketRead_cutShort (by decide) _ _ _ _).mp cut).1
    have put := keeps.putBack.mpr ⟨timedOut,time,pushed⟩
    rw [AsyncConnections.step,there] at framed
    dsimp only at framed
    rw [AsyncConnections.settle,if_pos put] at framed
    have whole := framed.waiting _ (List.mem_set (List.getElem?_eq_some_iff.mp there).1 _)
    have unread := clean.framed.waiting item (List.mem_of_getElem? there)
    exact (putBack_cutShort timedOut).mp cut ((keeps.waits put).symm.trans (whole.trans unread.symm))

end AsyncConnections

/-- In every run the headers are framed exactly where no visit that puts its work item back was
cut short in the header. -/
theorem async_header_framed (events : List ConnectionEvent) :
    Always AsyncConnections.step AsyncConnections.Framed .start events ↔
      Guarded AsyncConnections.step AsyncConnections.Uncut .start events :=
  always_iff_guarded_free (fun _ clean => clean.framed) (fun _ event clean uncut => clean.step event uncut)
    (fun _ event clean framed => clean.uncut event framed) AsyncConnections.start_clean events

/-- A header with a body of ten bytes. -/
def sampleResponse : AsyncResponse := ⟨[2,3,0,0,0,0,0,32,22] ++ List.replicate 21 0 ++ [1,2,3,4,5,6,7,8,9,10],by decide⟩

/-- A visit in which so many bytes of the header arrive. -/
def headerVisit (bytes : Nat) : ConnectionEvent :=
  .visit 0 ⟨⟨none,0,[⟨0,.arrived bytes⟩]⟩,⟨none,0,[]⟩,0,sampleHeap,true,true⟩ .stack 0

/-- Ten bytes arrive before the timeout, the others after it: the header starts at the eleventh. -/
theorem async_header_cut :
    ¬Always AsyncConnections.step AsyncConnections.Framed .start
      [.submit ⟨0,0,0,5,0⟩ sampleResponse none,headerVisit 10,headerVisit 30] ∧
    (run AsyncConnections.step .start
      [.submit ⟨0,0,0,5,0⟩ sampleResponse none,headerVisit 10,headerVisit 30]).decoded.map Prod.snd =
        [sampleResponse.bytes.drop 10] := by
  refine ⟨fun always => ?_,by decide +kernel⟩
  exact absurd always.2.2.2.decoded (by decide +kernel)

end Citrusleaf
