import Citrusleaf.StreamMessages

/-! Streams of well-formed messages. A proto is read message by message, so what the callback
is given does not depend on how the messages are grouped into protos. -/
namespace Citrusleaf
open Lib

/-! ### Protos -/

def Progress.map (f : ρ → τ) (s : Progress ρ) : Progress τ := ⟨s.rv,s.done,s.calls.map f⟩

def StreamResult.map (f : ρ → τ) (result : StreamResult ρ) : StreamResult τ :=
  ⟨result.rv,result.exit,result.calls.map f⟩

/-- What a message does does not depend on what its record is. -/
def ReadLoop.Natural (loop : ReadLoop) : Prop :=
  ∀ (s : Progress CallbackRecord) (m : ClMsg) (record : CallbackRecord),
    (loop.message s m record).map CallbackRecord.view = loop.message (s.map CallbackRecord.view) m record.view

theorem doBatchMonte_natural (inflate : List UInt8 → Option (List UInt8)) (cb : Bool) :
    (doBatchMonte inflate cb).Natural := by
  intro s m record
  change (batchMessage cb s m record).map _ = batchMessage cb (s.map _) m record.view
  unfold batchMessage
  split <;> split <;> split <;> simp [Progress.map]

theorem doScanMonte_natural (operationInfo : UInt32) : (doScanMonte operationInfo).Natural := by
  intro s m record
  change (scanMessage operationInfo s m record).map _ = scanMessage operationInfo (s.map _) m record.view
  unfold scanMessage
  split
  · rfl
  split
  · rfl
  split
  · simp [Progress.map]
  · rfl

/-- The messages of a proto in their order. -/
def ReadLoop.proto (loop : ReadLoop) (s : Progress RecordView) (messages : List StreamMessage) : Progress RecordView :=
  messages.foldl (fun s msg => loop.message s msg.m msg.view) s

theorem walkMessages_at (loop : ReadLoop) (natural : loop.Natural) (heap : Heap) (plenty : Plenty heap.malloc)
    (before : List UInt8) (messages : List StreamMessage) (formed : ∀ msg ∈ messages, msg.WellFormed)
    (stack : List ClBin) (room : stack.length = stackBins)
    (small : (before ++ messages.flatMap StreamMessage.wire).length < 2 ^ 32) (enough : messages.length ≤ fuel)
    (s : Progress CallbackRecord) :
    ∃ t, walkMessages heap loop.message fuel stack (before ++ messages.flatMap StreamMessage.wire) before.length s =
      some (none,t) ∧ t.map CallbackRecord.view = loop.proto (s.map CallbackRecord.view) messages := by
  induction messages generalizing before stack s fuel with
  | nil =>
    rw [List.flatMap_nil,List.append_nil] at small ⊢
    have ended : ¬before.length % 2 ^ 32 < before.length := by
      rw [Nat.mod_eq_of_lt small]
      exact Nat.lt_irrefl _
    refine ⟨s,?_,rfl⟩
    cases fuel <;> rw [walkMessages,if_neg ended]
  | cons msg messages ih =>
    cases fuel with
    | zero => cases enough
    | succ fuel =>
      rw [List.flatMap_cons] at small ⊢
      obtain ⟨read,mid,done,size,m,view,buf,next,stacked⟩ := readMessage_at heap plenty before
        (messages.flatMap StreamMessage.wire) msg (formed msg List.mem_cons_self) stack room
      have inside : before.length % 2 ^ 32 < (before ++ (msg.wire ++ messages.flatMap StreamMessage.wire)).length := by
        have low := Nat.mod_le before.length (2 ^ 32)
        have some := msg.wire_length
        simp only [List.length_append]
        omega
      have shorter : (before ++ mid ++ messages.flatMap StreamMessage.wire).length < 2 ^ 32 := by
        rw [← List.append_assoc,List.length_append,List.length_append,← size] at small
        rwa [List.length_append,List.length_append]
      obtain ⟨t,walked,found⟩ := ih (before ++ mid) (fun other member => formed other (List.mem_cons_of_mem _ member))
        read.stack stacked shorter (Nat.le_of_succ_le_succ enough) (loop.message s read.m read.record)
      refine ⟨t,?_,?_⟩
      · rw [walkMessages,if_pos inside]
        apply bind_given done
        dsimp only
        rw [buf,next]
        exact walked
      · rw [found,natural,view,m]
        rfl

/-- A proto with messages, sent as they are or packed. -/
structure StreamProto where
  messages : List StreamMessage
  packed : Option (List UInt8)

def StreamProto.body (proto : StreamProto) : List UInt8 := proto.messages.flatMap StreamMessage.wire

def StreamProto.payload (proto : StreamProto) : List UInt8 := proto.packed.getD proto.body

def StreamProto.header (proto : StreamProto) : ClProto :=
  ⟨clProtoVersion,if proto.packed.isSome then clProtoTypeClMsgCompressed else clProtoTypeClMsg,proto.payload.length⟩

def StreamProto.wire (proto : StreamProto) : List UInt8 := proto.header.wire ++ proto.payload

/-- Well-formed messages in less than `2^32` bytes, packed only for a loop that inflates them. -/
structure StreamProto.WellFormed (loop : ReadLoop) (proto : StreamProto) : Prop where
  messages : ∀ msg ∈ proto.messages, msg.WellFormed
  small : proto.body.length < 2 ^ 32
  fits : proto.payload.length < 2 ^ 48
  inflates : ∀ payload, proto.packed = some payload →
    ∃ inflate, loop.inflate = some inflate ∧ inflate payload = some proto.body

theorem messages_length (messages : List StreamMessage) :
    messages.length ≤ (messages.flatMap StreamMessage.wire).length := by
  induction messages with
  | nil => exact Nat.le_refl 0
  | cons msg messages ih =>
    have some := msg.wire_length
    rw [List.flatMap_cons,List.length_append,List.length_cons]
    omega

theorem receive_append (first rest : List UInt8) (size : n = first.length) :
    receive (first ++ rest) n = some (first,rest) := by
  subst size
  rw [receive,if_pos (by rw [List.length_append]; exact Nat.le_add_right _ _),List.take_left,List.drop_left]

theorem receiveProto_wire (proto : ClProto) (rest : List UInt8) (fits : proto.sz < 2 ^ 48) :
    receiveProto (proto.wire ++ rest) = some (proto,rest) := by
  have swapped := clProtoSwap_wire proto []
  have known := readProto_bytes proto [] fits
  rw [List.append_nil] at swapped known
  unfold receiveProto
  apply bind_given (receive_append proto.wire rest proto.wire_length.symm)
  apply bind_given swapped
  exact bind_given known rfl

theorem receiveBody_wire (loop : ReadLoop) (plenty : Plenty malloc) (proto : StreamProto)
    (formed : proto.WellFormed loop) (rest : List UInt8) :
    loop.receiveBody malloc (proto.wire ++ rest) = .ok (proto.body,rest) := by
  have header := receiveProto_wire proto.header (proto.payload ++ rest) formed.fits
  have body := receive_append proto.payload rest rfl
  have block : ∃ address, readBuf malloc proto.header.sz = some address := by
    unfold readBuf
    split
    · exact plenty _
    · exact ⟨0,rfl⟩
  obtain ⟨address,block⟩ := block
  rw [StreamProto.wire,List.append_assoc]
  unfold ReadLoop.receiveBody
  apply except_bind_given (orError_ok.mpr header)
  have version : proto.header.version = clProtoVersion := rfl
  dsimp only
  rw [version,if_neg (Decidable.not_not.mpr rfl)]
  cases packed : proto.packed with
  | none =>
    have type : proto.header.type = clProtoTypeClMsg := by rw [StreamProto.header,packed]; rfl
    have plain : proto.payload = proto.body := by rw [StreamProto.payload,packed]; rfl
    rw [type,if_neg (fun both => both.1 rfl)]
    apply except_bind_given (orError_ok.mpr block)
    apply except_bind_given (orError_ok.mpr body)
    rw [if_neg (by decide),plain]
    rfl
  | some payload =>
    obtain ⟨inflate,given,inflated⟩ := formed.inflates payload packed
    have type : proto.header.type = clProtoTypeClMsgCompressed := by rw [StreamProto.header,packed]; rfl
    have content : proto.payload = payload := by rw [StreamProto.payload,packed]; rfl
    have accepted : ¬(clProtoTypeClMsgCompressed ≠ clProtoTypeClMsg ∧ (clProtoTypeClMsgCompressed ≠
        clProtoTypeClMsgCompressed ∨ loop.inflate.isNone)) := by
      rw [given]
      rintro ⟨_,other | none⟩
      · exact other rfl
      · cases none
    rw [type,if_neg accepted]
    apply except_bind_given (orError_ok.mpr block)
    apply except_bind_given (orError_ok.mpr body)
    rw [if_pos rfl,given,content,Option.bind_some,inflated]
    rfl

/-! ### Streams -/

/-- What a stream of protos comes to, after which nothing arrives. -/
def ReadLoop.outcome (loop : ReadLoop) (calls : List RecordView) : List (List StreamMessage) → StreamResult RecordView
  | [] => ⟨-1,.protoUnread,calls⟩
  | messages :: protos =>
    let s := loop.proto ⟨0,false,calls⟩ messages
    if s.done then ⟨s.rv,loop.leave s.rv,s.calls⟩ else loop.outcome s.calls protos

theorem run_protos (loop : ReadLoop) (natural : loop.Natural) (heap : Heap) (plenty : Plenty heap.malloc)
    (protos : List StreamProto) (formed : ∀ proto ∈ protos, proto.WellFormed loop) (enough : protos.length < fuel)
    (calls : List CallbackRecord) :
    ∃ result, loop.run heap fuel (protos.flatMap StreamProto.wire) calls = some result ∧
      result.map CallbackRecord.view =
        loop.outcome (calls.map CallbackRecord.view) (protos.map StreamProto.messages) := by
  induction protos generalizing fuel calls with
  | nil =>
    cases fuel with
    | zero => cases enough
    | succ fuel => exact ⟨⟨-1,.protoUnread,calls⟩,rfl,rfl⟩
  | cons proto protos ih =>
    cases fuel with
    | zero => cases enough
    | succ fuel =>
      have good := formed proto List.mem_cons_self
      have received := receiveBody_wire loop plenty proto good (protos.flatMap StreamProto.wire)
      have count := Nat.le_succ_of_le (messages_length proto.messages)
      obtain ⟨t,walked,found⟩ := walkMessages_at loop natural heap plenty [] proto.messages good.messages
        ((List.range stackBins).map heap.garbage) (by rw [List.length_map,List.length_range]) good.small count
        ⟨0,false,calls⟩
      have done : t.done = (loop.proto ⟨0,false,calls.map CallbackRecord.view⟩ proto.messages).done :=
        congrArg Progress.done found
      have rv : t.rv = (loop.proto ⟨0,false,calls.map CallbackRecord.view⟩ proto.messages).rv :=
        congrArg Progress.rv found
      have given : t.calls.map CallbackRecord.view =
          (loop.proto ⟨0,false,calls.map CallbackRecord.view⟩ proto.messages).calls := congrArg Progress.calls found
      rw [List.flatMap_cons,List.map_cons,ReadLoop.run,received,ReadLoop.outcome]
      dsimp only
      by_cases ended : t.done
      · refine ⟨⟨t.rv,loop.leave t.rv,t.calls⟩,?_,?_⟩
        · apply bind_given walked
          simp [ended]
        · rw [← done,if_pos ended,StreamResult.map,given,rv]
      · obtain ⟨result,rest,same⟩ := ih (fun other member => formed other (List.mem_cons_of_mem _ member))
          (Nat.lt_of_succ_lt_succ enough) t.calls
        refine ⟨result,?_,?_⟩
        · apply bind_given walked
          simp [ended,rest]
        · rw [← done,if_neg ended,same,given]

theorem result_protos (loop : ReadLoop) (natural : loop.Natural) (heap : Heap) (plenty : Plenty heap.malloc)
    (protos : List StreamProto) (formed : ∀ proto ∈ protos, proto.WellFormed loop) :
    ∃ result, loop.result heap (protos.flatMap StreamProto.wire) = some result ∧
      result.map CallbackRecord.view = loop.outcome [] (protos.map StreamProto.messages) := by
  apply run_protos loop natural heap plenty protos formed
  apply Nat.lt_succ_of_le
  clear formed
  induction protos with
  | nil => exact Nat.le_refl 0
  | cons proto protos ih =>
    have some := proto.header.wire_length
    rw [List.flatMap_cons,List.length_append,List.length_cons,StreamProto.wire,List.length_append]
    omega

/-! ### Grouping -/

/-- Records and a last message without operations, all with bin data and without an error. -/
structure RecordStream (records : List StreamMessage) (last : StreamMessage) : Prop where
  ok : ∀ msg ∈ records ++ [last], msg.m.resultCode = clResultOk
  bins : ∀ msg ∈ records ++ [last], msg.m.info1 &&& clMsgInfo1Nobindata = 0
  earlier : ∀ msg ∈ records, isLast msg.m = false
  final : isLast last.m = true
  empty : last.ops = []

/-- The records that have operations. -/
def withOps (records : List StreamMessage) : List RecordView :=
  (records.filter fun msg => !msg.ops.isEmpty).map StreamMessage.view

/-- How a loop takes the messages of such a stream. -/
structure ReadLoop.HandsOn (loop : ReadLoop) : Prop where
  record : ∀ (s : Progress RecordView) (m : ClMsg) (view : RecordView), s.rv = 0 → m.resultCode = clResultOk →
    m.info1 &&& clMsgInfo1Nobindata = 0 → isLast m = false →
    loop.message s m view = {s with calls := s.calls ++ if m.nOps = 0 then [] else [view]}
  last : ∀ (s : Progress RecordView) (m : ClMsg) (view : RecordView), m.resultCode = clResultOk →
    m.info1 &&& clMsgInfo1Nobindata = 0 → isLast m = true → m.nOps = 0 → loop.message s m view = {s with done := true}

theorem doBatchMonte_handsOn (inflate : List UInt8 → Option (List UInt8)) : (doBatchMonte inflate true).HandsOn := by
  constructor
  · intro s m view zero ok bins earlier
    change batchMessage true s m view = _
    by_cases none : m.nOps = 0 <;> simp [batchMessage,batchAborts,batchRecord,ok,bins,earlier,none,← zero]
  · intro s m view ok bins last none
    change batchMessage true s m view = _
    simp [batchMessage,batchAborts,batchRecord,ok,bins,last,none]

theorem doScanMonte_handsOn (bins : operationInfo &&& clMsgInfo1Nobindata.toUInt32 = 0) :
    (doScanMonte operationInfo).HandsOn := by
  constructor
  · intro s m view zero ok _ earlier
    change scanMessage operationInfo s m view = _
    by_cases none : m.nOps = 0 <;> simp [scanMessage,scanRecord,ok,bins,earlier,none,← zero]
  · intro s m view ok _ last none
    change scanMessage operationInfo s m view = _
    simp [scanMessage,ok,last]

theorem nOps_zero (formed : StreamMessage.WellFormed msg) : msg.m.nOps = 0 ↔ msg.ops.isEmpty := by
  have count := formed.nOps
  rw [List.isEmpty_iff_length_eq_zero,← count]
  exact UInt16.toNat_inj.symm

theorem proto_records (loop : ReadLoop) (hands : loop.HandsOn) (records : List StreamMessage)
    (formed : ∀ msg ∈ records, msg.WellFormed) (ok : ∀ msg ∈ records, msg.m.resultCode = clResultOk)
    (bins : ∀ msg ∈ records, msg.m.info1 &&& clMsgInfo1Nobindata = 0)
    (earlier : ∀ msg ∈ records, isLast msg.m = false) (calls : List RecordView) :
    loop.proto ⟨0,false,calls⟩ records = ⟨0,false,calls ++ withOps records⟩ := by
  induction records generalizing calls with
  | nil => simp [ReadLoop.proto,withOps]
  | cons msg records ih =>
    have one := hands.record ⟨0,false,calls⟩ msg.m msg.view rfl (ok _ List.mem_cons_self) (bins _ List.mem_cons_self)
      (earlier _ List.mem_cons_self)
    have rest := ih (fun other member => formed other (List.mem_cons_of_mem _ member))
      (fun other member => ok other (List.mem_cons_of_mem _ member))
      (fun other member => bins other (List.mem_cons_of_mem _ member))
      (fun other member => earlier other (List.mem_cons_of_mem _ member))
      (calls ++ if msg.m.nOps = 0 then [] else [msg.view])
    rw [ReadLoop.proto,List.foldl_cons,one]
    refine rest.trans ?_
    have ops := nOps_zero (formed msg List.mem_cons_self)
    by_cases none : msg.m.nOps = 0
    · simp [withOps,none,ops.mp none]
    · have some : msg.ops.isEmpty = false := Bool.eq_false_iff.mpr (mt ops.mpr none)
      simp [withOps,none,some]

/-- The stream comes to the same however it is cut. -/
theorem outcome_records (loop : ReadLoop) (hands : loop.HandsOn) (protos : List (List StreamMessage))
    (grouped : protos.flatten = records ++ [last]) (stream : RecordStream records last)
    (formed : ∀ messages ∈ protos, ∀ msg ∈ messages, msg.WellFormed) (calls : List RecordView) :
    loop.outcome calls protos = ⟨0,loop.leave 0,calls ++ withOps records⟩ := by
  induction protos generalizing records calls with
  | nil => simp at grouped
  | cons messages protos ih =>
    rw [List.flatten_cons] at grouped
    have here := formed messages List.mem_cons_self
    -- either the last message is in a later proto, or this one ends with it
    have later (rest : List StreamMessage) (parts : records = messages ++ rest)
        (others : protos.flatten = rest ++ [last]) :
        loop.outcome calls (messages :: protos) = ⟨0,loop.leave 0,calls ++ withOps records⟩ := by
      subst parts
      have taken (msg : StreamMessage) (member : msg ∈ messages) : msg ∈ messages ++ rest :=
        List.mem_append_left _ member
      have one := proto_records loop hands messages here
        (fun msg member => stream.ok msg (List.mem_append_left _ (taken msg member)))
        (fun msg member => stream.bins msg (List.mem_append_left _ (taken msg member)))
        (fun msg member => stream.earlier msg (taken msg member)) calls
      have within (msg : StreamMessage) (member : msg ∈ rest ++ [last]) : msg ∈ messages ++ rest ++ [last] := by
        rw [List.append_assoc]
        exact List.mem_append_right _ member
      have left : RecordStream rest last :=
        ⟨fun msg member => stream.ok msg (within msg member),fun msg member => stream.bins msg (within msg member),
          fun msg member => stream.earlier msg (List.mem_append_right _ member),stream.final,stream.empty⟩
      rw [ReadLoop.outcome,one]
      dsimp only
      rw [if_neg (by decide),ih others left fun other member => formed other (List.mem_cons_of_mem _ member)]
      simp [withOps]
    rcases List.append_eq_append_iff.mp grouped with ⟨rest,parts,others⟩ | ⟨rest,parts,others⟩
    · exact later rest parts others
    · cases rest with
      | nil =>
        rw [List.append_nil] at parts
        exact later [] (by rw [List.append_nil,parts]) others.symm
      | cons msg rest =>
        obtain ⟨rfl,none⟩ := List.cons.inj others
        obtain ⟨rfl,_⟩ := List.append_eq_nil_iff.mp none.symm
        subst parts
        have member : last ∈ records ++ [last] := List.mem_append_right _ (List.mem_singleton_self last)
        have one := proto_records loop hands records
          (fun msg member => here msg (List.mem_append_left _ member))
          (fun msg member => stream.ok msg (List.mem_append_left _ member))
          (fun msg member => stream.bins msg (List.mem_append_left _ member)) stream.earlier calls
        have ended := hands.last ⟨0,false,calls ++ withOps records⟩ last.m last.view (stream.ok last member)
          (stream.bins last member) stream.final ((nOps_zero (here last member)).mpr (by rw [stream.empty]; rfl))
        have whole : loop.proto ⟨0,false,calls⟩ (records ++ [last]) = ⟨0,true,calls ++ withOps records⟩ := by
          rw [ReadLoop.proto,List.foldl_append]
          change List.foldl _ (loop.proto ⟨0,false,calls⟩ records) [last] = _
          rw [one]
          exact ended
        rw [ReadLoop.outcome,whole]
        rfl

/-- The calls of a stream of records, and what the loop returns. -/
theorem stream_calls (loop : ReadLoop) (natural : loop.Natural) (hands : loop.HandsOn) (heap : Heap)
    (plenty : Plenty heap.malloc) (protos : List StreamProto) (formed : ∀ proto ∈ protos, proto.WellFormed loop)
    (grouped : protos.flatMap StreamProto.messages = records ++ [last]) (stream : RecordStream records last) :
    ∃ result, loop.result heap (protos.flatMap StreamProto.wire) = some result ∧ result.rv = 0 ∧
      result.calls.map CallbackRecord.view = withOps records := by
  obtain ⟨result,done,found⟩ := result_protos loop natural heap plenty protos formed
  have same := outcome_records loop hands (protos.map StreamProto.messages) grouped stream
    (fun messages member => by
      obtain ⟨proto,sent,rfl⟩ := List.mem_map.mp member
      exact (formed proto sent).messages) []
  rw [same] at found
  exact ⟨result,done,congrArg StreamResult.rv found,congrArg StreamResult.calls found⟩

/-- A scan takes no packed proto, so what it takes is well-formed for a batch too. -/
theorem StreamProto.WellFormed.plain (formed : StreamProto.WellFormed (doScanMonte operationInfo) proto)
    (loop : ReadLoop) : proto.WellFormed loop := by
  refine ⟨formed.messages,formed.small,formed.fits,fun payload packed => ?_⟩
  obtain ⟨inflate,given,_⟩ := formed.inflates payload packed
  cases given

/-- Whatever the grouping into protos, a batch and a scan return zero and call the callback once
for each record with operations, in their order. -/
theorem grouping_does_not_matter (heap : Heap) (inflate : List UInt8 → Option (List UInt8)) (operationInfo : UInt32)
    (protos : List StreamProto) (records : List StreamMessage) (last : StreamMessage) (plenty : Plenty heap.malloc)
    (bins : operationInfo &&& clMsgInfo1Nobindata.toUInt32 = 0) (stream : RecordStream records last)
    (formed : ∀ proto ∈ protos, proto.WellFormed (doScanMonte operationInfo))
    (grouped : protos.flatMap StreamProto.messages = records ++ [last]) :
    (∃ result, (doBatchMonte inflate true).result heap (protos.flatMap StreamProto.wire) = some result ∧
      result.rv = 0 ∧ result.calls.map CallbackRecord.view = withOps records) ∧
    (∃ result, (doScanMonte operationInfo).result heap (protos.flatMap StreamProto.wire) = some result ∧
      result.rv = 0 ∧ result.calls.map CallbackRecord.view = withOps records) := by
  constructor
  · exact stream_calls _ (doBatchMonte_natural inflate true) (doBatchMonte_handsOn inflate) heap plenty protos
      (fun proto member => (formed proto member).plain _) grouped stream
  · exact stream_calls _ (doScanMonte_natural operationInfo) (doScanMonte_handsOn bins) heap plenty protos formed
      grouped stream

/-! A stream of one record with a digest, a set and an integer, and its last message in the next
proto. -/

def sampleHeader (resultCode info3 : UInt8) (nFields nOps : UInt16) : ClMsg :=
  ⟨22,0,0,info3,0,resultCode,7,0,0,nFields,nOps⟩

def sampleRecord : StreamMessage :=
  ⟨sampleHeader clResultOk 0 2 1,[(clMsgFieldTypeDigestRipe,List.replicate 20 9),(clMsgFieldTypeSet,text "users")],
    [⟨1,1,0,text "a",beBytes 8 5⟩]⟩

def sampleLast : StreamMessage := ⟨sampleHeader clResultOk clMsgInfo3Last 0 0,[],[]⟩

theorem sampleRecord_formed : sampleRecord.WellFormed := by
  refine ⟨rfl,rfl,rfl,?_,?_⟩
  · intro field member
    rcases List.mem_cons.mp member with rfl | member
    · exact ⟨by decide,nofun,fun _ => rfl⟩
    · obtain rfl := List.mem_singleton.mp member
      exact ⟨by decide,nofun,nofun⟩
  · intro op member
    obtain rfl := List.mem_singleton.mp member
    exact ⟨by decide,.inr (.inl rfl),fun _ => by decide,by decide⟩

theorem sampleLast_formed : sampleLast.WellFormed := ⟨rfl,rfl,rfl,nofun,nofun⟩

theorem sampleProto_formed (loop : ReadLoop) (messages : List StreamMessage)
    (formed : ∀ msg ∈ messages, msg.WellFormed) (small : (messages.flatMap StreamMessage.wire).length < 2 ^ 32) :
    StreamProto.WellFormed loop ⟨messages,none⟩ :=
  ⟨formed,small,Nat.lt_trans small (by decide),nofun⟩

theorem grouping_does_not_matter_sample :
    (∃ result, (doBatchMonte (fun _ => none) true).result sampleHeap
        (([⟨[sampleRecord],none⟩,⟨[sampleLast],none⟩] : List StreamProto).flatMap StreamProto.wire) = some result ∧
      result.rv = 0 ∧ result.calls.map CallbackRecord.view = withOps [sampleRecord]) ∧
    (∃ result, (doScanMonte 1).result sampleHeap
        (([⟨[sampleRecord],none⟩,⟨[sampleLast],none⟩] : List StreamProto).flatMap StreamProto.wire) = some result ∧
      result.rv = 0 ∧ result.calls.map CallbackRecord.view = withOps [sampleRecord]) := by
  apply grouping_does_not_matter sampleHeap (fun _ => none) 1 [⟨[sampleRecord],none⟩,⟨[sampleLast],none⟩]
    [sampleRecord] sampleLast (fun _ => ⟨_,rfl⟩) rfl
  · refine ⟨?_,?_,?_,rfl,rfl⟩
    · decide
    · decide
    · decide
  · intro proto member
    rcases List.mem_cons.mp member with rfl | member
    · refine sampleProto_formed _ [sampleRecord] (fun msg member => ?_) (by decide)
      obtain rfl := List.mem_singleton.mp member
      exact sampleRecord_formed
    · obtain rfl := List.mem_singleton.mp member
      refine sampleProto_formed _ [sampleLast] (fun msg member => ?_) (by decide)
      obtain rfl := List.mem_singleton.mp member
      exact sampleLast_formed
  · rfl

end Citrusleaf
