import Citrusleaf.StreamBounds
import Citrusleaf.StreamFrames

/-! What becomes of an error in a stream. The result of the last proto is one variable, set by
messages that abort and set to zero by others, so an error is reported when nothing behind it
sets it to zero. -/
namespace Citrusleaf
open Lib

/-! ### What is asked of the loops -/

/-- The messages up to the end of the first proto with one that ends the stream. -/
def consumed (stops : ClMsg → Bool) : List (List StreamMessage) → List StreamMessage
  | [] => []
  | messages :: protos =>
    if messages.any fun msg => stops msg.m then messages else messages ++ consumed stops protos

/-- The stream has a message that ends it. -/
def Finished (stops : ClMsg → Bool) (protos : List (List StreamMessage)) : Prop :=
  ∃ messages ∈ protos, ∃ msg ∈ messages, stops msg.m

def Aborted (messages : List StreamMessage) : Prop := ∃ msg ∈ messages, batchAborts msg.m

/-- The last message is among them, with no error before it. -/
def LastReached (messages : List StreamMessage) : Prop :=
  ∃ before last after, messages = before ++ last :: after ∧ isLast last.m ∧ ∀ msg ∈ before, ¬batchAborts msg.m

/-- An error gives a result other than zero, and the socket goes back only behind the last message. -/
structure AbortReported (messages : List StreamMessage) (result : StreamResult CallbackRecord) : Prop where
  reported : Aborted messages → result.rv ≠ 0
  pooled : result.pooled = true → LastReached messages

/-! ### When they do it -/

/-- The messages of a scan that set its result to zero: a set that is not there, or a record. -/
def scanClears (operationInfo : UInt32) (m : ClMsg) : Bool :=
  m.resultCode = clResultNotfound ∨ m.resultCode = clResultOk ∧ isLast m = false ∧ scanRecord operationInfo m

/-- A message aborts, and neither it nor one behind it sets the result to zero. -/
def AbortKept (clears : ClMsg → Bool) (messages : List StreamMessage) : Prop :=
  ∃ before msg after, messages = before ++ msg :: after ∧ batchAborts msg.m ∧ ∀ other ∈ msg :: after, ¬clears other.m

def BatchReports (cb : Bool) (protos : List (List StreamMessage)) : Prop :=
  Finished batchStops protos → Aborted (consumed batchStops protos) →
    AbortKept (batchRecord cb) (consumed batchStops protos)

/-- A scan always gives its socket back, so its stream has to come to the last message too. -/
def ScanReports (operationInfo : UInt32) (protos : List (List StreamMessage)) : Prop :=
  Finished scanStops protos → LastReached (consumed scanStops protos) ∧
    (Aborted (consumed scanStops protos) → AbortKept (scanClears operationInfo) (consumed scanStops protos))

/-- Whenever the loop returns, the condition is enough; where memory does not run out it returns,
and the condition is needed. -/
def ReportsWhen (loop : ReadLoop) (stops : ClMsg → Bool) (heap : Heap) (protos : List StreamProto)
    (condition : Prop) : Prop :=
  (∀ result, loop.result heap (protos.flatMap StreamProto.wire) = some result → condition →
    AbortReported (consumed stops (protos.map StreamProto.messages)) result) ∧
  (Plenty heap.malloc → ∃ result, loop.result heap (protos.flatMap StreamProto.wire) = some result ∧
    (AbortReported (consumed stops (protos.map StreamProto.messages)) result ↔ condition))

/-! ### One message -/

/-- What a message does to `done` and `rv`. -/
structure ReadLoop.Follows (loop : ReadLoop) (stops clears : ClMsg → Bool) : Prop where
  done : ∀ {ρ : Type} (s : Progress ρ) m record, (loop.message s m record).done = (s.done || stops m)
  rv : ∀ {ρ : Type} (s : Progress ρ) m record, (loop.message s m record).rv =
    if clears m then 0 else if batchAborts m then Int.ofNat m.resultCode.toNat else s.rv
  aborts : ∀ m, batchAborts m → stops m

theorem doBatchMonte_follows (inflate : List UInt8 → Option (List UInt8)) (cb : Bool) :
    (doBatchMonte inflate cb).Follows batchStops (batchRecord cb) := by
  refine ⟨doBatchMonte_done inflate cb,fun s m record => ?_,fun m aborts => by simp [batchStops,aborts]⟩
  change (batchMessage cb s m record).rv = _
  unfold batchMessage
  cases batchAborts m <;> cases isLast m <;> cases batchRecord cb m <;> rfl

theorem doScanMonte_follows (operationInfo : UInt32) :
    (doScanMonte operationInfo).Follows scanStops (scanClears operationInfo) := by
  refine ⟨doScanMonte_done operationInfo,fun s m record => ?_,fun m aborts => ?_⟩
  · change (scanMessage operationInfo s m record).rv = _
    unfold scanMessage scanClears batchAborts
    by_cases ok : m.resultCode = clResultOk
    · cases isLast m <;> cases scanRecord operationInfo m <;> simp [ok,clResultOk,clResultNotfound]
    by_cases missing : m.resultCode = clResultNotfound
    · simp [missing,clResultOk,clResultNotfound]
    · simp [ok,missing]
  · have code : m.resultCode ≠ clResultOk := (of_decide_eq_true aborts).1
    simp [scanStops,code]

theorem aborts_code (aborts : batchAborts m = true) : Int.ofNat m.resultCode.toNat ≠ 0 := by
  have code : m.resultCode ≠ clResultOk := (of_decide_eq_true aborts).1
  intro zero
  exact code (UInt8.toNat_inj.mp (Int.ofNat_eq_zero.mp zero))

/-! ### The messages of a proto -/

theorem abortKept_cons (clears : ClMsg → Bool) (msg : StreamMessage) (messages : List StreamMessage) :
    AbortKept clears (msg :: messages) ↔
      (batchAborts msg.m ∧ ∀ other ∈ msg :: messages, ¬clears other.m) ∨ AbortKept clears messages := by
  constructor
  · rintro ⟨before,aborting,after,parts,aborts,kept⟩
    cases before with
    | nil =>
      obtain ⟨rfl,rfl⟩ := List.cons.inj parts
      exact .inl ⟨aborts,kept⟩
    | cons first before =>
      obtain ⟨_,rest⟩ := List.cons.inj parts
      exact .inr ⟨before,aborting,after,rest,aborts,kept⟩
  · rintro (⟨aborts,kept⟩ | ⟨before,aborting,after,rfl,aborts,kept⟩)
    · exact ⟨[],msg,messages,rfl,aborts,kept⟩
    · exact ⟨msg :: before,aborting,after,rfl,aborts,kept⟩

theorem proto_done (loop : ReadLoop) (follows : loop.Follows stops clears) (messages : List StreamMessage)
    (s : Progress RecordView) :
    (loop.proto s messages).done = (s.done || messages.any fun msg => stops msg.m) := by
  induction messages generalizing s with
  | nil => simp [ReadLoop.proto]
  | cons msg messages ih =>
    have one := follows.done s msg.m msg.view
    have rest := ih (loop.message s msg.m msg.view)
    rw [one,Bool.or_assoc] at rest
    exact rest

theorem proto_rv (loop : ReadLoop) (follows : loop.Follows stops clears) (messages : List StreamMessage)
    (s : Progress RecordView) :
    (loop.proto s messages).rv ≠ 0 ↔
      AbortKept clears messages ∨ s.rv ≠ 0 ∧ ∀ msg ∈ messages, ¬clears msg.m := by
  induction messages generalizing s with
  | nil =>
    have none : ¬AbortKept clears [] := fun ⟨before,_,_,parts,_⟩ => by simp at parts
    simp [ReadLoop.proto,none]
  | cons msg messages ih =>
    have one := follows.rv s msg.m msg.view
    have rest := ih (loop.message s msg.m msg.view)
    refine rest.trans ?_
    rw [abortKept_cons,one,List.forall_mem_cons]
    by_cases clear : clears msg.m
    · simp [clear]
    by_cases aborts : batchAborts msg.m
    · rw [if_neg clear,if_pos aborts,and_iff_right (aborts_code aborts),and_iff_right aborts,and_iff_right clear]
      constructor
      · rintro (kept | later)
        · exact .inl (.inr kept)
        · exact .inl (.inl later)
      · rintro ((later | kept) | ⟨_,later⟩)
        · exact .inr later
        · exact .inl kept
        · exact .inr later
    · simp [clear,aborts]

/-! ### The protos of a stream -/

theorem finished_cons (stops : ClMsg → Bool) (messages : List StreamMessage) (protos : List (List StreamMessage)) :
    Finished stops (messages :: protos) ↔ (messages.any fun msg => stops msg.m) = true ∨ Finished stops protos := by
  unfold Finished
  rw [List.exists_mem_cons_iff,List.any_eq_true]

/-- Messages that do not abort decide nothing. -/
theorem abortKept_append (messages rest : List StreamMessage) (none : ∀ msg ∈ messages, ¬batchAborts msg.m) :
    AbortKept clears (messages ++ rest) ↔ AbortKept clears rest := by
  induction messages with
  | nil => exact Iff.rfl
  | cons msg messages ih =>
    rw [List.cons_append,abortKept_cons,ih fun other member => none other (List.mem_cons_of_mem _ member)]
    exact or_iff_right fun aborts => none msg List.mem_cons_self aborts.1

theorem ReadLoop.leave_pooled (loop : ReadLoop) (rv : Int) : decide (loop.leave rv = .pooled) = loop.pools rv := by
  rw [ReadLoop.leave]
  cases loop.pools rv <;> rfl

/-- The result of a stream that ends is the one of its last proto; one that breaks off gives -1. -/
theorem outcome_result (loop : ReadLoop) (follows : loop.Follows stops clears) (protos : List (List StreamMessage))
    (calls : List RecordView) :
    (Finished stops protos → ((loop.outcome calls protos).rv ≠ 0 ↔ AbortKept clears (consumed stops protos)) ∧
      (loop.outcome calls protos).pooled = loop.pools (loop.outcome calls protos).rv) ∧
    (¬Finished stops protos → (loop.outcome calls protos).rv = -1 ∧ (loop.outcome calls protos).pooled = false) := by
  induction protos generalizing calls with
  | nil => exact ⟨fun ⟨_,member,_⟩ => absurd member List.not_mem_nil,fun _ => ⟨rfl,rfl⟩⟩
  | cons messages protos ih =>
    have done := proto_done loop follows messages ⟨0,false,calls⟩
    rw [Bool.false_or] at done
    rw [finished_cons,ReadLoop.outcome,consumed]
    by_cases ends : (messages.any fun msg => stops msg.m) = true
    · rw [if_pos ends,done,if_pos ends]
      refine ⟨fun _ => ⟨?_,loop.leave_pooled _⟩,fun not => absurd (.inl ends) not⟩
      refine (proto_rv loop follows messages ⟨0,false,calls⟩).trans ?_
      exact or_iff_left fun zero => zero.1 rfl
    · have quiet (msg : StreamMessage) (member : msg ∈ messages) : ¬batchAborts msg.m := fun aborts =>
        ends (List.any_eq_true.mpr ⟨msg,member,follows.aborts msg.m aborts⟩)
      rw [if_neg ends,done,if_neg ends,or_iff_right ends,abortKept_append messages _ quiet]
      exact ih _

/-! ### Memory -/

/-- What is received where memory may run out is received where it does not. -/
theorem receiveBody_plenty (loop : ReadLoop) (plenty : Plenty malloc)
    (got : loop.receiveBody short stream = .ok out) : loop.receiveBody malloc stream = .ok out := by
  unfold ReadLoop.receiveBody at *
  obtain ⟨⟨proto,rest⟩,header,got⟩ := except_bind_ok.mp got
  apply except_bind_given header
  dsimp only at got ⊢
  split at got
  · cases got
  rename_i version
  rw [if_neg version]
  split at got
  · cases got
  rename_i type
  rw [if_neg type]
  obtain ⟨_,_,got⟩ := except_bind_ok.mp got
  have given : ∃ address, readBuf malloc proto.sz = some address := by
    unfold readBuf
    split
    · exact plenty _
    · exact ⟨0,rfl⟩
  obtain ⟨address,given⟩ := given
  exact except_bind_given (orError_ok.mpr given) got

/-- Two walks past the same bytes, one of them where memory may run out. If that one comes to the
end, so does the other, with the same result. -/
theorem walk_heaps (loop : ReadLoop) (follows : loop.Follows stops clears) (heap short : Heap)
    (plenty : Plenty heap.malloc) (room : stack.length = stackBins) (room' : stack'.length = stackBins)
    (agree : Agree p orig buf) (agree' : Agree p orig buf')
    (got : walkMessages short loop.message fuel stack buf p s = some (none,t))
    (full : walkMessages heap loop.message fuel stack' buf' p s' = some out)
    (rv : s.rv = s'.rv) (done : s.done = s'.done) :
    out.1 = none ∧ t.rv = out.2.rv ∧ t.done = out.2.done := by
  induction fuel generalizing stack stack' buf buf' p s s' with
  | zero =>
    rw [walkMessages,← agree.size] at got
    rw [walkMessages,← agree'.size] at full
    split at got
    · cases got
    · rename_i past
      rw [if_neg past] at full
      obtain rfl := Option.some.inj full
      obtain rfl := (Prod.mk.inj (Option.some.inj got)).2
      exact ⟨rfl,rv,done⟩
  | succ fuel ih =>
    rw [walkMessages,← agree.size] at got
    rw [walkMessages,← agree'.size] at full
    split at got
    · rename_i goes
      rw [if_pos goes] at full
      obtain ⟨first,turn,got⟩ := Option.bind_eq_some_iff.mp got
      obtain ⟨other,turn',full⟩ := Option.bind_eq_some_iff.mp full
      rcases (readMessage_checked short stack room agree).meets turn with ⟨passes,read,rfl,left⟩ | ⟨_,_,rfl,_⟩
      · have here : MessagePasses heap orig p := by
          obtain ⟨address,given⟩ := plenty (64 * (msgAt orig p).nOps.toNat)
          exact ⟨passes.1,fun _ => by rw [given]; rfl⟩
        rcases (readMessage_checked heap stack' room' agree').meets turn' with ⟨_,read',rfl,right⟩ | ⟨stopped,_⟩
        · have m : read.m = read'.m := left.m.trans right.m.symm
          have next : read.next = read'.next := left.next.trans right.next.symm
          have agree' := right.agree
          dsimp only at full
          rw [← next] at agree' full
          refine ih left.room right.room left.agree agree' got full ?_ ?_
          · rw [follows.rv,follows.rv,m,rv]
          · rw [follows.done,follows.done,m,done]
        · exact absurd here stopped
      · cases got
    · rename_i past
      rw [if_neg past] at full
      obtain rfl := Option.some.inj full
      obtain rfl := (Prod.mk.inj (Option.some.inj got)).2
      exact ⟨rfl,rv,done⟩

/-- Where memory runs out the loop returns -1 without giving its socket back, or what it returns
elsewhere. -/
theorem run_heaps (loop : ReadLoop) (follows : loop.Follows stops clears) (heap short : Heap)
    (plenty : Plenty heap.malloc) (stream : List UInt8) (calls calls' : List CallbackRecord)
    (got : loop.run short fuel stream calls = some result) (full : loop.run heap fuel stream calls' = some expected) :
    result.rv = -1 ∧ result.pooled = false ∨ result.rv = expected.rv ∧ result.pooled = expected.pooled := by
  induction fuel generalizing stream calls calls' with
  | zero => cases got
  | succ fuel ih =>
    rw [ReadLoop.run] at got full
    cases taken : loop.receiveBody short.malloc stream with
    | error exit =>
      rw [taken] at got
      obtain rfl := Option.some.inj got
      exact .inl ⟨rfl,(receiveBody_fails loop taken).pooled⟩
    | ok pair =>
      rw [taken] at got
      rw [receiveBody_plenty loop plenty taken] at full
      obtain ⟨body,rest⟩ := pair
      obtain ⟨⟨exit,t⟩,walk,got⟩ := Option.bind_eq_some_iff.mp got
      obtain ⟨⟨exit',t'⟩,walk',full⟩ := Option.bind_eq_some_iff.mp full
      have size (memory : Heap) : ((List.range stackBins).map memory.garbage).length = stackBins := by
        rw [List.length_map,List.length_range]
      dsimp only at got full
      cases exit with
      | some exit =>
        obtain rfl := Option.some.inj got
        have made := (walkMessages_checked (p := 0) short stops loop.message follows.done _ (size short) (.refl 0 body)
          (by omega : body.length < 0 + (body.length + 1)) ⟨0,false,calls⟩).meets walk
        have fails : loop.Fails exit := .message exit (made.fails exit rfl)
        exact .inl ⟨rfl,fails.pooled⟩
      | none =>
        obtain ⟨whole,rv,done⟩ := walk_heaps loop follows heap short plenty (size short) (size heap) (.refl 0 body)
          (.refl 0 body) walk walk' rfl rfl
        obtain rfl : exit' = none := whole
        dsimp only at rv done got full
        rw [← rv,← done] at full
        split at got
        · rename_i ended
          rw [if_pos ended] at full
          obtain rfl := Option.some.inj got
          obtain rfl := Option.some.inj full
          exact .inr ⟨rfl,rfl⟩
        · rename_i goes
          rw [if_neg goes] at full
          exact ih rest t.calls t'.calls got full

/-! ### Errors -/

theorem AbortReported.of_failed (rv : result.rv = -1) (pooled : result.pooled = false) :
    AbortReported messages result := by
  constructor
  · intro _
    rw [rv]
    decide
  · intro given
    rw [pooled] at given
    cases given

/-- A condition that is exact for the outcome of a stream is exact for the loop. -/
theorem reportsWhen (loop : ReadLoop) (natural : loop.Natural) (follows : loop.Follows stops clears) (heap : Heap)
    (protos : List StreamProto) (formed : ∀ proto ∈ protos, proto.WellFormed loop)
    (exactly : ∀ result : StreamResult CallbackRecord,
      result.rv = (loop.outcome [] (protos.map StreamProto.messages)).rv →
      result.pooled = (loop.outcome [] (protos.map StreamProto.messages)).pooled →
      (AbortReported (consumed stops (protos.map StreamProto.messages)) result ↔ condition)) :
    ReportsWhen loop stops heap protos condition := by
  constructor
  · intro result got holds
    have plenty : Plenty (⟨fun _ => some 0,heap.garbage⟩ : Heap).malloc := fun _ => ⟨0,rfl⟩
    obtain ⟨expected,full,view⟩ := result_protos loop natural _ plenty protos formed
    rcases run_heaps loop follows _ heap plenty _ [] [] got full with ⟨rv,pooled⟩ | ⟨rv,pooled⟩
    · exact .of_failed rv pooled
    · have sameRv := congrArg StreamResult.rv view
      have samePooled := congrArg StreamResult.pooled view
      exact (exactly result (rv.trans sameRv) (pooled.trans samePooled)).mpr holds
  · intro plenty
    obtain ⟨result,got,view⟩ := result_protos loop natural heap plenty protos formed
    exact ⟨result,got,exactly result (congrArg StreamResult.rv view) (congrArg StreamResult.pooled view)⟩

theorem consumed_stops (finished : Finished stops protos) : ∃ msg ∈ consumed stops protos, stops msg.m := by
  induction protos with
  | nil =>
    obtain ⟨_,member,_⟩ := finished
    exact absurd member List.not_mem_nil
  | cons messages protos ih =>
    rw [consumed]
    split
    · rename_i ends
      exact List.any_eq_true.mp ends
    · rename_i goes
      obtain ⟨msg,member,stop⟩ := ih (((finished_cons stops messages protos).mp finished).resolve_left goes)
      exact ⟨msg,List.mem_append_right _ member,stop⟩

/-- Without an error, what ends a batch is its last message. -/
theorem lastReached_of_quiet (finished : Finished batchStops protos) (quiet : ¬Aborted (consumed batchStops protos)) :
    LastReached (consumed batchStops protos) := by
  obtain ⟨msg,member,stop⟩ := consumed_stops finished
  obtain ⟨before,after,parts⟩ := List.append_of_mem member
  have calm : ¬batchAborts msg.m := fun aborts => quiet ⟨msg,member,aborts⟩
  have last : isLast msg.m := ((Bool.or_eq_true _ _).mp stop).resolve_left calm
  refine ⟨before,msg,after,parts,last,fun other earlier aborts => quiet ⟨other,?_,aborts⟩⟩
  rw [parts]
  exact List.mem_append_left _ earlier

theorem batch_reports (heap : Heap) (inflate : List UInt8 → Option (List UInt8)) (cb : Bool)
    (protos : List StreamProto) (formed : ∀ proto ∈ protos, proto.WellFormed (doBatchMonte inflate cb)) :
    ReportsWhen (doBatchMonte inflate cb) batchStops heap protos (BatchReports cb (protos.map StreamProto.messages)) := by
  have follows := doBatchMonte_follows inflate cb
  apply reportsWhen _ (doBatchMonte_natural inflate cb) follows heap protos formed
  intro result rv pooled
  obtain ⟨ended,broken⟩ := outcome_result _ follows (protos.map StreamProto.messages) []
  rw [← rv,← pooled] at ended broken
  by_cases finished : Finished batchStops (protos.map StreamProto.messages)
  · obtain ⟨kept,back⟩ := ended finished
    constructor
    · intro holds _ aborted
      exact kept.mp (holds.reported aborted)
    · intro holds
      refine ⟨fun aborted => kept.mpr (holds finished aborted),fun given => ?_⟩
      have zero : result.rv = 0 := of_decide_eq_true (back.symm.trans given)
      exact lastReached_of_quiet finished fun aborted => kept.mpr (holds finished aborted) zero
  · obtain ⟨failed,closed⟩ := broken finished
    exact iff_of_true (.of_failed failed closed) fun ends => absurd ends finished

theorem scan_reports (heap : Heap) (operationInfo : UInt32) (protos : List StreamProto)
    (formed : ∀ proto ∈ protos, proto.WellFormed (doScanMonte operationInfo)) :
    ReportsWhen (doScanMonte operationInfo) scanStops heap protos
      (ScanReports operationInfo (protos.map StreamProto.messages)) := by
  have follows := doScanMonte_follows operationInfo
  apply reportsWhen _ (doScanMonte_natural operationInfo) follows heap protos formed
  intro result rv pooled
  obtain ⟨ended,broken⟩ := outcome_result _ follows (protos.map StreamProto.messages) []
  rw [← rv,← pooled] at ended broken
  by_cases finished : Finished scanStops (protos.map StreamProto.messages)
  · obtain ⟨kept,back⟩ := ended finished
    constructor
    · intro holds _
      exact ⟨holds.pooled back,fun aborted => kept.mp (holds.reported aborted)⟩
    · intro holds
      obtain ⟨last,reported⟩ := holds finished
      exact ⟨fun aborted => kept.mpr (reported aborted),fun _ => last⟩
  · obtain ⟨failed,closed⟩ := broken finished
    exact iff_of_true (.of_failed failed closed) fun ends => absurd ends finished

/-- An error in a stream is reported, and the socket kept back, exactly under these conditions. -/
theorem abort_reported (heap : Heap) (inflate : List UInt8 → Option (List UInt8)) (cb : Bool) (operationInfo : UInt32)
    (batch scan : List StreamProto) (batchFormed : ∀ proto ∈ batch, proto.WellFormed (doBatchMonte inflate cb))
    (scanFormed : ∀ proto ∈ scan, proto.WellFormed (doScanMonte operationInfo)) :
    ReportsWhen (doBatchMonte inflate cb) batchStops heap batch (BatchReports cb (batch.map StreamProto.messages)) ∧
    ReportsWhen (doScanMonte operationInfo) scanStops heap scan
      (ScanReports operationInfo (scan.map StreamProto.messages)) :=
  ⟨batch_reports heap inflate cb batch batchFormed,scan_reports heap operationInfo scan scanFormed⟩

/-! An error with a record behind it in the same proto. -/

def sampleError : StreamMessage := ⟨sampleHeader 4 0 0 0,[],[]⟩

def hiddenError : List StreamProto := [⟨[sampleError,sampleRecord],none⟩]

theorem hiddenError_formed (loop : ReadLoop) : ∀ proto ∈ hiddenError, proto.WellFormed loop := by
  intro proto member
  obtain rfl := List.mem_singleton.mp member
  refine sampleProto_formed loop [sampleError,sampleRecord] (fun msg member => ?_) (by decide)
  rcases List.mem_cons.mp member with rfl | member
  · exact ⟨rfl,rfl,rfl,nofun,nofun⟩
  · obtain rfl := List.mem_singleton.mp member
    exact sampleRecord_formed

theorem abort_reported_hidden :
    ReportsWhen (doBatchMonte (fun _ => none) true) batchStops sampleHeap hiddenError
      (BatchReports true (hiddenError.map StreamProto.messages)) ∧
    ReportsWhen (doScanMonte 1) scanStops sampleHeap hiddenError
      (ScanReports 1 (hiddenError.map StreamProto.messages)) :=
  abort_reported sampleHeap (fun _ => none) true 1 hiddenError hiddenError (hiddenError_formed _) (hiddenError_formed _)

/-- The record sets the result to zero again, and the socket goes back. -/
theorem error_hidden :
    (¬∀ heap inflate cb (protos : List StreamProto), (∀ proto ∈ protos, proto.WellFormed (doBatchMonte inflate cb)) →
      ∀ result, (doBatchMonte inflate cb).result heap (protos.flatMap StreamProto.wire) = some result →
        AbortReported (consumed batchStops (protos.map StreamProto.messages)) result) ∧
    (¬∀ heap operationInfo (protos : List StreamProto), (∀ proto ∈ protos, proto.WellFormed (doScanMonte operationInfo)) →
      ∀ result, (doScanMonte operationInfo).result heap (protos.flatMap StreamProto.wire) = some result →
        AbortReported (consumed scanStops (protos.map StreamProto.messages)) result) := by
  have aborted (stops : ClMsg → Bool) (ends : stops sampleError.m = true) :
      Aborted (consumed stops (hiddenError.map StreamProto.messages)) := by
    refine ⟨sampleError,?_,rfl⟩
    simp [hiddenError,consumed,ends]
  constructor
  · intro every
    have zero : ((doBatchMonte (fun _ => none) true).result sampleHeap (hiddenError.flatMap StreamProto.wire)).map
        StreamResult.rv = some 0 := by decide
    obtain ⟨result,returned,rv⟩ := Option.map_eq_some_iff.mp zero
    exact (every _ _ _ hiddenError (hiddenError_formed _) result returned).reported (aborted batchStops rfl) rv
  · intro every
    have zero : ((doScanMonte 1).result sampleHeap (hiddenError.flatMap StreamProto.wire)).map
        StreamResult.rv = some 0 := by decide
    obtain ⟨result,returned,rv⟩ := Option.map_eq_some_iff.mp zero
    exact (every _ _ hiddenError (hiddenError_formed _) result returned).reported (aborted scanStops rfl) rv

end Citrusleaf
