import Citrusleaf.FullMonte
import Citrusleaf.StreamBounds

/-! Runs of `do_the_full_monte` over attempts that fail and one that does not. What a failed attempt
leaves behind is the null pointer in `rd_buf`, if it came as far as the body of its response,
and under a policy that does not retry, an `errno` in `rv`. -/
namespace Citrusleaf.FullMonte
open Lib

variable {call : MonteCall} {a last : MonteAttempt} {s after : MonteState}

/-! ### Reads into a null buffer -/

theorem readLoop_nothing (turns : List ReadTurn) (nothing : ∀ turn ∈ turns, ∀ bytes, turn.poll ≠ .arrived bytes)
    (deadline want : Nat) (stream : List UInt8) : (readLoop deadline turns want stream).rv ≠ 0 := by
  induction turns with
  | nil => exact Nat.ne_of_gt etimedout.2
  | cons turn turns ih =>
    have later := ih fun turn member => nothing turn (List.mem_cons_of_mem _ member)
    rw [readLoop]
    split
    · exact Nat.ne_of_gt etimedout.2
    cases given : turn.poll with
    | waitFailed error =>
      dsimp only
      split
      · exact later
      · exact Nat.ne_of_gt error.errno.2
    | noEvents => exact later
    | unknownSocket => exact later
    | notReadable => exact Nat.ne_of_gt ebadf.2
    | readFailed errno =>
      dsimp only
      split
      · exact later
      · exact Nat.ne_of_gt errno.2
    | closed => exact Nat.ne_of_gt ebadf.2
    | arrived bytes => exact absurd given (nothing turn List.mem_cons_self bytes)

/-- No body is read into a null buffer. -/
theorem bodyRead_null (some : 0 < a.rdBufSz call) : (a.bodyRead call .null).rv ≠ 0 := by
  rw [MonteAttempt.bodyRead,if_pos rfl,cfSocketReadTimeout,if_neg (Nat.ne_of_gt some)]
  cases setup : a.body.setup with
  | some errno =>
    rw [ReadAttempt.intoNull]
    simp only [setup]
    exact Nat.ne_of_gt errno.2
  | none =>
    rw [ReadAttempt.intoNull]
    simp only [setup]
    apply readLoop_nothing
    intro turn member bytes
    obtain ⟨before,_,rfl⟩ := List.mem_map.mp member
    cases before.poll <;> simp

/-! ### Failed attempts -/

/-- The state in which the loop goes on. -/
def again (call : MonteCall) (s : MonteState) (a : MonteAttempt) : Option MonteState :=
  match monteTry call a s with
  | .retry s => if ¬a.Late call ∧ call.retries then some s else none
  | _ => none

/-- The state behind attempts that all fail. -/
def afterFailures (call : MonteCall) : MonteState → List MonteAttempt → Option MonteState
  | s,[] => some s
  | s,a :: attempts => (again call s a).bind (afterFailures call · attempts)

/-- The response comes as far as its body. -/
def MonteAttempt.ReachesBody (a : MonteAttempt) (call : MonteCall) : Prop := a.Reached call ∧ 0 < a.rdBufSz call

theorem again_retry (goes : again call s a = some after) :
    monteTry call a s = .retry after ∧ ¬a.Late call ∧ call.retries = true := by
  rw [again] at goes
  split at goes
  · rename_i next tried
    split at goes
    · rename_i on
      obtain rfl := Option.some.inj goes
      exact ⟨tried,on⟩
    · cases goes
  · cases goes

theorem loop_again (goes : again call s a = some after) (attempts : List MonteAttempt) :
    monteLoop call s (a :: attempts) = monteLoop call after attempts := by
  obtain ⟨tried,inTime,retries⟩ := again_retry goes
  rw [monteLoop,tried]
  dsimp only
  rw [if_neg inTime,if_pos retries]

theorem loop_after (failed : List MonteAttempt) (goes : afterFailures call s failed = some after)
    (attempts : List MonteAttempt) : monteLoop call s (failed ++ attempts) = monteLoop call after attempts := by
  induction failed generalizing s with
  | nil =>
    obtain rfl := Option.some.inj goes
    rfl
  | cons a failed ih =>
    obtain ⟨next,one,rest⟩ := Option.bind_eq_some_iff.mp goes
    rw [List.cons_append,loop_again one,ih rest]

theorem unanswered_unreached {errno : Nat} (nonzero : errno ≠ 0)
    (failed : a.write.map Subtype.val = some errno ∨ a.write = none ∧ (a.headerRead call).rv = errno) :
    ¬a.Reached call := by
  intro reached
  rcases failed with written | ⟨_,read⟩
  · rw [reached.write] at written
    cases written
  · exact nonzero (read.symm.trans reached.header)

/-- What a failed attempt leaves. -/
theorem again_leaves (goes : again call s a = some after) :
    after.try_ = s.try_ + 1 ∧ (call.clGen = false → after.clGen = s.clGen) ∧
      (a.ReachesBody call → after.rdBuf = .null) ∧ (¬a.ReachesBody call → after.rdBuf = s.rdBuf) := by
  have tries := monteTry_tries call a s
  rw [(again_retry goes).1] at tries
  cases tries with
  | unsent unsent => exact ⟨rfl,fun _ => rfl,fun reaches => absurd ⟨reaches.1.node,reaches.1.fd⟩ unsent,fun _ => rfl⟩
  | unanswered errno sent nonzero failed =>
    exact ⟨rfl,fun _ => rfl,fun reaches => absurd reaches.1 (unanswered_unreached nonzero failed),fun _ => rfl⟩
  | cut reached some =>
    refine ⟨rfl,fun no => ?_,fun _ => rfl,fun not => absurd ⟨reached,some⟩ not⟩
    rw [MonteState.decoded,no]
    rfl

/-- `rd_buf` is lost as soon as one attempt failed in the body of its response. -/
theorem failures_leave (failed : List MonteAttempt) (goes : afterFailures call s failed = some after) :
    after.try_ = s.try_ + failed.length ∧ (call.clGen = false → after.clGen = s.clGen) ∧
      ((∃ a ∈ failed, a.ReachesBody call) → after.rdBuf = .null) ∧
      ((∀ a ∈ failed, ¬a.ReachesBody call) → after.rdBuf = s.rdBuf) := by
  induction failed generalizing s with
  | nil =>
    obtain rfl := Option.some.inj goes
    exact ⟨rfl,fun _ => rfl,by simp,fun _ => rfl⟩
  | cons a failed ih =>
    obtain ⟨next,one,rest⟩ := Option.bind_eq_some_iff.mp goes
    obtain ⟨number,gen,lost,kept⟩ := again_leaves one
    obtain ⟨count,gens,later,same⟩ := ih rest
    refine ⟨by rw [count,number,List.length_cons]; omega,fun no => (gens no).trans (gen no),?_,fun none => ?_⟩
    · rintro ⟨b,member,reaches⟩
      by_cases other : ∃ b ∈ failed, b.ReachesBody call
      · exact later other
      · rw [same fun b member reaches => other ⟨b,member,reaches⟩]
        rcases List.mem_cons.mp member with rfl | member
        · exact lost reaches
        · exact absurd ⟨b,member,reaches⟩ other
    · rw [same fun b member => none b (List.mem_cons_of_mem _ member),kept (none a List.mem_cons_self)]

/-! ### An attempt that receives its whole response -/

/-- The header of the response as it arrives. -/
def MonteAttempt.msg (a : MonteAttempt) (call : MonteCall) : ClMsg := msgAt (a.headerRead call).buf 8

/-- The response arrives completely, and there is memory for it. -/
structure MonteAttempt.Complete (a : MonteAttempt) (call : MonteCall) : Prop where
  reached : a.Reached call
  buffered : a.Buffered call
  body : 0 < a.rdBufSz call → (a.bodyRead call .stack).rv = 0

theorem readProto_inside {buf : List UInt8} (inside : p + 8 ≤ buf.length) : ∃ proto, readProto buf p = some proto := by
  have byte (i : Nat) (within : i < buf.length) : readByte buf i = some buf[i] := List.getElem?_eq_getElem within
  have sz : readBytes buf (p + 2) 6 = some ((buf.drop (p + 2)).take 6) := if_pos (by omega)
  exact ⟨_,by rw [readProto,byte p (by omega),byte (p + 1) (by omega),sz]; rfl⟩

theorem MonteAttempt.Reached.decodes (reached : a.Reached call) :
    ∃ proto, swapAsMsg (a.headerRead call).buf = some (proto,a.msg call) := by
  have reads : Reads a.stream asMsgSize (a.headerRead call) := socketRead_reads _ _ _ _ _
  have size := reads.full reached.header
  have fits : 2 + 6 ≤ (a.headerRead call).buf.length := by
    rw [size,asMsgSize]
    decide
  obtain ⟨one,proto,agree,_⟩ := swapBytes_inside fits
  obtain ⟨two,header,read,rest⟩ := header_inside agree (by rw [size,asMsgSize] : 8 + 22 ≤ (a.headerRead call).buf.length)
  obtain ⟨proto',same⟩ := @readProto_inside 0 two (by rw [← rest.size,size,asMsgSize]; decide)
  refine ⟨proto',?_⟩
  apply bind_given (proto : clProtoSwap _ 0 = some one)
  apply bind_given header
  apply bind_given same
  apply bind_given read
  rfl

theorem bodyRead_same (given : rdBuf ≠ .null) : a.bodyRead call rdBuf = a.bodyRead call .stack := by
  rw [MonteAttempt.bodyRead,MonteAttempt.bodyRead,if_neg given,if_neg RdBuf.noConfusion]

/-- The state at `Ok`. -/
def MonteState.final (s : MonteState) (call : MonteCall) (a : MonteAttempt) : MonteState :=
  {s.decoded call a with rdBuf := if 0 < a.rdBufSz call then s.bodyBuf call a else s.rdBuf}

/-- The body as it arrives. -/
def MonteAttempt.bodyBytes (a : MonteAttempt) (call : MonteCall) : List UInt8 :=
  if 0 < a.rdBufSz call then (a.bodyRead call .stack).buf else []

/-- An attempt whose response is complete ends with its body, or loses the body. -/
theorem MonteAttempt.Complete.tries (complete : a.Complete call) (s : MonteState) :
    (0 < a.rdBufSz call ∧ (a.bodyRead call (s.bodyBuf call a)).rv ≠ 0 ∧ monteTry call a s =
      .retry {s.decoded call a with rv := (a.bodyRead call (s.bodyBuf call a)).rv,rdBuf := .null}) ∨
    (0 < a.rdBufSz call ∧ (a.bodyRead call (s.bodyBuf call a)).rv = 0 ∧ monteTry call a s =
      .ok {s.decoded call a with rdBuf := s.bodyBuf call a} (a.headerRead call).buf
        (a.bodyRead call (s.bodyBuf call a)).buf) ∨
    (a.rdBufSz call = 0 ∧ monteTry call a s = .ok (s.decoded call a) (a.headerRead call).buf []) := by
  have tries := monteTry_tries call a s
  generalize monteTry call a s = label at tries ⊢
  cases tries with
  | unsent unsent => exact absurd ⟨complete.reached.node,complete.reached.fd⟩ unsent
  | unanswered errno sent nonzero failed => exact absurd complete.reached (unanswered_unreached nonzero failed)
  | noMemory _ unbuffered => exact absurd complete.buffered unbuffered
  | cut _ some _ nonzero => exact .inl ⟨some,nonzero,rfl⟩
  | whole _ some _ read => exact .inr (.inl ⟨some,read,rfl⟩)
  | empty _ none => exact .inr (.inr ⟨none,rfl⟩)

theorem MonteAttempt.Complete.received (complete : a.Complete call)
    (buffer : s.rdBuf = .null → a.rdBufSz call = 0 ∨ stackBufSz < a.rdBufSz call) :
    monteTry call a s = .ok (s.final call a) (a.headerRead call).buf (a.bodyBytes call) := by
  have given (some : 0 < a.rdBufSz call) : s.bodyBuf call a ≠ .null := by
    rw [MonteState.bodyBuf]
    split
    · exact RdBuf.noConfusion
    · rename_i small
      intro null
      have := buffer null
      omega
  rcases complete.tries s with ⟨some,nonzero,_⟩ | ⟨some,_,tried⟩ | ⟨none,tried⟩
  · exact absurd (bodyRead_same (given some) ▸ complete.body some) nonzero
  · rw [tried,bodyRead_same (given some),MonteState.final,MonteAttempt.bodyBytes,if_pos some,if_pos some]
  · have nothing : ¬0 < a.rdBufSz call := Nat.not_lt.mpr (Nat.le_of_eq none)
    rw [tried,MonteState.final,MonteAttempt.bodyBytes,if_neg nothing,if_neg nothing]
    rfl

/-- Without a buffer the body is lost, and the attempt fails. -/
theorem MonteAttempt.Complete.lost (complete : a.Complete call) (null : s.rdBuf = .null) (some : 0 < a.rdBufSz call)
    (small : a.rdBufSz call ≤ stackBufSz) :
    ∃ rv, monteTry call a s = .retry {s.decoded call a with rv,rdBuf := .null} := by
  have buffer : s.bodyBuf call a = .null := by rw [MonteState.bodyBuf,if_neg (Nat.not_lt.mpr small),null]
  rcases complete.tries s with ⟨_,_,tried⟩ | ⟨_,read,_⟩ | ⟨none,_⟩
  · exact ⟨_,tried⟩
  · rw [buffer] at read
    exact absurd read (bodyRead_null some)
  · omega

/-- `cl_parse` on a response without a body. -/
theorem clParse_empty (heap : Heap) (m : ClMsg) (caller : ParseCaller) : clParse heap m [] caller = some (
    if m.nFields ≠ 0 then ⟨-1,caller.values,none,none⟩
    else match caller.values with
    | none => ⟨0,none,none,none⟩
    | some values =>
      if m.nOps = 0 then ⟨0,some values,none,none⟩
      else if m.nOps.toNat ≤ values.bins.length then ⟨-1,some values,none,none⟩
      else match heap.malloc (values.itemSize * m.nOps.toNat) with
      | none => ⟨-1,some values,none,none⟩
      | some _ => ⟨-1,some {values with bins := (List.range m.nOps.toNat).map heap.garbage},none,none⟩) := by
  by_cases fields : m.nFields = 0
  · rw [clParse,fields,if_neg (not_not.mpr rfl)]
    cases given : caller.values with
    | none => rfl
    | some values =>
      have ops : parseOps heap m.nOps.toNat values [] 0 = some (
          if m.nOps = 0 then (0,values)
          else if m.nOps.toNat ≤ values.bins.length then (-1,values)
          else match heap.malloc (values.itemSize * m.nOps.toNat) with
          | none => (-1,values)
          | some _ => (-1,{values with bins := (List.range m.nOps.toNat).map heap.garbage})) := by
        by_cases none : m.nOps = 0
        · rw [none,if_pos rfl]
          rfl
        · obtain ⟨n,count⟩ : ∃ n, m.nOps.toNat = n + 1 :=
            ⟨m.nOps.toNat - 1,by have := mt UInt16.toNat_inj.mp none; simp at this; omega⟩
          rw [parseOps,count,if_neg none]
          by_cases fits : n + 1 ≤ values.bins.length
          · rw [if_neg (Nat.not_lt.mpr fits),if_pos fits,parseOpsSearch,if_pos (by decide)]
            rfl
          · rw [if_pos (Nat.not_le.mp fits),if_neg fits]
            cases heap.malloc (values.itemSize * (n + 1)) with
            | none => rfl
            | some _ =>
              rw [List.range_succ_eq_map,List.map_cons]
              dsimp only
              rw [parseOpsFresh,if_pos (by decide)]
              rfl
      have start : parseFields caller (0 : UInt16).toNat ⟨[],0,none,none⟩ = some (0,⟨[],0,none,none⟩) := rfl
      apply bind_given start
      dsimp only
      rw [if_neg (not_not.mpr rfl)]
      apply bind_given ops
      split
      · rfl
      split
      · rfl
      cases heap.malloc (values.itemSize * m.nOps.toNat) with
      | none => rfl
      | some _ => rfl
  · obtain ⟨n,count⟩ : ∃ n, m.nFields.toNat = n + 1 :=
      ⟨m.nFields.toNat - 1,by have := mt UInt16.toNat_inj.mp fields; simp at this; omega⟩
    rw [clParse,count,parseFields,if_pos fields]
    rfl

/-! ### Earlier failures -/

/-- A delete that is answered "not found" in a later attempt. -/
def forgive (call : MonteCall) (r : MonteResult) : MonteResult :=
  if r.rv = citrusleafFailNotfound ∧ call.deletes then {r with rv := 0} else r

/-- The attempts that failed make no difference to what the last one returns. -/
def SameAsFirst (call : MonteCall) (failed : List MonteAttempt) (last : MonteAttempt) : Prop :=
  ∃ result, doTheFullMonte true call [last] = .ended 1 result ∧
    doTheFullMonte true call (failed ++ [last]) =
      .ended (failed.length + 1) (if failed = [] then result else result.map (forgive call))

/-- A response without a body for which `CITRUSLEAF_FAIL_UNKNOWN` is returned in any attempt: its code
says so, or it announces fields or operations that are not there. -/
def EmptyUnknown (heap : Heap) (m : ClMsg) (caller : ParseCaller) : Prop :=
  m.nFields ≠ 0 ∨ match caller.values with
    | none => m.resultCode = 1
    | some values =>
      if m.nOps = 0 then m.resultCode = 1
      else m.nOps.toNat ≤ values.bins.length ∨ heap.malloc (values.itemSize * m.nOps.toNat) = none

theorem resultCode_notfound (code : UInt8) : (code.toNat : Int) = citrusleafFailNotfound ↔ code = clResultNotfound := by
  rw [← UInt8.toNat_inj]
  exact Int.ofNat_inj

/-- The result depends on the number of the attempt for deletes only. -/
theorem monteOk_forgives {t : MonteState} (buffer : s.rdBuf ≠ .null) (other : t.rdBuf ≠ .null) (gen : s.clGen = t.clGen)
    (first : t.try_ = 1) (heap : Heap) (msg body : List UInt8) :
    monteOk call heap s msg body =
      if s.try_ > 1 then (monteOk call heap t msg body).map (forgive call) else monteOk call heap t msg body := by
  have once : ¬t.try_ > 1 := by omega
  rw [monteOk,monteOk,if_neg buffer,if_neg other,gen]
  by_cases later : s.try_ > 1
  · rw [if_pos later]
    cases swapAsMsg msg with
    | none => rfl
    | some header =>
      simp only [Option.bind_eq_bind,Option.bind_some]
      cases clParse heap header.2 body call.caller with
      | none => rfl
      | some parsed =>
        simp only [Option.bind_some,Option.pure_def,Option.map_some,once,later,false_and,true_and,if_false,forgive]
        by_cases unparsed : parsed.rv ≠ 0
        · simp only [if_pos unparsed]
          rfl
        · simp only [if_neg unparsed,resultCode_notfound]
          split <;> rfl
  · rw [if_neg later]
    simp only [later,once,false_and,if_false]

theorem forgive_unknown {r : MonteResult} (unknown : s.result call citrusleafFailUnknown = t) :
    forgive call r = t ↔ r = t := by
  subst unknown
  rw [forgive]
  split
  · rename_i deleted
    constructor
    · intro same
      have codes := congrArg MonteResult.rv same
      cases codes
    · rintro rfl
      cases deleted.1
  · exact Iff.rfl

/-- A response without a body, in the first attempt. -/
theorem empty_unknown_iff {heap : Heap} {m : ClMsg} (decodes : swapAsMsg msg = some (proto,m)) (buffer : s.rdBuf ≠ .null)
    (first : s.try_ = 1) :
    monteOk call heap s msg [] = some (s.result call citrusleafFailUnknown) ↔ EmptyUnknown heap m call.caller := by
  have once : ¬s.try_ > 1 := by omega
  have code : (m.resultCode.toNat : Int) = citrusleafFailUnknown ↔ m.resultCode = 1 := by
    rw [← UInt8.toNat_inj]
    exact Int.ofNat_inj
  rw [monteOk,if_neg buffer,decodes]
  simp only [Option.bind_eq_bind,Option.bind_some,clParse_empty,once,false_and,if_false,Option.pure_def,
    Option.some.injEq,MonteState.result,MonteResult.mk.injEq]
  rw [EmptyUnknown]
  by_cases fields : m.nFields = 0
  · cases given : call.caller.values with
    | none => simp [fields,code]
    | some values =>
      by_cases empty : m.nOps = 0
      · simp [fields,empty,code]
      by_cases fits : m.nOps.toNat ≤ values.bins.length
      · simp [fields,empty,fits]
      cases malloc : heap.malloc (values.itemSize * m.nOps.toNat) with
      | none => simp [fields,empty,fits,malloc]
      | some _ =>
        -- the caller's array is replaced by a new one
        have other : {values with bins := (List.range m.nOps.toNat).map heap.garbage} ≠ values := by
          intro same
          have length := congrArg (List.length ∘ Values.bins) same
          simp only [Function.comp_apply,List.length_map,List.length_range] at length
          omega
        simp [fields,empty,fits,malloc,other]
  · simp [fields]

/-- The last attempt, from a state in which its body finds a buffer. -/
theorem MonteAttempt.Complete.ends (complete : last.Complete call)
    (buffer : s.rdBuf = .null → last.rdBufSz call = 0 ∨ stackBufSz < last.rdBufSz call) :
    monteLoop call s [last] = .ended (s.try_ + 1)
      (monteOk call last.heap (s.final call last) (last.headerRead call).buf (last.bodyBytes call)) := by
  rw [monteLoop,complete.received buffer]
  rfl

theorem final_buffer (found : s.rdBuf = .null → stackBufSz < last.rdBufSz call) :
    (s.final call last).rdBuf ≠ .null := by
  simp only [MonteState.final,MonteState.bodyBuf]
  split
  · split
    · exact RdBuf.noConfusion
    · rename_i small
      exact mt found small
  · rename_i none
    exact mt found fun large => none (Nat.zero_lt_of_lt large)

theorem start_final_buffer : (MonteState.start.final call last).rdBuf ≠ .null := final_buffer RdBuf.noConfusion

/-- Behind `Ok` no code is negative. -/
theorem monteOk_nonneg (returned : monteOk call heap s msg body = some r) : 0 ≤ r.rv := by
  rw [monteOk] at returned
  split at returned
  · obtain rfl := Option.some.inj returned
    exact (by decide : 0 ≤ citrusleafFailUnknown)
  · obtain ⟨header,_,returned⟩ := Option.bind_eq_some_iff.mp returned
    obtain ⟨parsed,_,returned⟩ := Option.bind_eq_some_iff.mp returned
    obtain rfl := Option.some.inj returned
    dsimp only
    split
    · decide
    split
    · decide
    · exact Int.natCast_nonneg _

theorem forgive_nonneg {r : MonteResult} (nonneg : 0 ≤ r.rv) : 0 ≤ (forgive call r).rv := by
  rw [forgive]
  split
  · exact Int.le_refl 0
  · exact nonneg

theorem final_gen {t : MonteState} (gen : call.clGen = false → s.clGen = t.clGen) :
    (s.final call last).clGen = (t.final call last).clGen := by
  simp only [MonteState.final,MonteState.decoded]
  split
  · rfl
  · rename_i no
    exact gen (eq_false_of_ne_true no)

/-- Where the body finds a buffer, only deletes look at the number of the attempt. -/
theorem found_same (failed : List MonteAttempt) (fails : afterFailures call .start failed = some after)
    (complete : last.Complete call) (found : after.rdBuf = .null → stackBufSz < last.rdBufSz call) :
    SameAsFirst call failed last := by
  obtain ⟨number,gen,_⟩ := failures_leave failed fails
  rw [MonteState.start,Nat.zero_add] at number
  have alone : doTheFullMonte true call [last] = _ := complete.ends (s := .start) RdBuf.noConfusion
  have whole : doTheFullMonte true call (failed ++ [last]) = _ := loop_after failed fails [last]
  have ends := complete.ends fun null => .inr (found null)
  refine ⟨_,alone,?_⟩
  rw [whole,ends,number,monteOk_forgives (final_buffer found) start_final_buffer (final_gen gen) rfl]
  have try_ : (after.final call last).try_ = failed.length + 1 := congrArg (· + 1) number
  rw [try_]
  cases failed with
  | nil => rfl
  | cons a failed => simp

/-- Without a buffer, a response that has no body is here, but it is not parsed. -/
theorem unparsed_same_iff (failed : List MonteAttempt) (fails : afterFailures call .start failed = some after)
    (complete : last.Complete call) (null : after.rdBuf = .null) (some : failed ≠ [])
    (empty : last.rdBufSz call = 0) :
    SameAsFirst call failed last ↔ EmptyUnknown last.heap (last.msg call) call.caller := by
  obtain ⟨number,gen,_⟩ := failures_leave failed fails
  rw [MonteState.start,Nat.zero_add] at number
  have alone : doTheFullMonte true call [last] = _ := complete.ends (s := .start) RdBuf.noConfusion
  have whole : doTheFullMonte true call (failed ++ [last]) = _ := loop_after failed fails [last]
  obtain ⟨proto,decodes⟩ := complete.reached.decodes
  have nothing : ¬0 < last.rdBufSz call := Nat.not_lt.mpr (Nat.le_of_eq empty)
  have lost : (after.final call last).rdBuf = .null := by rw [MonteState.final,if_neg nothing,null]
  have body : last.bodyBytes call = [] := if_neg nothing
  have results : (after.final call last).result call citrusleafFailUnknown =
      (MonteState.start.final call last).result call citrusleafFailUnknown := by
    rw [MonteState.result,MonteState.result,final_gen gen]
  have unknown : monteOk call last.heap (MonteState.start.final call last) (last.headerRead call).buf [] =
      (MonteState.start.final call last).result call citrusleafFailUnknown ↔ _ :=
    empty_unknown_iff decodes start_final_buffer rfl
  have ended : monteLoop call after [last] =
      .ended (failed.length + 1) ((MonteState.start.final call last).result call citrusleafFailUnknown) := by
    rw [complete.ends fun _ => .inl empty,number,monteOk,if_pos lost,results]
  rw [SameAsFirst,whole,alone]
  simp only [if_neg some]
  rw [ended,body,← unknown]
  constructor
  · rintro ⟨result,first,again⟩
    obtain ⟨_,rfl⟩ := MonteOutcome.ended.inj first
    obtain ⟨_,again⟩ := MonteOutcome.ended.inj again
    obtain ⟨r,given,forgiven⟩ := Option.map_eq_some_iff.mp again.symm
    rw [given,(forgive_unknown rfl).mp forgiven]
  · intro first
    refine ⟨_,rfl,?_⟩
    rw [first,Option.map_some,(forgive_unknown rfl).mpr rfl]

/-- Without a buffer, a body that fits the stack cannot be read. -/
theorem unread_differs (failed : List MonteAttempt) (fails : afterFailures call .start failed = some after)
    (complete : last.Complete call) (null : after.rdBuf = .null) (some : failed ≠ [])
    (body : 0 < last.rdBufSz call) (small : last.rdBufSz call ≤ stackBufSz) : ¬SameAsFirst call failed last := by
  have alone : doTheFullMonte true call [last] = _ := complete.ends (s := .start) RdBuf.noConfusion
  have whole : doTheFullMonte true call (failed ++ [last]) = _ := loop_after failed fails [last]
  obtain ⟨rv,tried⟩ := complete.lost null body small
  have retries : call.retries = true := by
    obtain ⟨a,rest,rfl⟩ := List.exists_cons_of_ne_nil some
    obtain ⟨_,one,_⟩ := Option.bind_eq_some_iff.mp fails
    exact (again_retry one).2.2
  rintro ⟨result,first,ended⟩
  rw [alone] at first
  obtain ⟨_,rfl⟩ := MonteOutcome.ended.inj first
  rw [whole,monteLoop,tried] at ended
  dsimp only at ended
  by_cases overdue : last.Late call
  · -- the call times out, which no answer says
    rw [if_pos overdue,if_neg some] at ended
    obtain ⟨_,again⟩ := MonteOutcome.ended.inj ended
    obtain ⟨r,given,forgiven⟩ := Option.map_eq_some_iff.mp again.symm
    have nonneg : 0 ≤ (forgive call r).rv := forgive_nonneg (monteOk_nonneg given)
    rw [forgiven] at nonneg
    change 0 ≤ citrusleafFailTimeout at nonneg
    exact absurd nonneg (by decide)
  · rw [if_neg overdue,if_pos retries] at ended
    cases ended

/-- A call returns what its last attempt alone would return exactly if no earlier attempt failed in the
body of its response, or the last body needs a block of its own, or there is none and it makes no difference. -/
theorem earlier_failures_iff (failed : List MonteAttempt) (fails : afterFailures call .start failed = some after)
    (complete : last.Complete call) :
    SameAsFirst call failed last ↔
      (∀ a ∈ failed, ¬a.ReachesBody call) ∨ stackBufSz < last.rdBufSz call ∨
        (last.rdBufSz call = 0 ∧ EmptyUnknown last.heap (last.msg call) call.caller) := by
  obtain ⟨_,_,lost,kept⟩ := failures_leave failed fails
  by_cases reaches : ∃ a ∈ failed, a.ReachesBody call
  · have null := lost reaches
    have some : failed ≠ [] := by
      rintro rfl
      obtain ⟨_,member,_⟩ := reaches
      cases member
    have late : ¬∀ a ∈ failed, ¬a.ReachesBody call := fun none => by
      obtain ⟨a,member,body⟩ := reaches
      exact none a member body
    by_cases large : stackBufSz < last.rdBufSz call
    · exact iff_of_true (found_same failed fails complete fun _ => large) (.inr (.inl large))
    by_cases empty : last.rdBufSz call = 0
    · rw [or_iff_right late,or_iff_right large,and_iff_right empty]
      exact unparsed_same_iff failed fails complete null some empty
    · refine iff_of_false ?_ fun clear => ?_
      · exact unread_differs failed fails complete null some (Nat.pos_of_ne_zero empty) (Nat.not_lt.mp large)
      · rcases clear with none | large' | ⟨empty',_⟩
        · exact late none
        · exact large large'
        · exact empty empty'
  · have none : ∀ a ∈ failed, ¬a.ReachesBody call := fun a member body => reaches ⟨a,member,body⟩
    have stack : after.rdBuf = .stack := kept none
    exact iff_of_true (found_same failed fails complete fun null => RdBuf.noConfusion (stack.symm.trans null)) (.inl none)

/-- An answer without a body, with a result code. -/
def sampleAnswer (code : UInt8) : List UInt8 := [2,3,0,0,0,0,0,22,22,0,0,0,0,code] ++ List.replicate 16 0

/-- A call without write parameters, values or anything else to return. -/
def sampleCall : MonteCall := ⟨0,none,⟨none,false,false⟩,false,0⟩

def answered : MonteAttempt :=
  ⟨true,true,none,sampleAnswer 3,⟨none,0,[⟨0,.arrived 30⟩]⟩,⟨none,0,[]⟩,sampleHeap,0⟩

/-- The header of a response with a body of ten bytes, which do not come. -/
def cutInBody : MonteAttempt :=
  {answered with stream := [2,3,0,0,0,0,0,32,22] ++ List.replicate 21 0}

theorem answered_complete : answered.Complete sampleCall where
  reached := ⟨rfl,rfl,rfl,by decide +kernel⟩
  buffered := fun large => absurd large (by decide +kernel)
  body := fun some => absurd some (by decide +kernel)

theorem earlier_failures_iff_sample : SameAsFirst sampleCall [{answered with node := false}] answered := by
  have fails : afterFailures sampleCall .start [{answered with node := false}] = some ⟨1,-1,.stack,none⟩ := rfl
  refine (earlier_failures_iff _ fails answered_complete).mpr (.inl fun a member reaches => ?_)
  obtain rfl := List.mem_singleton.mp member
  cases reaches.1.node

def MonteOutcome.rv : MonteOutcome → Option Int
  | .ended _ (some r) => some r.rv
  | _ => none

theorem later_answer_lost :
    (afterFailures sampleCall .start [cutInBody]).isSome ∧ answered.Complete sampleCall ∧
      ¬SameAsFirst sampleCall [cutInBody] answered := by
  refine ⟨by decide +kernel,answered_complete,?_⟩
  rintro ⟨result,first,ended⟩
  have one : (doTheFullMonte true sampleCall [answered]).rv = some 3 := by decide +kernel
  have two : (doTheFullMonte true sampleCall ([cutInBody] ++ [answered])).rv = some 1 := by decide +kernel
  rw [first] at one
  rw [ended] at two
  cases result with
  | none => cases one
  | some r =>
    have three : r.rv = 3 := Option.some.inj one
    have kept : forgive sampleCall r = r := if_neg fun both => by
      rw [three] at both
      cases both.1
    have unknown : (forgive sampleCall r).rv = 1 := Option.some.inj two
    rw [kept,three] at unknown
    cases unknown

end Citrusleaf.FullMonte
