import Citrusleaf.FullMonteRuns
import Citrusleaf.RequestCalls

/-! The return value of `do_the_full_monte`. One variable holds errors of the socket layer, codes of
the client and result codes of the server, which are told apart by their sign only. -/
namespace Citrusleaf.FullMonte
open Lib

variable {call : MonteCall} {a last : MonteAttempt} {s after : MonteState} {failed attempts rest : List MonteAttempt}
  {r : MonteResult}

/-- What a server's response gives: its result code, or an unknown failure where it cannot be parsed. -/
inductive Answers (heap : Heap) (caller : ParseCaller) (m : ClMsg) (body : List UInt8) : Int → Prop where
  | parsed {p : Parsed} (given : clParse heap m body caller = some p) (done : p.rv = 0) :
      Answers heap caller m body m.resultCode.toNat
  | unparsable {p : Parsed} (given : clParse heap m body caller = some p) (failed : p.rv ≠ 0) :
      Answers heap caller m body citrusleafFailUnknown

/-- A positive code is that of a response that the last attempt received; without one the code is negative. -/
structure Honest (call : MonteCall) (attempts : List MonteAttempt) (tries : Nat) (r : MonteResult) : Prop where
  positive : 0 < r.rv → ∃ a, attempts[tries - 1]? = some a ∧ a.Complete call ∧
    Answers a.heap call.caller (a.msg call) (a.bodyBytes call) r.rv
  negative : (∀ a, attempts[tries - 1]? = some a → ¬a.Complete call) → r.rv < 0

/-- With a node and a descriptor in time, the write or a read fails. -/
structure LocalError (call : MonteCall) (a : MonteAttempt) : Prop where
  node : a.node
  fd : a.fd
  inTime : ¬a.Late call
  fails : ¬a.Complete call
  buffered : a.Reached call → a.Buffered call

/-- The attempt does not end the call: its response stays away, or is cut in its body, or has a small
body that finds no buffer after an attempt that was cut so. -/
structure Fails (call : MonteCall) (earlier : List MonteAttempt) (a : MonteAttempt) : Prop where
  inTime : ¬a.Late call
  retries : call.retries
  fails : a.Reached call → 0 < a.rdBufSz call ∧ a.Buffered call ∧
    (a.Complete call → a.rdBufSz call ≤ stackBufSz ∧ ∃ b ∈ earlier, b.ReachesBody call)

/-- The response has no body, comes after an attempt that failed in its body, and would be parsed. -/
structure Misread (call : MonteCall) (failed : List MonteAttempt) (last : MonteAttempt) : Prop where
  earlier : ∃ a ∈ failed, a.ReachesBody call
  reached : last.Reached call
  empty : last.rdBufSz call = 0
  fields : (last.msg call).nFields = 0
  ops : call.caller.values = none ∨ (last.msg call).nOps = 0
  code : (last.msg call).resultCode ≠ 1

/-- Under a policy that does not retry, the attempt has no local error; no response is misread. -/
structure Tells (call : MonteCall) (attempts : List MonteAttempt) : Prop where
  local_ : call.retries = false → ∀ a, attempts.head? = some a → ¬LocalError call a
  read : ∀ failed last rest, attempts = failed ++ last :: rest →
    (∀ earlier a later, failed = earlier ++ a :: later → Fails call earlier a) → ¬Misread call failed last

/-! ### How a call ends -/

/-- The attempt that ends a call, and those before it. -/
theorem loop_splits (ended : monteLoop call s attempts = .ended tries result) :
    ∃ failed last rest after, attempts = failed ++ last :: rest ∧ afterFailures call s failed = some after ∧
      again call after last = none ∧ monteLoop call after (last :: rest) = .ended tries result := by
  induction attempts generalizing s with
  | nil => cases ended
  | cons a attempts ih =>
    cases goes : again call s a with
    | none => exact ⟨[],a,attempts,s,rfl,rfl,goes,ended⟩
    | some next =>
      rw [loop_again goes] at ended
      obtain ⟨failed,last,rest,after,rfl,fails,stops,ends⟩ := ih ended
      exact ⟨a :: failed,last,rest,after,rfl,by rw [afterFailures,goes]; exact fails,stops,ends⟩

/-- The number of attempts. -/
theorem loop_tries (ended : monteLoop call s (last :: rest) = .ended tries result) (stops : again call s last = none) :
    tries = s.try_ + 1 := by
  have tried := monteTry_tries call last s
  rw [again] at stops
  rw [monteLoop] at ended
  cases label : monteTry call last s with
  | retry next =>
    rw [label] at tried stops ended
    dsimp only at stops ended
    have count : next.try_ = s.try_ + 1 := by cases tried <;> rfl
    split at ended
    · exact (MonteOutcome.ended.inj ended).1.symm.trans count
    · rename_i inTime
      split at ended
      · rename_i retries
        rw [if_pos ⟨inTime,retries⟩] at stops
        cases stops
      · exact (MonteOutcome.ended.inj ended).1.symm.trans count
  | error next =>
    rw [label] at tried ended
    cases tried
    exact (MonteOutcome.ended.inj ended).1.symm
  | ok next msg body =>
    rw [label] at tried ended
    cases tried <;> exact (MonteOutcome.ended.inj ended).1.symm

/-- A policy that does not retry has one attempt. -/
theorem failures_retry (fails : afterFailures call s failed = some after) (once : call.retries = false) :
    failed = [] ∧ after = s := by
  cases failed with
  | nil => exact ⟨rfl,(Option.some.inj fails).symm⟩
  | cons a failed =>
    obtain ⟨next,one,_⟩ := Option.bind_eq_some_iff.mp fails
    rw [(again_retry one).2.2] at once
    cases once

theorem afterFailures_append (failed more : List MonteAttempt) :
    afterFailures call s (failed ++ more) = (afterFailures call s failed).bind (afterFailures call · more) := by
  induction failed generalizing s with
  | nil => rfl
  | cons a failed ih =>
    rw [List.cons_append,afterFailures,afterFailures,Option.bind_assoc]
    simp only [ih]

/-- Only a small body goes without a buffer. -/
theorem bodyBuf_null (null : s.bodyBuf call a = .null) : a.rdBufSz call ≤ stackBufSz ∧ s.rdBuf = .null := by
  rw [MonteState.bodyBuf] at null
  split at null
  · cases null
  · rename_i small
    exact ⟨Nat.not_lt.mp small,null⟩

/-- The ways in which the loop goes on. -/
theorem again_iff : (again call s a).isSome ↔ ¬a.Late call ∧ call.retries ∧ (a.Reached call →
    0 < a.rdBufSz call ∧ a.Buffered call ∧ (a.Complete call → a.rdBufSz call ≤ stackBufSz ∧ s.rdBuf = .null)) := by
  have tries := monteTry_tries call a s
  rw [again]
  cases label : monteTry call a s with
  | retry next =>
    rw [label] at tries
    have fails : a.Reached call → 0 < a.rdBufSz call ∧ a.Buffered call ∧
        (a.Complete call → a.rdBufSz call ≤ stackBufSz ∧ s.rdBuf = .null) := by
      intro reached
      cases tries with
      | unsent unsent => exact absurd ⟨reached.node,reached.fd⟩ unsent
      | unanswered errno sent nonzero failed => exact absurd reached (unanswered_unreached nonzero failed)
      | cut _ some buffered nonzero =>
        refine ⟨some,buffered,fun complete => bodyBuf_null ?_⟩
        by_contra given
        exact nonzero (bodyRead_same given ▸ complete.body some)
    dsimp only
    by_cases goes : ¬a.Late call ∧ call.retries
    · rw [if_pos goes]
      exact iff_of_true rfl ⟨goes.1,goes.2,fails⟩
    · rw [if_neg goes]
      refine iff_of_false Bool.noConfusion fun all => goes ⟨all.1,all.2.1⟩
  | error next =>
    rw [label] at tries
    cases tries with
    | noMemory reached unbuffered =>
      exact iff_of_false Bool.noConfusion fun all => unbuffered (all.2.2 reached).2.1
  | ok next msg body =>
    rw [label] at tries
    refine iff_of_false Bool.noConfusion fun all => ?_
    cases tries with
    | whole reached some buffered read =>
      have given : s.bodyBuf call a ≠ .null := by
        intro null
        rw [null] at read
        exact bodyRead_null some read
      obtain ⟨small,null⟩ := (all.2.2 reached).2.2 ⟨reached,buffered,fun _ => bodyRead_same given ▸ read⟩
      rw [MonteState.bodyBuf,if_neg (Nat.not_lt.mpr small)] at given
      exact given null
    | empty reached none =>
      have some := (all.2.2 reached).1
      omega

theorem failures_null (fails : afterFailures call .start failed = some after) :
    after.rdBuf = .null ↔ ∃ a ∈ failed, a.ReachesBody call := by
  obtain ⟨_,_,lost,kept⟩ := failures_leave failed fails
  constructor
  · intro null
    by_contra none
    have stack : after.rdBuf = .stack := kept fun a member body => none ⟨a,member,body⟩
    rw [stack] at null
    cases null
  · exact lost

/-- The attempts after which the loop goes on. -/
theorem failures_iff : (afterFailures call .start failed).isSome ↔
    ∀ earlier a later, failed = earlier ++ a :: later → Fails call earlier a := by
  induction failed using List.reverseRecOn with
  | nil =>
    refine iff_of_true rfl fun earlier a later split => ?_
    simp at split
  | append_singleton failed last ih =>
    rw [afterFailures_append]
    constructor
    · intro all earlier a later split
      obtain ⟨after,given⟩ := Option.isSome_iff_exists.mp all
      obtain ⟨before,fails,goes⟩ := Option.bind_eq_some_iff.mp given
      obtain ⟨next,one,_⟩ := Option.bind_eq_some_iff.mp goes
      rcases List.eq_nil_or_concat later with rfl | ⟨later,b,rfl⟩
      · obtain ⟨rfl,same⟩ := List.append_inj' split rfl
        obtain ⟨rfl,_⟩ := List.cons.inj same
        obtain ⟨inTime,retries,body⟩ := again_iff.mp (Option.isSome_of_mem one)
        rw [failures_null fails] at body
        exact ⟨inTime,retries,body⟩
      · rw [List.concat_eq_append,← List.cons_append,← List.append_assoc] at split
        obtain ⟨rfl,_⟩ := List.append_inj' split rfl
        exact ih.mp (Option.isSome_of_mem fails) earlier a later rfl
    · intro all
      have before : ∀ earlier a later, failed = earlier ++ a :: later → Fails call earlier a := by
        rintro earlier a later rfl
        exact all earlier a (later ++ [last]) (by simp)
      obtain ⟨after,fails⟩ := Option.isSome_iff_exists.mp (ih.mpr before)
      have ends := all failed last [] rfl
      obtain ⟨next,one⟩ := Option.isSome_iff_exists.mp (again_iff.mpr
        ⟨ends.inTime,ends.retries,by rw [failures_null fails]; exact ends.fails⟩)
      rw [fails,Option.bind_some,afterFailures,one]
      rfl

/-! ### What the last attempt returns -/

/-- `Honest`, of the attempt that ends the call. -/
def HonestLast (call : MonteCall) (last : MonteAttempt) (r : MonteResult) : Prop :=
  (0 < r.rv → last.Complete call ∧ Answers last.heap call.caller (last.msg call) (last.bodyBytes call) r.rv) ∧
    (¬last.Complete call → r.rv < 0)

theorem honest_iff : Honest call (failed ++ last :: rest) (failed.length + 1) r ↔ HonestLast call last r := by
  have this : (failed ++ last :: rest)[failed.length + 1 - 1]? = some last := by simp
  constructor
  · rintro ⟨positive,negative⟩
    refine ⟨fun pos => ?_,fun cut => negative fun a same => ?_⟩
    · obtain ⟨a,same,answered⟩ := positive pos
      obtain rfl := Option.some.inj (this.symm.trans same)
      exact answered
    · obtain rfl := Option.some.inj (this.symm.trans same)
      exact cut
  · rintro ⟨positive,negative⟩
    exact ⟨fun pos => ⟨last,this,positive pos⟩,fun cut => negative (cut last this)⟩

theorem honest_negative (below : r.rv < 0) : HonestLast call last r :=
  ⟨fun above => absurd above (Int.not_lt.mpr (Int.le_of_lt below)),fun _ => below⟩

/-- A local error escapes as a positive code. -/
theorem dishonest (above : 0 < r.rv) (cut : ¬last.Complete call) : ¬HonestLast call last r :=
  fun honest => cut (honest.1 above).1

/-- A response that is parsed is reported as it is. -/
theorem monteOk_answers {msg : List UInt8} {m : ClMsg} (decodes : swapAsMsg msg = some (proto,m))
    (buffer : s.rdBuf ≠ .null) (returned : monteOk call heap s msg body = some r) (above : 0 < r.rv) :
    Answers heap call.caller m body r.rv := by
  rw [monteOk,if_neg buffer,decodes] at returned
  obtain ⟨header,same,returned⟩ := Option.bind_eq_some_iff.mp returned
  obtain rfl := Option.some.inj same
  obtain ⟨parsed,given,returned⟩ := Option.bind_eq_some_iff.mp returned
  obtain rfl := Option.some.inj returned
  dsimp only at above ⊢
  by_cases unparsed : parsed.rv ≠ 0
  · rw [if_pos unparsed]
    exact .unparsable given unparsed
  · rw [if_neg unparsed] at above ⊢
    split
    · rename_i forgiven
      rw [if_pos forgiven] at above
      cases above
    · exact .parsed given (not_not.mp unparsed)

/-- A response without a body is parsed if it announces nothing that there is room for. -/
theorem parsed_empty (heap : Heap) (m : ClMsg) (caller : ParseCaller) : ∃ p, clParse heap m [] caller = some p ∧
    (p.rv = 0 ↔ m.nFields = 0 ∧ (caller.values = none ∨ m.nOps = 0)) := by
  have failed : (-1 : Int) ≠ 0 := by decide
  refine ⟨_,clParse_empty heap m caller,?_⟩
  by_cases fields : m.nFields = 0
  · rw [if_neg (not_not.mpr fields),and_iff_right fields]
    cases values : caller.values with
    | none => simp
    | some values' =>
      by_cases empty : m.nOps = 0
      · simp [empty]
      · dsimp only
        rw [if_neg empty]
        refine iff_of_false ?_ (by simp [empty])
        split
        · exact failed
        · split <;> exact failed
  · rw [if_pos fields]
    exact iff_of_false failed fun both => fields both.1

theorem answers_unknown_iff {heap : Heap} {m : ClMsg} {p : Parsed} (given : clParse heap m body caller = some p) :
    Answers heap caller m body citrusleafFailUnknown ↔ (p.rv = 0 → m.resultCode = 1) := by
  have code : (m.resultCode.toNat : Int) = citrusleafFailUnknown ↔ m.resultCode = 1 := by
    rw [← UInt8.toNat_inj]
    exact Int.ofNat_inj
  constructor
  · intro answers done
    generalize same : citrusleafFailUnknown = rv at answers
    cases answers with
    | parsed _ _ => exact code.mp same.symm
    | unparsable again failed =>
      obtain rfl := Option.some.inj (given.symm.trans again)
      exact absurd done failed
  · intro one
    by_cases done : p.rv = 0
    · rw [← code.mpr (one done)]
      exact .parsed given done
    · exact .unparsable given done

/-- The call ends on an attempt that failed: it is late, or the policy does not retry. -/
theorem failed_last_iff (label : monteTry call last s = .retry next) (stops : again call s last = none)
    (first : call.retries = false → s = .start) (ended : monteLoop call s (last :: rest) = .ended tries (some r)) :
    HonestLast call last r ↔ (call.retries = false → ¬LocalError call last) ∧ ¬Misread call failed last := by
  have tries := monteTry_tries call last s
  rw [again] at stops
  rw [monteLoop] at ended
  rw [label] at tries stops ended
  dsimp only at stops ended
  have read : ¬Misread call failed last := by
    intro misread
    cases tries with
    | unsent unsent => exact unsent ⟨misread.reached.node,misread.reached.fd⟩
    | unanswered errno sent nonzero failed => exact unanswered_unreached nonzero failed misread.reached
    | cut _ some => exact Nat.ne_of_gt some misread.empty
  rw [and_iff_left read]
  by_cases late : last.Late call
  · rw [if_pos late] at ended
    obtain ⟨_,returned⟩ := MonteOutcome.ended.inj ended
    obtain rfl := Option.some.inj returned
    exact iff_of_true (honest_negative (by decide : citrusleafFailTimeout < 0)) fun _ failure => failure.inTime late
  · have once : call.retries = false := by
      by_contra retries
      rw [if_pos ⟨late,eq_true_of_ne_false retries⟩] at stops
      cases stops
    obtain rfl := first once
    rw [if_neg late,once,if_neg Bool.false_ne_true] at ended
    obtain ⟨_,returned⟩ := MonteOutcome.ended.inj ended
    obtain rfl := Option.some.inj returned
    rw [forall_prop_of_true once]
    cases tries with
    | unsent unsent =>
      exact iff_of_true (honest_negative (by decide : (-1 : Int) < 0)) fun failure => unsent ⟨failure.node,failure.fd⟩
    | unanswered errno sent nonzero failed =>
      have unreached : ¬last.Reached call := unanswered_unreached nonzero failed
      have cut : ¬last.Complete call := fun complete => unreached complete.reached
      exact iff_of_false (dishonest (Int.ofNat_lt.mpr (Nat.pos_of_ne_zero nonzero)) cut)
        (not_not.mpr ⟨sent.1,sent.2,late,cut,fun reached => absurd reached unreached⟩)
    | cut reached some buffered nonzero =>
      have given : MonteState.start.bodyBuf call last ≠ .null := by
        intro null
        have stack := (bodyBuf_null null).2
        cases stack
      have cut : ¬last.Complete call := fun complete => nonzero (bodyRead_same given ▸ complete.body some)
      exact iff_of_false (dishonest (Int.ofNat_lt.mpr (Nat.pos_of_ne_zero nonzero)) cut)
        (not_not.mpr ⟨reached.node,reached.fd,late,cut,fun _ => buffered⟩)

/-- The call ends at `Ok`. -/
theorem ok_last_iff (label : monteTry call last s = .ok next msg body)
    (lost : s.rdBuf = .null ↔ ∃ a ∈ failed, a.ReachesBody call)
    (ended : monteLoop call s (last :: rest) = .ended tries (some r)) :
    HonestLast call last r ↔ (call.retries = false → ¬LocalError call last) ∧ ¬Misread call failed last := by
  have tries := monteTry_tries call last s
  rw [monteLoop] at ended
  rw [label] at tries ended
  obtain ⟨_,returned⟩ := MonteOutcome.ended.inj ended
  cases tries with
  | whole reached some buffered read =>
    have given : s.bodyBuf call last ≠ .null := by
      intro null
      rw [null] at read
      exact bodyRead_null some read
    have complete : last.Complete call := ⟨reached,buffered,fun _ => bodyRead_same given ▸ read⟩
    obtain ⟨proto,decodes⟩ := reached.decodes
    refine iff_of_true ⟨fun above => ⟨complete,?_⟩,fun cut => absurd complete cut⟩
      ⟨fun _ failure => failure.fails complete,fun misread => Nat.ne_of_gt some misread.empty⟩
    rw [MonteAttempt.bodyBytes,if_pos some,← bodyRead_same given]
    exact monteOk_answers decodes given returned above
  | empty reached none =>
    have nothing : ¬0 < last.rdBufSz call := Nat.not_lt.mpr (Nat.le_of_eq none)
    have complete : last.Complete call :=
      ⟨reached,fun large => absurd (Nat.zero_lt_of_lt large) nothing,fun some => absurd some nothing⟩
    obtain ⟨proto,decodes⟩ := reached.decodes
    have body : last.bodyBytes call = [] := if_neg nothing
    rw [and_iff_right fun _ failure => failure.fails complete,HonestLast,body,
      and_iff_left fun cut => absurd complete cut,and_iff_right complete]
    by_cases null : s.rdBuf = .null
    · -- the response has arrived, and counts as unparsable
      have lostToo : (s.decoded call last).rdBuf = .null := null
      rw [monteOk,if_pos lostToo] at returned
      obtain rfl := Option.some.inj returned
      obtain ⟨p,given,parsed⟩ := parsed_empty last.heap (last.msg call) call.caller
      have above : 0 < citrusleafFailUnknown := by decide
      change (0 < citrusleafFailUnknown → Answers _ _ _ _ citrusleafFailUnknown) ↔ _
      rw [forall_prop_of_true above,answers_unknown_iff given,parsed]
      constructor
      · intro told misread
        exact misread.code (told ⟨misread.fields,misread.ops⟩)
      · rintro read ⟨fields,ops⟩
        by_contra other
        exact read ⟨lost.mp null,reached,none,fields,ops,other⟩
    · have given : (s.decoded call last).rdBuf ≠ .null := null
      exact iff_of_true (monteOk_answers decodes given returned) fun misread => null (lost.mpr misread.earlier)

/-- The attempt that ends the call tells the truth unless it has a local error, or is misread. -/
theorem last_iff (stops : again call s last = none) (first : call.retries = false → s = .start)
    (lost : s.rdBuf = .null ↔ ∃ a ∈ failed, a.ReachesBody call)
    (ended : monteLoop call s (last :: rest) = .ended tries (some r)) :
    HonestLast call last r ↔ (call.retries = false → ¬LocalError call last) ∧ ¬Misread call failed last := by
  cases label : monteTry call last s with
  | retry next => exact failed_last_iff label stops first ended
  | ok next msg body => exact ok_last_iff label lost ended
  | error next =>
    have tries := monteTry_tries call last s
    rw [monteLoop] at ended
    rw [label] at tries ended
    obtain ⟨_,returned⟩ := MonteOutcome.ended.inj ended
    obtain rfl := Option.some.inj returned
    cases tries with
    | noMemory reached unbuffered =>
      refine iff_of_true (honest_negative (by decide : (-1 : Int) < 0)) ⟨fun _ failure => ?_,fun misread => ?_⟩
      · exact unbuffered (failure.buffered reached)
      · refine unbuffered fun large => ?_
        rw [misread.empty] at large
        cases large

/-- The place at which a response can be misread is where the call ends. -/
theorem misread_split (fails : ∀ earlier a later, failed = earlier ++ a :: later → Fails call earlier a)
    (stops : ¬Fails call failed last) {failed' rest' : List MonteAttempt} {last' : MonteAttempt}
    (fails' : ∀ earlier a later, failed' = earlier ++ a :: later → Fails call earlier a)
    (same : failed ++ last :: rest = failed' ++ last' :: rest') (misread : Misread call failed' last') :
    failed = failed' ∧ last = last' := by
  rcases List.append_eq_append_iff.mp same with ⟨more,rfl,tail⟩ | ⟨more,rfl,tail⟩
  · cases more with
    | nil => exact ⟨(List.append_nil failed).symm,(List.cons.inj tail).1⟩
    | cons a more =>
      obtain ⟨rfl,_⟩ := List.cons.inj tail
      exact absurd (fails' failed last more rfl) stops
  · cases more with
    | nil => exact ⟨List.append_nil failed',(List.cons.inj tail).1.symm⟩
    | cons a more =>
      obtain ⟨rfl,_⟩ := List.cons.inj tail
      have some := ((fails failed' last' more rfl).fails misread.reached).1
      exact absurd misread.empty (Nat.ne_of_gt some)

/-- A returned code tells the truth exactly if, behind `cl_compile`, no local error ends a call that does
not retry, and no response without a body is misread after an attempt that was cut in its body. -/
theorem codes_honest_iff (returned : doTheFullMonte compiled call attempts = .ended tries (some r)) :
    Honest call attempts tries r ↔ (compiled = true → Tells call attempts) := by
  cases compiled with
  | false =>
    obtain ⟨_,result⟩ := MonteOutcome.ended.inj returned
    obtain rfl := Option.some.inj result
    exact iff_of_true ⟨fun above => absurd above (by decide : ¬(0 : Int) < -1),fun _ => (by decide : (-1 : Int) < 0)⟩
      fun wrong => nomatch wrong
  | true =>
    obtain ⟨failed,last,rest,after,rfl,fails,stops,ended⟩ := loop_splits returned
    obtain ⟨number,_⟩ := failures_leave failed fails
    have first (once : call.retries = false) : after = .start := (failures_retry fails once).2
    have count : tries = failed.length + 1 := by
      have tried := loop_tries ended stops
      rw [tried,number]
      exact Nat.add_right_cancel_iff.mpr (Nat.zero_add _)
    have allFail := failures_iff.mp (Option.isSome_of_mem fails)
    have stopsHere : ¬Fails call failed last := by
      intro goes
      have more : (again call after last).isSome :=
        again_iff.mpr ⟨goes.inTime,goes.retries,by rw [failures_null fails]; exact goes.fails⟩
      rw [stops] at more
      cases more
    rw [count,honest_iff,last_iff stops first (failures_null fails) ended,forall_prop_of_true rfl]
    constructor
    · rintro ⟨local_,read⟩
      refine ⟨fun once a head => ?_,fun failed' last' rest' same fails' misread => ?_⟩
      · obtain rfl := (failures_retry fails once).1
        obtain rfl := Option.some.inj head
        exact local_ once
      · obtain ⟨rfl,rfl⟩ := misread_split allFail stopsHere fails' same misread
        exact read misread
    · intro tells
      refine ⟨fun once failure => ?_,tells.read failed last rest rfl allFail⟩
      obtain rfl := (failures_retry fails once).1
      exact tells.local_ once last rfl failure

/-- A call that does not retry. -/
def oneShot : MonteCall := {sampleCall with clWP := some (.oneshot,0)}

/-- The server closes the connection before it answers. -/
def hungUp : MonteAttempt := {answered with header := ⟨none,0,[⟨0,.closed⟩]⟩}

theorem codes_honest_iff_sample : Honest oneShot [answered] 1 ⟨3,none,none,none,none⟩ := by
  have returned : doTheFullMonte true oneShot [answered] = .ended 1 (some ⟨3,none,none,none,none⟩) := rfl
  have complete : answered.Complete oneShot :=
    ⟨⟨rfl,rfl,rfl,by decide +kernel⟩,fun large => absurd large (by decide +kernel),
      fun some => absurd some (by decide +kernel)⟩
  refine (codes_honest_iff returned).mpr fun _ => ⟨fun _ a head failure => ?_,fun failed last rest same _ misread => ?_⟩
  · obtain rfl := Option.some.inj head
    exact failure.fails complete
  · obtain ⟨a,member,_⟩ := misread.earlier
    have length := congrArg List.length same
    cases failed with
    | nil => cases member
    | cons b failed => simp at length

theorem hang_up_reported :
    doTheFullMonte true oneShot [hungUp] = .ended 1 (some ⟨9,none,none,none,none⟩) ∧
      ¬Honest oneShot [hungUp] 1 ⟨9,none,none,none,none⟩ := by
  refine ⟨rfl,fun honest => ?_⟩
  obtain ⟨a,same,complete,_⟩ := honest.positive (by decide)
  obtain rfl := Option.some.inj same
  exact absurd complete.reached.header (by decide +kernel)

/-! ### The loop of `Requests` -/

/-- What `Requests` sees of an attempt: the body is read as `rd_buf` is, and there is a response at `Ok`. -/
def requestTry (call : MonteCall) (s : MonteState) (a : MonteAttempt) : Requests.MonteTry :=
  ⟨if a.node then some 0 else none,if a.fd then some 0 else none,(a.write.map fun errno => (errno.val : Int)).getD 0,
    (a.headerRead call).rv,a.rdBufSz call,(a.heap.malloc (a.rdBufSz call)).isSome,
    (a.bodyRead call (s.bodyBuf call a)).rv,
    match monteTry call a s with
    | .ok s msg body => ((monteOk call a.heap s msg body).map MonteResult.rv).getD 0
    | _ => 0,
    a.Late call⟩

/-- The attempts up to the last. -/
def requestTries (call : MonteCall) : MonteState → List MonteAttempt → List Requests.MonteTry
  | _,[] => []
  | s,a :: attempts => requestTry call s a :: match monteTry call a s with
    | .retry s => requestTries call s attempts
    | _ => []

/-- The label of an attempt as `Requests` has it. -/
def SameLabel (label : Requests.Label) : MonteLabel → Prop
  | .retry s => ∃ node fd, label = .retry node fd false s.rv
  | .error s => ∃ fd, label = .error fd s.rv
  | .ok _ _ _ => ∃ node fd, label = .ok node fd

theorem requestTry_label (call : MonteCall) (s : MonteState) (a : MonteAttempt) (fd : Option Nat) :
    SameLabel (Requests.fullMonte.label (requestTry call s a) fd s.rv) (monteTry call a s) := by
  change SameLabel (Requests.fullMonteLabel (requestTry call s a) fd s.rv) _
  have tries := monteTry_tries call a s
  generalize label : monteTry call a s = l at tries
  rw [Requests.fullMonteLabel]
  cases tries with
  | unsent unsent =>
    by_cases node : a.node
    · have noFd : ¬a.fd := fun fd => unsent ⟨node,fd⟩
      exact ⟨some 0,none,by simp [requestTry,node,noFd]⟩
    · exact ⟨none,fd,by simp [requestTry,node]⟩
  | unanswered errno sent nonzero failed =>
    refine ⟨some 0,some 0,?_⟩
    rcases failed with written | ⟨written,read⟩
    · obtain ⟨errno',given,same⟩ := Option.map_eq_some_iff.mp written
      simp [requestTry,sent.1,sent.2,given,same,nonzero]
    · simp [requestTry,sent.1,sent.2,written,read,nonzero]
  | noMemory reached unbuffered =>
    have ⟨large,refused⟩ : stackBufSz < a.rdBufSz call ∧ ¬(a.heap.malloc (a.rdBufSz call)).isSome :=
      Classical.not_imp.mp unbuffered
    have some' : 0 < a.rdBufSz call := Nat.zero_lt_of_lt large
    refine ⟨some 0,?_⟩
    simp [requestTry,reached.node,reached.fd,reached.write,reached.header,large,some',Option.not_isSome_iff_eq_none.mp refused]
  | cut reached some' buffered nonzero =>
    have memory : stackBufSz < a.rdBufSz call → ¬a.heap.malloc (a.rdBufSz call) = none := fun large refused => by
      simpa [refused] using buffered large
    refine ⟨some 0,some 0,?_⟩
    simpa [requestTry,reached.node,reached.fd,reached.write,reached.header,some',nonzero] using memory
  | whole reached some' buffered read =>
    have memory : stackBufSz < a.rdBufSz call → ¬a.heap.malloc (a.rdBufSz call) = none := fun large refused => by
      simpa [refused] using buffered large
    refine ⟨0,0,?_⟩
    simpa [requestTry,reached.node,reached.fd,reached.write,reached.header,some',read] using memory
  | empty reached none' =>
    exact ⟨0,0,by simp [requestTry,reached.node,reached.fd,reached.write,reached.header,none']⟩

/-- The call refines that of `Requests`. -/
theorem monteLoop_refines (ended : monteLoop call s attempts = .ended tries (some r)) (fd : Option Nat) :
    ∃ calls, Requests.fullMonte.run (call.clWP.map (·.1)) fd s.rv (requestTries call s attempts) = some ⟨r.rv,calls⟩ := by
  induction attempts generalizing s fd with
  | nil => cases ended
  | cons a attempts ih =>
    have same := requestTry_label call s a fd
    have late : (requestTry call s a).late = decide (a.Late call) := rfl
    have retries : call.retries = true ↔ call.clWP.map (·.1) = none ∨ call.clWP.map (·.1) = some .retry := by
      rw [MonteCall.retries]
      cases call.clWP <;> simp
    rw [monteLoop] at ended
    rw [requestTries,Requests.RetryLoop.run]
    cases tried : monteTry call a s with
    | ok t msg body =>
      rw [tried] at same ended
      obtain ⟨node,fd,label⟩ := same
      obtain ⟨_,given⟩ := MonteOutcome.ended.inj ended
      have result : (requestTry call s a).result = r.rv := by
        simp only [requestTry,tried,given,Option.map_some,Option.getD_some]
      rw [label]
      exact ⟨_,by rw [← result]; rfl⟩
    | error t =>
      rw [tried] at same ended
      obtain ⟨fd,label⟩ := same
      obtain ⟨_,given⟩ := MonteOutcome.ended.inj ended
      obtain rfl := Option.some.inj given
      rw [label]
      exact ⟨_,rfl⟩
    | retry t =>
      rw [tried] at same ended
      obtain ⟨node,fd,label⟩ := same
      dsimp only at ended
      rw [label]
      dsimp only
      rw [late]
      by_cases late' : a.Late call
      · rw [if_pos late'] at ended
        obtain ⟨_,given⟩ := MonteOutcome.ended.inj ended
        obtain rfl := Option.some.inj given
        rw [if_pos (decide_eq_true late')]
        exact ⟨_,rfl⟩
      · rw [if_neg late'] at ended
        rw [if_neg (by simpa using late')]
        by_cases more : call.retries = true
        · rw [if_pos more] at ended
          obtain ⟨calls,later⟩ := ih ended _
          rw [if_pos (retries.mp more),later]
          exact ⟨_,rfl⟩
        · rw [if_neg more] at ended
          obtain ⟨_,given⟩ := MonteOutcome.ended.inj ended
          obtain rfl := Option.some.inj given
          rw [if_neg (mt retries.mpr more)]
          exact ⟨_,rfl⟩

/-- So does the whole call. -/
theorem fullMonte_refines (ended : doTheFullMonte compiled call attempts = .ended tries (some r)) : ∃ calls,
    Requests.doTheFullMonte compiled (call.clWP.map (·.1)) (requestTries call .start attempts) = some ⟨r.rv,calls⟩ := by
  cases compiled with
  | false =>
    obtain ⟨_,given⟩ := MonteOutcome.ended.inj ended
    obtain rfl := Option.some.inj given
    exact ⟨[],rfl⟩
  | true => exact monteLoop_refines ended none

end Citrusleaf.FullMonte
