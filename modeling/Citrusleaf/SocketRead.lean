import Mathlib.Algebra.Ring.Nat
import Mathlib.Data.List.TakeWhile

/-! `cf_socket_read_timeout` of cf_socket.c. What a connection does is the list of turns that
the loop takes: the clock at the start of a turn, what `epoll_wait` says, and what `read`
gives. Behind the last turn the clock has passed the deadline. -/
namespace Citrusleaf

/-- A value of `errno` after a failure. -/
abbrev Errno := {errno : Nat // 0 < errno}

def enoent : Errno := ⟨2,by decide⟩
def eintr : Errno := ⟨4,by decide⟩
def ebadf : Errno := ⟨9,by decide⟩
def eagain : Errno := ⟨11,by decide⟩
def efault : Errno := ⟨14,by decide⟩
def einval : Errno := ⟨22,by decide⟩
def etimedout : Errno := ⟨110,by decide⟩
def einprogress : Errno := ⟨115,by decide⟩

/-- The errors of `epoll_wait`. -/
inductive WaitError where
  | badDescriptor
  | fault
  | interrupted
  | invalid
  deriving DecidableEq

def WaitError.errno : WaitError → Errno
  | badDescriptor => ebadf
  | fault => efault
  | interrupted => eintr
  | invalid => einval

inductive Poll where
  | waitFailed (error : WaitError)
  | noEvents
  | unknownSocket
  /-- An event on the socket without `EPOLLIN`. -/
  | notReadable
  /-- `read` fails. -/
  | readFailed (errno : Errno)
  /-- `read` gives zero bytes. -/
  | closed
  /-- So many bytes have arrived; `read` gives those that fit, or `EAGAIN` where there are none. -/
  | arrived (bytes : Nat)

structure ReadTurn where
  now : Nat
  poll : Poll

/-- A call: the error of `fcntl`, `epoll_create` or `epoll_ctl`, if any, the clock, and the turns. -/
structure ReadAttempt where
  setup : Option Errno
  began : Nat
  turns : List ReadTurn

/-- The return value, what is in the buffer, and what of the stream is left. -/
structure SocketRead where
  rv : Nat
  buf : List UInt8
  left : List UInt8

/-- Errors of `read` after which the loop goes on. `EWOULDBLOCK` is `EAGAIN`. -/
def triesAgain (errno : Errno) : Bool :=
  errno = etimedout ∨ errno = eagain ∨ errno = einprogress

/-- The loop with `want` bytes to go, `buf_len - pos`. -/
def readLoop (deadline : Nat) : List ReadTurn → Nat → List UInt8 → SocketRead
  | [],_,stream => ⟨etimedout,[],stream⟩
  | turn :: turns,want,stream =>
    if turn.now > deadline then ⟨etimedout,[],stream⟩
    else
      match turn.poll with
      | .waitFailed error =>
        if error.errno = eintr then readLoop deadline turns want stream else ⟨error.errno,[],stream⟩
      | .noEvents => readLoop deadline turns want stream
      | .unknownSocket => readLoop deadline turns want stream
      | .notReadable => ⟨ebadf,[],stream⟩
      | .readFailed errno => if triesAgain errno then readLoop deadline turns want stream else ⟨errno,[],stream⟩
      | .closed => ⟨ebadf,[],stream⟩
      | .arrived bytes =>
        let got := stream.take (min bytes want)
        if want ≤ got.length then ⟨0,got,stream.drop got.length⟩
        else
          let later := readLoop deadline turns (want - got.length) (stream.drop got.length)
          {later with buf := got ++ later.buf}

/-- The lesser of the deadline of the transaction, if it has one, and that of the attempt. -/
def attemptDeadline (now transDeadline attemptMs : Nat) : Nat :=
  if transDeadline ≠ 0 ∧ transDeadline < attemptMs + now then transDeadline else attemptMs + now

/-- Each call reads from the start of the buffer. -/
def cfSocketReadTimeout (stream : List UInt8) (bufLen transDeadline attemptMs : Nat) (attempt : ReadAttempt) : SocketRead :=
  if bufLen = 0 then ⟨0,[],stream⟩
  else
    match attempt.setup with
    | some errno => ⟨errno,[],stream⟩
    | none => readLoop (attemptDeadline attempt.began transDeadline attemptMs) attempt.turns bufLen stream

/-! ### What is read and what is left -/

/-- What is read comes off the front of the stream; a return of zero has read all that was wanted. -/
structure Reads (stream : List UInt8) (want : Nat) (r : SocketRead) : Prop where
  parts : r.buf ++ r.left = stream
  most : r.buf.length ≤ want
  full : r.rv = 0 → r.buf.length = want

variable {stream : List UInt8} {want : Nat}

theorem Reads.nothing (errno : Errno) : Reads stream want ⟨errno,[],stream⟩ :=
  ⟨rfl,Nat.zero_le _,fun zero => absurd zero (Nat.pos_iff_ne_zero.mp errno.2)⟩

theorem readLoop_reads (deadline : Nat) (turns : List ReadTurn) (want : Nat) (stream : List UInt8) :
    Reads stream want (readLoop deadline turns want stream) := by
  induction turns generalizing want stream with
  | nil => exact .nothing etimedout
  | cons turn turns ih =>
    rw [readLoop]
    split
    · exact .nothing etimedout
    · cases turn.poll with
      | waitFailed error =>
        dsimp only
        split
        · exact ih want stream
        · exact .nothing error.errno
      | noEvents => exact ih want stream
      | unknownSocket => exact ih want stream
      | notReadable => exact .nothing ebadf
      | readFailed errno =>
        dsimp only
        split
        · exact ih want stream
        · exact .nothing errno
      | closed => exact .nothing ebadf
      | arrived bytes =>
        have front : stream.take (min bytes want) ++ stream.drop (stream.take (min bytes want)).length = stream :=
          (List.prefix_iff_eq_append.mp (List.take_prefix _ _))
        have fits : (stream.take (min bytes want)).length ≤ want := by
          rw [List.length_take]
          omega
        dsimp only
        split
        · rename_i all
          exact ⟨front,fits,fun _ => Nat.le_antisymm fits all⟩
        · have later := ih (want - (stream.take (min bytes want)).length) (stream.drop (stream.take (min bytes want)).length)
          refine ⟨?_,?_,fun zero => ?_⟩
          · rw [List.append_assoc,later.parts]
            exact front
          · have most := later.most
            rw [List.length_append]
            omega
          · have full := later.full zero
            rw [List.length_append]
            omega

theorem socketRead_reads (stream : List UInt8) (bufLen transDeadline attemptMs : Nat) (attempt : ReadAttempt) :
    Reads stream bufLen (cfSocketReadTimeout stream bufLen transDeadline attemptMs attempt) := by
  rw [cfSocketReadTimeout]
  split
  · rename_i none
    exact ⟨rfl,Nat.zero_le _,fun _ => none.symm⟩
  · split
    · exact .nothing _
    · exact readLoop_reads _ _ _ _

/-- A read that returns zero gives the front of the stream. -/
theorem Reads.take {r : SocketRead} (reads : Reads stream want r) (done : r.rv = 0) :
    r.buf = stream.take want ∧ r.left = stream.drop want := by
  have length := reads.full done
  rw [← reads.parts,← length]
  exact ⟨List.take_left.symm,List.drop_left.symm⟩

/-! ### A read that runs out of time -/

namespace ReadTurn

/-- Whether the loop ends in the turn with an error. -/
def fails (turn : ReadTurn) : Bool :=
  match turn.poll with
  | .waitFailed error => error.errno ≠ eintr
  | .readFailed errno => !triesAgain errno
  | .notReadable | .closed => true
  | _ => false

def bytes (turn : ReadTurn) : Nat :=
  match turn.poll with
  | .arrived bytes => bytes
  | _ => 0

end ReadTurn

/-- The turns that begin before the deadline. -/
def inTime (deadline : Nat) (turns : List ReadTurn) : List ReadTurn := turns.takeWhile fun turn => turn.now ≤ deadline

/-- The bytes that arrive in time. -/
def arrivals (deadline : Nat) (turns : List ReadTurn) : Nat := ((inTime deadline turns).map ReadTurn.bytes).sum

/-- No turn that begins in time fails, and too little arrives in time. -/
structure TimesOut (deadline : Nat) (turns : List ReadTurn) (want : Nat) (stream : List UInt8) : Prop where
  waits : ∀ turn ∈ inTime deadline turns, turn.fails = false
  short : min (arrivals deadline turns) stream.length < want

variable {deadline : Nat} {turn : ReadTurn} {turns : List ReadTurn}

theorem inTime_cons_early (early : turn.now ≤ deadline) :
    inTime deadline (turn :: turns) = turn :: inTime deadline turns := List.takeWhile_cons_of_pos (by simpa using early)

theorem inTime_cons_late (late : deadline < turn.now) : inTime deadline (turn :: turns) = [] :=
  List.takeWhile_cons_of_neg (by simpa using late)

theorem arrivals_cons_early (early : turn.now ≤ deadline) :
    arrivals deadline (turn :: turns) = turn.bytes + arrivals deadline turns := by
  rw [arrivals,inTime_cons_early early,List.map_cons,List.sum_cons,arrivals]

theorem WaitError.ne_etimedout (error : WaitError) : (error.errno : Nat) ≠ etimedout := by
  cases error <;> decide

/-- A turn that fails ends the loop with an error of its own. -/
theorem readLoop_fails (early : turn.now ≤ deadline) (fails : turn.fails = true) :
    (readLoop deadline (turn :: turns) want stream).rv ≠ etimedout := by
  rw [readLoop,if_neg (Nat.not_lt.mpr early)]
  rw [ReadTurn.fails] at fails
  cases given : turn.poll with
  | waitFailed error =>
    rw [given] at fails
    dsimp only at fails ⊢
    rw [if_neg (by simpa using fails)]
    exact error.ne_etimedout
  | readFailed errno =>
    rw [given] at fails
    simp only [Bool.not_eq_true'] at fails
    dsimp only
    rw [fails]
    intro same
    have equal : errno = etimedout := Subtype.ext same
    rw [equal] at fails
    exact absurd fails (by decide)
  | notReadable => exact (by decide : (ebadf : Nat) ≠ etimedout)
  | closed => exact (by decide : (ebadf : Nat) ≠ etimedout)
  | _ =>
    rw [given] at fails
    cases fails

/-- Any other turn reads what has arrived, and goes on where more is wanted. -/
theorem readLoop_waits (positive : 0 < want) (early : turn.now ≤ deadline) (waits : turn.fails = false) :
    readLoop deadline (turn :: turns) want stream =
      let got := stream.take (min turn.bytes want)
      if want ≤ got.length then ⟨0,got,stream.drop got.length⟩
      else {readLoop deadline turns (want - got.length) (stream.drop got.length) with
        buf := got ++ (readLoop deadline turns (want - got.length) (stream.drop got.length)).buf} := by
  have more : ¬want ≤ 0 := Nat.not_le.mpr positive
  rw [readLoop,if_neg (Nat.not_lt.mpr early)]
  rw [ReadTurn.fails] at waits
  rw [ReadTurn.bytes]
  cases given : turn.poll with
  | waitFailed error =>
    rw [given] at waits
    have interrupted : error.errno = eintr := by simpa using waits
    simp [interrupted,more]
  | readFailed errno =>
    rw [given] at waits
    have again : triesAgain errno = true := by simpa using waits
    simp [again,more]
  | notReadable =>
    rw [given] at waits
    cases waits
  | closed =>
    rw [given] at waits
    cases waits
  | noEvents => simp [more]
  | unknownSocket => simp [more]
  | arrived bytes => rfl

/-- Where the loop times out, what arrived in time is in the buffer. -/
theorem readLoop_timesOut (positive : 0 < want) :
    ((readLoop deadline turns want stream).rv = etimedout ↔ TimesOut deadline turns want stream) ∧
    ((readLoop deadline turns want stream).rv = etimedout →
      (readLoop deadline turns want stream).buf.length = min (arrivals deadline turns) stream.length) := by
  induction turns generalizing want stream with
  | nil => exact ⟨iff_of_true rfl ⟨nofun,by simpa [arrivals,inTime] using positive⟩,fun _ => (Nat.zero_min _).symm⟩
  | cons turn turns ih =>
    by_cases early : turn.now ≤ deadline
    · by_cases fails : turn.fails = true
      · have other := @readLoop_fails stream want deadline turn turns early fails
        refine ⟨iff_of_false other fun out => ?_,fun same => absurd same other⟩
        have waits := out.waits turn (inTime_cons_early early ▸ List.mem_cons_self)
        rw [fails] at waits
        cases waits
      · replace fails := eq_false_of_ne_true fails
        rw [readLoop_waits positive early fails]
        have length : (stream.take (min turn.bytes want)).length = min (min turn.bytes want) stream.length := List.length_take
        dsimp only
        split
        · rename_i all
          refine ⟨iff_of_false (Nat.ne_of_lt etimedout.2) fun out => ?_,fun same => absurd same (Nat.ne_of_lt etimedout.2)⟩
          have short := out.short
          rw [arrivals_cons_early early] at short
          omega
        · rename_i more
          -- what has arrived was all read, so the later turns read on from there
          have got : (stream.take (min turn.bytes want)).length = min turn.bytes stream.length := by omega
          have parts : min (arrivals deadline (turn :: turns)) stream.length = (stream.take (min turn.bytes want)).length +
              min (arrivals deadline turns) (stream.drop (stream.take (min turn.bytes want)).length).length := by
            rw [arrivals_cons_early early,List.length_drop,got]
            omega
          obtain ⟨timesOut,taken⟩ := @ih (stream.drop (stream.take (min turn.bytes want)).length)
            (want - (stream.take (min turn.bytes want)).length) (Nat.sub_pos_of_lt (Nat.not_le.mp more))
          refine ⟨timesOut.trans ⟨fun out => ⟨?_,?_⟩,fun out => ⟨?_,?_⟩⟩,fun same => ?_⟩
          · rw [inTime_cons_early early]
            exact List.forall_mem_cons.mpr ⟨fails,out.waits⟩
          · rw [parts]
            exact Nat.add_lt_of_lt_sub' out.short
          · have waits := out.waits
            rw [inTime_cons_early early] at waits
            exact (List.forall_mem_cons.mp waits).2
          · have short := out.short
            rw [parts] at short
            exact Nat.lt_sub_of_add_lt (Nat.add_comm _ _ ▸ short)
          · rw [List.length_append,taken same,parts]
    · replace early := Nat.not_le.mp early
      rw [readLoop,if_pos early]
      refine ⟨iff_of_true rfl ⟨?_,?_⟩,fun _ => ?_⟩
      · rw [inTime_cons_late early]
        exact nofun
      · rw [arrivals,inTime_cons_late early]
        simpa using positive
      · rw [arrivals,inTime_cons_late early]
        exact (Nat.zero_min _).symm

/-- A call that runs out of time with a part of what is wanted: no turn in time fails, and in
time some of it arrives, but not all. -/
structure CutShort (stream : List UInt8) (bufLen transDeadline attemptMs : Nat) (attempt : ReadAttempt) : Prop where
  ready : attempt.setup = none
  waits : ∀ turn ∈ inTime (attemptDeadline attempt.began transDeadline attemptMs) attempt.turns, turn.fails = false
  some : 0 < min (arrivals (attemptDeadline attempt.began transDeadline attemptMs) attempt.turns) stream.length
  short : min (arrivals (attemptDeadline attempt.began transDeadline attemptMs) attempt.turns) stream.length < bufLen

theorem socketRead_cutShort (positive : 0 < bufLen) (stream : List UInt8) (transDeadline attemptMs : Nat)
    (attempt : ReadAttempt) :
    CutShort stream bufLen transDeadline attemptMs attempt ↔
      (cfSocketReadTimeout stream bufLen transDeadline attemptMs attempt).rv = etimedout ∧
        (cfSocketReadTimeout stream bufLen transDeadline attemptMs attempt).left ≠ stream := by
  rw [cfSocketReadTimeout,if_neg (Nat.pos_iff_ne_zero.mp positive)]
  cases ready : attempt.setup with
  | some errno =>
    refine iff_of_false (fun cut => ?_) fun out => out.2 rfl
    rw [cut.ready] at ready
    cases ready
  | none =>
    dsimp only
    obtain ⟨timesOut,taken⟩ := @readLoop_timesOut stream bufLen
      (attemptDeadline attempt.began transDeadline attemptMs) attempt.turns positive
    have reads := readLoop_reads (attemptDeadline attempt.began transDeadline attemptMs) attempt.turns bufLen stream
    constructor
    · intro cut
      have out := timesOut.mpr ⟨cut.waits,cut.short⟩
      refine ⟨out,fun same => ?_⟩
      have length := congrArg List.length reads.parts
      have some := cut.some
      rw [List.length_append,same,taken out] at length
      omega
    · rintro ⟨out,moved⟩
      obtain ⟨waits,short⟩ := timesOut.mp out
      refine ⟨ready,waits,?_,short⟩
      by_contra nothing
      have empty : (readLoop (attemptDeadline attempt.began transDeadline attemptMs) attempt.turns bufLen stream).buf = [] :=
        List.eq_nil_of_length_eq_zero (by rw [taken out]; omega)
      have parts := reads.parts
      rw [empty] at parts
      exact moved parts

end Citrusleaf
