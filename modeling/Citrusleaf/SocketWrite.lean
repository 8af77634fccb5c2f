import Citrusleaf.SocketRead

/-! `cf_socket_write_timeout` of cf_socket.c, over turns like those of a read. -/
namespace Citrusleaf

inductive WritePoll where
  | waitFailed (error : WaitError)
  | noEvents
  | unknownSocket
  /-- An event on the socket without `EPOLLOUT`. -/
  | notWritable
  /-- `write` fails. -/
  | writeFailed (errno : Errno)
  /-- `write` takes so many bytes of those it is given. -/
  | took (bytes : Nat)

structure WriteTurn where
  now : Nat
  poll : WritePoll

/-- A call: the error of `fcntl`, `epoll_create` or `epoll_ctl`, if any, the clock, and the turns. -/
structure WriteAttempt where
  setup : Option Errno
  began : Nat
  turns : List WriteTurn

/-- The return value, and the bytes that went out. -/
structure SocketWrite where
  rv : Nat
  sent : List UInt8

/-- The loop with the bytes from `buf + pos` on. -/
def writeLoop (deadline : Nat) : List WriteTurn → List UInt8 → SocketWrite
  | [],_ => ⟨etimedout,[]⟩
  | turn :: turns,buf =>
    if turn.now > deadline then ⟨etimedout,[]⟩
    else
      match turn.poll with
      | .waitFailed error => if error.errno = eintr then writeLoop deadline turns buf else ⟨error.errno,[]⟩
      | .noEvents => writeLoop deadline turns buf
      | .unknownSocket => writeLoop deadline turns buf
      | .notWritable => ⟨ebadf,[]⟩
      | .writeFailed errno => if triesAgain errno then writeLoop deadline turns buf else ⟨errno,[]⟩
      | .took bytes =>
        -- no bytes: the other side has closed
        if bytes = 0 then ⟨ebadf,[]⟩
        else if buf.length ≤ bytes then ⟨0,buf⟩
        else
          let later := writeLoop deadline turns (buf.drop bytes)
          {later with sent := buf.take bytes ++ later.sent}

def cfSocketWriteTimeout (buf : List UInt8) (transDeadline attemptMs : Nat) (attempt : WriteAttempt) : SocketWrite :=
  if buf.length = 0 then ⟨0,[]⟩
  else
    match attempt.setup with
    | some errno => ⟨errno,[]⟩
    | none => writeLoop (attemptDeadline attempt.began transDeadline attemptMs) attempt.turns buf

/-- What goes out is the front of the buffer; a return of zero has sent it all. -/
structure Writes (buf : List UInt8) (w : SocketWrite) : Prop where
  front : w.sent <+: buf
  full : w.rv = 0 → w.sent = buf

theorem Writes.nothing (errno : Errno) : Writes buf ⟨errno,[]⟩ :=
  ⟨List.nil_prefix,fun zero => absurd zero (Nat.pos_iff_ne_zero.mp errno.2)⟩

theorem writeLoop_writes (deadline : Nat) (turns : List WriteTurn) (buf : List UInt8) :
    Writes buf (writeLoop deadline turns buf) := by
  induction turns generalizing buf with
  | nil => exact .nothing etimedout
  | cons turn turns ih =>
    rw [writeLoop]
    split
    · exact .nothing etimedout
    cases turn.poll with
    | waitFailed error =>
      dsimp only
      split
      · exact ih buf
      · exact .nothing error.errno
    | noEvents => exact ih buf
    | unknownSocket => exact ih buf
    | notWritable => exact .nothing ebadf
    | writeFailed errno =>
      dsimp only
      split
      · exact ih buf
      · exact .nothing errno
    | took bytes =>
      dsimp only
      split
      · exact .nothing ebadf
      split
      · exact ⟨List.prefix_rfl,fun _ => rfl⟩
      · have later := ih (buf.drop bytes)
        have parts : buf.take bytes ++ buf.drop bytes = buf := List.take_append_drop bytes buf
        refine ⟨?_,fun zero => ?_⟩
        · obtain ⟨rest,same⟩ := later.front
          exact ⟨rest,by rw [List.append_assoc,same,parts]⟩
        · rw [later.full zero,parts]

theorem socketWrite_writes (buf : List UInt8) (transDeadline attemptMs : Nat) (attempt : WriteAttempt) :
    Writes buf (cfSocketWriteTimeout buf transDeadline attemptMs attempt) := by
  rw [cfSocketWriteTimeout]
  split
  · rename_i none
    exact ⟨List.nil_prefix,fun _ => (List.eq_nil_of_length_eq_zero none).symm⟩
  · split
    · exact .nothing _
    · exact writeLoop_writes _ _ _

end Citrusleaf
