import Citrusleaf.Lib.Bytes
import Citrusleaf.Proto
import Citrusleaf.SocketWrite

/-! `cf_socket_read_timeout` and `cf_socket_write_timeout` call by call, with the memory of the
buffer. Both are one loop; they differ in the event that they wait for and in the way the bytes
go. A script says what the clock and the kernel answer. -/
namespace Citrusleaf.SocketTransfers
open Lib

def epollin : UInt32 := 0x001
def epollout : UInt32 := 0x004
def oNonblock : Nat := 0x800

/-! ### The calls and the script -/

/-- A call to the system. A transfer carries the bytes that the kernel moved. -/
inductive SocketCall where
  | getFlags (fd : Int)
  | setFlags (fd : Int) (flags : Nat)
  | getms (now : Nat)
  | epollCreate (epollFd : Int)
  | epollAdd (epollFd fd : Int)
  | epollWait (epollFd : Int)
  | transfer (pos want : Nat) (bytes : List UInt8)
  | epollDel (epollFd fd : Int)
  | close (epollFd : Int)
  deriving DecidableEq

/-- What a call to the system gives. -/
inductive SysReturn where
  | failed (errno : Errno)
  | gave (value : Nat)
  deriving DecidableEq

def SysReturn.isFailed : SysReturn → Bool
  | .failed _ => true
  | .gave _ => false

/-- The answers before the loop: `fcntl` twice, the clock twice, `epoll_create` and `epoll_ctl`. -/
structure SocketSetup where
  getFlags : SysReturn
  setFlags : SysReturn
  began : Nat
  start : Nat
  epollCreate : SysReturn
  epollAdd : SysReturn

/-- The answers in a turn: the clock, `epoll_wait` with the event that it stores, and `read` or
`write`, which moves as many bytes as it can of those that it is asked for. A call that does not
fail leaves `errno` as it is. -/
structure SocketTurn where
  now : Nat
  wait : SysReturn
  dataFd : Int
  events : UInt32
  io : SysReturn
  errno : Nat

/-- What one of the two functions waits for, and how the kernel moves at most `n` bytes between
the connection and the buffer at `pos`; `none` is an access outside of the buffer. -/
structure Direction (σ : Type) where
  ready : UInt32
  move : σ → Nat → Nat → Option (List UInt8 × σ)

/-! ### The loop -/

inductive TurnEnd where
  | retry
  | success
  | fail (rv : Nat)

structure TurnStep (σ : Type) where
  ends : TurnEnd
  pos : Nat
  s : σ
  calls : List SocketCall

/-- What the loop makes of `r_bytes` and `errno`. `EWOULDBLOCK` is `EAGAIN`. -/
def transferEnd (bufLen pos : Nat) (rBytes : Int) (errno : Nat) : TurnEnd × Nat :=
  if rBytes > 0 then
    if pos + rBytes.toNat ≥ bufLen then (.success,pos + rBytes.toNat) else (.retry,pos + rBytes.toNat)
  else if rBytes = 0 then (.fail ebadf,pos)
  else if errno ≠ etimedout ∧ errno ≠ eagain ∧ errno ≠ einprogress then (.fail errno,pos)
  else (.retry,pos)

variable {σ : Type}

/-- `read` or `write`, whose `ssize_t` is stored in an `int`. -/
def transferTurn (d : Direction σ) (bufLen : Nat) (turn : SocketTurn) (pos : Nat) (s : σ) (calls : List SocketCall) :
    Option (TurnStep σ) :=
  match turn.io with
  | .failed errno =>
    let (ends,pos') := transferEnd bufLen pos (-1) errno
    some ⟨ends,pos',s,calls ++ [.transfer pos (bufLen - pos) []]⟩
  | .gave n => do
    let (bytes,s) ← d.move s pos (min n (bufLen - pos))
    let (ends,pos') := transferEnd bufLen pos (toInt (bytes.length % 2 ^ 32)) turn.errno
    return ⟨ends,pos',s,calls ++ [.transfer pos (bufLen - pos) bytes]⟩

def socketTurn (d : Direction σ) (fd : Int) (bufLen deadline : Nat) (epollFd : Int) (turn : SocketTurn) (pos : Nat) (s : σ) :
    Option (TurnStep σ) :=
  if turn.now > deadline then some ⟨.fail etimedout,pos,s,[.getms turn.now]⟩
  else
    let calls := [.getms turn.now,.epollWait epollFd]
    match turn.wait with
    | .failed errno => some ⟨if errno = eintr then .retry else .fail errno,pos,s,calls⟩
    | .gave nevents =>
      if nevents = 0 then some ⟨.retry,pos,s,calls⟩
      else if turn.dataFd = fd then
        if turn.events &&& d.ready ≠ 0 then transferTurn d bufLen turn pos s calls
        else some ⟨.fail ebadf,pos,s,calls⟩
      else some ⟨.retry,pos,s,calls⟩

/-- The return value, or `none` where the loop still goes on behind the script. -/
structure SocketEnd (σ : Type) where
  rv : Option Nat
  s : σ
  calls : List SocketCall

/-- The label `Success`. -/
def socketSuccess (fd epollFd : Int) (s : σ) (calls : List SocketCall) : SocketEnd σ :=
  ⟨some 0,s,calls ++ [.epollDel epollFd fd,.close epollFd]⟩

/-- The label `Fail`. -/
def socketFail (fd epollFd : Int) (rv : Nat) (s : σ) (calls : List SocketCall) : SocketEnd σ :=
  ⟨some rv,s,calls ++ if epollFd > 0 then [.epollDel epollFd fd,.close epollFd] else []⟩

def socketTurns (d : Direction σ) (fd : Int) (bufLen deadline : Nat) (epollFd : Int) :
    List SocketTurn → Nat → σ → List SocketCall → Option (SocketEnd σ)
  | [],_,s,calls => some ⟨none,s,calls⟩
  | turn :: turns,pos,s,calls => do
    let step ← socketTurn d fd bufLen deadline epollFd turn pos s
    let calls := calls ++ step.calls
    match step.ends with
    | .retry =>
      if step.pos < bufLen then socketTurns d fd bufLen deadline epollFd turns step.pos step.s calls
      else return socketSuccess fd epollFd step.s calls
    | .success => return socketSuccess fd epollFd step.s calls
    | .fail rv => return socketFail fd epollFd rv step.s calls

/-- The lesser of the deadline of the transaction, if it has one, and that of the attempt, which
is a sum of 64 bits. -/
def socketDeadline (began transDeadline attemptMs : Nat) : Nat :=
  let deadline := (attemptMs + began) % 2 ^ 64
  if transDeadline ≠ 0 ∧ transDeadline < deadline then transDeadline else deadline

/-- Flags that cannot be read are none. -/
def SocketSetup.flags (setup : SocketSetup) : Nat :=
  match setup.getFlags with
  | .failed _ => 0
  | .gave flags => flags

def socketTransfer (d : Direction σ) (setup : SocketSetup) (fd : Int) (bufLen transDeadline attemptMs : Nat)
    (turns : List SocketTurn) (s : σ) : Option (SocketEnd σ) :=
  if bufLen = 0 then some ⟨some 0,s,[]⟩
  else
    let blocking := setup.flags &&& oNonblock = 0
    let calls := .getFlags fd :: if blocking then [.setFlags fd (setup.flags ||| oNonblock)] else []
    if blocking ∧ setup.setFlags.isFailed then some ⟨some enoent,s,calls⟩
    else
      let calls := calls ++ [.getms setup.began,.getms setup.start]
      match setup.epollCreate with
      | .failed errno => some (socketFail fd (-1) errno s (calls ++ [.epollCreate (-1)]))
      | .gave epollFd =>
        let calls := calls ++ [.epollCreate epollFd,.epollAdd epollFd fd]
        match setup.epollAdd with
        | .failed errno => some (socketFail fd epollFd errno s calls)
        | .gave _ =>
          socketTurns d fd bufLen (socketDeadline setup.began transDeadline attemptMs) epollFd turns 0 s calls

/-! ### The two functions -/

/-- The buffer, and what is to come on the connection. -/
structure ReadState where
  buf : List UInt8
  stream : List UInt8

def reading : Direction ReadState where
  ready := epollin
  move s pos n :=
    let bytes := s.stream.take n
    (writeBytes s.buf pos bytes).map fun buf => (bytes,⟨buf,s.stream.drop bytes.length⟩)

def cfSocketReadTimeoutCalls : SocketSetup → Int → Nat → Nat → Nat → List SocketTurn → ReadState →
    Option (SocketEnd ReadState) := socketTransfer reading

/-- The buffer, and what went out. -/
structure WriteState where
  buf : List UInt8
  sent : List UInt8

def writing : Direction WriteState where
  ready := epollout
  move s pos n := (readBytes s.buf pos n).map fun bytes => (bytes,{s with sent := s.sent ++ bytes})

def cfSocketWriteTimeoutCalls : SocketSetup → Int → Nat → Nat → Nat → List SocketTurn → WriteState →
    Option (SocketEnd WriteState) := socketTransfer writing

/-! ### What is moved -/

def SocketCall.bytes : SocketCall → List UInt8
  | .transfer _ _ bytes => bytes
  | _ => []

/-- The bytes that the kernel moved, in their order. -/
def transferred (calls : List SocketCall) : List UInt8 := calls.flatMap SocketCall.bytes

theorem transferred_append (first later : List SocketCall) :
    transferred (first ++ later) = transferred first ++ transferred later := List.flatMap_append

theorem transferEnd_failed (bufLen pos : Nat) (errno : Errno) :
    transferEnd bufLen pos (-1) errno = (if triesAgain errno then .retry else .fail errno,pos) := by
  have same (other : Errno) : (errno : Nat) = other ↔ errno = other := Subtype.coe_inj
  rw [transferEnd,if_neg (by decide),if_neg (by decide),triesAgain]
  simp only [ne_eq,same]
  by_cases timedOut : errno = etimedout <;> by_cases again : errno = eagain <;>
    by_cases progress : errno = einprogress <;> simp [timedOut,again,progress]

/-- What fits an `int` is counted as it is. -/
theorem transferEnd_gave (small : length < 2 ^ 31) (bufLen pos errno : Nat) :
    transferEnd bufLen pos (toInt (length % 2 ^ 32)) errno =
      (if length = 0 then .fail ebadf else if bufLen ≤ pos + length then .success else .retry,pos + length) := by
  have kept : length % 2 ^ 32 = length := Nat.mod_eq_of_lt (by omega)
  rw [kept,toInt,if_pos small,transferEnd]
  by_cases none : length = 0
  · subst none
    rfl
  · rw [if_pos (by omega),if_neg none,Int.toNat_natCast]
    split <;> rfl

theorem transferTurn_failed {d : Direction σ} {turn : SocketTurn} (given : turn.io = .failed errno) (bufLen pos : Nat) (s : σ)
    (calls : List SocketCall) :
    transferTurn d bufLen turn pos s calls = some ⟨if triesAgain errno then .retry else .fail errno,pos,s,
      calls ++ [.transfer pos (bufLen - pos) []]⟩ := by
  rw [transferTurn,given]
  dsimp only
  rw [transferEnd_failed]

theorem transferTurn_gave {d : Direction σ} {turn : SocketTurn} {s s' : σ} {bytes : List UInt8} (given : turn.io = .gave n)
    (move : d.move s pos (min n (bufLen - pos)) = some (bytes,s')) (small : bytes.length < 2 ^ 31)
    (calls : List SocketCall) :
    transferTurn d bufLen turn pos s calls = some
      ⟨if bytes.length = 0 then .fail ebadf else if bufLen ≤ pos + bytes.length then .success else .retry,
        pos + bytes.length,s',calls ++ [.transfer pos (bufLen - pos) bytes]⟩ := by
  rw [transferTurn,given]
  dsimp only
  simp only [move,Option.bind_eq_bind,Option.bind_some,Option.pure_def,transferEnd_gave small]

theorem socketFail_created {fd epollFd : Int} (created : 0 < epollFd) (rv : Nat) (s : σ) (calls : List SocketCall) :
    socketFail fd epollFd rv s calls = ⟨some rv,s,calls ++ [.epollDel epollFd fd,.close epollFd]⟩ := by
  rw [socketFail,if_pos created]

/-! ### What a turn gives -/

namespace SocketTurn

def waitFailed (now : Nat) (fd : Int) (errno : Errno) : SocketTurn := ⟨now,.failed errno,fd,0,.gave 0,0⟩
def noEvents (now : Nat) (fd : Int) : SocketTurn := ⟨now,.gave 0,fd,0,.gave 0,0⟩
def unknownSocket (now : Nat) (fd : Int) : SocketTurn := ⟨now,.gave 1,fd + 1,0,.gave 0,0⟩
def notReady (now : Nat) (fd : Int) : SocketTurn := ⟨now,.gave 1,fd,0,.gave 0,0⟩
def ready (now : Nat) (fd : Int) (events : UInt32) (io : SysReturn) : SocketTurn := ⟨now,.gave 1,fd,events,io,0⟩

end SocketTurn

/-- A turn ends at `pos'` with these bytes moved. -/
def Gives (d : Direction σ) (fd : Int) (bufLen deadline : Nat) (epollFd : Int) (turn : SocketTurn) (pos : Nat) (s : σ)
    (ends : TurnEnd) (pos' : Nat) (s' : σ) (bytes : List UInt8) : Prop :=
  ∃ calls, socketTurn d fd bufLen deadline epollFd turn pos s = some ⟨ends,pos',s',calls⟩ ∧ transferred calls = bytes

/-- The loop returns with these bytes moved. -/
def Runs (d : Direction σ) (fd : Int) (bufLen deadline : Nat) (epollFd : Int) (turns : List SocketTurn) (pos : Nat) (s : σ)
    (rv : Nat) (bytes : List UInt8) (s' : σ) : Prop :=
  ∀ before, ∃ calls, socketTurns d fd bufLen deadline epollFd turns pos s before = some ⟨some rv,s',calls⟩ ∧
    transferred calls = transferred before ++ bytes

section
variable {d : Direction σ} {fd epollFd : Int} {bufLen deadline pos pos' now : Nat} {turn : SocketTurn}
  {turns : List SocketTurn} {s s' : σ} {bytes : List UInt8}

theorem gives_late (late : deadline < turn.now) :
    Gives d fd bufLen deadline epollFd turn pos s (.fail etimedout) pos s [] := ⟨_,if_pos late,rfl⟩

theorem gives_waitFailed (early : now ≤ deadline) (errno : Errno) :
    Gives d fd bufLen deadline epollFd (.waitFailed now fd errno) pos s
      (if errno = eintr then .retry else .fail errno) pos s [] := ⟨_,if_neg (Nat.not_lt.mpr early),rfl⟩

theorem gives_noEvents (early : now ≤ deadline) :
    Gives d fd bufLen deadline epollFd (.noEvents now fd) pos s .retry pos s [] := ⟨_,if_neg (Nat.not_lt.mpr early),rfl⟩

theorem gives_unknownSocket (early : now ≤ deadline) :
    Gives d fd bufLen deadline epollFd (.unknownSocket now fd) pos s .retry pos s [] := by
  have other : ¬fd + 1 = fd := by omega
  exact ⟨_,(if_neg (Nat.not_lt.mpr early)).trans (if_neg other),rfl⟩

theorem gives_notReady (early : now ≤ deadline) :
    Gives d fd bufLen deadline epollFd (.notReady now fd) pos s (.fail ebadf) pos s [] := by
  have none : ¬(0 : UInt32) &&& d.ready ≠ 0 := by simp
  exact ⟨_,(if_neg (Nat.not_lt.mpr early)).trans ((if_pos rfl).trans (if_neg none)),rfl⟩

theorem socketTurn_ready (early : now ≤ deadline) (ready : d.ready &&& d.ready ≠ 0) (io : SysReturn) :
    socketTurn d fd bufLen deadline epollFd (.ready now fd d.ready io) pos s =
      transferTurn d bufLen (.ready now fd d.ready io) pos s [.getms now,.epollWait epollFd] :=
  (if_neg (Nat.not_lt.mpr early)).trans ((if_pos rfl).trans (if_pos ready))

theorem gives_failed (early : now ≤ deadline) (ready : d.ready &&& d.ready ≠ 0) (errno : Errno) :
    Gives d fd bufLen deadline epollFd (.ready now fd d.ready (.failed errno)) pos s
      (if triesAgain errno then .retry else .fail errno) pos s [] :=
  ⟨_,(socketTurn_ready early ready _).trans (transferTurn_failed rfl _ _ _ _),rfl⟩

theorem gives_gave (early : now ≤ deadline) (ready : d.ready &&& d.ready ≠ 0)
    (move : d.move s pos (min n (bufLen - pos)) = some (bytes,s')) (small : bytes.length < 2 ^ 31) :
    Gives d fd bufLen deadline epollFd (.ready now fd d.ready (.gave n)) pos s
      (if bytes.length = 0 then .fail ebadf else if bufLen ≤ pos + bytes.length then .success else .retry)
      (pos + bytes.length) s' bytes :=
  ⟨_,(socketTurn_ready early ready _).trans (transferTurn_gave rfl move small _),List.append_nil bytes⟩

theorem Gives.retry (gives : Gives d fd bufLen deadline epollFd turn pos s .retry pos' s' bytes) (more : pos' < bufLen)
    (rest : Runs d fd bufLen deadline epollFd turns pos' s' rv later s'') :
    Runs d fd bufLen deadline epollFd (turn :: turns) pos s rv (bytes ++ later) s'' := by
  obtain ⟨calls,taken,rfl⟩ := gives
  intro before
  obtain ⟨all,run,moved⟩ := rest (before ++ calls)
  refine ⟨all,?_,by rw [moved,transferred_append,List.append_assoc]⟩
  rw [socketTurns,taken]
  exact (if_pos more).trans run

theorem Gives.success (gives : Gives d fd bufLen deadline epollFd turn pos s .success pos' s' bytes) (turns : List SocketTurn) :
    Runs d fd bufLen deadline epollFd (turn :: turns) pos s 0 bytes s' := by
  obtain ⟨calls,taken,rfl⟩ := gives
  intro before
  refine ⟨_,by rw [socketTurns,taken]; rfl,?_⟩
  rw [transferred_append,transferred_append]
  exact List.append_nil _

theorem Gives.fail {rv : Nat} (gives : Gives d fd bufLen deadline epollFd turn pos s (.fail rv) pos' s' bytes)
    (turns : List SocketTurn) : Runs d fd bufLen deadline epollFd (turn :: turns) pos s rv bytes s' := by
  obtain ⟨calls,taken,rfl⟩ := gives
  intro before
  refine ⟨_,by rw [socketTurns,taken]; rfl,?_⟩
  rw [transferred_append,transferred_append]
  split <;> exact List.append_nil _

end

/-! ### The transfers of a request

Scripts that answer like the turns of `cf_socket_read_timeout` and `cf_socket_write_timeout` in the
model of requests. At the end comes a turn behind the deadline. -/

/-- Where nothing has arrived, `read` would block. -/
def readAnswers (fd : Int) (stream : List UInt8) (turn : ReadTurn) : SocketTurn :=
  match turn.poll with
  | .waitFailed error => .waitFailed turn.now fd error.errno
  | .noEvents => .noEvents turn.now fd
  | .unknownSocket => .unknownSocket turn.now fd
  | .notReadable => .notReady turn.now fd
  | .readFailed errno => .ready turn.now fd epollin (.failed errno)
  | .closed => .ready turn.now fd epollin (.gave 0)
  | .arrived n => .ready turn.now fd epollin (if n = 0 ∨ stream = [] then .failed eagain else .gave n)

def readScript (fd : Int) (deadline : Nat) : List ReadTurn → Nat → List UInt8 → List SocketTurn
  | [],_,_ => [.noEvents (deadline + 1) fd]
  | turn :: turns,want,stream =>
    let got := (stream.take (min turn.bytes want)).length
    readAnswers fd stream turn :: readScript fd deadline turns (want - got) (stream.drop got)

def writeAnswers (fd : Int) (turn : WriteTurn) : SocketTurn :=
  match turn.poll with
  | .waitFailed error => .waitFailed turn.now fd error.errno
  | .noEvents => .noEvents turn.now fd
  | .unknownSocket => .unknownSocket turn.now fd
  | .notWritable => .notReady turn.now fd
  | .writeFailed errno => .ready turn.now fd epollout (.failed errno)
  | .took n => .ready turn.now fd epollout (.gave n)

/-- An error before the loop is one of `epoll_create`. -/
def setupAnswers (setup : Option Errno) (began : Nat) : SocketSetup :=
  ⟨.gave oNonblock,.gave 0,began,began,setup.elim (.gave 1) .failed,.gave 0⟩

theorem readAnswers_now (fd : Int) (stream : List UInt8) (turn : ReadTurn) : (readAnswers fd stream turn).now = turn.now := by
  rw [readAnswers]
  cases turn.poll <;> rfl

theorem reading_move (s : ReadState) (inside : pos + n ≤ s.buf.length) :
    ∃ buf, reading.move s pos n = some (s.stream.take n,⟨buf,s.stream.drop (s.stream.take n).length⟩) ∧
      buf.length = s.buf.length := by
  have fits : pos + (s.stream.take n).length ≤ s.buf.length := by
    rw [List.length_take]
    omega
  obtain ⟨buf,written⟩ := Option.isSome_iff_exists.mp ((writeBytes_checked s.buf pos (s.stream.take n)).isSome_iff.mpr fits)
  exact ⟨buf,congrArg (Option.map _) written,(writeBytes_length written).1⟩

/-- A turn of a read that does not fail and gives nothing. -/
theorem readAnswers_still (fd epollFd : Int) {turn : ReadTurn} (early : turn.now ≤ deadline) (waits : turn.fails = false)
    (bufLen pos : Nat) (s : ReadState) (nothing : turn.bytes = 0 ∨ s.stream = []) :
    Gives reading fd bufLen deadline epollFd (readAnswers fd s.stream turn) pos s .retry pos s [] := by
  have ready : reading.ready &&& reading.ready ≠ 0 := by decide
  rw [ReadTurn.fails] at waits
  rw [readAnswers]
  cases given : turn.poll with
  | waitFailed error =>
    rw [given] at waits
    have interrupted : error.errno = eintr := by simpa using waits
    have gives : Gives reading fd bufLen deadline epollFd (.waitFailed turn.now fd error.errno) pos s _ pos s [] :=
      gives_waitFailed early error.errno
    rwa [if_pos interrupted] at gives
  | noEvents => exact gives_noEvents early
  | unknownSocket => exact gives_unknownSocket early
  | readFailed errno =>
    rw [given] at waits
    have again : triesAgain errno = true := by simpa using waits
    have gives : Gives reading fd bufLen deadline epollFd (.ready turn.now fd epollin (.failed errno)) pos s _ pos s [] :=
      gives_failed early ready errno
    rwa [if_pos again] at gives
  | arrived n =>
    have none : n = 0 ∨ s.stream = [] := by rwa [ReadTurn.bytes,given] at nothing
    have gives : Gives reading fd bufLen deadline epollFd (.ready turn.now fd epollin (.failed eagain)) pos s _ pos s [] :=
      gives_failed early ready eagain
    rw [if_pos (by decide)] at gives
    dsimp only
    rwa [if_pos none]
  | _ =>
    rw [given] at waits
    cases waits

/-- A turn of a read in which bytes have arrived. -/
theorem readAnswers_arrived (fd epollFd : Int) (small : bufLen < 2 ^ 31) {turn : ReadTurn} (early : turn.now ≤ deadline)
    (positive : 0 < want) (sum : pos + want = bufLen) (s : ReadState) (room : bufLen ≤ s.buf.length)
    (arrives : ¬(turn.bytes = 0 ∨ s.stream = [])) :
    ∃ s', Gives reading fd bufLen deadline epollFd (readAnswers fd s.stream turn) pos s
        (if want ≤ (s.stream.take (min turn.bytes want)).length then .success else .retry)
        (pos + (s.stream.take (min turn.bytes want)).length) s' (s.stream.take (min turn.bytes want)) ∧
      s'.stream = s.stream.drop (s.stream.take (min turn.bytes want)).length ∧ s'.buf.length = s.buf.length := by
  have given : turn.poll = .arrived turn.bytes := by
    rw [ReadTurn.bytes] at arrives ⊢
    cases poll : turn.poll with
    | arrived n => rfl
    | _ =>
      rw [poll] at arrives
      exact absurd (.inl rfl) arrives
  generalize turn.bytes = n at arrives given
  have rest : bufLen - pos = want := by omega
  have inside : pos + min n want ≤ s.buf.length := by omega
  obtain ⟨buf,move,kept⟩ := reading_move s inside
  have asked : reading.move s pos (min n (bufLen - pos)) = some (s.stream.take (min n want),
      ⟨buf,s.stream.drop (s.stream.take (min n want)).length⟩) := by rw [rest,move]
  have gives : Gives reading fd bufLen deadline epollFd (.ready turn.now fd epollin (.gave n)) pos s _ _ _ _ :=
    gives_gave early (by decide) asked (by rw [List.length_take]; omega)
  have many : ¬(s.stream.take (min n want)).length = 0 := by
    have length : 0 < s.stream.length := List.length_pos_iff.mpr fun empty => arrives (.inr empty)
    have some : n ≠ 0 := fun zero => arrives (.inl zero)
    rw [List.length_take]
    omega
  have all : bufLen ≤ pos + (s.stream.take (min n want)).length ↔ want ≤ (s.stream.take (min n want)).length := by omega
  rw [if_neg many] at gives
  simp only [all] at gives
  rw [readAnswers,given]
  dsimp only
  rw [if_neg arrives]
  exact ⟨_,gives,rfl,kept⟩

/-- A turn of a read that does not fail gives what has arrived. -/
theorem readAnswers_waits (fd epollFd : Int) (small : bufLen < 2 ^ 31) {turn : ReadTurn} (early : turn.now ≤ deadline)
    (waits : turn.fails = false) (positive : 0 < want) (sum : pos + want = bufLen) (s : ReadState)
    (room : bufLen ≤ s.buf.length) :
    ∃ s', Gives reading fd bufLen deadline epollFd (readAnswers fd s.stream turn) pos s
        (if want ≤ (s.stream.take (min turn.bytes want)).length then .success else .retry)
        (pos + (s.stream.take (min turn.bytes want)).length) s' (s.stream.take (min turn.bytes want)) ∧
      s'.stream = s.stream.drop (s.stream.take (min turn.bytes want)).length ∧ s'.buf.length = s.buf.length := by
  by_cases nothing : turn.bytes = 0 ∨ s.stream = []
  · have none : s.stream.take (min turn.bytes want) = [] := by
      rcases nothing with zero | empty
      · rw [zero,Nat.zero_min,List.take_zero]
      · rw [empty,List.take_nil]
    rw [none,List.length_nil,if_neg (Nat.not_le.mpr positive)]
    exact ⟨s,readAnswers_still fd epollFd early waits bufLen pos s nothing,rfl,rfl⟩
  · exact readAnswers_arrived fd epollFd small early positive sum s room nothing

/-- A turn of a read that fails returns the same error. -/
theorem readAnswers_fails (fd epollFd : Int) {turn : ReadTurn} (early : turn.now ≤ deadline) (fails : turn.fails = true)
    (turns : List ReadTurn) (bufLen want : Nat) (s : ReadState) (inside : pos ≤ s.buf.length) :
    ∃ (rv : Nat) (s' : ReadState), Gives reading fd bufLen deadline epollFd (readAnswers fd s.stream turn) pos s
        (.fail rv) pos s' [] ∧
      readLoop deadline (turn :: turns) want s.stream = ⟨rv,[],s'.stream⟩ := by
  have ready : reading.ready &&& reading.ready ≠ 0 := by decide
  rw [ReadTurn.fails] at fails
  rw [readLoop,if_neg (Nat.not_lt.mpr early),readAnswers]
  cases given : turn.poll with
  | waitFailed error =>
    rw [given] at fails
    have other : ¬error.errno = eintr := by simpa using fails
    have gives : Gives reading fd bufLen deadline epollFd (.waitFailed turn.now fd error.errno) pos s _ pos s [] :=
      gives_waitFailed early error.errno
    rw [if_neg other] at gives
    exact ⟨_,s,gives,if_neg other⟩
  | notReadable => exact ⟨_,s,gives_notReady early,rfl⟩
  | readFailed errno =>
    rw [given] at fails
    have again : ¬triesAgain errno = true := by simpa using fails
    have gives : Gives reading fd bufLen deadline epollFd (.ready turn.now fd epollin (.failed errno)) pos s _ pos s [] :=
      gives_failed early ready errno
    rw [if_neg again] at gives
    exact ⟨_,s,gives,if_neg again⟩
  | closed =>
    obtain ⟨buf,move,_⟩ : ∃ buf, reading.move s pos 0 = some ([],⟨buf,s.stream⟩) ∧ _ := reading_move s inside
    have asked : reading.move s pos (min 0 (bufLen - pos)) = some ([],⟨buf,s.stream⟩) := by rw [Nat.zero_min,move]
    exact ⟨_,_,gives_gave early ready asked (by decide),rfl⟩
  | _ =>
    rw [given] at fails
    cases fails

theorem readScript_runs (fd epollFd : Int) (small : bufLen < 2 ^ 31) (deadline : Nat) (turns : List ReadTurn)
    (positive : 0 < want) (sum : pos + want = bufLen) (s : ReadState) (room : bufLen ≤ s.buf.length) :
    ∃ s', Runs reading fd bufLen deadline epollFd (readScript fd deadline turns want s.stream) pos s
      (readLoop deadline turns want s.stream).rv (readLoop deadline turns want s.stream).buf s' ∧
      s'.stream = (readLoop deadline turns want s.stream).left := by
  induction turns generalizing pos want s with
  | nil => exact ⟨s,(gives_late (Nat.lt_succ_self deadline)).fail [],rfl⟩
  | cons turn turns ih =>
    rw [readScript]
    by_cases late : deadline < turn.now
    · rw [readLoop,if_pos late]
      exact ⟨s,(gives_late (by rwa [readAnswers_now])).fail _,rfl⟩
    have early : turn.now ≤ deadline := Nat.not_lt.mp late
    by_cases fails : turn.fails = true
    · obtain ⟨rv,s',gives,loop⟩ := readAnswers_fails fd epollFd early fails turns bufLen want s (by omega : pos ≤ _)
      rw [loop]
      exact ⟨s',gives.fail _,rfl⟩
    · replace fails := eq_false_of_ne_true fails
      obtain ⟨s',gives,left,kept⟩ := readAnswers_waits fd epollFd small early fails positive sum s room
      rw [readLoop_waits positive early fails]
      dsimp only
      split at gives
      · rename_i all
        rw [if_pos all]
        exact ⟨s',gives.success _,left⟩
      · rename_i more
        have onward : pos + (s.stream.take (min turn.bytes want)).length +
            (want - (s.stream.take (min turn.bytes want)).length) = bufLen := by omega
        rw [if_neg more,← left]
        obtain ⟨s'',runs,rest⟩ := ih (Nat.sub_pos_of_lt (Nat.not_le.mp more)) onward s' (kept ▸ room)
        exact ⟨s'',gives.retry (by omega) runs,rest⟩

theorem socketDeadline_eq (sum : attemptMs + began < 2 ^ 64) (transDeadline : Nat) :
    socketDeadline began transDeadline attemptMs = attemptDeadline began transDeadline attemptMs := by
  rw [socketDeadline,attemptDeadline,Nat.mod_eq_of_lt sum]

/-- Before the loop all goes well, or `epoll_create` fails. -/
theorem socketTransfer_setup (d : Direction σ) (setup : Option Errno) (fd : Int) (positive : 0 < bufLen)
    (transDeadline : Nat) (sum : attemptMs + began < 2 ^ 64) (turns : List SocketTurn) (s : σ) :
    ∃ before, transferred before = [] ∧
      socketTransfer d (setupAnswers setup began) fd bufLen transDeadline attemptMs turns s =
        match setup with
        | some errno => some ⟨some errno,s,before⟩
        | none => socketTurns d fd bufLen (attemptDeadline began transDeadline attemptMs) 1 turns 0 s before := by
  have flags : ¬((setupAnswers setup began).flags &&& oNonblock = 0) := show ¬(oNonblock &&& oNonblock = 0) by decide
  rw [← socketDeadline_eq sum]
  simp only [socketTransfer,if_neg (Nat.pos_iff_ne_zero.mp positive),flags]
  cases setup with
  | some errno => exact ⟨_,rfl,rfl⟩
  | none => exact ⟨_,rfl,rfl⟩

/-- Each read of the model of requests, its deadline below 64 bits, is one of these. -/
theorem cfSocketReadTimeoutCalls_reads (fd : Int) (small : bufLen < 2 ^ 31) (buf : List UInt8) (room : bufLen ≤ buf.length)
    (stream : List UInt8) (transDeadline attemptMs : Nat) (attempt : ReadAttempt)
    (sum : attemptMs + attempt.began < 2 ^ 64) :
    ∃ r, cfSocketReadTimeoutCalls (setupAnswers attempt.setup attempt.began) fd bufLen transDeadline attemptMs
        (readScript fd (attemptDeadline attempt.began transDeadline attemptMs) attempt.turns bufLen stream)
        ⟨buf,stream⟩ = some r ∧
      r.rv = some (cfSocketReadTimeout stream bufLen transDeadline attemptMs attempt).rv ∧
      transferred r.calls = (cfSocketReadTimeout stream bufLen transDeadline attemptMs attempt).buf ∧
      r.s.stream = (cfSocketReadTimeout stream bufLen transDeadline attemptMs attempt).left := by
  rw [cfSocketReadTimeout,cfSocketReadTimeoutCalls]
  split
  · rename_i empty
    exact ⟨_,if_pos empty,rfl,rfl,rfl⟩
  · rename_i wanted
    obtain ⟨before,none,run⟩ := socketTransfer_setup reading attempt.setup fd (Nat.pos_of_ne_zero wanted) transDeadline sum
      (readScript fd (attemptDeadline attempt.began transDeadline attemptMs) attempt.turns bufLen stream) ⟨buf,stream⟩
    rw [run]
    cases attempt.setup with
    | some errno => exact ⟨_,rfl,rfl,none,rfl⟩
    | none =>
      obtain ⟨s',runs,left⟩ := readScript_runs fd 1 small (attemptDeadline attempt.began transDeadline attemptMs)
        attempt.turns (Nat.pos_of_ne_zero wanted) (Nat.zero_add bufLen) ⟨buf,stream⟩ room
      obtain ⟨calls,done,moved⟩ := runs before
      exact ⟨_,done,rfl,by rw [moved,none,List.nil_append],left⟩

/-- A write gives what the connection takes of the rest. -/
theorem gives_took {buf : List UInt8} (early : now ≤ deadline) (small : buf.length < 2 ^ 31) (inside : pos < buf.length)
    (fd epollFd : Int) (sent : List UInt8) (n : Nat) :
    Gives writing fd buf.length deadline epollFd (.ready now fd epollout (.gave n)) pos ⟨buf,sent⟩
      (if n = 0 then .fail ebadf else if (buf.drop pos).length ≤ n then .success else .retry)
      (pos + ((buf.drop pos).take n).length) ⟨buf,sent ++ (buf.drop pos).take n⟩ ((buf.drop pos).take n) := by
  have rest : (buf.drop pos).length = buf.length - pos := List.length_drop
  have part : (buf.drop pos).take (min n (buf.length - pos)) = (buf.drop pos).take n := by rw [← rest,← List.take_eq_take_min]
  have asked : writing.move ⟨buf,sent⟩ pos (min n (buf.length - pos)) =
      some ((buf.drop pos).take n,⟨buf,sent ++ (buf.drop pos).take n⟩) := by
    have read : readBytes buf pos (min n (buf.length - pos)) = some ((buf.drop pos).take n) :=
      (if_pos (by omega)).trans (congrArg some part)
    exact congrArg (Option.map _) read
  have length : ((buf.drop pos).take n).length = min n (buf.length - pos) := by rw [List.length_take,rest]
  have gives : Gives writing fd buf.length deadline epollFd (.ready now fd epollout (.gave n)) pos ⟨buf,sent⟩ _ _ _ _ :=
    gives_gave early (by decide) asked (by omega)
  have none : ((buf.drop pos).take n).length = 0 ↔ n = 0 := by omega
  have all : buf.length ≤ pos + ((buf.drop pos).take n).length ↔ (buf.drop pos).length ≤ n := by omega
  simp only [none,all] at gives
  exact gives

/-- The turns of a write, from `pos` on. -/
theorem writeScript_runs (fd epollFd : Int) (deadline : Nat) (turns : List WriteTurn) (buf sent : List UInt8)
    (small : buf.length < 2 ^ 31) (inside : pos < buf.length) :
    ∃ s', Runs writing fd buf.length deadline epollFd (turns.map (writeAnswers fd) ++ [.noEvents (deadline + 1) fd]) pos
      ⟨buf,sent⟩ (writeLoop deadline turns (buf.drop pos)).rv (writeLoop deadline turns (buf.drop pos)).sent s' := by
  induction turns generalizing pos sent with
  | nil => exact ⟨_,(gives_late (Nat.lt_succ_self deadline)).fail []⟩
  | cons turn turns ih =>
    rw [List.map_cons,List.cons_append,writeLoop]
    by_cases late : deadline < turn.now
    · have passed : deadline < (writeAnswers fd turn).now := by
        rw [writeAnswers]
        cases turn.poll <;> exact late
      rw [if_pos late]
      exact ⟨_,(gives_late passed).fail _⟩
    have early : turn.now ≤ deadline := Nat.not_lt.mp late
    obtain ⟨again,rest⟩ := ih sent inside
    rw [if_neg late,writeAnswers]
    cases turn.poll with
    | waitFailed error =>
      have gives : Gives writing fd buf.length deadline epollFd (.waitFailed turn.now fd error.errno) pos ⟨buf,sent⟩ _ pos
          ⟨buf,sent⟩ [] := gives_waitFailed early error.errno
      dsimp only
      split at gives
      · rename_i interrupted
        rw [if_pos interrupted]
        exact ⟨again,gives.retry inside rest⟩
      · rename_i other
        rw [if_neg other]
        exact ⟨_,gives.fail _⟩
    | noEvents => exact ⟨again,(gives_noEvents early).retry inside rest⟩
    | unknownSocket => exact ⟨again,(gives_unknownSocket early).retry inside rest⟩
    | notWritable => exact ⟨_,(gives_notReady early).fail _⟩
    | writeFailed errno =>
      have gives : Gives writing fd buf.length deadline epollFd (.ready turn.now fd epollout (.failed errno)) pos ⟨buf,sent⟩ _
          pos ⟨buf,sent⟩ [] := gives_failed early (by decide) errno
      dsimp only
      split at gives
      · rename_i retried
        rw [if_pos retried]
        exact ⟨again,gives.retry inside rest⟩
      · rename_i other
        rw [if_neg other]
        exact ⟨_,gives.fail _⟩
    | took n =>
      have gives := gives_took early small inside fd epollFd sent n
      dsimp only
      by_cases none : n = 0
      · subst none
        exact ⟨_,gives.fail _⟩
      rw [if_neg none] at gives ⊢
      by_cases all : (buf.drop pos).length ≤ n
      · rw [if_pos all,List.take_of_length_le all] at gives
        rw [if_pos all]
        exact ⟨_,gives.success _⟩
      · have some : ((buf.drop pos).take n).length = n := List.length_take_of_le (Nat.le_of_not_le all)
        have less : pos + n < buf.length := by
          rw [List.length_drop] at all
          omega
        rw [if_neg all,some] at gives
        rw [if_neg all,List.drop_drop]
        obtain ⟨s',later⟩ := ih (sent ++ (buf.drop pos).take n) less
        exact ⟨s',gives.retry less later⟩

/-- Each write of the model of requests, its deadline below 64 bits, is one of these. -/
theorem cfSocketWriteTimeoutCalls_writes (fd : Int) (buf : List UInt8) (small : buf.length < 2 ^ 31)
    (transDeadline attemptMs : Nat) (attempt : WriteAttempt) (sum : attemptMs + attempt.began < 2 ^ 64) :
    ∃ r, cfSocketWriteTimeoutCalls (setupAnswers attempt.setup attempt.began) fd buf.length transDeadline attemptMs
        (attempt.turns.map (writeAnswers fd) ++
          [.noEvents (attemptDeadline attempt.began transDeadline attemptMs + 1) fd]) ⟨buf,[]⟩ = some r ∧
      r.rv = some (cfSocketWriteTimeout buf transDeadline attemptMs attempt).rv ∧
      transferred r.calls = (cfSocketWriteTimeout buf transDeadline attemptMs attempt).sent := by
  rw [cfSocketWriteTimeout,cfSocketWriteTimeoutCalls]
  split
  · rename_i empty
    exact ⟨_,if_pos empty,rfl,rfl⟩
  · rename_i wanted
    obtain ⟨before,none,run⟩ := socketTransfer_setup writing attempt.setup fd (Nat.pos_of_ne_zero wanted) transDeadline sum
      (attempt.turns.map (writeAnswers fd) ++ [.noEvents (attemptDeadline attempt.began transDeadline attemptMs + 1) fd])
      ⟨buf,[]⟩
    rw [run]
    cases attempt.setup with
    | some errno => exact ⟨_,rfl,rfl,none⟩
    | none =>
      obtain ⟨s',runs⟩ := writeScript_runs fd 1 (attemptDeadline attempt.began transDeadline attemptMs) attempt.turns buf []
        small (Nat.pos_of_ne_zero wanted)
      obtain ⟨calls,done,moved⟩ := runs before
      rw [List.drop_zero] at done moved
      exact ⟨_,done,rfl,by rw [moved,none,List.nil_append]⟩

end Citrusleaf.SocketTransfers
