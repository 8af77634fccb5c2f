import Citrusleaf.Lib.Ledger
import Citrusleaf.SocketTransfers

/-! Reads and writes with a timeout are exact, whatever the clock and the kernel answer. One lemma
follows a turn and one follows the loop, for either direction. -/
namespace Citrusleaf.SocketTransfers
open Lib

variable {σ : Type}

/-! ### One turn -/

/-- The calls of a turn, which ask for nothing behind `bufLen`. -/
inductive TurnCall (bufLen : Nat) : SocketCall → Prop where
  | getms : TurnCall bufLen (.getms now)
  | epollWait : TurnCall bufLen (.epollWait epollFd)
  | transfer : pos + want ≤ bufLen → TurnCall bufLen (.transfer pos want bytes)

/-- `At done s` says that `done` has moved; the next bytes come behind it, up to `bufLen`. -/
def Direction.Moves (d : Direction σ) (bufLen : Nat) (At : List UInt8 → σ → Prop) : Prop :=
  ∀ done s n, At done s → done.length + n ≤ bufLen →
    ∃ bytes s', d.move s done.length n = some (bytes,s') ∧ bytes.length ≤ n ∧ At (done ++ bytes) s'

/-- How a turn may end at `pos`. -/
inductive EndOk (bufLen deadline : Nat) (turn : SocketTurn) (pos : Nat) (calls : List SocketCall) : TurnEnd → Prop where
  | retry : pos < bufLen → turn.now ≤ deadline → EndOk bufLen deadline turn pos calls .retry
  | success : pos = bufLen → EndOk bufLen deadline turn pos calls .success
  | fail {rv : Nat} : pos < bufLen → rv ≠ 0 →
      (rv = etimedout → deadline < turn.now ∧ .getms turn.now ∈ calls ∨ turn.wait = .failed etimedout) →
      EndOk bufLen deadline turn pos calls (.fail rv)

structure TurnOk (At : List UInt8 → σ → Prop) (bufLen deadline : Nat) (turn : SocketTurn) (done : List UInt8)
    (step : TurnStep σ) : Prop where
  calls : ∀ call ∈ step.calls, TurnCall bufLen call
  held : At (done ++ transferred step.calls) step.s
  pos : step.pos = (done ++ transferred step.calls).length
  ends : EndOk bufLen deadline turn step.pos step.calls step.ends

variable {d : Direction σ} {At : List UInt8 → σ → Prop} {bufLen deadline : Nat} {fd epollFd : Int} {turn : SocketTurn}
  {done : List UInt8} {s : σ}

theorem EndOk.errno (errno : Errno) (room : pos < bufLen) (other : errno = etimedout → turn.wait = .failed etimedout) :
    EndOk bufLen deadline turn pos calls (.fail errno) :=
  .fail room (Nat.pos_iff_ne_zero.mp errno.2) fun same => .inr (other (Subtype.ext same))

/-- Calls that move nothing leave all as it was. -/
theorem TurnOk.still (held : At done s) (calls : ∀ call ∈ called, TurnCall bufLen call)
    (nothing : transferred called = []) (ends : EndOk bufLen deadline turn done.length called e) :
    TurnOk At bufLen deadline turn done ⟨e,done.length,s,called⟩ :=
  ⟨calls,by rwa [nothing,List.append_nil],by rw [nothing,List.append_nil],ends⟩

theorem transferTurn_ok (moves : d.Moves bufLen At) (small : bufLen < 2 ^ 31) (held : At done s)
    (room : done.length < bufLen) (early : turn.now ≤ deadline) (calls : ∀ call ∈ called, TurnCall bufLen call)
    (nothing : transferred called = []) :
    ∃ step, transferTurn d bufLen turn done.length s called = some step ∧ TurnOk At bufLen deadline turn done step := by
  have inside (bytes : List UInt8) : ∀ call ∈ called ++ [.transfer done.length (bufLen - done.length) bytes],
      TurnCall bufLen call := by
    refine List.forall_mem_append.mpr ⟨calls,?_⟩
    rw [List.forall_mem_singleton]
    exact .transfer (by omega)
  have moved (bytes : List UInt8) :
      transferred (called ++ [.transfer done.length (bufLen - done.length) bytes]) = bytes := by
    rw [transferred_append,nothing]
    exact List.append_nil bytes
  cases given : turn.io with
  | failed errno =>
    rw [transferTurn_failed given]
    refine ⟨_,rfl,?_⟩
    split
    · exact .still held (inside []) (moved []) (.retry room early)
    · rename_i again
      refine .still held (inside []) (moved []) (.errno errno room fun same => ?_)
      rw [same] at again
      exact absurd rfl again
  | gave n =>
    obtain ⟨bytes,s',move,most,after⟩ := moves done s (min n (bufLen - done.length)) held (by omega)
    rw [transferTurn_gave given move (by omega)]
    refine ⟨_,rfl,?_⟩
    split
    · rename_i none
      obtain rfl := List.eq_nil_of_length_eq_zero none
      rw [List.append_nil] at after
      exact .still after (inside []) (moved []) (.errno ebadf room fun same => absurd same (by decide))
    · have length : done.length + bytes.length = (done ++ transferred (called ++
          [.transfer done.length (bufLen - done.length) bytes])).length := by rw [moved,List.length_append]
      split
      · exact ⟨inside bytes,by rwa [moved],length,.success (show done.length + bytes.length = bufLen by omega)⟩
      · exact ⟨inside bytes,by rwa [moved],length,.retry (show done.length + bytes.length < bufLen by omega) early⟩

theorem socketTurn_ok (moves : d.Moves bufLen At) (small : bufLen < 2 ^ 31) (held : At done s) (room : done.length < bufLen)
    (fd : Int) (deadline : Nat) (epollFd : Int) (turn : SocketTurn) :
    ∃ step, socketTurn d fd bufLen deadline epollFd turn done.length s = some step ∧
      TurnOk At bufLen deadline turn done step := by
  rw [socketTurn]
  split
  · rename_i late
    have clock : ∀ call ∈ [SocketCall.getms turn.now], TurnCall bufLen call := List.forall_mem_singleton.mpr .getms
    exact ⟨_,rfl,.still held clock rfl (.fail room (by decide) fun _ => .inl ⟨late,List.mem_cons_self⟩)⟩
  · rename_i late
    have early : turn.now ≤ deadline := Nat.not_lt.mp late
    have called : ∀ call ∈ [SocketCall.getms turn.now,.epollWait epollFd], TurnCall bufLen call :=
      List.forall_mem_cons.mpr ⟨.getms,List.forall_mem_singleton.mpr .epollWait⟩
    cases waited : turn.wait with
    | failed errno =>
      refine ⟨_,rfl,.still held called rfl ?_⟩
      split
      · exact .retry room early
      · exact .errno errno room fun same => same ▸ waited
    | gave nevents =>
      dsimp only
      split
      · exact ⟨_,rfl,.still held called rfl (.retry room early)⟩
      split
      · split
        · exact transferTurn_ok moves small held room early called rfl
        · exact ⟨_,rfl,.still held called rfl (.errno ebadf room fun same => absurd same (by decide))⟩
      · exact ⟨_,rfl,.still held called rfl (.retry room early)⟩

/-! ### All turns -/

/-- What is called in the loop, behind the calls before it and up to the label where it ends. -/
structure TurnsOk (At : List UInt8 → σ → Prop) (bufLen deadline : Nat) (fd epollFd : Int) (turns : List SocketTurn)
    (done : List UInt8) (before later : List SocketCall) (r : SocketEnd σ) : Prop where
  calls : r.calls = before ++ later ++ if r.rv.isSome then [.epollDel epollFd fd,.close epollFd] else []
  each : ∀ call ∈ later, TurnCall bufLen call
  held : At (done ++ transferred later) r.s
  most : (done ++ transferred later).length ≤ bufLen
  full : r.rv = some 0 ↔ (done ++ transferred later).length = bufLen
  late : r.rv = some ↑etimedout → (∃ turn ∈ turns, turn.wait = .failed etimedout) ∨
    ∃ now, .getms now ∈ later ∧ deadline < now
  returns : (∃ turn ∈ turns, deadline < turn.now) → r.rv ≠ none

theorem TurnOk.stop (ok : TurnOk At bufLen deadline turn done step) (before : List SocketCall) (rv : Nat)
    (most : step.pos ≤ bufLen) (full : rv = 0 ↔ step.pos = bufLen)
    (late : rv = etimedout → deadline < turn.now ∧ .getms turn.now ∈ step.calls ∨ turn.wait = .failed etimedout) :
    TurnsOk At bufLen deadline fd epollFd (turn :: turns) done before step.calls
      ⟨some rv,step.s,before ++ step.calls ++ [.epollDel epollFd fd,.close epollFd]⟩ where
  calls := rfl
  each := ok.calls
  held := ok.held
  most := ok.pos ▸ most
  full := by rw [← ok.pos,← full,Option.some.injEq]
  late same := by
    rcases late (Option.some.inj same) with ⟨passed,asked⟩ | failed
    · exact .inr ⟨_,asked,passed⟩
    · exact .inl ⟨turn,List.mem_cons_self,failed⟩
  returns _ := Option.some_ne_none rv

theorem TurnsOk.cons (ok : TurnOk At bufLen deadline turn done step) (early : turn.now ≤ deadline)
    (rest : TurnsOk At bufLen deadline fd epollFd turns (done ++ transferred step.calls) (before ++ step.calls) later r) :
    TurnsOk At bufLen deadline fd epollFd (turn :: turns) done before (step.calls ++ later) r where
  calls := by rw [rest.calls,List.append_assoc before]
  each := List.forall_mem_append.mpr ⟨ok.calls,rest.each⟩
  held := by
    rw [transferred_append,← List.append_assoc]
    exact rest.held
  most := by
    rw [transferred_append,← List.append_assoc]
    exact rest.most
  full := by
    rw [transferred_append,← List.append_assoc]
    exact rest.full
  late same := by
    rcases rest.late same with ⟨turn,member,failed⟩ | ⟨now,asked,passed⟩
    · exact .inl ⟨turn,List.mem_cons_of_mem _ member,failed⟩
    · exact .inr ⟨now,List.mem_append_right _ asked,passed⟩
  returns := by
    rintro ⟨passes,member,passed⟩
    rcases List.mem_cons.mp member with rfl | later
    · exact absurd passed (Nat.not_lt.mpr early)
    · exact rest.returns ⟨passes,later,passed⟩

theorem socketTurns_ok (moves : d.Moves bufLen At) (small : bufLen < 2 ^ 31) (created : 0 < epollFd)
    (turns : List SocketTurn) (held : At done s) (room : done.length < bufLen) (before : List SocketCall) :
    ∃ r later, socketTurns d fd bufLen deadline epollFd turns done.length s before = some r ∧
      TurnsOk At bufLen deadline fd epollFd turns done before later r := by
  induction turns generalizing done s before with
  | nil =>
    refine ⟨_,[],rfl,⟨by simp,List.forall_mem_nil _,?_,?_,?_,fun same => absurd same.symm (Option.some_ne_none _),?_⟩⟩
    · rwa [transferred,List.flatMap_nil,List.append_nil]
    · rw [transferred,List.flatMap_nil,List.append_nil]
      omega
    · refine iff_of_false (Option.some_ne_none 0).symm fun full => ?_
      rw [transferred,List.flatMap_nil,List.append_nil] at full
      omega
    · rintro ⟨_,member,_⟩
      cases member
  | cons turn turns ih =>
    obtain ⟨step,taken,ok⟩ := socketTurn_ok moves small held room fd deadline epollFd turn
    rw [socketTurns]
    simp only [taken,Option.bind_eq_bind,Option.bind_some,Option.pure_def]
    have ends := ok.ends
    cases is : step.ends with
    | retry =>
      rw [is] at ends
      cases ends with
      | retry more early =>
        have rest := ih ok.held (ok.pos ▸ more) (before ++ step.calls)
        rw [← ok.pos] at rest
        obtain ⟨r,later,run,goes⟩ := rest
        exact ⟨r,_,(if_pos more).trans run,goes.cons ok early⟩
    | success =>
      rw [is] at ends
      cases ends with
      | success all => exact ⟨_,_,rfl,ok.stop before 0 all.le (iff_of_true rfl all) fun same => absurd same (by decide)⟩
    | fail rv =>
      rw [is] at ends
      cases ends with
      | fail less error late =>
        refine ⟨_,step.calls,rfl,?_⟩
        rw [socketFail_created created]
        exact ok.stop before rv less.le (iff_of_false error less.ne) late

/-! ### Exact transfers -/

/-- The descriptors that `epoll_create` gave. -/
def descriptors : Ledger SocketCall Int where
  takes
    | .epollCreate epollFd => if epollFd < 0 then none else some epollFd
    | _ => none
  gives
    | .close epollFd => some epollFd
    | _ => none

/-- What a call comes to: zero exactly for all bytes, which are the next of the source; no byte that
was not asked for; a timeout of the call's own only behind the deadline; and the descriptor
given back once. -/
structure Exact (bufLen deadline : Nat) (setup : SocketSetup) (turns : List SocketTurn) (source : List UInt8)
    (r : SocketEnd σ) : Prop where
  full : r.rv = some 0 ↔ (transferred r.calls).length = bufLen
  inOrder : transferred r.calls <+: source
  inside : ∀ pos want bytes, .transfer pos want bytes ∈ r.calls → pos + want ≤ bufLen
  late : setup.epollCreate ≠ .failed etimedout → setup.epollAdd ≠ .failed etimedout →
    (∀ turn ∈ turns, turn.wait ≠ .failed etimedout) → r.rv = some ↑etimedout →
    ∃ now, .getms now ∈ r.calls ∧ deadline < now
  closed : r.rv ≠ none → descriptors.Balanced r.calls
  once : r.rv ≠ none → ∀ epollFd, 0 ≤ epollFd → .epollCreate epollFd ∈ r.calls → r.calls.count (.close epollFd) = 1
  returns : (∃ turn ∈ turns, deadline < turn.now) → r.rv ≠ none

/-- A call before the loop, and an `epoll_create` that fails. -/
inductive EarlyCall : SocketCall → Prop where
  | getFlags {fd : Int} : EarlyCall (.getFlags fd)
  | setFlags {fd : Int} : EarlyCall (.setFlags fd flags)
  | getms : EarlyCall (.getms now)
  | noEpoll : EarlyCall (.epollCreate (-1))

/-- A call that neither gives a descriptor nor takes it back. -/
def SocketCall.Quiet (call : SocketCall) : Prop := descriptors.takes call = none ∧ descriptors.gives call = none

theorem EarlyCall.quiet {call : SocketCall} (early : EarlyCall call) : call.Quiet := by
  cases early <;> exact ⟨rfl,rfl⟩

theorem TurnCall.quiet {call : SocketCall} (turn : TurnCall bufLen call) : call.Quiet := by
  cases turn <;> exact ⟨rfl,rfl⟩

theorem quiet_close {calls : List SocketCall} (quiet : ∀ call ∈ calls, call.Quiet) (epollFd : Int) :
    .close epollFd ∉ calls := by
  intro member
  cases (quiet _ member).2

theorem quiet_create {calls : List SocketCall} (quiet : ∀ call ∈ calls, call.Quiet) (created : 0 ≤ epollFd) :
    .epollCreate epollFd ∉ calls := by
  intro member
  have takes : descriptors.takes (.epollCreate epollFd) = some epollFd := if_neg (Int.not_lt.mpr created)
  rw [(quiet _ member).1] at takes
  cases takes

theorem transferred_early {calls : List SocketCall} (early : ∀ call ∈ calls, EarlyCall call) : transferred calls = [] := by
  refine List.flatMap_eq_nil_iff.mpr fun call member => ?_
  cases early call member <;> rfl

theorem early_transfer {calls : List SocketCall} (early : ∀ call ∈ calls, EarlyCall call) :
    .transfer pos want bytes ∉ calls := by
  intro member
  cases early _ member

/-- A call that ends without a descriptor. -/
theorem Exact.unopened {setup : SocketSetup} {turns : List SocketTurn} {source : List UInt8} {calls : List SocketCall}
    (errno : Errno) (positive : 0 < bufLen) (early : ∀ call ∈ calls, EarlyCall call)
    (cause : errno = etimedout → setup.epollCreate = .failed etimedout) :
    Exact bufLen deadline setup turns source (⟨some errno,s,calls⟩ : SocketEnd σ) where
  full := by
    refine iff_of_false (fun zero => absurd (Option.some.inj zero) (Nat.pos_iff_ne_zero.mp errno.2)) fun all => ?_
    rw [transferred_early early] at all
    exact absurd all (Nat.ne_of_lt positive)
  inOrder := by
    rw [transferred_early early]
    exact List.nil_prefix
  inside _ _ _ asked := absurd asked (early_transfer early)
  late create _ _ same := absurd (cause (Subtype.ext (Option.some.inj same))) create
  closed _ := Ledger.settle_neutral fun call member => (early call member).quiet
  once _ _ created member := absurd member (quiet_create (fun call member => (early call member).quiet) created)
  returns _ := Option.some_ne_none _

theorem transferred_opened {first : List SocketCall} (early : ∀ call ∈ first, EarlyCall call) (fd epollFd : Int)
    (later : List SocketCall) (returned : Bool) :
    transferred (first ++ [.epollCreate epollFd,.epollAdd epollFd fd] ++ later ++
      if returned then [.epollDel epollFd fd,.close epollFd] else []) = transferred later := by
  simp only [transferred_append,transferred_early early]
  split <;> simp [transferred,SocketCall.bytes]

/-- A call that got a descriptor. -/
theorem Exact.opened {setup : SocketSetup} {turns : List SocketTurn} {source : List UInt8} {r : SocketEnd σ}
    {first later : List SocketCall} (early : ∀ call ∈ first, EarlyCall call) (created : 0 < epollFd)
    (each : ∀ call ∈ later, TurnCall bufLen call)
    (calls : r.calls = first ++ [.epollCreate epollFd,.epollAdd epollFd fd] ++ later ++
      if r.rv.isSome then [.epollDel epollFd fd,.close epollFd] else [])
    (order : transferred later <+: source) (full : r.rv = some 0 ↔ (transferred later).length = bufLen)
    (late : r.rv = some ↑etimedout → setup.epollAdd = .failed etimedout ∨
      (∃ turn ∈ turns, turn.wait = .failed etimedout) ∨ ∃ now, .getms now ∈ later ∧ deadline < now)
    (returns : (∃ turn ∈ turns, deadline < turn.now) → r.rv ≠ none) : Exact bufLen deadline setup turns source r := by
  have moved : transferred r.calls = transferred later := by rw [calls,transferred_opened early]
  have quietFirst (call : SocketCall) (member : call ∈ first) : call.Quiet := (early call member).quiet
  have quietLater (call : SocketCall) (member : call ∈ later) : call.Quiet := (each call member).quiet
  refine ⟨by rwa [moved],by rwa [moved],?_,?_,fun returned => ?_,fun returned other positive member => ?_,returns⟩
  · intro pos want bytes asked
    have inside : .transfer pos want bytes ∈ later := by
      rw [calls] at asked
      split at asked <;> simpa [early_transfer early] using asked
    cases each _ inside with
    | transfer fits => exact fits
  · intro create add wait same
    rcases late same with failed | ⟨turn,member,failed⟩ | ⟨now,asked,passed⟩
    · exact absurd failed add
    · exact absurd failed (wait turn member)
    · refine ⟨now,?_,passed⟩
      rw [calls]
      simp [asked]
  · rw [calls,if_pos (Option.isSome_iff_ne_none.mpr returned),Ledger.Balanced,Ledger.settle_append,Ledger.settle_append,
      Ledger.settle_append,Ledger.settle_neutral quietFirst,Option.bind_some]
    have held : descriptors.settle [] [.epollCreate epollFd,.epollAdd epollFd fd] = some [epollFd] := by
      simp [Ledger.settle,descriptors,Int.not_lt.mpr created.le]
    rw [held,Option.bind_some,Ledger.settle_neutral quietLater,Option.bind_some]
    simp [Ledger.settle,descriptors]
  · rw [calls,if_pos (Option.isSome_iff_ne_none.mpr returned)] at member ⊢
    obtain rfl : other = epollFd := by
      simpa [quiet_create quietFirst positive,quiet_create quietLater positive] using member
    simp [List.count_append,List.count_eq_zero.mpr (quiet_close quietFirst other),
      List.count_eq_zero.mpr (quiet_close quietLater other)]

/-- The calls of `fcntl`. -/
theorem flags_early (setup : SocketSetup) (fd : Int) :
    ∀ call ∈ SocketCall.getFlags fd :: if setup.flags &&& oNonblock = 0 then [.setFlags fd (setup.flags ||| oNonblock)] else [],
      EarlyCall call := by
  refine List.forall_mem_cons.mpr ⟨.getFlags,?_⟩
  split
  · exact List.forall_mem_singleton.mpr .setFlags
  · exact List.forall_mem_nil _

theorem clocks_early {calls : List SocketCall} (early : ∀ call ∈ calls, EarlyCall call) (began start : Nat) :
    ∀ call ∈ calls ++ [.getms began,.getms start], EarlyCall call :=
  List.forall_mem_append.mpr ⟨early,List.forall_mem_cons.mpr ⟨.getms,List.forall_mem_singleton.mpr .getms⟩⟩

theorem socketTransfer_exact (moves : d.Moves bufLen At) (small : bufLen < 2 ^ 31) (held : At [] s) (setup : SocketSetup)
    (created : ∀ epollFd, setup.epollCreate = .gave epollFd → 0 < epollFd) (fd : Int) (transDeadline attemptMs : Nat)
    (turns : List SocketTurn) (source : List UInt8) (order : ∀ done s, At done s → done <+: source) :
    ∃ r, socketTransfer d setup fd bufLen transDeadline attemptMs turns s = some r ∧ At (transferred r.calls) r.s ∧
      Exact bufLen (socketDeadline setup.began transDeadline attemptMs) setup turns source r := by
  have stays {calls : List SocketCall} (early : ∀ call ∈ calls, EarlyCall call) : At (transferred calls) s := by
    rwa [transferred_early early]
  have flags := flags_early setup fd
  have clocks := clocks_early flags setup.began setup.start
  rw [socketTransfer]
  split
  · rename_i empty
    subst empty
    have less : ¬some 0 = some (etimedout : Nat) := by decide
    exact ⟨_,rfl,held,iff_of_true rfl rfl,List.nil_prefix,fun _ _ _ asked => absurd asked List.not_mem_nil,
      fun _ _ _ same => absurd same less,fun _ => rfl,fun _ _ _ member => absurd member List.not_mem_nil,
      fun _ => Option.some_ne_none 0⟩
  · rename_i wanted
    have positive : 0 < bufLen := Nat.pos_of_ne_zero wanted
    dsimp only
    split
    · exact ⟨_,rfl,stays flags,.unopened enoent positive flags fun same => absurd same (by decide)⟩
    cases create : setup.epollCreate with
    | failed errno =>
      have early := List.forall_mem_append.mpr ⟨clocks,List.forall_mem_singleton.mpr .noEpoll⟩
      have none (calls : List SocketCall) : socketFail fd (-1) errno s calls = ⟨some errno,s,calls⟩ := by
        rw [socketFail,if_neg (by decide),List.append_nil]
      dsimp only
      rw [none]
      exact ⟨_,rfl,stays early,.unopened errno positive early fun same => same ▸ create⟩
    | gave epollFd =>
      have above : (0 : Int) < epollFd := Int.ofNat_lt.mpr (created epollFd create)
      cases add : setup.epollAdd with
      | failed errno =>
        have each : ∀ call ∈ ([] : List SocketCall), TurnCall bufLen call := List.forall_mem_nil _
        have less : ¬some (errno : Nat) = some 0 := fun zero =>
          absurd (Option.some.inj zero) (Nat.pos_iff_ne_zero.mp errno.2)
        dsimp only
        rw [socketFail_created above]
        refine ⟨_,rfl,?_,.opened clocks above each (by rw [List.append_nil]; rfl) List.nil_prefix
          (iff_of_false less (Nat.ne_of_lt positive)) (fun same => .inl ?_) fun _ => Option.some_ne_none _⟩
        · have moved := transferred_opened clocks fd epollFd [] true
          rw [List.append_nil,if_pos rfl] at moved
          rwa [moved]
        · rw [add,Subtype.ext (Option.some.inj same)]
      | gave _ =>
        obtain ⟨r,later,run,ok⟩ := socketTurns_ok moves small above turns held positive _
        refine ⟨r,run,?_,.opened clocks above ok.each ok.calls (order _ _ ok.held) ok.full (fun same => .inr (ok.late same))
          ok.returns⟩
        rw [ok.calls,transferred_opened clocks]
        exact ok.held

/-! ### Reads and writes -/

/-- The buffer holds what was read in front of what it held, and the rest is still to come. -/
structure ReadTo (buf stream done : List UInt8) (s : ReadState) : Prop where
  buf : s.buf = done ++ buf.drop done.length
  stream : done ++ s.stream = stream

theorem reading_moves {buf : List UInt8} (room : bufLen ≤ buf.length) (stream : List UInt8) :
    reading.Moves bufLen (ReadTo buf stream) := by
  rintro done ⟨old,rest⟩ n ⟨same,parts⟩ fits
  dsimp only at same parts
  subst same
  have most : (rest.take n).length ≤ n := List.length_take_le _ _
  have behind : (rest.take n).length ≤ (buf.drop done.length).length := by
    rw [List.length_drop]
    omega
  have written := writeBytes_behind done (buf.drop done.length) (rest.take n) behind
  refine ⟨rest.take n,_,congrArg (Option.map _) written,most,?_,?_⟩
  · rw [List.drop_drop,List.append_assoc,List.length_append]
  · have front : rest.take n ++ rest.drop (rest.take n).length = rest :=
      List.prefix_iff_eq_append.mp (List.take_prefix _ _)
    rw [List.append_assoc,front,parts]

/-- The buffer is as it was, and its front went out. -/
structure Written (buf done : List UInt8) (s : WriteState) : Prop where
  same : s = ⟨buf,done⟩
  front : done <+: buf

theorem writing_moves {buf : List UInt8} (room : bufLen ≤ buf.length) : writing.Moves bufLen (Written buf) := by
  rintro done s n ⟨rfl,rest,rfl⟩ fits
  rw [List.length_append] at room
  have inside : done.length + n ≤ (done ++ rest).length := by
    rw [List.length_append]
    omega
  have read : readBytes (done ++ rest) done.length n = some (rest.take n) := by
    rw [readBytes,if_pos inside,List.drop_left]
  exact ⟨rest.take n,_,congrArg (Option.map _) read,List.length_take_le _ _,rfl,
    (List.prefix_append_right_inj done).mpr (List.take_prefix n rest)⟩

theorem Exact.next {setup : SocketSetup} {turns : List SocketTurn} {source : List UInt8} {r : SocketEnd σ}
    (exact : Exact bufLen deadline setup turns source r) (done : r.rv = some 0) :
    transferred r.calls = source.take bufLen := by
  rw [List.prefix_iff_eq_take.mp exact.inOrder,exact.full.mp done]

/-- The clock has passed the lesser deadline when it has passed one of the two. -/
theorem socketDeadline_lt (began transDeadline attemptMs now : Nat) :
    socketDeadline began transDeadline attemptMs < now ↔
      transDeadline ≠ 0 ∧ transDeadline < now ∨ (attemptMs + began) % 2 ^ 64 < now := by
  rw [socketDeadline]
  split <;> omega

/-- Reads and writes with a timeout are exact: a read puts the next bytes of the stream in the
buffer, and a write sends the next of the buffer. -/
theorem timed_transfers_exact (setup : SocketSetup)
    (created : ∀ epollFd, setup.epollCreate = .gave epollFd → 0 < epollFd) (fd : Int) (transDeadline attemptMs : Nat)
    (turns : List SocketTurn) (bufLen : Nat) (small : bufLen < 2 ^ 31) (buf : List UInt8) (room : bufLen ≤ buf.length)
    (stream : List UInt8) :
    (∃ r, cfSocketReadTimeoutCalls setup fd bufLen transDeadline attemptMs turns ⟨buf,stream⟩ = some r ∧
      r.s.buf = transferred r.calls ++ buf.drop (transferred r.calls).length ∧
      transferred r.calls ++ r.s.stream = stream ∧
      (r.rv = some 0 → transferred r.calls = stream.take bufLen) ∧
      Exact bufLen (socketDeadline setup.began transDeadline attemptMs) setup turns stream r) ∧
    ∃ r, cfSocketWriteTimeoutCalls setup fd bufLen transDeadline attemptMs turns ⟨buf,[]⟩ = some r ∧
      r.s = ⟨buf,transferred r.calls⟩ ∧
      (r.rv = some 0 → transferred r.calls = buf.take bufLen) ∧
      Exact bufLen (socketDeadline setup.began transDeadline attemptMs) setup turns buf r := by
  constructor
  · have order (done : List UInt8) (s : ReadState) (read : ReadTo buf stream done s) : done <+: stream := ⟨_,read.stream⟩
    have start : ReadTo buf stream [] ⟨buf,stream⟩ := ⟨rfl,rfl⟩
    obtain ⟨r,run,read,exact⟩ := socketTransfer_exact (reading_moves room stream) small start setup created fd
      transDeadline attemptMs turns stream order
    exact ⟨r,run,read.buf,read.stream,exact.next,exact⟩
  · obtain ⟨r,run,written,exact⟩ := socketTransfer_exact (writing_moves room) small ⟨rfl,List.nil_prefix⟩ setup created fd
      transDeadline attemptMs turns buf fun _ _ written => written.front
    exact ⟨r,run,written.same,exact.next,exact⟩

/-- Three bytes in two parts, between them a wait that is interrupted and a call that would block. -/
theorem timed_transfers_exact_three :
    let setup : SocketSetup := ⟨.gave 2,.gave 0,1000,1000,.gave 5,.gave 0⟩
    let turns (events : UInt32) : List SocketTurn :=
      [⟨1001,.gave 1,7,events,.gave 2,0⟩,⟨1002,.failed eintr,0,0,.gave 0,0⟩,⟨1003,.gave 1,7,events,.failed eagain,0⟩,
        ⟨1003,.gave 1,7,events,.gave 9,0⟩]
    (∃ r, cfSocketReadTimeoutCalls setup 7 3 0 50 (turns epollin) ⟨[0,0,0,0],[1,2,3,4]⟩ = some r ∧
      r.s.buf = [1,2,3,0] ∧ r.calls.count (.close 5) = 1) ∧
    ∃ r, cfSocketWriteTimeoutCalls setup 7 3 0 50 (turns epollout) ⟨[1,2,3],[]⟩ = some r ∧ r.s = ⟨[1,2,3],[1,2,3]⟩ := by
  intro setup turns
  have created (epollFd : Nat) (gave : setup.epollCreate = .gave epollFd) : 0 < epollFd :=
    SysReturn.gave.inj gave ▸ (by decide)
  obtain ⟨⟨r,read,buf,_,bytes,exact⟩,_⟩ := timed_transfers_exact setup created 7 0 50 (turns epollin) 3 (by decide)
    [0,0,0,0] (by decide) [1,2,3,4]
  obtain ⟨_,⟨w,wrote,state,out,_⟩⟩ := timed_transfers_exact setup created 7 0 50 (turns epollout) 3 (by decide)
    [1,2,3] (by decide) []
  have full : (cfSocketReadTimeoutCalls setup 7 3 0 50 (turns epollin) ⟨[0,0,0,0],[1,2,3,4]⟩).map SocketEnd.rv =
      some (some 0) := by decide
  have opened : (cfSocketReadTimeoutCalls setup 7 3 0 50 (turns epollin) ⟨[0,0,0,0],[1,2,3,4]⟩).map
      (fun r => decide (.epollCreate 5 ∈ r.calls)) = some true := by decide
  have sent : (cfSocketWriteTimeoutCalls setup 7 3 0 50 (turns epollout) ⟨[1,2,3],[]⟩).map SocketEnd.rv =
      some (some 0) := by decide
  rw [read] at full opened
  rw [wrote] at sent
  have returned : r.rv = some 0 := Option.some.inj full
  have created : .epollCreate 5 ∈ r.calls := of_decide_eq_true (Option.some.inj opened)
  refine ⟨⟨r,read,?_,exact.once (returned ▸ Option.some_ne_none 0) 5 (by decide) created⟩,w,wrote,?_⟩
  · rw [buf,bytes returned]
    rfl
  · rw [state,out (Option.some.inj sent)]
    rfl

end Citrusleaf.SocketTransfers
