import Citrusleaf.Lib.Runs
import Citrusleaf.AsyncReceive

/-! The turns of one receiver thread: how each work item ends, and what becomes of the buffers
for bodies. -/
namespace Citrusleaf
open Lib

/-! ### What a turn did -/

namespace ReceiverEffect

def given : ReceiverEffect → Option Nat
  | malloc id => some id
  | _ => none

def freed : ReceiverEffect → Option Nat
  | free id => some id
  | _ => none

def bodyInto : ReceiverEffect → Option RdBuf
  | readBody rdBuf => some rdBuf
  | _ => none

/-- What ends the visit of a work item. -/
def ends : ReceiverEffect → Bool
  | putBack | failCb .. | successCb .. | nodePut .. | poolPut | freeWork => true
  | _ => false

end ReceiverEffect

open ReceiverEffect

/-- The work item is put back, or one of the callbacks is called, the node is released and the
item goes to the free pool. -/
inductive Ended (work : AsyncWork) : List ReceiverEffect → Prop where
  | putBack : Ended work [.putBack]
  | failed (rv : Int) : Ended work [.failCb work.udata rv work.starttime,.nodePut work.node,.poolPut]
  | succeeded (rv : Option Int) : Ended work [.successCb work.udata rv work.starttime,.nodePut work.node,.poolPut]

/-- Each body is read into the stack buffer, or into a block of the same turn. -/
def BodiesInside (effects : List ReceiverEffect) : Prop :=
  ∀ rdBuf ∈ effects.filterMap bodyInto, rdBuf = .stack ∨ ∃ id ∈ effects.filterMap given, rdBuf = .block id

/-- A work item that a thread has popped, with what comes on its connection. -/
structure ReceiverVisit where
  work : AsyncWork
  stream : List UInt8
  world : ReceiverWorld

/-- `rd_buf`, the number of blocks so far, and what each turn did. -/
structure ReceiverThread where
  rdBuf : RdBuf
  blocks : Nat
  turns : List (AsyncWork × List ReceiverEffect)

namespace ReceiverThread

def start : ReceiverThread := ⟨.stack,0,[]⟩

def visited (s : ReceiverThread) (visit : ReceiverVisit) : AsyncTurn :=
  asyncReceive visit.work visit.stream visit.world s.rdBuf s.blocks

def step (s : ReceiverThread) (visit : ReceiverVisit) : ReceiverThread :=
  let visited := s.visited visit
  ⟨visited.rdBuf,s.blocks + (visited.effects.filterMap given).length,s.turns ++ [(visit.work,visited.effects)]⟩

/-- All effects so far. -/
def log (s : ReceiverThread) : List ReceiverEffect := s.turns.flatMap Prod.snd

/-- Each work item has ended once, each body went to a buffer of its own turn, and each such
buffer was freed once. -/
structure Accounted (s : ReceiverThread) : Prop where
  ended : ∀ turn ∈ s.turns, Ended turn.1 (turn.2.filter ends)
  inside : ∀ turn ∈ s.turns, BodiesInside turn.2
  freed : ∀ id ∈ s.log.filterMap given, (s.log.filterMap freed).count id = 1

end ReceiverThread

/-! ### One turn -/

/-- The block behind a pointer. -/
def RdBuf.id : RdBuf → Option Nat
  | block id => some id
  | _ => none

variable {work : AsyncWork} {world : ReceiverWorld} {fd : Option Nat} {rdBuf : RdBuf} {rv : Int} {result : Option Int}

@[simp] theorem freeRdBuf_freed (rdBuf : RdBuf) : (freeRdBuf rdBuf).filterMap freed = rdBuf.id.toList := by
  cases rdBuf <;> rfl

@[simp] theorem freeRdBuf_given (rdBuf : RdBuf) : (freeRdBuf rdBuf).filterMap given = [] := by cases rdBuf <;> rfl

@[simp] theorem freeRdBuf_bodyInto (rdBuf : RdBuf) : (freeRdBuf rdBuf).filterMap bodyInto = [] := by cases rdBuf <;> rfl

@[simp] theorem freeRdBuf_ends (rdBuf : RdBuf) : (freeRdBuf rdBuf).filter ends = [] := by cases rdBuf <;> rfl

/-- What the end of a turn frees, and that it does not allocate or read. -/
structure Finishes (rdBuf : RdBuf) (effects : List ReceiverEffect) : Prop where
  freed : effects.filterMap freed = rdBuf.id.toList
  given : effects.filterMap given = []
  bodies : effects.filterMap bodyInto = []

theorem asyncOk_finishes : Finishes rdBuf (asyncOk work world fd rdBuf rv result) := by
  rw [asyncOk]
  constructor
  all_goals split
  all_goals cases world.poolPush
  all_goals cases fd
  all_goals simp [freed,given,bodyInto,List.filterMap_cons]

theorem asyncError_finishes : Finishes rdBuf (asyncError work world rdBuf rv) := by
  obtain ⟨freed,given,bodies⟩ := @asyncOk_finishes work world none rdBuf rv none
  exact ⟨freed,given,bodies⟩

/-- With an empty buffer pointer there is no call, and where the push fails no return to the pool. -/
theorem asyncOk_ends : Ended work ((asyncOk work world fd rdBuf citrusleafOk result).filter ends) ↔
    rdBuf ≠ .null ∧ world.poolPush = true := by
  rw [asyncOk]
  constructor
  · intro ended
    split at ended
    · rename_i success
      cases pushed : world.poolPush with
      | true => exact ⟨success.1,rfl⟩
      | false =>
        rw [pushed] at ended
        cases fd
        all_goals simp [ends,List.filter_cons] at ended
        all_goals cases ended
    · cases world.poolPush
      all_goals cases fd
      all_goals simp [ends,List.filter_cons] at ended
      all_goals cases ended
  · rintro ⟨success,pushed⟩
    rw [if_pos ⟨success,rfl⟩,pushed]
    cases fd
    all_goals simpa [ends,List.filter_cons] using Ended.succeeded result

theorem asyncError_ends (nonzero : rv ≠ 0) :
    Ended work ((asyncError work world rdBuf rv).filter ends) ↔ world.poolPush = true := by
  rw [asyncError,asyncOk,if_neg fun ok => nonzero ok.2]
  constructor
  · intro ended
    by_contra dropped
    rw [if_neg dropped] at ended
    simp [ends,List.filter_cons] at ended
    cases ended
  · intro pushed
    rw [pushed]
    simpa [ends,List.filter_cons] using Ended.failed rv

/-- What a body read does besides. -/
theorem asyncBody_finishes (work : AsyncWork) (world : ReceiverWorld) (rdBuf : RdBuf) (msg stream : List UInt8) :
    ∃ effects, (asyncBody work world rdBuf msg stream).effects = .readBody rdBuf :: effects ∧ Finishes rdBuf effects := by
  rw [asyncBody]
  dsimp only
  split
  · exact ⟨_,rfl,asyncError_finishes⟩
  · exact ⟨_,rfl,asyncOk_finishes⟩

theorem asyncBody_ends (success : rdBuf ≠ .null) (msg stream : List UInt8) :
    Ended work ((asyncBody work world rdBuf msg stream).effects.filter ends) ↔ world.poolPush = true := by
  rw [asyncBody]
  dsimp only
  rw [List.filter_cons_of_neg (by simp [ends])]
  split
  · rename_i error
    exact asyncError_ends (Int.ofNat_ne_zero.mpr error)
  · exact asyncOk_ends.trans (and_iff_right success)

/-! ### When a turn is in order -/

namespace ReceiverVisit

def header (visit : ReceiverVisit) : SocketRead := readHeader visit.work visit.stream visit.world

/-- The header does not arrive in time, and there is time for another visit. -/
def PutsBack (visit : ReceiverVisit) : Prop := visit.header.rv = etimedout ∧ ¬overdue visit.work visit.world

/-- The header arrives, and its body is too large for the stack. -/
def LargeBody (visit : ReceiverVisit) : Prop := visit.header.rv = 0 ∧ stackBufSz < asyncBodySize visit.header.buf

/-- The pushes that the visit makes succeed. -/
def Pushes (visit : ReceiverVisit) : Prop :=
  (visit.PutsBack → visit.world.queuePush = true) ∧ (¬visit.PutsBack → visit.world.poolPush = true)

end ReceiverVisit

/-- The pushes succeed. Behind a block that is freed comes a large body, and where `malloc` has
failed no header is followed by any other. -/
structure ReceiverThread.Fits (s : ReceiverThread) (visit : ReceiverVisit) : Prop where
  pushes : visit.Pushes
  null : s.rdBuf = .null → visit.header.rv = 0 → visit.LargeBody
  block : ∀ id, s.rdBuf = .block id → visit.LargeBody

variable {s : ReceiverThread} {visit : ReceiverVisit}

/-- What becomes of `rd_buf` in a turn. -/
inductive Buffers (s : ReceiverThread) (visit : ReceiverVisit) : RdBuf → List Nat → Prop where
  | kept (small : ¬visit.LargeBody) : Buffers s visit s.rdBuf []
  | noMemory (large : visit.LargeBody) : Buffers s visit .null []
  | fresh (large : visit.LargeBody) : Buffers s visit (.block s.blocks) [s.blocks]

theorem visited_buffers (s : ReceiverThread) (visit : ReceiverVisit) :
    Buffers s visit (s.visited visit).rdBuf ((s.visited visit).effects.filterMap given) ∧
      (s.visited visit).effects.filterMap freed = (s.visited visit).rdBuf.id.toList := by
  have turns := asyncReceive_turns visit.work visit.stream visit.world s.rdBuf s.blocks
  rw [ReceiverThread.visited]
  generalize asyncReceive visit.work visit.stream visit.world s.rdBuf s.blocks = visited at turns
  have small : visit.header.rv ≠ 0 → ¬visit.LargeBody := fun error large => error large.1
  cases turns with
  | failed rv error notPut nonzero =>
    obtain ⟨freed,given,_⟩ := @asyncError_finishes visit.work visit.world s.rdBuf rv
    rw [given]
    exact ⟨.kept (small error),freed⟩
  | put timedOut time =>
    have error : visit.header.rv ≠ 0 := timedOut ▸ Nat.pos_iff_ne_zero.mp etimedout.2
    cases visit.world.queuePush
    all_goals simp [List.filterMap_cons,ReceiverEffect.given,freed]
    all_goals exact .kept (small error)
  | empty read size =>
    obtain ⟨freed,given,_⟩ := @asyncOk_finishes visit.work visit.world (some visit.work.fd) s.rdBuf citrusleafOk
      (asyncResult visit.world.heap visit.header.buf [])
    refine ⟨?_,freed⟩
    dsimp only
    rw [ReceiverVisit.header] at given
    rw [given]
    exact .kept fun large => absurd large.2 (size ▸ Nat.not_lt_zero _)
  | small read some size =>
    obtain ⟨effects,did,freed,given,_⟩ := asyncBody_finishes visit.work visit.world s.rdBuf
      (readHeader visit.work visit.stream visit.world).buf (readHeader visit.work visit.stream visit.world).left
    rw [did,List.filterMap_cons_none rfl,List.filterMap_cons_none rfl,given]
    exact ⟨.kept fun large => Nat.not_lt.mpr size large.2,freed⟩
  | large read size =>
    obtain ⟨effects,did,frees,gives,_⟩ := asyncBody_finishes visit.work visit.world (.block s.blocks)
      (readHeader visit.work visit.stream visit.world).buf (readHeader visit.work visit.stream visit.world).left
    simp only [did,List.filterMap_cons,given,freed,gives,frees]
    exact ⟨.fresh ⟨read,size⟩,rfl⟩
  | noMemory read size =>
    obtain ⟨freed,given,_⟩ := @asyncError_finishes visit.work visit.world .null (-1)
    rw [given]
    exact ⟨.noMemory ⟨read,size⟩,freed⟩

theorem ReceiverVisit.pushes_of_put (put : visit.PutsBack) : visit.Pushes ↔ visit.world.queuePush = true :=
  ⟨fun pushes => pushes.1 put,fun pushed => ⟨fun _ => pushed,fun other => absurd put other⟩⟩

theorem ReceiverVisit.pushes_of_not (other : ¬visit.PutsBack) : visit.Pushes ↔ visit.world.poolPush = true :=
  ⟨fun pushes => pushes.2 other,fun pushed => ⟨fun put => absurd put other,fun _ => pushed⟩⟩

/-- A turn is in order where the pushes succeed, a body has a buffer, and there is one to parse. -/
theorem visited_good (s : ReceiverThread) (visit : ReceiverVisit) :
    Ended visit.work ((s.visited visit).effects.filter ends) ∧ BodiesInside (s.visited visit).effects ↔
      visit.Pushes ∧ (visit.header.rv = 0 → ¬visit.LargeBody →
        s.rdBuf ≠ .null ∧ (0 < asyncBodySize visit.header.buf → s.rdBuf = .stack)) := by
  have turns := asyncReceive_turns visit.work visit.stream visit.world s.rdBuf s.blocks
  rw [ReceiverThread.visited]
  generalize asyncReceive visit.work visit.stream visit.world s.rdBuf s.blocks = visited at turns
  have arrives : visit.header.rv = 0 → ¬visit.PutsBack := fun read put =>
    Nat.pos_iff_ne_zero.mp etimedout.2 (put.1.symm.trans read)
  cases turns with
  | failed rv error notPut nonzero =>
    obtain ⟨_,_,bodies⟩ := @asyncError_finishes visit.work visit.world s.rdBuf rv
    rw [BodiesInside,bodies,asyncError_ends nonzero,ReceiverVisit.pushes_of_not notPut]
    exact and_congr_right fun _ => iff_of_true nofun fun read => absurd read error
  | put timedOut time =>
    have error : visit.header.rv ≠ 0 := timedOut ▸ Nat.pos_iff_ne_zero.mp etimedout.2
    rw [ReceiverVisit.pushes_of_put ⟨timedOut,time⟩]
    refine and_congr ?_ (iff_of_true ?_ fun read => absurd read error)
    · cases visit.world.queuePush
      · refine iff_of_false (fun ended => ?_) Bool.false_ne_true
        simp [ends] at ended
        cases ended
      · refine iff_of_true ?_ rfl
        simpa [ends,List.filter_cons] using Ended.putBack
    · cases visit.world.queuePush
      all_goals simp [BodiesInside,bodyInto,List.filterMap_cons]
  | empty read size =>
    obtain ⟨_,_,bodies⟩ := @asyncOk_finishes visit.work visit.world (some visit.work.fd) s.rdBuf citrusleafOk
      (asyncResult visit.world.heap (readHeader visit.work visit.stream visit.world).buf [])
    rw [BodiesInside,bodies,asyncOk_ends,ReceiverVisit.pushes_of_not (arrives read)]
    constructor
    · rintro ⟨⟨buffer,pushed⟩,_⟩
      exact ⟨pushed,fun _ _ => ⟨buffer,fun some => absurd size (Nat.pos_iff_ne_zero.mp some)⟩⟩
    · rintro ⟨pushed,fits⟩
      have small : ¬visit.LargeBody := fun large => Nat.not_lt_zero _ (size ▸ large.2)
      exact ⟨⟨(fits read small).1,pushed⟩,nofun⟩
  | small read some size =>
    obtain ⟨effects,did,_,gives,bodies⟩ := asyncBody_finishes visit.work visit.world s.rdBuf
      (readHeader visit.work visit.stream visit.world).buf (readHeader visit.work visit.stream visit.world).left
    have small : ¬visit.LargeBody := fun large => Nat.not_lt.mpr size large.2
    have inside : BodiesInside (.readBody s.rdBuf :: effects) ↔ s.rdBuf = .stack := by
      simp [BodiesInside,List.filterMap_cons,bodyInto,given,bodies,gives]
    rw [ReceiverVisit.pushes_of_not (arrives read)]
    constructor
    · rintro ⟨ended,bodies⟩
      rw [did,inside] at bodies
      have buffer : s.rdBuf ≠ .null := bodies ▸ RdBuf.noConfusion
      exact ⟨(asyncBody_ends buffer _ _).mp ended,fun _ _ => ⟨buffer,fun _ => bodies⟩⟩
    · rintro ⟨pushed,fits⟩
      obtain ⟨buffer,stack⟩ := fits read small
      exact ⟨(asyncBody_ends buffer _ _).mpr pushed,did ▸ inside.mpr (stack some)⟩
  | large read size =>
    obtain ⟨effects,did,_,_,bodies⟩ := asyncBody_finishes visit.work visit.world (.block s.blocks)
      (readHeader visit.work visit.stream visit.world).buf (readHeader visit.work visit.stream visit.world).left
    have inside : BodiesInside (.malloc s.blocks :: .readBody (.block s.blocks) :: effects) := by
      simp [BodiesInside,List.filterMap_cons,bodyInto,given,bodies]
    dsimp only
    rw [ReceiverVisit.pushes_of_not (arrives read),List.filter_cons_of_neg (by simp [ends]),
      asyncBody_ends RdBuf.noConfusion]
    exact and_congr_right fun _ => iff_of_true (did ▸ inside) fun _ small => absurd ⟨read,size⟩ small
  | noMemory read size =>
    obtain ⟨_,_,bodies⟩ := @asyncError_finishes visit.work visit.world .null (-1)
    rw [BodiesInside,bodies,asyncError_ends (by decide),ReceiverVisit.pushes_of_not (arrives read)]
    exact and_congr_right fun _ => iff_of_true nofun fun _ small => absurd ⟨read,size⟩ small

/-! ### Every turn -/

namespace ReceiverThread

/-- The blocks that were given are numbered, and those freed, with the one behind `rd_buf`, are
among them. -/
structure Sound (s : ReceiverThread) : Prop where
  accounted : Accounted s
  below : ∀ id ∈ s.log.filterMap given, id < s.blocks
  freed : ∀ id ∈ s.log.filterMap freed, id ∈ s.log.filterMap given
  held : ∀ id, s.rdBuf = .block id → id ∈ s.log.filterMap given

theorem log_step (s : ReceiverThread) (visit : ReceiverVisit) : (s.step visit).log = s.log ++ (s.visited visit).effects := by
  rw [log,step]
  simp [log]

theorem turns_step {p : AsyncWork × List ReceiverEffect → Prop} :
    (∀ turn ∈ (s.step visit).turns, p turn) ↔ (∀ turn ∈ s.turns, p turn) ∧ p (visit.work,(s.visited visit).effects) := by
  rw [step]
  simp [or_imp,forall_and]

/-- A turn that fits leaves no block, or one of its own, which it has freed. -/
inductive Leaves (s : ReceiverThread) : RdBuf → List Nat → List Nat → Prop where
  | nothing {rdBuf : RdBuf} (none : rdBuf.id = none) : Leaves s rdBuf [] []
  | fresh : Leaves s (.block s.blocks) [s.blocks] [s.blocks]

theorem Fits.leaves (fits : s.Fits visit) : Leaves s (s.visited visit).rdBuf
    ((s.visited visit).effects.filterMap given) ((s.visited visit).effects.filterMap ReceiverEffect.freed) := by
  obtain ⟨buffers,frees⟩ := visited_buffers s visit
  rw [frees]
  generalize (s.visited visit).rdBuf = after at buffers ⊢
  generalize (s.visited visit).effects.filterMap given = gives at buffers ⊢
  cases buffers with
  | kept small =>
    cases before : s.rdBuf with
    | block id => exact absurd (fits.block id before) small
    | _ => exact .nothing rfl
  | noMemory large => exact .nothing rfl
  | fresh large => exact .fresh

theorem Fits.good (fits : s.Fits visit) :
    Ended visit.work ((s.visited visit).effects.filter ends) ∧ BodiesInside (s.visited visit).effects := by
  refine (visited_good s visit).mpr ⟨fits.pushes,fun read small => ?_⟩
  cases before : s.rdBuf with
  | stack => exact ⟨RdBuf.noConfusion,fun _ => rfl⟩
  | null => exact absurd (fits.null before read) small
  | block id => exact absurd (fits.block id before) small

theorem start_sound : Sound start := ⟨⟨nofun,nofun,nofun⟩,nofun,nofun,nofun⟩

theorem Sound.step (sound : Sound s) (fits : s.Fits visit) : Sound (s.step visit) := by
  have ended := turns_step.mpr ⟨sound.accounted.ended,fits.good.1⟩
  have inside := (turns_step (p := fun turn => BodiesInside turn.2)).mpr ⟨sound.accounted.inside,fits.good.2⟩
  have unused : s.blocks ∉ s.log.filterMap ReceiverEffect.freed := fun member =>
    Nat.lt_irrefl _ (sound.below _ (sound.freed _ member))
  have given : (s.step visit).log.filterMap given = s.log.filterMap given ++ (s.visited visit).effects.filterMap given := by
    rw [log_step,List.filterMap_append]
  have freed : (s.step visit).log.filterMap ReceiverEffect.freed =
      s.log.filterMap ReceiverEffect.freed ++ (s.visited visit).effects.filterMap ReceiverEffect.freed := by
    rw [log_step,List.filterMap_append]
  have blocks : (s.step visit).blocks = s.blocks + ((s.visited visit).effects.filterMap ReceiverEffect.given).length := rfl
  have rdBuf : (s.step visit).rdBuf = (s.visited visit).rdBuf := rfl
  have leaves := fits.leaves
  generalize (s.visited visit).effects.filterMap ReceiverEffect.given = gives at given blocks leaves
  generalize (s.visited visit).effects.filterMap ReceiverEffect.freed = frees at freed leaves
  rw [← rdBuf] at leaves
  generalize left : (s.step visit).rdBuf = after at leaves
  cases leaves with
  | nothing none =>
    rw [List.append_nil] at given freed
    refine ⟨⟨ended,inside,?_⟩,?_,?_,fun id same => ?_⟩
    · rw [given,freed]
      exact sound.accounted.freed
    · rw [given,blocks]
      exact sound.below
    · rw [given,freed]
      exact sound.freed
    · rw [left.symm.trans same] at none
      cases none
  | fresh =>
    refine ⟨⟨ended,inside,fun id member => ?_⟩,fun id member => ?_,fun id member => ?_,fun id same => ?_⟩
    · rw [given,List.mem_append,List.mem_singleton] at member
      rw [freed,List.count_append]
      rcases member with old | rfl
      · have once := sound.accounted.freed id old
        have other := sound.below id old
        rw [once,List.count_singleton,if_neg (by simpa using Nat.ne_of_gt other)]
      · rw [List.count_eq_zero.mpr unused,List.count_singleton_self]
    · rw [given,List.mem_append,List.mem_singleton] at member
      rw [blocks,List.length_singleton]
      rcases member with old | rfl
      · exact Nat.lt_succ_of_lt (sound.below id old)
      · exact Nat.lt_succ_self _
    · rw [freed,List.mem_append] at member
      rw [given,List.mem_append]
      exact member.imp_left (sound.freed id)
    · obtain rfl := RdBuf.block.inj (left.symm.trans same)
      rw [given]
      exact List.mem_append_right _ List.mem_cons_self

/-- A turn after which all is in order fits. -/
theorem Sound.fits (sound : Sound s) (after : Accounted (s.step visit)) : s.Fits visit := by
  have ended := (turns_step.mp after.ended).2
  have inside := ((turns_step (p := fun turn => BodiesInside turn.2)).mp after.inside).2
  obtain ⟨pushes,buffer⟩ := (visited_good s visit).mp ⟨ended,inside⟩
  refine ⟨pushes,fun before read => ?_,fun id before => ?_⟩
  · by_contra small
    exact (buffer read small).1 before
  · -- a block of an earlier turn was freed there, and is freed again
    by_contra small
    have held := sound.held id before
    have once := after.freed id (by rw [log_step,List.filterMap_append]; exact List.mem_append_left _ held)
    obtain ⟨buffers,frees⟩ := visited_buffers s visit
    have twice : (s.visited visit).rdBuf = .block id := by
      generalize (s.visited visit).rdBuf = after at buffers ⊢
      generalize (s.visited visit).effects.filterMap given = gives at buffers
      cases buffers with
      | kept => exact before
      | noMemory large => exact absurd large small
      | fresh large => exact absurd large small
    rw [log_step,List.filterMap_append,List.count_append,sound.accounted.freed id held,frees,twice] at once
    simp [RdBuf.id] at once

end ReceiverThread

/-- A read in which so many bytes arrive at once, and then nothing. -/
def sampleRead (bytes : Nat) : ReadAttempt := ⟨none,0,[⟨0,.arrived bytes⟩]⟩

/-- An `as_msg` in front of 20000 bytes. -/
def largeHeader : List UInt8 := [2,3,0,0,0,0,78,54,22] ++ List.replicate 21 0

def sampleVisit (stream : List UInt8) : ReceiverVisit :=
  ⟨⟨0,0,0,5,0⟩,stream,⟨sampleRead 30,sampleRead 0,0,sampleHeap,true,true⟩⟩

end Citrusleaf
