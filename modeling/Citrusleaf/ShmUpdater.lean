import Citrusleaf.ShmNodes

/-! Which process updates the shared memory. Processes create or attach the segment of one key, and the updater thread
of each waits for `shm_lock`, which is never unlocked: the next thread gets it when its owner ends. -/
namespace Citrusleaf.Shm
open Lib

/-- `shm_lock` is robust: the kernel marks it where its owner ends. -/
inductive ShmLock where
  /-- Zero bytes, which the creator of the segment has not made a mutex yet. -/
  | zeroed
  | free
  | held (pid : Nat)
  | ownerDead
  deriving DecidableEq

structure Segment where
  /-- The number of nodes that `shm_sz` has room for. -/
  room : Nat
  creator : Nat
  shmLock : ShmLock
  updaterId : Option Nat
  shm : ClShm

/-- Where a process is in `citrusleaf_use_shm` and `citrusleaf_shm_free`. -/
inductive MainThread where
  | idle
  /-- The exclusive `shmget` has failed with `EEXIST`. -/
  | taken
  | found
  | created
  | attached
  | cleared
  /-- `g_shm_initiated` -/
  | initiated
  /-- `update_thread_end_cond` is set. -/
  | ending
  | joining
  | leaving
  | detached
  | freed
  | dead
  deriving DecidableEq

/-- Where its updater thread is in `cl_shm_updater_fn`. -/
inductive UpdaterThread where
  | none
  | waiting
  /-- `pthread_mutex_lock` has returned, with `EOWNERDEAD` or not. -/
  | locked (ownerDead : Bool)
  | entered (ownerDead : Bool)
  | owner
  | head
  | sleeping
  /-- Between two clusters. -/
  | lap
  /-- In `cl_shm_update`. -/
  | updating
  | exited
  deriving DecidableEq

structure Process where
  main : MainThread := .idle
  thread : UpdaterThread := .none
  /-- `g_max_nodes` -/
  maxNodes : Nat := 0
  /-- `g_shm_info.id` -/
  id : Nat := 0
  /-- Whether `g_shm_pt` is mapped. -/
  mapped : Bool := false
  endCond : Bool := false
  /-- `g_shm_updater` -/
  updater : Bool := false

/-- The processes of a machine and its segments; the ids below `next` have been given out. -/
structure Machine where
  key : Option Nat
  next : Nat
  segments : Nat → Segment
  processes : Nat → Process

def Machine.start : Machine := ⟨none,0,fun _ => ⟨0,0,.zeroed,none,.start⟩,fun _ => {}⟩

def Machine.setProcess (s : Machine) (p : Nat) (process : Process) : Machine :=
  {s with processes := Function.update s.processes p process}

def Machine.setSegment (s : Machine) (id : Nat) (segment : Segment) : Machine :=
  {s with segments := Function.update s.segments id segment}

/-- `shmget` makes a segment for the key. -/
def Machine.create (s : Machine) (p : Nat) (main : MainThread) : Machine :=
  let process := s.processes p
  {s with
    key := some s.next
    next := s.next + 1
    segments := Function.update s.segments s.next ⟨process.maxNodes,p,.zeroed,none,.start⟩}.setProcess p
      {process with main,id := s.next}

/-- The updater thread ends, alone or with its process. A lock that is not mapped any more cannot be marked. -/
def Machine.ends (s : Machine) (p : Nat) (main : MainThread) : Machine :=
  let process := s.processes p
  let segment := s.segments process.id
  let marked := if process.mapped ∧ segment.shmLock = .held p then {segment with shmLock := .ownerDead} else segment
  (s.setSegment process.id marked).setProcess p
    {process with main,thread := if process.thread = .none then .none else .exited}

def defaultNumNodesForShm : Nat := 64

/-- `citrusleaf_use_shm`, to the exclusive `shmget`. -/
def citrusleafUseShm (s : Machine) (p : Nat) (numNodes : Int) : Machine :=
  let process := s.processes p
  if process.main = .idle then
    let maxNodes := if 0 < numNodes then numNodes.toNat else defaultNumNodesForShm
    let s := s.setProcess p {process with maxNodes,endCond := false,main := .taken}
    if s.key = none then s.create p .created else s
  else s

/-- The next step of `citrusleaf_use_shm` or `citrusleaf_shm_free`; `ok` is what `shmat` or `pthread_mutex_init` comes to. -/
def mainStep (s : Machine) (p : Nat) (ok : Bool) : Machine :=
  let process := s.processes p
  let segment := s.segments process.id
  match process.main with
  | .taken =>
    match s.key with
    | none => s.create p .found
    | some id =>
      -- a segment that is smaller than asked for is EINVAL
      if (s.segments id).room < process.maxNodes then s.setProcess p {process with main := .idle}
      else s.setProcess p {process with main := .found,id}
  | .found =>
    if ok then s.setProcess p {process with main := .initiated,thread := .waiting,mapped := true}
    else s.setProcess p {process with main := .idle}
  | .created =>
    if ok then s.setProcess p {process with main := .attached,mapped := true}
    else s.setProcess p {process with main := .idle}
  | .attached =>
    (s.setSegment process.id {segment with shmLock := .zeroed,updaterId := none,shm := .start}).setProcess p
      {process with main := .cleared}
  | .cleared =>
    if ok then
      (s.setSegment process.id {segment with shmLock := .free}).setProcess p
        {process with main := .initiated,thread := .waiting}
    else s.setProcess p {process with main := .idle}
  | .ending => s.setProcess p {process with main := if process.updater then .joining else .leaving}
  | .joining => if process.thread = .exited then s.setProcess p {process with main := .leaving} else s
  | .leaving => s.setProcess p {process with main := .detached,mapped := false}
  | .detached => {s with key := if s.key = some process.id then none else s.key}.setProcess p {process with main := .freed}
  | _ => s

/-- What the updater thread finds to do: a cluster in the list, a seed of the cluster. -/
inductive Work where
  | proceed
  | cluster
  | ping (ping : Ping)

/-- The next step of `cl_shm_updater_fn`. -/
def clShmUpdaterFn (s : Machine) (p : Nat) (work : Work) : Machine :=
  let process := s.processes p
  let segment := s.segments process.id
  match process.thread with
  | .waiting =>
    if process.mapped then
      match segment.shmLock with
      | .held _ => s
      | .ownerDead =>
        (s.setSegment process.id {segment with shmLock := .held p}).setProcess p {process with thread := .locked true}
      | _ =>
        (s.setSegment process.id {segment with shmLock := .held p}).setProcess p {process with thread := .locked false}
    else s.ends p .dead
  | .locked ownerDead =>
    if process.endCond then s.ends p process.main
    else s.setProcess p {process with thread := .entered ownerDead}
  | .entered ownerDead =>
    -- pthread_mutex_consistent_np writes to the lock
    if ownerDead ∧ ¬process.mapped then s.ends p .dead
    else s.setProcess p {process with thread := .owner}
  | .owner => s.setProcess p {process with updater := true,thread := .head}
  | .head =>
    if process.endCond then s.ends p process.main
    else s.setProcess p {process with thread := .sleeping}
  | .sleeping =>
    if process.endCond then s.ends p process.main
    else s.setProcess p {process with thread := .lap}
  | .lap =>
    match work with
    | .cluster =>
      if process.mapped then
        (s.setSegment process.id {segment with updaterId := some p}).setProcess p {process with thread := .updating}
      else s.ends p .dead
    | _ => s.setProcess p {process with thread := .head}
  | .updating =>
    match work with
    | .ping ping =>
      if process.mapped then
        let pinged := clShmNodePing process.maxNodes segment.shm ping
        let s := s.setSegment process.id {segment with shm := pinged.1}
        if pinged.2 = none then s.ends p .dead else s
      else s.ends p .dead
    | _ => s.setProcess p {process with thread := .lap}
  | _ => s

inductive ShmEvent where
  | useShm (numNodes : Int)
  | main (ok : Bool)
  | updater (work : Work)
  /-- `citrusleaf_shm_free` -/
  | shmFree
  | die

/-- A step of the updater thread. -/
def ShmEvent.updates : ShmEvent → Bool
  | .updater _ => true
  | _ => false

def shmStep (s : Machine) (event : Nat × ShmEvent) : Machine :=
  let (p,event) := event
  let process := s.processes p
  match event with
  | .useShm numNodes => citrusleafUseShm s p numNodes
  | .main ok => mainStep s p ok
  | .updater work => clShmUpdaterFn s p work
  | .shmFree => if process.main = .initiated then s.setProcess p {process with main := .ending,endCond := true} else s
  | .die => s.ends p .dead

/-- No thread locks a mutex that the creator of the segment has not initialised. -/
def Initialised (s : Machine) (event : Nat × ShmEvent) : Prop :=
  event.2.updates → (s.processes event.1).thread = .waiting → (s.segments (s.processes event.1).id).shmLock ≠ .zeroed

instance (s : Machine) (event : Nat × ShmEvent) : Decidable (Initialised s event) :=
  inferInstanceAs (Decidable (_ → _ → _))

/-! ### What holds of a process and of the segment it has the id of -/

def MainThread.making : MainThread → Bool
  | .created | .attached | .cleared => true
  | _ => false

/-- The updater thread has been started. -/
def MainThread.started : MainThread → Bool
  | .idle | .taken | .found | .created | .attached | .cleared => false
  | _ => true

def MainThread.mapping : MainThread → Bool
  | .attached | .cleared | .initiated | .ending | .joining | .leaving => true
  | _ => false

/-- `citrusleaf_shm_free` has been called. -/
def MainThread.ends : MainThread → Bool
  | .ending | .joining | .leaving | .detached | .freed => true
  | _ => false

/-- `citrusleaf_shm_free` is past the join. -/
def MainThread.left : MainThread → Bool
  | .leaving | .detached | .freed => true
  | _ => false

/-- `pthread_mutex_lock` has returned and the thread goes on. -/
def UpdaterThread.critical : UpdaterThread → Bool
  | .none | .waiting | .exited => false
  | _ => true

/-- In the loop, where `g_shm_updater` is set. -/
def UpdaterThread.looping : UpdaterThread → Bool
  | .head | .sleeping | .lap | .updating => true
  | _ => false

/-- Past the first test of the loop for the end condition. -/
def UpdaterThread.working : UpdaterThread → Bool
  | .sleeping | .lap | .updating => true
  | _ => false

/-- The id is one that `shmget` gave and that is still to be used. -/
def Process.Placed (process : Process) : Prop :=
  process.main = .found ∨ process.main.making ∨ process.thread = .waiting ∨ process.thread.critical

/-- The two threads of a process. -/
structure Process.Ordered (process : Process) : Prop where
  started : process.thread ≠ .none → process.main.started
  mapped : process.main.mapping → process.mapped
  flagged : process.thread.looping → process.updater
  ends : process.main.ends → process.endCond
  left : process.main.left → ¬process.thread.working
  dead : process.main = .dead → process.thread = .none ∨ process.thread = .exited
  gone : process.thread ≠ .none → ¬process.mapped → process.endCond

structure ProcessOk (segments : Nat → Segment) (next : Nat) (p : Nat) (process : Process) : Prop where
  ordered : process.Ordered
  below : process.Placed → process.id < next
  room : process.Placed → process.maxNodes ≤ (segments process.id).room
  making : process.main.making → (segments process.id).creator = p ∧ (segments process.id).shmLock = .zeroed
  owns : process.thread.critical → (segments process.id).shmLock = .held p
  updating : process.thread = .updating → (segments process.id).updaterId = some p

/-- The process may be the holder of the segment's lock. -/
def Process.Holds (process : Process) (id : Nat) : Prop :=
  process.id = id ∧ process.thread ≠ .none ∧ (process.thread.critical ∨ ¬process.mapped)

/-- The table is what pings have made of zero bytes, one after the other, each for no more nodes than there is room for. -/
def Pinged (segment : Segment) : Prop :=
  ∃ pings : List (Nat × Ping), (∀ ping ∈ pings, ping.1 ≤ segment.room) ∧
    segment.shm = run (fun s ping => pingStep ping.1 s ping.2) ClShm.start pings

structure Sound (s : Machine) : Prop where
  processes : ∀ p, ProcessOk s.segments s.next p (s.processes p)
  holder : ∀ id p, (s.segments id).shmLock = .held p → (s.processes p).Holds id
  pinged : ∀ id, Pinged (s.segments id)
  key : ∀ id, s.key = some id → id < s.next

variable {s : Machine} {p q : Nat} {process : Process} {segments : Nat → Segment} {next : Nat}

theorem Process.Placed.critical (critical : process.thread.critical) : process.Placed := .inr (.inr (.inr critical))

theorem working_critical (thread : UpdaterThread) (working : thread.working) : thread.critical := by
  cases thread <;> simp_all [UpdaterThread.working,UpdaterThread.critical]

theorem Pinged.start (room creator : Nat) (shmLock : ShmLock) (updaterId : Option Nat) :
    Pinged ⟨room,creator,shmLock,updaterId,.start⟩ :=
  ⟨[],List.forall_mem_nil _,rfl⟩

theorem Pinged.ping {segment : Segment} (pinged : Pinged segment) (maxNodes : Nat) (room : maxNodes ≤ segment.room)
    (ping : Ping) : Pinged {segment with shm := (clShmNodePing maxNodes segment.shm ping).1} := by
  obtain ⟨pings,bounded,table⟩ := pinged
  refine ⟨pings ++ [(maxNodes,ping)],fun other member => ?_,?_⟩
  · rcases List.mem_append.mp member with before | last
    · exact bounded other before
    · rw [List.mem_singleton.mp last]
      exact room
  · rw [run_append,← table]
    rfl

/-- The table of pinged segments is never too large. -/
theorem Pinged.count {segment : Segment} (pinged : Pinged segment) : segment.shm.nodeCount ≤ segment.room := by
  obtain ⟨pings,bounded,table⟩ := pinged
  have counted (start : ClShm) (first : start.nodeCount ≤ segment.room) :
      (run (fun s (ping : Nat × Ping) => pingStep ping.1 s ping.2) start pings).nodeCount ≤ segment.room := by
    clear table
    induction pings generalizing start with
    | nil => exact first
    | cons ping pings ih =>
      refine ih (fun other member => bounded other (List.mem_cons_of_mem _ member)) _ ?_
      obtain ⟨_,_,_,_,_,count⟩ | ⟨_,_,_,complete,_,count⟩ | ⟨_,_,count⟩ := ping_table ping.1 start ping.2
      · exact count ▸ first
      · have room := bounded ping List.mem_cons_self
        have before := complete.1
        change (pingStep ping.1 start ping.2).nodeCount ≤ segment.room
        omega
      · exact count ▸ first
  rw [table]
  exact counted .start (Nat.zero_le _)

/-! ### Steps -/

/-- What another process does to a segment that this one neither makes nor owns. -/
theorem ProcessOk.other (ok : ProcessOk segments next q process) (id : Nat) (segment : Segment)
    (room : segment.room = (segments id).room) (apart : (segments id).shmLock ≠ .held q)
    (made : (segments id).creator ≠ q ∨ (segments id).shmLock ≠ .zeroed) :
    ProcessOk (Function.update segments id segment) next q process := by
  by_cases same : process.id = id
  · subst same
    have unowned : ¬process.thread.critical := fun critical => apart (ok.owns critical)
    refine ⟨ok.ordered,ok.below,fun placed => ?_,fun making => ?_,fun critical => absurd critical unowned,fun here => ?_⟩
    · rw [Function.update_self,room]
      exact ok.room placed
    · obtain ⟨creator,zeroed⟩ := ok.making making
      exact absurd zeroed (made.resolve_left (not_not_intro creator))
    · exact absurd (by rw [here]; rfl) unowned
  · have unchanged : Function.update segments id segment process.id = segments process.id := Function.update_of_ne same _ _
    refine ⟨ok.ordered,ok.below,?_,?_,?_,?_⟩
    · rw [unchanged]
      exact ok.room
    · rw [unchanged]
      exact ok.making
    · rw [unchanged]
      exact ok.owns
    · rw [unchanged]
      exact ok.updating

/-- Only the record of a process changes. -/
theorem Sound.setProcess (sound : Sound s) (ok : ProcessOk s.segments s.next p process)
    (holds : ∀ id, (s.segments id).shmLock = .held p → process.Holds id) : Sound (s.setProcess p process) := by
  refine ⟨fun q => ?_,fun id q held => ?_,sound.pinged,sound.key⟩
  · change ProcessOk s.segments s.next q (Function.update s.processes p process q)
    by_cases same : q = p
    · subst same
      rw [Function.update_self]
      exact ok
    · rw [Function.update_of_ne same]
      exact sound.processes q
  · change (Function.update s.processes p process q).Holds id
    by_cases same : q = p
    · subst same
      rw [Function.update_self]
      exact holds id held
    · rw [Function.update_of_ne same]
      exact sound.holder id q held

/-- A process changes the segment that it makes, or whose lock it owns or takes. -/
theorem Sound.setSegment (sound : Sound s) (id : Nat) (segment : Segment) (room : segment.room = (s.segments id).room)
    (apart : ∀ q, q ≠ p → (s.segments id).shmLock ≠ .held q)
    (made : (s.segments id).creator = p ∨ (s.segments id).shmLock ≠ .zeroed)
    (lock : ∀ q, segment.shmLock = .held q → q = p) (pinged : Pinged segment)
    (ok : ProcessOk (Function.update s.segments id segment) s.next p process)
    (holds : ∀ i, (Function.update s.segments id segment i).shmLock = .held p → process.Holds i) :
    Sound ((s.setSegment id segment).setProcess p process) := by
  refine ⟨fun q => ?_,fun i q held => ?_,fun i => ?_,sound.key⟩
  · change ProcessOk (Function.update s.segments id segment) s.next q (Function.update s.processes p process q)
    by_cases same : q = p
    · subst same
      rw [Function.update_self]
      exact ok
    · rw [Function.update_of_ne same]
      exact (sound.processes q).other id segment room (apart q same) (made.imp_left fun mine => mine.trans_ne (Ne.symm same))
  · change (Function.update s.processes p process q).Holds i
    change (Function.update s.segments id segment i).shmLock = .held q at held
    by_cases same : q = p
    · subst same
      rw [Function.update_self]
      exact holds i held
    · rw [Function.update_of_ne same]
      by_cases here : i = id
      · subst here
        rw [Function.update_self] at held
        exact absurd (lock q held) same
      · rw [Function.update_of_ne here] at held
        exact sound.holder i q held
  · change Pinged (Function.update s.segments id segment i)
    by_cases here : i = id
    · subst here
      rw [Function.update_self]
      exact pinged
    · rw [Function.update_of_ne here]
      exact sound.pinged i

/-- Moves that leave the segments alone. -/
theorem Sound.moves (sound : Sound s) (id : process.id = (s.processes p).id)
    (maxNodes : process.maxNodes = (s.processes p).maxNodes) (ordered : process.Ordered)
    (placed : process.Placed → (s.processes p).Placed) (making : process.main.making → (s.processes p).main.making)
    (critical : process.thread.critical = (s.processes p).thread.critical)
    (updating : process.thread = .updating → (s.processes p).thread = .updating)
    (runs : (s.processes p).thread ≠ .none → process.thread ≠ .none)
    (unmapped : (s.processes p).thread ≠ .none → ¬(s.processes p).mapped → ¬process.mapped) :
    Sound (s.setProcess p process) := by
  have ok := sound.processes p
  refine sound.setProcess ⟨ordered,?_,?_,?_,?_,?_⟩ fun i held => ?_
  · rw [id]
    exact fun now => ok.below (placed now)
  · rw [id,maxNodes]
    exact fun now => ok.room (placed now)
  · rw [id]
    exact fun now => ok.making (making now)
  · rw [id,critical]
    exact ok.owns
  · rw [id]
    exact fun now => ok.updating (updating now)
  · obtain ⟨here,some,owner⟩ := sound.holder i p held
    exact ⟨id.trans here,runs some,by rw [critical]; exact owner.imp_right (unmapped some)⟩

theorem critical_ne (thread : UpdaterThread) (critical : thread.critical) :
    thread ≠ .none ∧ thread ≠ .waiting ∧ thread ≠ .exited := by
  cases thread <;> simp_all [UpdaterThread.critical]

/-- The updater thread goes on where nothing but its own place changes. -/
theorem Sound.thread (sound : Sound s) (next : UpdaterThread) (updater : Bool)
    (now : (s.processes p).thread.critical) (critical : next.critical) (other : next ≠ .updating)
    (flagged : next.looping → updater) (left : next.working → ¬(s.processes p).main.left) :
    Sound (s.setProcess p {s.processes p with thread := next,updater := updater}) := by
  have ordered := (sound.processes p).ordered
  obtain ⟨running,_,alive⟩ := critical_ne _ now
  obtain ⟨run,_,_⟩ := critical_ne _ critical
  refine sound.moves rfl rfl ?_ (fun _ => .critical now) id (critical.trans now.symm) (fun here => absurd here other)
    (fun _ => run) fun _ unmapped => unmapped
  refine ⟨fun _ => ordered.started running,ordered.mapped,flagged,ordered.ends,fun main working => left working main,
    fun dead => ?_,fun _ => ordered.gone running⟩
  rcases ordered.dead dead with none | exited
  · exact absurd none running
  · exact absurd exited alive

/-- A thread ends, alone or with its process. -/
theorem Sound.ends (sound : Sound s) (main : MainThread)
    (alone : main = .dead ∨ (main = (s.processes p).main ∧ (s.processes p).thread ≠ .none)) : Sound (s.ends p main) := by
  have ok := sound.processes p
  have ordered := ok.ordered
  rw [Machine.ends]
  generalize process_ : s.processes p = process at *
  have unplaced : main ≠ .found ∧ ¬main.making := by
    rcases alone with rfl | ⟨rfl,running⟩
    · decide
    · have started := ordered.started running
      cases here : process.main <;> simp_all [MainThread.started,MainThread.making]
  have started : process.thread ≠ .none → main.started := by
    intro running
    rcases alone with rfl | ⟨rfl,_⟩
    · rfl
    · exact ordered.started running
  have same (test : MainThread → Bool) (dead : test .dead = false) (now : test main) : test process.main := by
    rcases alone with rfl | ⟨rfl,_⟩
    · exact absurd now (by rw [dead]; decide)
    · exact now
  generalize thread_ : (if process.thread = .none then UpdaterThread.none else .exited) = thread
  have quiet : thread = .none ∨ thread = .exited := by
    rw [← thread_]
    split
    · exact .inl rfl
    · exact .inr rfl
  have ran : thread ≠ .none → process.thread ≠ .none := by
    rintro some none
    exact some (by rw [← thread_,if_pos none])
  have runs : process.thread ≠ .none → thread ≠ .none := by
    intro some
    rw [← thread_,if_neg some]
    nofun
  have idle : ¬thread.critical ∧ ¬thread.looping ∧ ¬thread.working ∧ thread ≠ .waiting ∧ thread ≠ .updating := by
    rcases quiet with rfl | rfl <;> decide
  generalize marked_ : (if process.mapped ∧ (s.segments process.id).shmLock = .held p then
    {s.segments process.id with shmLock := .ownerDead} else s.segments process.id) = marked
  have bystander : ¬({process with main,thread} : Process).Placed := by
    rintro (found | making | waiting | critical)
    · exact unplaced.1 found
    · exact unplaced.2 making
    · exact idle.2.2.2.1 waiting
    · exact idle.1 critical
  have finished : ({process with main,thread} : Process).Ordered :=
    ⟨fun some => started (ran some),fun now => ordered.mapped (same _ rfl now),fun now => absurd now idle.2.1,
      fun now => ordered.ends (same _ rfl now),fun _ => idle.2.2.1,fun _ => quiet,fun some => ordered.gone (ran some)⟩
  have final (segments : Nat → Segment) : ProcessOk segments s.next p {process with main,thread} :=
    ⟨finished,fun now => absurd now bystander,fun now => absurd now bystander,fun now => absurd now unplaced.2,
      fun now => absurd now idle.1,fun now => absurd now idle.2.2.2.2⟩
  by_cases owner : process.mapped ∧ (s.segments process.id).shmLock = .held p
  · rw [if_pos owner] at marked_
    subst marked_
    refine sound.setSegment process.id _ rfl (fun q other held => ?_) (.inr ?_) nofun (sound.pinged process.id) (final _)
      fun i held => ?_
    · exact other (ShmLock.held.inj (owner.2.symm.trans held)).symm
    · rw [owner.2]
      nofun
    · by_cases here : i = process.id
      · subst here
        rw [Function.update_self] at held
        exact nomatch held
      · rw [Function.update_of_ne here] at held
        have holds := (sound.holder i p held).1
        rw [process_] at holds
        exact absurd holds.symm here
  · rw [if_neg owner] at marked_
    subst marked_
    have unchanged : s.setSegment process.id (s.segments process.id) = s := by
      rw [Machine.setSegment,Function.update_eq_self]
    rw [unchanged]
    refine sound.setProcess (final _) fun i held => ?_
    have holds := sound.holder i p held
    rw [process_] at holds
    obtain ⟨rfl,some,_⟩ := holds
    exact ⟨rfl,runs some,.inr fun mapped => owner ⟨mapped,held⟩⟩

/-- A segment that no process has the id of yet. -/
theorem ProcessOk.fresh (ok : ProcessOk segments next q process) (segment : Segment) :
    ProcessOk (Function.update segments next segment) (next + 1) q process := by
  have old (placed : process.Placed) : Function.update segments next segment process.id = segments process.id :=
    Function.update_of_ne (Nat.ne_of_lt (ok.below placed)) _ _
  refine ⟨ok.ordered,fun placed => Nat.lt_succ_of_lt (ok.below placed),fun placed => ?_,fun making => ?_,fun critical => ?_,
    fun here => ?_⟩
  · rw [old placed]
    exact ok.room placed
  · rw [old (.inr (.inl making))]
    exact ok.making making
  · rw [old (.critical critical)]
    exact ok.owns critical
  · rw [old (.critical (by rw [here]; rfl))]
    exact ok.updating here

/-- Nothing has been started yet. -/
theorem ProcessOk.unstarted (ok : ProcessOk segments next p process) (early : process.main.started = false) :
    process.thread = .none := by
  by_contra running
  have started := ok.ordered.started running
  rw [early] at started
  exact nomatch started

theorem Sound.create (sound : Sound s) (main : MainThread) (early : (s.processes p).main.started = false)
    (makes : main = .created ∨ main = .found) : Sound (s.create p main) := by
  have ok := sound.processes p
  have quiet := ok.unstarted early
  have fresh : Function.update s.segments s.next ⟨(s.processes p).maxNodes,p,.zeroed,none,.start⟩ s.next =
      ⟨(s.processes p).maxNodes,p,.zeroed,none,.start⟩ := Function.update_self ..
  refine ⟨fun q => ?_,fun id q held => ?_,fun id => ?_,fun id here => ?_⟩
  · change ProcessOk (Function.update s.segments s.next _) (s.next + 1) q
      (Function.update s.processes p {s.processes p with main,id := s.next} q)
    by_cases same : q = p
    · subst same
      rw [Function.update_self]
      refine ⟨?_,fun _ => Nat.lt_succ_self _,fun _ => ?_,fun _ => ?_,fun critical => ?_,fun here => ?_⟩
      · refine ⟨fun some => absurd quiet some,fun now => ?_,fun now => ?_,fun now => ?_,fun now => ?_,fun now => ?_,
          fun some => absurd quiet some⟩
        · rcases makes with rfl | rfl <;> exact nomatch now
        · rw [quiet] at now
          exact nomatch now
        · rcases makes with rfl | rfl <;> exact nomatch now
        · rcases makes with rfl | rfl <;> exact nomatch now
        · exact .inl quiet
      · rw [fresh]
      · rw [fresh]
        exact ⟨rfl,rfl⟩
      · change (s.processes q).thread.critical = true at critical
        rw [quiet] at critical
        exact nomatch critical
      · exact nomatch quiet.symm.trans here
    · rw [Function.update_of_ne same]
      exact (sound.processes q).fresh _
  · change (Function.update s.segments s.next _ id).shmLock = .held q at held
    change (Function.update s.processes p _ q).Holds id
    by_cases new : id = s.next
    · subst new
      rw [fresh] at held
      exact nomatch held
    · rw [Function.update_of_ne new] at held
      have holds := sound.holder id q held
      by_cases same : q = p
      · subst same
        exact absurd quiet holds.2.1
      · rw [Function.update_of_ne same]
        exact holds
  · change Pinged (Function.update s.segments s.next _ id)
    by_cases new : id = s.next
    · subst new
      rw [fresh]
      exact .start ..
    · rw [Function.update_of_ne new]
      exact sound.pinged id
  · exact Option.some.inj here ▸ Nat.lt_succ_self _

/-- Without a segment, there is nothing that the segments have to keep to. -/
theorem ProcessOk.bare (quiet : process.thread = .none) (bare : process.main = .idle ∨ process.main = .taken) :
    ProcessOk segments next p process := by
  have unplaced : ¬process.Placed := by
    rintro (found | making | waiting | critical)
    · rcases bare with here | here <;> exact nomatch here.symm.trans found
    · rcases bare with here | here <;> exact nomatch here ▸ making
    · exact nomatch quiet.symm.trans waiting
    · exact nomatch quiet ▸ critical
  refine ⟨⟨fun some => absurd quiet some,fun now => ?_,fun now => (nomatch quiet ▸ now),fun now => ?_,fun now => ?_,
    fun _ => .inl quiet,fun some => absurd quiet some⟩,fun now => absurd now unplaced,fun now => absurd now unplaced,
    fun now => absurd (.inr (.inl now)) unplaced,fun now => absurd (.critical now) unplaced,
    fun now => nomatch quiet.symm.trans now⟩
  all_goals rcases bare with here | here <;> exact nomatch here ▸ now

/-- The process has no segment, or gives up what it had begun. -/
theorem Sound.bare (sound : Sound s) (early : (s.processes p).main.started = false) (maxNodes : Nat) (endCond : Bool)
    (main : MainThread) (bare : main = .idle ∨ main = .taken) :
    Sound (s.setProcess p {s.processes p with main,maxNodes,endCond}) := by
  have quiet := (sound.processes p).unstarted early
  exact sound.setProcess (.bare quiet bare) fun id held => absurd quiet (sound.holder id p held).2.1

theorem setProcess_self (s : Machine) (p : Nat) (process : Process) : (s.setProcess p process).processes p = process :=
  Function.update_self ..

theorem Sound.citrusleafUseShm (sound : Sound s) (numNodes : Int) : Sound (citrusleafUseShm s p numNodes) := by
  rw [Shm.citrusleafUseShm]
  dsimp only
  generalize (if 0 < numNodes then numNodes.toNat else defaultNumNodesForShm) = maxNodes
  by_cases idle : (s.processes p).main = .idle
  · rw [if_pos idle]
    have taken := sound.bare (by rw [idle]; rfl) maxNodes false .taken (.inr rfl)
    split
    · exact taken.create .created (by rw [setProcess_self]; rfl) (.inl rfl)
    · exact taken
  · rw [if_neg idle]
    exact sound

theorem started_spec (main : MainThread) (started : main.started) : main ≠ .found ∧ ¬main.making := by
  cases main <;> simp_all [MainThread.started,MainThread.making]

/-- The main thread goes on when the updater thread has been started. -/
theorem Sound.later (sound : Sound s) (main : MainThread) (mapped endCond : Bool)
    (started : main.started) (alive : main ≠ .dead) (maps : main.mapping → mapped) (ends : main.ends → endCond)
    (left : main.left → ¬(s.processes p).thread.working) (gone : ¬mapped → endCond)
    (unmapped : ¬(s.processes p).mapped → ¬mapped) :
    Sound (s.setProcess p {s.processes p with main,mapped,endCond}) := by
  have ordered := (sound.processes p).ordered
  obtain ⟨found,making⟩ := started_spec main started
  refine sound.moves rfl rfl ⟨fun _ => started,maps,ordered.flagged,ends,left,fun dead => absurd dead alive,fun _ => gone⟩
    ?_ (fun now => absurd now making) rfl id id fun _ => unmapped
  rintro (here | here | running)
  · exact absurd here found
  · exact absurd here making
  · exact .inr (.inr running)

/-- The steps of the main thread. -/
theorem Sound.mainStep (sound : Sound s) (ok : Bool) : Sound (mainStep s p ok) := by
  have old := sound.processes p
  have ordered := old.ordered
  have fail (early : (s.processes p).main.started = false) : Sound (s.setProcess p {s.processes p with main := .idle}) :=
    sound.bare early (s.processes p).maxNodes (s.processes p).endCond .idle (.inl rfl)
  rw [Shm.mainStep]
  split
  case h_1 here =>
    have early : (s.processes p).main.started = false := by rw [here]; rfl
    split
    · exact sound.create .found early (.inr rfl)
    · rename_i id key
      split
      · exact fail early
      · rename_i room
        have quiet := old.unstarted early
        refine sound.setProcess ⟨⟨fun some => absurd quiet some,nofun,fun now => (nomatch quiet ▸ now),nofun,nofun,nofun,
          fun some => absurd quiet some⟩,fun _ => sound.key id key,fun _ => Nat.le_of_not_lt room,nofun,
          fun now => (nomatch quiet ▸ now),fun now => nomatch quiet.symm.trans now⟩
          fun i held => absurd quiet (sound.holder i p held).2.1
  case h_2 here =>
    have early : (s.processes p).main.started = false := by rw [here]; rfl
    have quiet := old.unstarted early
    split
    · refine sound.moves rfl rfl ⟨fun _ => rfl,fun _ => rfl,nofun,nofun,nofun,nofun,fun _ now => absurd rfl now⟩
        (fun _ => .inl here) nofun (by rw [quiet]; rfl) nofun (fun some => absurd quiet some) fun some => absurd quiet some
    · exact fail early
  case h_3 here =>
    have early : (s.processes p).main.started = false := by rw [here]; rfl
    have quiet := old.unstarted early
    split
    · refine sound.moves rfl rfl ⟨fun some => absurd quiet some,fun _ => rfl,ordered.flagged,nofun,nofun,nofun,
        fun some => absurd quiet some⟩ (fun _ => .inr (.inl (by rw [here]; rfl))) (fun _ => by rw [here]; rfl) rfl id
        (fun some => absurd quiet some) fun some => absurd quiet some
    · exact fail early
  case h_4 here =>
    have quiet := old.unstarted (by rw [here]; rfl)
    have making : (s.processes p).main.making := by rw [here]; rfl
    obtain ⟨creator,zeroed⟩ := old.making making
    have placed : (s.processes p).Placed := .inr (.inl making)
    refine sound.setSegment _ _ rfl (fun q _ held => nomatch zeroed.symm.trans held) (.inl creator) nofun (.start ..) ?_
      fun i held => ?_
    · refine ⟨⟨fun some => absurd quiet some,fun _ => ordered.mapped (by rw [here]; rfl),ordered.flagged,nofun,nofun,nofun,
        fun some => absurd quiet some⟩,fun _ => old.below placed,fun _ => ?_,fun _ => ?_,fun now => ?_,fun now => ?_⟩
      · rw [Function.update_self]
        exact old.room placed
      · rw [Function.update_self]
        exact ⟨creator,rfl⟩
      · exact nomatch quiet ▸ now
      · exact nomatch quiet.symm.trans now
    · by_cases same : i = (s.processes p).id
      · subst same
        rw [Function.update_self] at held
        exact nomatch held
      · rw [Function.update_of_ne same] at held
        exact absurd (sound.holder i p held).1.symm same
  case h_5 here =>
    have early : (s.processes p).main.started = false := by rw [here]; rfl
    have making : (s.processes p).main.making := by rw [here]; rfl
    obtain ⟨creator,zeroed⟩ := old.making making
    have placed : (s.processes p).Placed := .inr (.inl making)
    split
    · refine sound.setSegment _ _ rfl (fun q _ held => nomatch zeroed.symm.trans held) (.inl creator) nofun
        (sound.pinged _) ?_ fun i held => ?_
      · refine ⟨⟨fun _ => rfl,fun _ => ordered.mapped (by rw [here]; rfl),nofun,nofun,nofun,nofun,
          fun _ now => absurd (ordered.mapped (by rw [here]; rfl)) now⟩,fun _ => old.below placed,fun _ => ?_,nofun,nofun,nofun⟩
        rw [Function.update_self]
        exact old.room placed
      · by_cases same : i = (s.processes p).id
        · subst same
          rw [Function.update_self] at held
          exact nomatch held
        · rw [Function.update_of_ne same] at held
          exact absurd (sound.holder i p held).1.symm same
    · exact fail early
  case h_6 here =>
    have mapped := ordered.mapped (by rw [here]; rfl)
    have endCond := ordered.ends (by rw [here]; rfl)
    by_cases updater : (s.processes p).updater
    · rw [if_pos updater]
      exact sound.later .joining (s.processes p).mapped (s.processes p).endCond rfl nofun (fun _ => mapped)
        (fun _ => endCond) nofun (fun _ => endCond) id
    · rw [if_neg updater]
      refine sound.later .leaving (s.processes p).mapped (s.processes p).endCond rfl nofun (fun _ => mapped)
        (fun _ => endCond) (fun _ working => updater (ordered.flagged ?_)) (fun _ => endCond) id
      cases thread : (s.processes p).thread <;> simp_all [UpdaterThread.working,UpdaterThread.looping]
  case h_7 here =>
    split
    · rename_i exited
      have mapped := ordered.mapped (by rw [here]; rfl)
      have endCond := ordered.ends (by rw [here]; rfl)
      exact sound.later .leaving (s.processes p).mapped (s.processes p).endCond rfl nofun (fun _ => mapped)
        (fun _ => endCond) (fun _ => by rw [exited]; decide) (fun _ => endCond) id
    · exact sound
  case h_8 here =>
    have endCond := ordered.ends (by rw [here]; rfl)
    exact sound.later .detached false (s.processes p).endCond rfl nofun nofun (fun _ => endCond)
      (fun _ => ordered.left (by rw [here]; rfl)) (fun _ => endCond) fun _ => nofun
  case h_9 here =>
    have endCond := ordered.ends (by rw [here]; rfl)
    have removed : Sound {s with key := if s.key = some (s.processes p).id then none else s.key} := by
      refine ⟨sound.processes,sound.holder,sound.pinged,fun id key => ?_⟩
      change (if s.key = some (s.processes p).id then none else s.key) = some id at key
      split at key
      · exact nomatch key
      · exact sound.key id key
    exact removed.later .freed (s.processes p).mapped (s.processes p).endCond rfl nofun nofun (fun _ => endCond)
      (fun _ => ordered.left (by rw [here]; rfl)) (fun _ => endCond) id
  case h_10 => exact sound

/-- `pthread_mutex_lock` returns. -/
theorem Sound.acquires (sound : Sound s) (ownerDead : Bool) (waiting : (s.processes p).thread = .waiting)
    (unheld : ∀ q, (s.segments (s.processes p).id).shmLock ≠ .held q)
    (initialised : (s.segments (s.processes p).id).shmLock ≠ .zeroed) :
    Sound ((s.setSegment (s.processes p).id {s.segments (s.processes p).id with shmLock := .held p}).setProcess p
      {s.processes p with thread := .locked ownerDead}) := by
  have old := sound.processes p
  have ordered := old.ordered
  have placed : (s.processes p).Placed := .inr (.inr (.inl waiting))
  have running : (s.processes p).thread ≠ .none := by rw [waiting]; nofun
  refine sound.setSegment _ _ rfl (fun q _ => unheld q) (.inr initialised) (fun q held => (ShmLock.held.inj held).symm)
    (sound.pinged _) ⟨?_,fun _ => old.below placed,fun _ => ?_,fun making => ?_,fun _ => ?_,nofun⟩ fun i held => ?_
  · refine ⟨fun _ => ordered.started running,ordered.mapped,nofun,ordered.ends,fun _ => nofun,fun dead => ?_,
      fun _ => ordered.gone running⟩
    rcases ordered.dead dead with none | exited
    · exact absurd none running
    · exact nomatch waiting.symm.trans exited
  · rw [Function.update_self]
    exact old.room placed
  · exact absurd (old.making making).2 initialised
  · rw [Function.update_self]
  · by_cases same : i = (s.processes p).id
    · exact ⟨same.symm,nofun,.inl rfl⟩
    · rw [Function.update_of_ne same] at held
      exact absurd (sound.holder i p held).1.symm same

/-- The owner of the lock writes to the segment. -/
theorem Sound.writes (sound : Sound s) (critical : (s.processes p).thread.critical) (updaterId : Option Nat) (shm : ClShm)
    (thread : UpdaterThread) (still : thread.critical) (looping : thread.looping → (s.processes p).thread.looping)
    (working : thread.working → (s.processes p).thread.working) (updating : thread = .updating → updaterId = some p)
    (pinged : Pinged {s.segments (s.processes p).id with shm}) :
    Sound ((s.setSegment (s.processes p).id {s.segments (s.processes p).id with updaterId,shm}).setProcess p
      {s.processes p with thread}) := by
  have old := sound.processes p
  have ordered := old.ordered
  have owns := old.owns critical
  obtain ⟨running,_,alive⟩ := critical_ne _ critical
  obtain ⟨runs,_,_⟩ := critical_ne _ still
  have placed : (s.processes p).Placed := .critical critical
  refine sound.setSegment _ _ rfl (fun q other held => ?_) (.inr ?_) (fun q held => ?_) pinged
    ⟨?_,fun _ => old.below placed,fun _ => ?_,fun making => ?_,fun _ => ?_,fun here => ?_⟩ fun i held => ?_
  · exact other (ShmLock.held.inj (owns.symm.trans held)).symm
  · rw [owns]
    nofun
  · exact (ShmLock.held.inj (owns.symm.trans held)).symm
  · refine ⟨fun _ => ordered.started running,ordered.mapped,fun now => ordered.flagged (looping now),ordered.ends,
      fun left now => ordered.left left (working now),fun dead => ?_,fun _ => ordered.gone running⟩
    rcases ordered.dead dead with none | exited
    · exact absurd none running
    · exact absurd exited alive
  · rw [Function.update_self]
    exact old.room placed
  · exact nomatch (old.making making).2.symm.trans owns
  · rw [Function.update_self]
    exact owns
  · rw [Function.update_self]
    exact updating here
  · by_cases same : i = (s.processes p).id
    · exact ⟨same.symm,runs,.inl still⟩
    · rw [Function.update_of_ne same] at held
      exact absurd (sound.holder i p held).1.symm same

/-- The steps of the updater thread. -/
theorem Sound.clShmUpdaterFn (sound : Sound s) (work : Work)
    (initialised : (s.processes p).thread = .waiting → (s.segments (s.processes p).id).shmLock ≠ .zeroed) :
    Sound (clShmUpdaterFn s p work) := by
  have old := sound.processes p
  have ordered := old.ordered
  have unended (looks : (s.processes p).endCond ≠ true) : ¬(s.processes p).main.left := by
    intro left
    refine looks (ordered.ends ?_)
    cases main : (s.processes p).main <;> simp_all [MainThread.left,MainThread.ends]
  have exits (critical : (s.processes p).thread.critical) : Sound (s.ends p (s.processes p).main) :=
    sound.ends _ (.inr ⟨rfl,(critical_ne _ critical).1⟩)
  have dies : Sound (s.ends p .dead) := sound.ends .dead (.inl rfl)
  unfold Shm.clShmUpdaterFn
  dsimp only
  split
  case h_1 here =>
    split
    · split
      · exact sound
      · rename_i lock
        exact sound.acquires true here (fun q held => nomatch lock.symm.trans held) (initialised here)
      · rename_i unheld _
        exact sound.acquires false here (fun q held => unheld q held) (initialised here)
    · exact dies
  case h_2 ownerDead here =>
    have critical : (s.processes p).thread.critical := by rw [here]; rfl
    split
    · exact exits critical
    · exact sound.thread _ _ critical rfl nofun nofun nofun
  case h_3 ownerDead here =>
    split
    · exact dies
    · exact sound.thread _ _ (by rw [here]; rfl) rfl nofun nofun nofun
  case h_4 here => exact sound.thread _ _ (by rw [here]; rfl) rfl nofun (fun _ => rfl) nofun
  case h_5 here =>
    have critical : (s.processes p).thread.critical := by rw [here]; rfl
    have flagged := ordered.flagged (by rw [here]; rfl)
    split
    · exact exits critical
    · rename_i looks
      exact sound.thread _ _ critical rfl nofun (fun _ => flagged) fun _ => unended looks
  case h_6 here =>
    have critical : (s.processes p).thread.critical := by rw [here]; rfl
    have flagged := ordered.flagged (by rw [here]; rfl)
    split
    · exact exits critical
    · rename_i looks
      exact sound.thread _ _ critical rfl nofun (fun _ => flagged) fun _ => unended looks
  case h_7 here =>
    have critical : (s.processes p).thread.critical := by rw [here]; rfl
    have flagged := ordered.flagged (by rw [here]; rfl)
    split
    · split
      · exact sound.writes critical (some p) _ .updating rfl (fun _ => by rw [here]; rfl) (fun _ => by rw [here]; rfl)
          (fun _ => rfl) (sound.pinged _)
      · exact dies
    · exact sound.thread _ _ critical rfl nofun (fun _ => flagged) nofun
  case h_8 here =>
    have critical : (s.processes p).thread.critical := by rw [here]; rfl
    have flagged := ordered.flagged (by rw [here]; rfl)
    split
    · rename_i ping
      split
      · have pinged := (sound.pinged (s.processes p).id).ping _ (old.room (.critical critical)) ping
        have unchanged (t : Machine) (same : t.processes = s.processes) : t.setProcess p (s.processes p) = t := by
          rw [Machine.setProcess,← same,Function.update_eq_self]
        have written : Sound (s.setSegment (s.processes p).id {s.segments (s.processes p).id with
            shm := (clShmNodePing (s.processes p).maxNodes (s.segments (s.processes p).id).shm ping).1}) := by
          rw [← unchanged (s.setSegment ..) rfl]
          exact sound.writes critical (s.segments (s.processes p).id).updaterId _ (s.processes p).thread critical id id
            old.updating pinged
        split
        · exact written.ends .dead (.inl rfl)
        · exact written
      · exact dies
    · refine sound.thread _ _ critical rfl nofun (fun _ => flagged) fun _ left => ?_
      exact ordered.left left (by rw [here]; rfl)
  case h_9 => exact sound

theorem Sound.step (sound : Sound s) (event : Nat × ShmEvent) (initialised : Initialised s event) : Sound (shmStep s event) := by
  obtain ⟨p,event⟩ := event
  have ordered := (sound.processes p).ordered
  cases event with
  | useShm numNodes => exact sound.citrusleafUseShm numNodes
  | main ok => exact sound.mainStep ok
  | updater work => exact sound.clShmUpdaterFn work (initialised rfl)
  | shmFree =>
    rw [shmStep]
    split
    · rename_i here
      exact sound.later .ending (s.processes p).mapped true rfl nofun (fun _ => ordered.mapped (by rw [here]; rfl))
        (fun _ => rfl) nofun (fun _ => rfl) id
    · exact sound
  | die => exact sound.ends .dead (.inl rfl)

theorem start_sound : Sound .start :=
  ⟨fun _ => .bare rfl (.inl rfl),nofun,fun _ => .start ..,nofun⟩

/-! ### One updater -/

theorem Sound.exclusive (sound : Sound s) (first : (s.processes p).thread.critical) (second : (s.processes q).thread.critical)
    (same : (s.processes p).id = (s.processes q).id) : p = q := by
  have mine := (sound.processes p).owns first
  have other := (sound.processes q).owns second
  rw [same] at mine
  exact ShmLock.held.inj (mine.symm.trans other)

/-- Whoever is past the first test of the loop has its memory. -/
theorem Process.Ordered.working_mapped (ordered : process.Ordered) (working : process.thread.working) : process.mapped := by
  obtain ⟨running,_,alive⟩ := critical_ne _ (working_critical _ working)
  have started := ordered.started running
  cases main : process.main with
  | idle | taken | found | created | attached | cleared => exact nomatch main ▸ started
  | initiated | ending | joining => exact ordered.mapped (by rw [main]; rfl)
  | leaving | detached | freed => exact absurd working (ordered.left (by rw [main]; rfl))
  | dead =>
    rcases ordered.dead main with none | exited
    · exact absurd none running
    · exact absurd exited alive

/-- Where no thread has the lock and nobody has unmapped it with the lock, a thread that waits gets into its loop. -/
theorem Sound.takes_over (sound : Sound s) (waiting : (s.processes p).thread = .waiting) (mapped : (s.processes p).mapped)
    (stays : (s.processes p).endCond = false) (initialised : (s.segments (s.processes p).id).shmLock ≠ .zeroed)
    (others : ∀ q, (s.processes q).id = (s.processes p).id → ¬(s.processes q).thread.critical ∧
      ((s.processes q).thread ≠ .none → (s.processes q).mapped)) :
    let t := run shmStep s (List.replicate 4 (p,.updater .proceed))
    (t.processes p).thread = .head ∧ (t.processes p).updater = true ∧
      (t.segments (s.processes p).id).shm = (s.segments (s.processes p).id).shm := by
  have unheld (q : Nat) : (s.segments (s.processes p).id).shmLock ≠ .held q := by
    intro held
    obtain ⟨id,some,owner⟩ := sound.holder _ q held
    obtain ⟨gone,maps⟩ := others q id
    exact owner.elim gone fun unmapped => unmapped (maps some)
  have locks : ∃ ownerDead, shmStep s (p,.updater .proceed) =
      (s.setSegment (s.processes p).id {s.segments (s.processes p).id with shmLock := .held p}).setProcess p
        {s.processes p with thread := .locked ownerDead} := by
    cases lock : (s.segments (s.processes p).id).shmLock with
    | zeroed => exact absurd lock initialised
    | free => exact ⟨false,by simp [shmStep,Shm.clShmUpdaterFn,waiting,mapped,lock]⟩
    | held q => exact absurd lock (unheld q)
    | ownerDead => exact ⟨true,by simp [shmStep,Shm.clShmUpdaterFn,waiting,mapped,lock]⟩
  obtain ⟨ownerDead,locked⟩ := locks
  have replicated : List.replicate 4 (p,ShmEvent.updater .proceed) =
      [(p,.updater .proceed),(p,.updater .proceed),(p,.updater .proceed),(p,.updater .proceed)] := rfl
  rw [replicated,run_cons,locked]
  simp [shmStep,Shm.clShmUpdaterFn,Machine.setProcess,Machine.setSegment,stays,mapped]

/-- In every run in which nobody locks a mutex before it is initialised, and whichever process ends where: one process at
a time has the lock of a segment and updates it, with the segment mapped, its own id in it and no more nodes than there is
room for; the table is what the pings of all updaters have made of it, one after the other; a lock stays with a thread
that has ended only if its process unmapped it first; and where no thread has the lock, one that waits takes over. -/
theorem one_updater (events : List (Nat × ShmEvent)) (ordered : Guarded shmStep Initialised .start events) :
    let s := run shmStep .start events
    (∀ p q, (s.processes p).thread.critical → (s.processes q).thread.critical →
      (s.processes p).id = (s.processes q).id → p = q) ∧
    (∀ p, (s.processes p).thread = .updating → (s.processes p).mapped ∧
      (s.segments (s.processes p).id).updaterId = some p ∧ (s.processes p).maxNodes ≤ (s.segments (s.processes p).id).room) ∧
    (∀ id, Pinged (s.segments id) ∧ (s.segments id).shm.nodeCount ≤ (s.segments id).room) ∧
    (∀ id p, (s.segments id).shmLock = .held p → (s.processes p).id = id ∧
      ((s.processes p).thread.critical ∨ (¬(s.processes p).mapped ∧ (s.processes p).endCond))) ∧
    ∀ p, (s.processes p).thread = .waiting → (s.processes p).mapped → (s.processes p).endCond = false →
      (s.segments (s.processes p).id).shmLock ≠ .zeroed →
      (∀ q, (s.processes q).id = (s.processes p).id → ¬(s.processes q).thread.critical ∧
        ((s.processes q).thread ≠ .none → (s.processes q).mapped)) →
      let t := run shmStep s (List.replicate 4 (p,.updater .proceed))
      (t.processes p).thread = .head ∧ (t.processes p).updater = true ∧
        (t.segments (s.processes p).id).shm = (s.segments (s.processes p).id).shm := by
  have kept : ∀ s event, Sound s → Initialised s event → Sound (shmStep s event) :=
    fun _ event sound initialised => sound.step event initialised
  have always := (always_iff shmStep Sound .start events).mp (always_of_guarded kept start_sound ordered)
  have sound := always events [] (List.append_nil events).symm
  refine ⟨fun p q first second same => sound.exclusive first second same,fun p here => ?_,
    fun id => ⟨sound.pinged id,(sound.pinged id).count⟩,fun id p held => ?_,
    fun p waiting mapped stays initialised others => sound.takes_over waiting mapped stays initialised others⟩
  · have ok := sound.processes p
    have working : ((run shmStep .start events).processes p).thread.working := by rw [here]; rfl
    exact ⟨ok.ordered.working_mapped working,ok.updating here,ok.room (.critical (working_critical _ working))⟩
  · obtain ⟨id_,running,owner⟩ := sound.holder id p held
    exact ⟨id_,owner.imp_right fun unmapped => ⟨unmapped,(sound.processes p).ordered.gone running unmapped⟩⟩

/-! ### A process that does nothing -/

@[simp] theorem setProcess_other (s : Machine) (process : Process) (other : q ≠ p) :
    (s.setProcess p process).processes q = s.processes q := Function.update_of_ne other ..

@[simp] theorem setSegment_processes (s : Machine) (id : Nat) (segment : Segment) :
    (s.setSegment id segment).processes = s.processes := rfl

@[simp] theorem create_other (s : Machine) (main : MainThread) (other : q ≠ p) :
    (s.create p main).processes q = s.processes q := Function.update_of_ne other ..

@[simp] theorem ends_other (s : Machine) (main : MainThread) (other : q ≠ p) :
    (s.ends p main).processes q = s.processes q := Function.update_of_ne other ..

theorem shmStep_other (s : Machine) (event : ShmEvent) (other : q ≠ p) :
    (shmStep s (p,event)).processes q = s.processes q := by
  cases event with
  | useShm numNodes =>
    rw [shmStep,citrusleafUseShm]
    dsimp only
    generalize (if 0 < numNodes then numNodes.toNat else defaultNumNodesForShm) = maxNodes
    split
    · split
      · exact (create_other _ _ other).trans (setProcess_other s _ other)
      · exact setProcess_other s _ other
    · rfl
  | main ok =>
    simp only [shmStep,mainStep]
    split <;> try split
    all_goals first | simp [other] | (split <;> simp [other])
  | updater work =>
    simp only [shmStep,clShmUpdaterFn]
    split <;> try split
    all_goals first | simp [other] | (split <;> first | simp [other] | (split <;> simp [other]))
  | shmFree =>
    rw [shmStep]
    split
    · exact setProcess_other s _ other
    · rfl
  | die => simp [shmStep,other]

theorem run_idle (events : List (Nat × ShmEvent)) (s : Machine) (absent : ∀ event ∈ events, event.1 ≠ q) :
    (run shmStep s events).processes q = s.processes q := by
  induction events generalizing s with
  | nil => rfl
  | cons event events ih =>
    have other := (absent event List.mem_cons_self).symm
    rw [run_cons,ih _ fun later member => absent later (List.mem_cons_of_mem _ member)]
    exact shmStep_other s event.2 other

/-- A server that answers. -/
def firstPing : Ping :=
  ⟨⟨text "A",[Vector.replicate 16 1]⟩,[.values (text "partitions\t4096\n")],
    [.values (text "node\tA\nservices\t\npartition-generation\t1\n")],[.values (text "replicas-read\t\n")],true⟩

/-- The first process makes the segment, pings a server and dies as updater, when the second one waits. -/
def twoUpdaters : List (Nat × ShmEvent) :=
  [(0,.useShm 4),(1,.useShm 2),(0,.main true),(1,.main true),(1,.main true),(0,.main true),(0,.main true),
    (0,.updater .proceed),(1,.updater .proceed),(0,.updater .proceed),(0,.updater .proceed),(0,.updater .proceed),
    (0,.updater .proceed),(0,.updater .proceed),(0,.updater .cluster),(0,.updater (.ping firstPing)),(0,.die)]

theorem one_updater_takes_over :
    let s := run shmStep .start twoUpdaters
    let t := run shmStep s (List.replicate 4 (1,.updater .proceed))
    (s.segments 0).shmLock = .ownerDead ∧ (s.segments 0).shm.nodeCount = 1 ∧ (t.processes 1).thread = .head ∧
      (t.segments 0).shm = (s.segments 0).shm := by
  have ordered : Guarded shmStep Initialised .start twoUpdaters := by
    unfold twoUpdaters
    repeat' first | exact trivial | refine ⟨by decide +kernel,?_⟩
  have others (q : Nat) : ¬((run shmStep .start twoUpdaters).processes q).thread.critical ∧
      (((run shmStep .start twoUpdaters).processes q).thread ≠ .none → ((run shmStep .start twoUpdaters).processes q).mapped) := by
    match q with
    | 0 => exact by decide +kernel
    | 1 => exact by decide +kernel
    | q + 2 =>
      have absent : (run shmStep .start twoUpdaters).processes (q + 2) = {} := by
        refine run_idle twoUpdaters .start fun event member => ?_
        have two : ∀ event ∈ twoUpdaters, event.1 < 2 := by
          unfold twoUpdaters
          simp
        have bound := two event member
        omega
      rw [absent]
      exact ⟨nofun,fun some => absurd rfl some⟩
  have dead : ((run shmStep .start twoUpdaters).segments 0).shmLock = .ownerDead := by decide +kernel
  have takes := (one_updater twoUpdaters ordered).2.2.2.2 1 (by decide +kernel) (by decide +kernel) (by decide +kernel)
    (by decide +kernel) fun q _ => others q
  have attached : ((run shmStep .start twoUpdaters).processes 1).id = 0 := by decide +kernel
  rw [attached] at takes
  exact ⟨dead,by decide +kernel,takes.1,takes.2.2⟩

/-- Without the order, there are two: the second process locks the zero bytes that the first then makes a mutex of. -/
example : ∃ events, let s := run shmStep .start events
    (s.processes 0).thread.critical ∧ (s.processes 1).thread.critical ∧ (s.processes 0).id = (s.processes 1).id :=
  ⟨[(0,.useShm 4),(1,.useShm 2),(1,.main true),(1,.main true),(1,.updater .proceed),(0,.main true),(0,.main true),
    (0,.main true),(0,.updater .proceed)],by decide +kernel⟩

end Citrusleaf.Shm
