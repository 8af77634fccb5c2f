import Citrusleaf.Lib.Workers

/-! Threads that take work from one queue until they find the sign to quit. A thread may put its work back at the end
of the queue, behind the signs. Each sign ends one thread, so what is before the last of as many signs as threads is
taken, and what is behind it stays. The owner pushes the signs and joins the threads one after the other. -/
namespace Citrusleaf.Lib

inductive PoolThread (ι : Type) where
  | idle
  | busy (work : ι)
  | gone

namespace PoolThread

def work : PoolThread ι → Option ι
  | busy work => some work
  | _ => none

def isGone : PoolThread ι → Bool
  | gone => true
  | _ => false

/-- Steps that a thread needs at most for what it has. -/
def weight : PoolThread ι → Nat
  | idle => 1
  | busy _ => 2
  | gone => 0

end PoolThread

/-- The queue and the threads, and what happened so far. On the queue `none` is the sign to quit. -/
structure Pool (ι : Type) where
  queue : List (Option ι)
  threads : List (PoolThread ι)
  pushed : List (Option ι)
  ended : List ι
  returned : List ι

inductive PoolEvent (ι : Type) where
  | push (work : ι)
  | quit
  | take (thread : Nat)
  | finish (thread : Nat)
  | putBack (thread : Nat)

namespace Pool
variable {ι : Type} {s : Pool ι} {thread : Nat}

def start (threads : Nat) : Pool ι := ⟨[],List.replicate threads .idle,[],[],[]⟩

def add (s : Pool ι) (item : Option ι) : Pool ι := {s with queue := s.queue ++ [item],pushed := s.pushed ++ [item]}

def move (s : Pool ι) (thread : Nat) (new : PoolThread ι) : Pool ι := {s with threads := s.threads.set thread new}

def take (s : Pool ι) (thread : Nat) : Pool ι :=
  match s.threads[thread]? with
  | some .idle =>
    match s.queue with
    | [] => s
    | none :: queue => {s with queue}.move thread .gone
    | some work :: queue => {s with queue}.move thread (.busy work)
  | _ => s

def finish (s : Pool ι) (thread : Nat) : Pool ι :=
  match s.threads[thread]? with
  | some (.busy work) => {s with ended := s.ended ++ [work]}.move thread .idle
  | _ => s

def putBack (s : Pool ι) (thread : Nat) : Pool ι :=
  match s.threads[thread]? with
  | some (.busy work) => ({s with returned := s.returned ++ [work]}.add (some work)).move thread .idle
  | _ => s

def step (s : Pool ι) : PoolEvent ι → Pool ι
  | .push work => s.add (some work)
  | .quit => s.add none
  | .take thread => s.take thread
  | .finish thread => s.finish thread
  | .putBack thread => s.putBack thread

/-- The thread of an event is not blocked. -/
def moves (s : Pool ι) : PoolEvent ι → Bool
  | .take thread =>
    match s.threads[thread]? with
    | some .idle => !s.queue.isEmpty
    | _ => false
  | .finish thread | .putBack thread =>
    match s.threads[thread]? with
    | some (.busy _) => true
    | _ => false
  | _ => false

/-- The works that threads have. -/
def busy (s : Pool ι) : List ι := s.threads.filterMap PoolThread.work

def signs (items : List (Option ι)) : Nat := items.countP Option.isNone

def goneThreads (s : Pool ι) : Nat := s.threads.countP PoolThread.isGone

/-- Each sign that was taken ended a thread, and each work that was pushed is somewhere. -/
structure Kept (s : Pool ι) : Prop where
  taken : ∃ taken, s.pushed = taken ++ s.queue ∧ signs taken = s.goneThreads
  works : (s.busy ++ (s.queue.filterMap id ++ (s.ended ++ s.returned))).Perm (s.pushed.filterMap id)

theorem start_kept (threads : Nat) : Kept (start threads : Pool ι) := by
  refine ⟨⟨[],rfl,?_⟩,?_⟩
  · simp [goneThreads,start,signs,List.countP_replicate,PoolThread.isGone]
  · simp [busy,start,PoolThread.work]

/-! ### Steps -/

theorem take_cases (s : Pool ι) (thread : Nat) :
    (s.moves (.take thread) = true ∧ s.threads[thread]? = some .idle ∧
      ((∃ queue, s.queue = none :: queue ∧ s.take thread = {s with queue}.move thread .gone) ∨
        ∃ work queue, s.queue = some work :: queue ∧ s.take thread = {s with queue}.move thread (.busy work))) ∨
    (s.moves (.take thread) = false ∧ s.take thread = s) := by
  unfold take
  simp only [moves]
  cases there : s.threads[thread]? with
  | none => exact .inr ⟨rfl,rfl⟩
  | some old =>
    cases old with
    | idle =>
      cases front : s.queue with
      | nil => exact .inr ⟨rfl,rfl⟩
      | cons item queue =>
        cases item with
        | none => exact .inl ⟨rfl,rfl,.inl ⟨queue,rfl,rfl⟩⟩
        | some work => exact .inl ⟨rfl,rfl,.inr ⟨work,queue,rfl,rfl⟩⟩
    | _ => exact .inr ⟨rfl,rfl⟩

theorem finish_cases (s : Pool ι) (thread : Nat) :
    (∃ work, s.moves (.finish thread) = true ∧ s.threads[thread]? = some (.busy work) ∧
      s.finish thread = {s with ended := s.ended ++ [work]}.move thread .idle) ∨
    (s.moves (.finish thread) = false ∧ s.finish thread = s) := by
  unfold finish
  simp only [moves]
  cases there : s.threads[thread]? with
  | none => exact .inr ⟨rfl,rfl⟩
  | some old =>
    cases old with
    | busy work => exact .inl ⟨work,rfl,rfl,rfl⟩
    | _ => exact .inr ⟨rfl,rfl⟩

theorem putBack_cases (s : Pool ι) (thread : Nat) :
    (∃ work, s.moves (.putBack thread) = true ∧ s.threads[thread]? = some (.busy work) ∧
      s.putBack thread = ({s with returned := s.returned ++ [work]}.add (some work)).move thread .idle) ∨
    (s.moves (.putBack thread) = false ∧ s.putBack thread = s) := by
  unfold putBack
  simp only [moves]
  cases there : s.threads[thread]? with
  | none => exact .inr ⟨rfl,rfl⟩
  | some old =>
    cases old with
    | busy work => exact .inl ⟨work,rfl,rfl,rfl⟩
    | _ => exact .inr ⟨rfl,rfl⟩

theorem signs_append (first later : List (Option ι)) : signs (first ++ later) = signs first + signs later :=
  List.countP_append

theorem busy_move (there : s.threads[thread]? = some old) (new : PoolThread ι) :
    ((s.move thread new).busy ++ old.work.toList).Perm (s.busy ++ new.work.toList) := by
  have before := filterMap_cons_perm PoolThread.work (thread_perm there)
  have after := filterMap_cons_perm PoolThread.work (moved_perm there new)
  refine (after.append_right _).trans (List.Perm.trans ?_ (before.append_right _).symm)
  refine List.perm_append_comm.trans ?_
  rw [List.append_assoc]
  exact List.Perm.append_left _ List.perm_append_comm

theorem goneThreads_move (there : s.threads[thread]? = some old) (new : PoolThread ι) :
    (s.move thread new).goneThreads + old.isGone.toNat = s.goneThreads + new.isGone.toNat :=
  countP_moved PoolThread.isGone there new

theorem Kept.add (kept : s.Kept) (item : Option ι) : (s.add item).Kept := by
  obtain ⟨⟨taken,parts,signs⟩,works⟩ := kept
  refine ⟨⟨taken,?_,signs⟩,?_⟩
  · change s.pushed ++ [item] = taken ++ (s.queue ++ [item])
    rw [parts,List.append_assoc]
  · classical
    rw [List.perm_iff_count] at works ⊢
    intro work
    have one := works work
    simp only [Pool.add,busy,List.filterMap_append,List.count_append] at one ⊢
    omega

theorem Kept.take (kept : s.Kept) (thread : Nat) : (s.take thread).Kept := by
  obtain ⟨⟨taken,parts,ended⟩,works⟩ := kept
  rcases take_cases s thread with ⟨_,there,⟨queue,front,after⟩ | ⟨work,queue,front,after⟩⟩ | ⟨_,after⟩
  · rw [after]
    have gone := goneThreads_move (s := {s with queue}) there .gone
    have same : (({s with queue}.move thread .gone).busy ++ []).Perm (s.busy ++ []) := busy_move there .gone
    refine ⟨⟨taken ++ [none],?_,?_⟩,?_⟩
    · change s.pushed = taken ++ [none] ++ queue
      rw [parts,front,List.append_assoc]
      rfl
    · rw [signs_append,ended]
      exact gone.symm
    · refine (List.Perm.append_right _ ?_).trans (by rw [front] at works; exact works)
      rwa [List.append_nil,List.append_nil] at same
  · rw [after]
    have gone := goneThreads_move (s := {s with queue}) there (.busy work)
    have same : (({s with queue}.move thread (.busy work)).busy ++ []).Perm (s.busy ++ [work]) := busy_move there (.busy work)
    refine ⟨⟨taken ++ [some work],?_,?_⟩,?_⟩
    · change s.pushed = taken ++ [some work] ++ queue
      rw [parts,front,List.append_assoc]
      rfl
    · rw [signs_append,ended]
      exact gone.symm
    · rw [front,List.filterMap_cons] at works
      refine List.Perm.trans ?_ works
      rw [List.append_nil] at same
      have joined := same.append_right (queue.filterMap id ++ (s.ended ++ s.returned))
      rwa [List.append_assoc] at joined
  · rw [after]
    exact ⟨⟨taken,parts,ended⟩,works⟩

theorem Kept.finish (kept : s.Kept) (thread : Nat) : (s.finish thread).Kept := by
  obtain ⟨⟨taken,parts,gone⟩,works⟩ := kept
  rcases finish_cases s thread with ⟨work,_,there,after⟩ | ⟨_,after⟩
  · rw [after]
    have same := busy_move (s := {s with ended := s.ended ++ [work]}) there .idle
    have stays := goneThreads_move (s := {s with ended := s.ended ++ [work]}) there .idle
    refine ⟨⟨taken,parts,gone.trans stays.symm⟩,?_⟩
    classical
    rw [List.perm_iff_count] at works same ⊢
    intro w
    have one := works w
    have other := same w
    simp only [Pool.move,PoolThread.work,Option.toList_some,Option.toList_none,List.append_nil,busy,List.count_append] at one other ⊢
    omega
  · rw [after]
    exact ⟨⟨taken,parts,gone⟩,works⟩

theorem Kept.putBack (kept : s.Kept) (thread : Nat) : (s.putBack thread).Kept := by
  rcases putBack_cases s thread with ⟨work,_,there,after⟩ | ⟨_,after⟩
  · rw [after]
    obtain ⟨⟨taken,parts,gone⟩,works⟩ := kept
    have same := busy_move (s := {s with returned := s.returned ++ [work]}.add (some work)) there .idle
    have stays := goneThreads_move (s := {s with returned := s.returned ++ [work]}.add (some work)) there .idle
    refine ⟨⟨taken,?_,gone.trans stays.symm⟩,?_⟩
    · change s.pushed ++ [some work] = taken ++ (s.queue ++ [some work])
      rw [parts,List.append_assoc]
    · classical
      rw [List.perm_iff_count] at works same ⊢
      intro w
      have one := works w
      have other := same w
      simp only [Pool.move,Pool.add,PoolThread.work,Option.toList_some,Option.toList_none,List.append_nil,busy,
        List.filterMap_append,List.count_append,List.filterMap_cons,List.filterMap_nil,id] at one other ⊢
      omega
  · rw [after]
    exact kept

theorem Kept.step (kept : s.Kept) (event : PoolEvent ι) : (s.step event).Kept := by
  cases event with
  | push work => exact kept.add _
  | quit => exact kept.add _
  | take thread => exact kept.take thread
  | finish thread => exact kept.finish thread
  | putBack thread => exact kept.putBack thread

/-- A take changes nothing of what happened. -/
theorem take_history (s : Pool ι) (thread : Nat) :
    (s.take thread).pushed = s.pushed ∧ (s.take thread).ended = s.ended ∧ (s.take thread).returned = s.returned := by
  rcases take_cases s thread with ⟨_,_,⟨_,_,after⟩ | ⟨_,_,_,after⟩⟩ | ⟨_,after⟩ <;> rw [after] <;> exact ⟨rfl,rfl,rfl⟩

theorem step_threads (s : Pool ι) (event : PoolEvent ι) : (s.step event).threads.length = s.threads.length := by
  cases event with
  | push work => rfl
  | quit => rfl
  | take thread =>
    rcases take_cases s thread with ⟨_,_,⟨_,_,after⟩ | ⟨_,_,_,after⟩⟩ | ⟨_,after⟩
    · rw [step,after,move,List.length_set]
    · rw [step,after,move,List.length_set]
    · rw [step,after]
  | finish thread =>
    rcases finish_cases s thread with ⟨_,_,_,after⟩ | ⟨_,after⟩
    · rw [step,after,move,List.length_set]
    · rw [step,after]
  | putBack thread =>
    rcases putBack_cases s thread with ⟨_,_,_,after⟩ | ⟨_,after⟩
    · rw [step,after,move,List.length_set]
      rfl
    · rw [step,after]

/-- A thread that is gone stays gone. -/
theorem step_gone (event : PoolEvent ι) (gone : s.threads[thread]? = some .gone) :
    (s.step event).threads[thread]? = some .gone := by
  have apart (other : Nat) (old new : PoolThread ι) (there : s.threads[other]? = some old) (alive : old ≠ .gone) :
      (s.threads.set other new)[thread]? = some .gone := by
    rw [List.getElem?_set_ne,gone]
    rintro rfl
    exact alive (Option.some.inj (there.symm.trans gone))
  cases event with
  | push work => exact gone
  | quit => exact gone
  | take other =>
    rcases take_cases s other with ⟨_,there,⟨_,_,after⟩ | ⟨_,_,_,after⟩⟩ | ⟨_,after⟩
    · rw [step,after]
      exact apart other _ _ there nofun
    · rw [step,after]
      exact apart other _ _ there nofun
    · rw [step,after]
      exact gone
  | finish other =>
    rcases finish_cases s other with ⟨_,_,there,after⟩ | ⟨_,after⟩
    · rw [step,after]
      exact apart other _ _ there nofun
    · rw [step,after]
      exact gone
  | putBack other =>
    rcases putBack_cases s other with ⟨_,_,there,after⟩ | ⟨_,after⟩
    · rw [step,after]
      exact apart other _ _ there nofun
    · rw [step,after]
      exact gone

/-! ### As many signs as threads -/

def Closing (s : Pool ι) : Prop := signs s.pushed = s.threads.length

theorem Kept.signs_left (kept : s.Kept) (closing : s.Closing) : signs s.queue + s.goneThreads = s.threads.length := by
  obtain ⟨taken,parts,ended⟩ := kept.taken
  rw [← closing,parts,signs_append,ended,Nat.add_comm]

/-- While a thread is left, one can move. -/
theorem Kept.moves (kept : s.Kept) (closing : s.Closing) (left : s.goneThreads < s.threads.length) :
    ∃ thread, s.moves (.take thread) = true ∨ s.moves (.finish thread) = true := by
  have signsLeft := kept.signs_left closing
  have some : s.queue ≠ [] := by
    intro nil
    rw [nil] at signsLeft
    have none : signs ([] : List (Option ι)) = 0 := rfl
    omega
  obtain ⟨t,member,stays⟩ : ∃ t ∈ s.threads, ¬t.isGone = true := by
    by_contra all
    have gone : s.threads.countP PoolThread.isGone = s.threads.length :=
      List.countP_eq_length.mpr fun t member => by_contra fun stays => all ⟨t,member,stays⟩
    exact Nat.ne_of_lt left gone
  obtain ⟨thread,there⟩ := List.mem_iff_getElem?.mp member
  cases t with
  | idle =>
    refine ⟨thread,.inl ?_⟩
    rw [Pool.moves,there]
    simpa using some
  | busy work =>
    refine ⟨thread,.inr ?_⟩
    rw [Pool.moves,there]
  | gone => exact absurd rfl stays

/-- The works before the last sign. -/
def ahead : List (Option ι) → Nat
  | [] => 0
  | none :: items => ahead items
  | some _ :: items => if signs items = 0 then 0 else ahead items + 1

theorem ahead_push (items : List (Option ι)) (work : ι) : ahead (items ++ [some work]) = ahead items := by
  induction items with
  | nil => rfl
  | cons item items ih =>
    cases item with
    | none => exact ih
    | some other =>
      have same : signs (items ++ [some work]) = signs items := by rw [signs_append]; rfl
      rw [List.cons_append,ahead,ahead,ih,same]

/-- The steps that the threads need at most until they are gone. -/
def weight (s : Pool ι) : Nat := (s.threads.map PoolThread.weight).sum + 2 * ahead s.queue

theorem weight_moved (there : s.threads[thread]? = some old) (new : PoolThread ι) :
    ((s.threads.set thread new).map PoolThread.weight).sum + old.weight = (s.threads.map PoolThread.weight).sum + new.weight :=
  sum_moved PoolThread.weight there new

/-- A step of a thread takes one away, and no other adds one. -/
theorem Kept.weight_step (kept : s.Kept) (closing : s.Closing) (event : PoolEvent ι) (more : event ≠ .quit) :
    (s.step event).weight + (s.moves event).toNat = s.weight := by
  cases event with
  | push work => rw [Pool.step,weight,weight,Pool.add,ahead_push]; rfl
  | quit => exact absurd rfl more
  | take thread =>
    rcases take_cases s thread with ⟨can,there,⟨queue,front,after⟩ | ⟨work,queue,front,after⟩⟩ | ⟨stuck,after⟩
    · have moved := weight_moved there .gone
      rw [Pool.step,after,can,weight,weight,front,ahead]
      simp only [move,PoolThread.weight,Bool.toNat_true] at moved ⊢
      omega
    · have moved := weight_moved there (.busy work)
      have signed : signs queue ≠ 0 := by
        intro none
        have left := kept.signs_left closing
        rw [front] at left
        have same : signs (some work :: queue) = signs queue := List.countP_cons_of_neg (by simp)
        rw [same,none,Nat.zero_add] at left
        cases List.countP_eq_length.mp left _ (List.mem_of_getElem? there)
      rw [Pool.step,after,can,weight,weight,front,ahead,if_neg signed]
      simp only [move,PoolThread.weight,Bool.toNat_true] at moved ⊢
      omega
    · rw [Pool.step,after,stuck]
      rfl
  | finish thread =>
    rcases finish_cases s thread with ⟨work,can,there,after⟩ | ⟨stuck,after⟩
    · have moved := weight_moved there .idle
      rw [Pool.step,after,can,weight,weight]
      simp only [move,PoolThread.weight,Bool.toNat_true] at moved ⊢
      omega
    · rw [Pool.step,after,stuck]
      rfl
  | putBack thread =>
    rcases putBack_cases s thread with ⟨work,can,there,after⟩ | ⟨stuck,after⟩
    · have moved := weight_moved there .idle
      rw [Pool.step,after,can,weight,weight]
      simp only [move,Pool.add,PoolThread.weight,ahead_push,Bool.toNat_true] at moved ⊢
      omega
    · rw [Pool.step,after,stuck]
      rfl

/-- What is left on the queue when all threads are gone was pushed behind the last sign. -/
theorem Kept.left_behind (kept : s.Kept) (closing : s.Closing) (gone : s.goneThreads = s.threads.length)
    (some : 0 < s.threads.length) :
    ∃ first last, s.pushed = first ++ none :: last ∧ signs last = 0 ∧ s.queue <:+ last := by
  have last (items : List (Option ι)) (signed : 0 < signs items) :
      ∃ first mid, items = first ++ none :: mid ∧ signs mid = 0 := by
    induction items with
    | nil => exact absurd signed (Nat.lt_irrefl 0)
    | cons item items ih =>
      by_cases more : 0 < signs items
      · obtain ⟨first,mid,rfl,none⟩ := ih more
        exact ⟨item :: first,mid,rfl,none⟩
      · cases item with
        | none => exact ⟨[],items,rfl,Nat.eq_zero_of_not_pos more⟩
        | some work =>
          have same : signs (Option.some work :: items) = signs items := List.countP_cons_of_neg (by simp)
          exact absurd (same ▸ signed) more
  have left := kept.signs_left closing
  obtain ⟨taken,parts,ended⟩ := kept.taken
  obtain ⟨first,mid,rfl,none⟩ := last taken (by omega)
  refine ⟨first,mid ++ s.queue,?_,?_,List.suffix_append _ _⟩
  · rw [parts,List.append_assoc]
    rfl
  · rw [signs_append,none]
    omega

theorem busy_gone (gone : s.goneThreads = s.threads.length) : s.busy = [] := by
  refine List.filterMap_eq_nil_iff.mpr fun t member => ?_
  have all := List.countP_eq_length.mp gone t member
  cases t with
  | gone => rfl
  | _ => cases all

/-! ### The owner -/

end Pool

/-- Where the owner is, with the signs to push or the threads to join. -/
inductive PoolOwner where
  | before
  | pushing (left : Nat)
  | joining (left : Nat)
  | closed

namespace PoolOwner

/-- How many signs it has pushed to so many threads. -/
def pushed (threads : Nat) : PoolOwner → Nat
  | before => 0
  | pushing left => threads - left
  | _ => threads

/-- It joins the threads, or has joined them. -/
def Joins (owner : PoolOwner) : Prop := (∃ left, owner = joining left) ∨ owner = closed

end PoolOwner

namespace Pool
variable {ι : Type} {s : Pool ι} {owner : PoolOwner}

def close (s : Pool ι) : PoolOwner → PoolOwner
  | .before => .pushing s.threads.length
  | owner => owner

/-- The owner goes on. A thread that is not gone keeps it waiting. -/
def proceed (s : Pool ι) : PoolOwner → Pool ι × PoolOwner
  | .pushing (left + 1) => (s.step .quit,.pushing left)
  | .pushing 0 => (s,.joining s.threads.length)
  | .joining (left + 1) =>
    match s.threads[s.threads.length - (left + 1)]? with
    | some .gone => (s,.joining left)
    | _ => (s,.joining (left + 1))
  | .joining 0 => (s,.closed)
  | owner => (s,owner)

/-- The threads that were joined are gone. -/
def Joined (s : Pool ι) : PoolOwner → Prop
  | .before => True
  | .pushing left => left ≤ s.threads.length
  | .joining left => ∀ i, i + left < s.threads.length → s.threads[i]? = some .gone
  | .closed => ∀ i < s.threads.length, s.threads[i]? = some .gone

structure Owned (s : Pool ι) (owner : PoolOwner) : Prop where
  kept : s.Kept
  signs : signs s.pushed = owner.pushed s.threads.length
  joined : s.Joined owner

theorem start_owned (threads : Nat) : (start threads : Pool ι).Owned .before := ⟨start_kept threads,rfl,trivial⟩

theorem Owned.step (owned : s.Owned owner) (event : PoolEvent ι) (more : event ≠ .quit) : (s.step event).Owned owner := by
  have same := s.step_threads event
  refine ⟨owned.kept.step event,?_,?_⟩
  · rw [same,← owned.signs]
    cases event with
    | push work => rw [Pool.step,Pool.add,signs_append]; rfl
    | quit => exact absurd rfl more
    | take thread => rw [Pool.step,(s.take_history thread).1]
    | finish thread =>
      rcases s.finish_cases thread with ⟨_,_,_,after⟩ | ⟨_,after⟩
      · rw [Pool.step,after]
        rfl
      · rw [Pool.step,after]
    | putBack thread =>
      rcases s.putBack_cases thread with ⟨_,_,_,after⟩ | ⟨_,after⟩
      · rw [Pool.step,after,move,Pool.add,signs_append]
        rfl
      · rw [Pool.step,after]
  · have joined := owned.joined
    cases owner with
    | before => trivial
    | pushing left => rwa [Joined,same]
    | joining left => exact fun i inside => step_gone event (joined i (same ▸ inside))
    | closed => exact fun i inside => step_gone event (joined i (same ▸ inside))

theorem Owned.close (owned : s.Owned owner) : s.Owned (s.close owner) := by
  cases owner with
  | before => exact ⟨owned.kept,owned.signs.trans (Nat.sub_self _).symm,Nat.le_refl _⟩
  | _ => exact owned

theorem Owned.proceed (owned : s.Owned owner) : (s.proceed owner).1.Owned (s.proceed owner).2 := by
  obtain ⟨kept,signed,joined⟩ := owned
  cases owner with
  | before => exact ⟨kept,signed,joined⟩
  | pushing left =>
    cases left with
    | zero => exact ⟨kept,signed,fun i inside => absurd inside (Nat.not_lt.mpr (Nat.le_add_left _ _))⟩
    | succ left =>
      refine ⟨kept.step .quit,?_,Nat.le_of_succ_le joined⟩
      have enough : left + 1 ≤ s.threads.length := joined
      change Pool.signs (s.pushed ++ [none]) = s.threads.length - left
      rw [signs_append,signed]
      change s.threads.length - (left + 1) + 1 = _
      omega
  | joining left =>
    cases left with
    | zero => exact ⟨kept,signed,joined⟩
    | succ left =>
      rw [Pool.proceed]
      split
      · rename_i gone
        refine ⟨kept,signed,fun i inside => ?_⟩
        change i + left < s.threads.length at inside
        by_cases before : i + (left + 1) < s.threads.length
        · exact joined i before
        · have here : i = s.threads.length - (left + 1) := by omega
          rw [here]
          exact gone
      · exact ⟨kept,signed,joined⟩
  | closed => exact ⟨kept,signed,joined⟩

/-- The history of works is not the owner's. -/
theorem proceed_works (s : Pool ι) (owner : PoolOwner) :
    (s.proceed owner).1.pushed.filterMap id = s.pushed.filterMap id ∧ (s.proceed owner).1.ended = s.ended ∧
      (s.proceed owner).1.returned = s.returned ∧ (s.proceed owner).1.threads = s.threads := by
  cases owner with
  | pushing left =>
    cases left with
    | zero => exact ⟨rfl,rfl,rfl,rfl⟩
    | succ left =>
      refine ⟨?_,rfl,rfl,rfl⟩
      change (s.pushed ++ [none]).filterMap id = _
      rw [List.filterMap_append]
      exact List.append_nil _
  | joining left =>
    cases left with
    | zero => exact ⟨rfl,rfl,rfl,rfl⟩
    | succ left =>
      rw [proceed]
      split <;> exact ⟨rfl,rfl,rfl,rfl⟩
  | _ => exact ⟨rfl,rfl,rfl,rfl⟩

theorem Owned.closing (owned : s.Owned owner) (joins : owner.Joins) : s.Closing := by
  have signed := owned.signs
  rcases joins with ⟨left,rfl⟩ | rfl
  · exact signed
  · exact signed

theorem close_joins (joins : owner.Joins) : (s.close owner).Joins := by
  rcases joins with ⟨left,rfl⟩ | rfl
  · exact .inl ⟨left,rfl⟩
  · exact .inr rfl

theorem proceed_joins (s : Pool ι) (joins : owner.Joins) :
    (s.proceed owner).2.Joins ∧ (s.proceed owner).1.weight = s.weight := by
  rcases joins with ⟨left,rfl⟩ | rfl
  · cases left with
    | zero => exact ⟨.inr rfl,rfl⟩
    | succ left =>
      rw [proceed]
      split
      · exact ⟨.inl ⟨left,rfl⟩,rfl⟩
      · exact ⟨.inl ⟨left + 1,rfl⟩,rfl⟩
  · exact ⟨.inr rfl,rfl⟩

theorem Owned.gone (owned : s.Owned .closed) : s.goneThreads = s.threads.length := by
  refine List.countP_eq_length.mpr fun t member => ?_
  obtain ⟨i,there⟩ := List.mem_iff_getElem?.mp member
  rw [owned.joined i (List.getElem?_eq_some_iff.mp there).1] at there
  rw [← Option.some.inj there]
  rfl

/-- When the owner is done, what is left was pushed behind the last sign. -/
theorem Owned.leaves (owned : s.Owned .closed) (some : 0 < s.threads.length) :
    ∃ first last, s.pushed = first ++ none :: last ∧ Pool.signs last = 0 ∧
      ∀ work ∈ s.queue.filterMap id, Option.some work ∈ last := by
  obtain ⟨first,last,parts,noSign,behind⟩ := owned.kept.left_behind (owned.closing (.inr rfl)) owned.gone some
  refine ⟨first,last,parts,noSign,fun work member => ?_⟩
  obtain ⟨item,queued,same⟩ := List.mem_filterMap.mp member
  exact behind.subset (same ▸ queued)

end Pool
end Citrusleaf.Lib
