import Citrusleaf.NodeSockets

/-! Runs of the calls on a node. The books are kept with lists in place of the rings; the rings
follow the lists. -/
namespace Citrusleaf.NodeSockets
open Lib Shm

/-! ### System calls -/

section

variable {k base after : Kernel} {fd : Nat} {r : Option Nat} {places others : List (List Nat)}

/-- What becomes of the kernel where a descriptor is made, or -1 is returned. -/
structure Makes (k : Kernel) (r : Option Nat) (after : Kernel) : Prop where
  opened : after.opened = r.toList ++ k.opened
  fresh : ∀ fd, r = some fd → fd ∉ k.opened ∧ fd < 2 ^ 31 ∧ after.nonblocking fd = true
  kept : ∀ fd ∈ k.opened, after.nonblocking fd = k.nonblocking fd
  strays : after.strays = k.strays

/-- A socket was made since `base`. -/
structure Fresh (base : Kernel) (fd : Nat) (k : Kernel) : Prop where
  opened : k.opened = fd :: base.opened
  fresh : fd ∉ base.opened
  word : fd < 2 ^ 31
  kept : ∀ other ∈ base.opened, k.nonblocking other = base.nonblocking other
  strays : k.strays = base.strays

theorem Makes.nothing (k : Kernel) : Makes k none k := ⟨rfl,nofun,fun _ _ => rfl,rfl⟩

theorem Fresh.nonblock (fresh : Fresh base fd k) : Fresh base fd (k.setNonblock fd) := by
  refine ⟨fresh.opened,fresh.fresh,fresh.word,fun other member => ?_,fresh.strays⟩
  have different : other ≠ fd := fun same => fresh.fresh (same ▸ member)
  exact (Function.update_of_ne different _ _).trans (fresh.kept other member)

theorem Fresh.close (fresh : Fresh base fd k) : Makes base none (k.close fd) := by
  have there : fd ∈ k.opened := by
    rw [fresh.opened]
    exact List.mem_cons_self
  rw [Kernel.close,if_pos there]
  refine ⟨?_,nofun,fresh.kept,fresh.strays⟩
  change k.opened.erase fd = base.opened
  rw [fresh.opened,List.erase_cons_head]

theorem Fresh.given (fresh : Fresh base fd k) (set : k.nonblocking fd = true) : Makes base (some fd) k := by
  refine ⟨fresh.opened,?_,fresh.kept,fresh.strays⟩
  rintro _ ⟨⟩
  exact ⟨fresh.fresh,fresh.word,set⟩

theorem nonblock_set (k : Kernel) (fd : Nat) : (k.setNonblock fd).nonblocking fd = true := Function.update_self ..

/-- A socket is new, or -1. -/
theorem socket_fresh (k : Kernel) (answer : Option Nat) :
    k.socket answer = (none,k) ∨ ∃ fd after, k.socket answer = (some fd,after) ∧ Fresh k fd after := by
  cases answer with
  | none => exact .inl rfl
  | some fd =>
    rw [Kernel.socket.eq_def]
    dsimp only
    split
    · exact .inl rfl
    · rename_i given
      rw [not_or,Nat.not_le] at given
      refine .inr ⟨fd,_,rfl,rfl,given.1,given.2,fun other member => ?_,rfl⟩
      have different : other ≠ fd := fun same => given.1 (same ▸ member)
      exact Function.update_of_ne different _ _

theorem connectLoop_makes (fresh : Fresh base fd k) (nonblocking : Bool) (answers : FdAnswers)
    (set : nonblocking = true → k.nonblocking fd = true) (addresses : List SockaddrIn) :
    Makes base (connectLoop nonblocking answers fd addresses k).1 (connectLoop nonblocking answers fd addresses k).2 := by
  induction addresses with
  | nil => exact fresh.close
  | cons saIn addresses ih =>
    rw [connectLoop]
    cases answers.connect saIn with
    | connected =>
      dsimp only
      split
      · exact fresh.nonblock.given (nonblock_set k fd)
      · exact fresh.close
    | inProgress =>
      dsimp only
      split
      · rename_i wanted
        exact fresh.given (set wanted)
      · exact ih
    | failed => exact ih

theorem fdCreate_makes (addresses : List SockaddrIn) (nonblocking : Bool) (answers : FdAnswers) (k : Kernel) :
    Makes k (clClusterNodeFdCreate addresses nonblocking answers k).1
      (clClusterNodeFdCreate addresses nonblocking answers k).2 := by
  rw [clClusterNodeFdCreate]
  rcases socket_fresh k answers.socket with none | ⟨fd,after,some,fresh⟩
  · rw [none]
    exact .nothing k
  · rw [some]
    dsimp only
    split
    · split
      · exact connectLoop_makes fresh.nonblock nonblocking answers (fun _ => nonblock_set after fd) addresses
      · exact fresh.close
    · rename_i blocking
      exact connectLoop_makes fresh nonblocking answers (fun set => absurd set blocking) addresses

theorem createAndConnectNb_makes (answers : NbAnswers) (k : Kernel) :
    Makes k (cfSocketCreateAndConnectNb answers k).1 (cfSocketCreateAndConnectNb answers k).2 := by
  rw [cfSocketCreateAndConnectNb,cfSocketCreateNb]
  rcases socket_fresh k answers.socket with none | ⟨fd,after,some,fresh⟩
  · rw [none]
    exact .nothing k
  · rw [some]
    dsimp only
    split
    · rename_i failed
      split at failed
      · obtain rfl := congrArg Prod.snd failed
        exact fresh.close
      · split at failed
        · obtain rfl := congrArg Prod.snd failed
          exact fresh.close
        · cases failed
    · rename_i given
      split at given
      · cases given
      · split at given
        · cases given
        · obtain ⟨same,rfl⟩ := Prod.mk.inj given
          obtain rfl := Option.some.inj same
          cases answers.connect with
          | connected | inProgress => exact fresh.nonblock.given (nonblock_set after fd)
          | failed => exact fresh.nonblock.close

theorem infoLoop_makes (answers : SockaddrIn → NbAnswers) (addresses : List SockaddrIn) (k : Kernel) :
    Makes k (infoLoop answers addresses k).1 (infoLoop answers addresses k).2 := by
  induction addresses generalizing k with
  | nil => exact .nothing k
  | cons saIn addresses ih =>
    have first := createAndConnectNb_makes (answers saIn) k
    rw [infoLoop]
    cases made : cfSocketCreateAndConnectNb (answers saIn) k with
    | mk r after =>
      rw [made] at first
      cases r with
      | some fd => exact first
      | none =>
        have later := ih after
        have same : after.opened = k.opened := first.opened
        refine ⟨later.opened.trans (by rw [same]),fun fd given => ?_,fun fd member => ?_,later.strays.trans first.strays⟩
        · rw [← same]
          exact later.fresh fd given
        · exact (later.kept fd (same ▸ member)).trans (first.kept fd member)

/-! ### The books -/

/-- The books of the kernel and of those that have descriptors. -/
structure Books (k : Kernel) (places : List (List Nat)) : Prop where
  custody : Custody k.opened places
  word : ∀ fd ∈ k.opened, fd < 2 ^ 31
  nonblocking : ∀ fd ∈ k.opened, k.nonblocking fd = true
  strays : k.strays = []

theorem Books.moved (books : Books k places) (same : others.flatten.Perm places.flatten) : Books k others :=
  ⟨books.custody.moved same,books.word,books.nonblocking,books.strays⟩

theorem Books.close (books : Books k places) (less : places.flatten.Perm (fd :: others.flatten)) :
    Books (k.close fd) others := by
  obtain ⟨there,custody⟩ := books.custody.closes less
  rw [Kernel.close,if_pos there]
  exact ⟨custody,fun other member => books.word other (List.mem_of_mem_erase member),
    fun other member => books.nonblocking other (List.mem_of_mem_erase member),books.strays⟩

theorem Books.make (books : Books k places) (makes : Makes k r after)
    (more : others.flatten.Perm (r.toList ++ places.flatten)) : Books after others := by
  have strays := makes.strays.trans books.strays
  cases r with
  | none =>
    have same : after.opened = k.opened := makes.opened
    refine ⟨?_,fun fd member => books.word fd (same ▸ member),fun fd member => ?_,strays⟩
    · rw [same]
      exact books.custody.moved more
    · rw [same] at member
      exact (makes.kept fd member).trans (books.nonblocking fd member)
  | some fd =>
    have same : after.opened = fd :: k.opened := makes.opened
    obtain ⟨fresh,word,set⟩ := makes.fresh fd rfl
    refine ⟨?_,fun other member => ?_,fun other member => ?_,strays⟩
    · rw [same]
      exact books.custody.opens fresh more
    · rw [same] at member
      rcases List.mem_cons.mp member with rfl | old
      · exact word
      · exact books.word other old
    · rw [same] at member
      rcases List.mem_cons.mp member with rfl | old
      · exact set
      · exact (makes.kept other old).trans (books.nonblocking other old)

/-- Draining a list closes all of it. -/
theorem Books.drain {q : List Nat} (books : Books k (q :: others)) (enough : q.length < turns) :
    (ClClusterNode.drain fifoPool turns q k).1 = [] ∧ Books (ClClusterNode.drain fifoPool turns q k).2 ([] :: others) := by
  induction turns generalizing q k with
  | zero => exact absurd enough (Nat.not_lt_zero _)
  | succ turns ih =>
    cases q with
    | nil => exact ⟨rfl,books⟩
    | cons fd q => exact ih (books.close (.refl _)) (Nat.lt_of_succ_lt_succ enough)

end

/-! ### Steps -/

namespace ClClusterNode

/-- Where the descriptors of a node are. -/
def places (cn : ClClusterNode κ) (idle : κ → List Nat) : List (List Nat) :=
  [idle cn.connQ,idle cn.connQAsyncfd,cn.infoFd.toList,cn.held]

/-- Every open descriptor is idle in one queue, kept for info requests, or held by a transaction, once; it does
not block; no other descriptor was ever closed; the first queue keeps to its limit; and nothing is open
behind the last release. -/
structure Accounted (idle : κ → List Nat) (cn : ClClusterNode κ) : Prop where
  books : Books cn.kernel (cn.places idle)
  limit : (idle cn.connQ).length ≤ connLimit.toNat
  freed : cn.live = false → cn.kernel.opened = []

variable {cn : ClClusterNode (List Nat)}

/-- An idle descriptor, or a new one where none is idle. -/
theorem popOrCreate_cases (addresses : List SockaddrIn) (nonblocking : Bool) (answers : FdAnswers) (q : List Nat) (k : Kernel) :
    (∃ fd rest, q = fd :: rest ∧ popOrCreate fifoPool addresses nonblocking answers q k = (some fd,rest,k)) ∨
      (q = [] ∧ ∃ r after, popOrCreate fifoPool addresses nonblocking answers q k = (r,[],after) ∧ Makes k r after) := by
  cases q with
  | nil => exact .inr ⟨rfl,_,_,rfl,fdCreate_makes addresses nonblocking answers k⟩
  | cons fd rest => exact .inl ⟨fd,rest,rfl,rfl⟩

theorem Accounted.fdGet (acc : cn.Accounted id) (live : cn.live = true) (asyncfd nbconnect : Bool) (answers : FdAnswers) :
    (clClusterNodeFdGet fifoPool cn asyncfd nbconnect answers).Accounted id := by
  have gone (made : Kernel) : cn.live = false → made.opened = [] := fun dead => absurd (live.symm.trans dead) Bool.noConfusion
  cases asyncfd with
  | true =>
    rw [clClusterNodeFdGet,if_pos rfl]
    rcases popOrCreate_cases cn.sockaddrInV true answers cn.connQAsyncfd cn.kernel with
      ⟨fd,rest,left,got⟩ | ⟨left,r,after,got,makes⟩
    · rw [got]
      refine ⟨acc.books.moved ?_,acc.limit,gone _⟩
      refine List.perm_iff_count.mpr fun other => ?_
      simp [places,left,List.count_append,List.count_cons]
      omega
    · rw [got]
      refine ⟨acc.books.make makes ?_,acc.limit,gone _⟩
      refine List.perm_iff_count.mpr fun other => ?_
      simp [places,left,List.count_append]
      omega
  | false =>
    rw [clClusterNodeFdGet,if_neg Bool.false_ne_true]
    rcases popOrCreate_cases cn.sockaddrInV nbconnect answers cn.connQ cn.kernel with
      ⟨fd,rest,left,got⟩ | ⟨left,r,after,got,makes⟩
    · rw [got]
      have limit := acc.limit
      rw [id,left] at limit
      refine ⟨acc.books.moved ?_,Nat.le_of_succ_le limit,gone _⟩
      refine List.perm_iff_count.mpr fun other => ?_
      simp [places,left,List.count_append,List.count_cons]
      omega
    · rw [got]
      refine ⟨acc.books.make makes ?_,Nat.zero_le _,gone _⟩
      refine List.perm_iff_count.mpr fun other => ?_
      simp [places,left,List.count_append]
      omega

/-- A held descriptor leaves those that hold it. -/
theorem count_erased {held : List Nat} {fd : Nat} (member : fd ∈ held) (other : Nat) :
    held.count other = (held.erase fd).count other + if fd = other then 1 else 0 := by
  rw [(List.perm_cons_erase member).count_eq other,List.count_cons]
  simp

theorem Accounted.fdPut (acc : cn.Accounted id) (live : cn.live = true) {fd : Nat} (member : fd ∈ cn.held) (asyncfd : Bool) :
    (clClusterNodeFdPut fifoPool cn fd asyncfd).Accounted id := by
  have gone (made : Kernel) : cn.live = false → made.opened = [] := fun dead => absurd (live.symm.trans dead) Bool.noConfusion
  have erased := count_erased member
  cases asyncfd with
  | true =>
    rw [clClusterNodeFdPut,if_pos rfl]
    refine ⟨acc.books.moved ?_,acc.limit,gone _⟩
    refine List.perm_iff_count.mpr fun other => ?_
    simp [places,fifoPool,Fifo.push,List.count_append,List.count_cons,erased other]
    omega
  | false =>
    rw [clClusterNodeFdPut,if_neg Bool.false_ne_true]
    by_cases room : cn.connQ.length < connLimit.toNat
    · rw [show fifoPool.pushLimit cn.connQ fd connLimit = (true,cn.connQ ++ [fd]) from if_pos room]
      refine ⟨acc.books.moved ?_,?_,gone _⟩
      · refine List.perm_iff_count.mpr fun other => ?_
        simp [places,List.count_append,List.count_cons,erased other]
        omega
      · change (cn.connQ ++ [fd]).length ≤ _
        rw [List.length_append]
        exact room
    · rw [show fifoPool.pushLimit cn.connQ fd connLimit = (false,cn.connQ) from if_neg room]
      refine ⟨acc.books.close ?_,acc.limit,gone _⟩
      refine List.perm_iff_count.mpr fun other => ?_
      simp [places,List.count_append,List.count_cons,erased other]
      omega

theorem Accounted.closeFd (acc : cn.Accounted id) (live : cn.live = true) {fd : Nat} (member : fd ∈ cn.held) :
    Accounted id {cn with held := cn.held.erase fd,kernel := cn.kernel.close fd} := by
  refine ⟨acc.books.close ?_,acc.limit,fun dead => absurd (live.symm.trans dead) Bool.noConfusion⟩
  refine List.perm_iff_count.mpr fun other => ?_
  simp [places,List.count_append,List.count_cons,count_erased member other]
  omega

theorem Accounted.prepInfoFd (acc : cn.Accounted id) (live : cn.live = true) (answers : SockaddrIn → NbAnswers) :
    (cn.clClusterNodePrepInfoFd answers).2.Accounted id ∧ (cn.clClusterNodePrepInfoFd answers).2.live = true := by
  rw [clClusterNodePrepInfoFd]
  cases kept : cn.infoFd with
  | some fd => exact ⟨acc,live⟩
  | none =>
    have makes := infoLoop_makes answers cn.sockaddrInV cn.kernel
    refine ⟨⟨acc.books.make makes ?_,acc.limit,fun dead => absurd (live.symm.trans dead) Bool.noConfusion⟩,live⟩
    refine List.perm_iff_count.mpr fun other => ?_
    simp [places,kept,List.count_append]
    omega

theorem closeInfoFd_books (books : Books cn.kernel (cn.places id)) :
    Books cn.clClusterNodeCloseInfoFd.kernel [cn.connQ,cn.connQAsyncfd,[],cn.held] := by
  rw [clClusterNodeCloseInfoFd]
  cases kept : cn.infoFd with
  | none =>
    rw [places,kept] at books
    exact books
  | some fd =>
    refine books.close ?_
    refine List.perm_iff_count.mpr fun other => ?_
    simp [places,kept,List.count_append,List.count_cons]
    omega

theorem Accounted.closeInfoFd (acc : cn.Accounted id) (live : cn.live = true) : cn.clClusterNodeCloseInfoFd.Accounted id := by
  have books := closeInfoFd_books acc.books
  rw [clClusterNodeCloseInfoFd] at books ⊢
  cases kept : cn.infoFd with
  | none => exact acc
  | some fd =>
    rw [kept] at books
    exact ⟨books,acc.limit,fun dead => absurd (live.symm.trans dead) Bool.noConfusion⟩

theorem Accounted.getInfo (acc : cn.Accounted id) (live : cn.live = true) (call : InfoCall) : (cn.getInfo call).Accounted id := by
  obtain ⟨ready,still⟩ := acc.prepInfoFd live call.answers
  rw [ClClusterNode.getInfo]
  generalize cn.clClusterNodePrepInfoFd call.answers = made at ready still
  dsimp only
  split
  · split
    · exact ready.closeInfoFd still
    · exact ready
  · exact ready

/-- Without anything idle or held, closing the descriptor of the info requests leaves nothing open. -/
theorem closeInfoFd_last (books : Books cn.kernel (cn.places id)) (idle : cn.connQ = []) (idleAsync : cn.connQAsyncfd = [])
    (none : cn.held = []) : cn.clClusterNodeCloseInfoFd.Accounted id := by
  have closed := closeInfoFd_books books
  rw [idle,idleAsync,none] at closed
  have nothing : cn.clClusterNodeCloseInfoFd.kernel.opened = [] := List.nil_perm.mp closed.custody.placed
  refine ⟨closed.moved ?_,?_,fun _ => nothing⟩ <;> rw [clClusterNodeCloseInfoFd]
  · cases kept : cn.infoFd <;> simp [places,idle,idleAsync,none,kept]
  · cases cn.infoFd <;> simp [idle]

/-- The last release closes what is idle, and the descriptor of the info requests. -/
theorem Accounted.release (acc : cn.Accounted id) (none : cn.held = []) : (clClusterNodeRelease fifoPool cn).Accounted id := by
  have start : Books cn.kernel [cn.connQ,cn.connQAsyncfd,cn.infoFd.toList,cn.held] := acc.books
  obtain ⟨first,books⟩ := start.drain (Nat.lt_add_one cn.connQ.length)
  have one : drain fifoPool (fifoPool.sz cn.connQ + 1) cn.connQ cn.kernel =
      ([],(drain fifoPool (cn.connQ.length + 1) cn.connQ cn.kernel).2) := Prod.ext first rfl
  generalize (drain fifoPool (cn.connQ.length + 1) cn.connQ cn.kernel).2 = kernel at one books
  have swapped : Books kernel [cn.connQAsyncfd,cn.infoFd.toList] := books.moved (by simp [none])
  obtain ⟨second,rest⟩ := swapped.drain (Nat.lt_add_one cn.connQAsyncfd.length)
  have two : drain fifoPool (fifoPool.sz cn.connQAsyncfd + 1) cn.connQAsyncfd kernel =
      ([],(drain fifoPool (cn.connQAsyncfd.length + 1) cn.connQAsyncfd kernel).2) := Prod.ext second rfl
  rw [clClusterNodeRelease,one]
  dsimp only
  rw [two]
  exact closeInfoFd_last (rest.moved (by simp [places,none])) rfl rfl none

theorem Accounted.step (acc : cn.Accounted id) (event : SocketEvent) : (step fifoPool cn event).Accounted id := by
  rw [step.eq_def]
  split
  · exact acc
  rename_i on
  have live : cn.live = true := eq_true_of_ne_false on
  cases event with
  | fdGet asyncfd nbconnect answers => exact acc.fdGet live asyncfd nbconnect answers
  | fdPut fd asyncfd =>
    dsimp only
    split
    · rename_i member
      exact acc.fdPut live member asyncfd
    · exact acc
  | closeFd fd =>
    dsimp only
    split
    · rename_i member
      exact acc.closeFd live member
    · exact acc
  | getInfo call => exact acc.getInfo live call
  | addAddress saIn =>
    dsimp only
    split
    · exact acc
    · exact ⟨acc.books,acc.limit,acc.freed⟩
  | release =>
    dsimp only
    split
    · rename_i none
      exact acc.release none
    · exact acc

theorem create_accounted (saIn : SockaddrIn) : (clClusterNodeCreate [] [] saIn).Accounted id :=
  ⟨⟨.none Nat 4,nofun,nofun,rfl⟩,Nat.zero_le _,fun _ => rfl⟩

/-! ### The rings -/

theorem fdElement_read {fd : Nat} (word : fd < 2 ^ 31) : leNat (fdElement fd).toList = fd :=
  leNat_leBytes_of_lt (Nat.lt_trans word (by decide))

/-- A node with rings, and the same node with lists. -/
structure Follows (r : ClClusterNode (CfQueue 4)) (t : ClClusterNode (List Nat)) : Prop where
  connQ : r.connQ.Ready (t.connQ.map fdElement)
  few : r.connQ.allocsz < connLimit.toNat + cfQueueAllocsz
  connQAsyncfd : r.connQAsyncfd.Ready (t.connQAsyncfd.map fdElement)
  sockaddrInV : r.sockaddrInV = t.sockaddrInV
  infoFd : r.infoFd = t.infoFd
  held : r.held = t.held
  kernel : r.kernel = t.kernel
  live : r.live = t.live

variable {q : CfQueue 4} {l : List Nat} {malloc : Malloc}

theorem pool_pop (ready : q.Ready (l.map fdElement)) (word : ∀ fd ∈ l, fd < 2 ^ 31) :
    ∃ after, (cfQueuePool malloc).pop q = ((Fifo.pop l).1,after) ∧ after.Ready ((Fifo.pop l).2.map fdElement) ∧
      after.allocsz = q.allocsz := by
  obtain ⟨after,popped,left,same⟩ := CfQueue.pop_holds ready
  cases l with
  | nil =>
    refine ⟨q,?_,ready,rfl⟩
    rw [cfQueuePool]
    dsimp only
    rw [popped]
    rfl
  | cons fd l =>
    refine ⟨after,?_,left,same⟩
    rw [cfQueuePool]
    dsimp only
    rw [popped]
    change (some (leNat (fdElement fd).toList),after) = (some fd,after)
    rw [fdElement_read (word fd List.mem_cons_self)]

theorem pool_push (gives : ∀ n, (malloc n).isSome) (ready : q.Ready (l.map fdElement)) (small : q.allocsz * 4 < 2 ^ 30)
    (fd : Nat) : ((cfQueuePool malloc).push q fd).Ready ((Fifo.push l fd).map fdElement) := by
  obtain ⟨after,pushed,left,_⟩ := CfQueue.push_holds gives ready small (by omega) (fdElement fd)
  rw [cfQueuePool]
  dsimp only
  rw [pushed,Fifo.push,List.map_append]
  exact left

/-- A queue grows only where it is full. -/
theorem grow_full {elementsz : Nat} {q after : CfQueue elementsz} (grown : cfQueueGrow malloc q = some (0,after)) :
    after = q ∨ q.sz = q.allocsz := by
  rw [cfQueueGrow] at grown
  split at grown
  · rename_i full
    exact .inr full
  · obtain ⟨_,rfl⟩ := Prod.mk.inj (Option.some.inj grown)
    exact .inl rfl

theorem pool_pushLimit (gives : ∀ n, (malloc n).isSome) (ready : q.Ready (l.map fdElement))
    (few : q.allocsz < connLimit.toNat + cfQueueAllocsz) (fd : Nat) :
    ∃ after, (cfQueuePool malloc).pushLimit q fd connLimit = ((Fifo.pushLimit l fd connLimit.toNat).1,after) ∧
      after.Ready ((Fifo.pushLimit l fd connLimit.toNat).2.map fdElement) ∧
      after.allocsz < connLimit.toNat + cfQueueAllocsz := by
  have bound : connLimit.toNat = 300 ∧ cfQueueAllocsz = 64 := ⟨rfl,rfl⟩
  have size : q.sz = l.length := by rw [ready.sz,List.length_map]
  rw [cfQueuePool]
  dsimp only
  by_cases below : l.length < connLimit.toNat
  · obtain ⟨grown,grow,larger,room,more⟩ := CfQueue.grow_holds gives ready (by omega) (by omega)
    obtain ⟨after,stored,done,same⟩ := CfQueue.store_holds larger room (fdElement fd)
    refine ⟨after,?_,?_,?_⟩
    · simp [cfQueuePushLimit,size,Nat.not_le.mpr below,grow,stored,Fifo.pushLimit,below]
    · rw [Fifo.pushLimit,if_pos below,Fifo.push,List.map_append]
      exact done
    · rw [same]
      rcases grow_full grow with rfl | full
      · exact few
      · omega
  · refine ⟨q,?_,?_,few⟩
    · simp [cfQueuePushLimit,size,Nat.not_lt.mp below,Fifo.pushLimit,below]
    · rw [Fifo.pushLimit,if_neg below]
      exact ready

/-- Both drains close the same descriptors. -/
theorem drain_follows (ready : q.Ready (l.map fdElement)) (word : ∀ fd ∈ l, fd < 2 ^ 31) (turns : Nat) (k : Kernel) :
    (drain (cfQueuePool malloc) turns q k).2 = (drain fifoPool turns l k).2 ∧
      (drain (cfQueuePool malloc) turns q k).1.Ready ((drain fifoPool turns l k).1.map fdElement) ∧
      (drain (cfQueuePool malloc) turns q k).1.allocsz = q.allocsz := by
  induction turns generalizing q l k with
  | zero => exact ⟨rfl,ready,rfl⟩
  | succ turns ih =>
    obtain ⟨after,popped,left,same⟩ := @pool_pop q l malloc ready word
    rw [drain,drain,popped]
    cases l with
    | nil => exact ⟨rfl,left,same⟩
    | cons fd l =>
      obtain ⟨kernels,queues,sizes⟩ := @ih after l left (fun other member => word other (List.mem_cons_of_mem _ member)) (k.close fd)
      exact ⟨kernels,queues,sizes.trans same⟩

section

variable {r : ClClusterNode (CfQueue 4)} {t : ClClusterNode (List Nat)}

/-- What is idle is an `int`. -/
theorem Accounted.words (acc : t.Accounted id) : (∀ fd ∈ t.connQ, fd < 2 ^ 31) ∧ ∀ fd ∈ t.connQAsyncfd, fd < 2 ^ 31 :=
  ⟨fun fd member => acc.books.word fd (acc.books.custody.mem (l := t.connQ) (by simp [places]) member),
    fun fd member => acc.books.word fd (acc.books.custody.mem (l := t.connQAsyncfd) (by simp [places]) member)⟩

theorem Follows.fdGet (follows : Follows r t) (acc : t.Accounted id) (asyncfd nbconnect : Bool) (answers : FdAnswers) :
    Follows (clClusterNodeFdGet (cfQueuePool malloc) r asyncfd nbconnect answers)
      (clClusterNodeFdGet fifoPool t asyncfd nbconnect answers) := by
  obtain ⟨words,wordsAsync⟩ := acc.words
  cases asyncfd with
  | true =>
    obtain ⟨after,popped,left,_⟩ := @pool_pop _ _ malloc follows.connQAsyncfd wordsAsync
    rw [clClusterNodeFdGet,clClusterNodeFdGet,if_pos rfl,if_pos rfl,popOrCreate,popOrCreate,popped,follows.sockaddrInV,
      follows.kernel,follows.held]
    cases idle : t.connQAsyncfd with
    | nil =>
      rw [idle] at left
      exact ⟨follows.connQ,follows.few,left,rfl,follows.infoFd,rfl,rfl,follows.live⟩
    | cons fd rest =>
      rw [idle] at left
      exact ⟨follows.connQ,follows.few,left,rfl,follows.infoFd,rfl,rfl,follows.live⟩
  | false =>
    obtain ⟨after,popped,left,same⟩ := @pool_pop _ _ malloc follows.connQ words
    have few := follows.few
    rw [← same] at few
    rw [clClusterNodeFdGet,clClusterNodeFdGet,if_neg Bool.false_ne_true,if_neg Bool.false_ne_true,popOrCreate,popOrCreate,
      popped,follows.sockaddrInV,follows.kernel,follows.held]
    cases idle : t.connQ with
    | nil =>
      rw [idle] at left
      exact ⟨left,few,follows.connQAsyncfd,rfl,follows.infoFd,rfl,rfl,follows.live⟩
    | cons fd rest =>
      rw [idle] at left
      exact ⟨left,few,follows.connQAsyncfd,rfl,follows.infoFd,rfl,rfl,follows.live⟩

theorem Follows.fdPut (gives : ∀ n, (malloc n).isSome) (follows : Follows r t) (small : r.connQAsyncfd.allocsz * 4 < 2 ^ 30)
    (fd : Nat) (asyncfd : Bool) :
    Follows (clClusterNodeFdPut (cfQueuePool malloc) r fd asyncfd) (clClusterNodeFdPut fifoPool t fd asyncfd) := by
  have held : r.held.erase fd = t.held.erase fd := by rw [follows.held]
  cases asyncfd with
  | true =>
    rw [clClusterNodeFdPut,clClusterNodeFdPut,if_pos rfl,if_pos rfl]
    exact ⟨follows.connQ,follows.few,pool_push gives follows.connQAsyncfd small fd,follows.sockaddrInV,follows.infoFd,
      held,follows.kernel,follows.live⟩
  | false =>
    obtain ⟨after,pushed,left,few⟩ := pool_pushLimit gives follows.connQ follows.few fd
    have same : fifoPool.pushLimit t.connQ fd connLimit = Fifo.pushLimit t.connQ fd connLimit.toNat := rfl
    rw [clClusterNodeFdPut,clClusterNodeFdPut,if_neg Bool.false_ne_true,if_neg Bool.false_ne_true,pushed,same]
    cases limited : Fifo.pushLimit t.connQ fd connLimit.toNat with
    | mk done rest =>
      rw [limited] at left
      cases done with
      | true => exact ⟨left,few,follows.connQAsyncfd,follows.sockaddrInV,follows.infoFd,held,follows.kernel,follows.live⟩
      | false =>
        exact ⟨left,few,follows.connQAsyncfd,follows.sockaddrInV,follows.infoFd,held,
          congrArg (Kernel.close · fd) follows.kernel,follows.live⟩

theorem Follows.prepInfoFd (follows : Follows r t) (answers : SockaddrIn → NbAnswers) :
    (r.clClusterNodePrepInfoFd answers).1 = (t.clClusterNodePrepInfoFd answers).1 ∧
      Follows (r.clClusterNodePrepInfoFd answers).2 (t.clClusterNodePrepInfoFd answers).2 := by
  rw [clClusterNodePrepInfoFd,clClusterNodePrepInfoFd,follows.infoFd]
  cases kept : t.infoFd with
  | some fd => exact ⟨rfl,follows⟩
  | none =>
    rw [follows.sockaddrInV,follows.kernel]
    exact ⟨rfl,follows.connQ,follows.few,follows.connQAsyncfd,rfl,rfl,follows.held,rfl,follows.live⟩

theorem Follows.closeInfoFd (follows : Follows r t) : Follows r.clClusterNodeCloseInfoFd t.clClusterNodeCloseInfoFd := by
  rw [clClusterNodeCloseInfoFd,clClusterNodeCloseInfoFd,follows.infoFd]
  cases t.infoFd with
  | none => exact follows
  | some fd =>
    exact ⟨follows.connQ,follows.few,follows.connQAsyncfd,follows.sockaddrInV,rfl,follows.held,
      congrArg (Kernel.close · fd) follows.kernel,follows.live⟩

theorem Follows.getInfo (follows : Follows r t) (call : InfoCall) : Follows (r.getInfo call) (t.getInfo call) := by
  obtain ⟨prepared,later⟩ := follows.prepInfoFd call.answers
  rw [ClClusterNode.getInfo,ClClusterNode.getInfo]
  dsimp only
  rw [prepared]
  split
  · split
    · exact later.closeInfoFd
    · exact later
  · exact later

theorem Follows.release (follows : Follows r t) (acc : t.Accounted id) :
    Follows (clClusterNodeRelease (cfQueuePool malloc) r) (clClusterNodeRelease fifoPool t) := by
  obtain ⟨words,wordsAsync⟩ := acc.words
  have size : (cfQueuePool malloc).sz r.connQ = fifoPool.sz t.connQ := follows.connQ.sz.trans (List.length_map _)
  have sizeAsync : (cfQueuePool malloc).sz r.connQAsyncfd = fifoPool.sz t.connQAsyncfd :=
    follows.connQAsyncfd.sz.trans (List.length_map _)
  obtain ⟨kernels,queues,few⟩ := @drain_follows _ _ malloc follows.connQ words (fifoPool.sz t.connQ + 1) t.kernel
  obtain ⟨kernelsAsync,queuesAsync,_⟩ := @drain_follows _ _ malloc follows.connQAsyncfd wordsAsync
    (fifoPool.sz t.connQAsyncfd + 1) (drain fifoPool (fifoPool.sz t.connQ + 1) t.connQ t.kernel).2
  rw [clClusterNodeRelease,clClusterNodeRelease,size,sizeAsync,follows.kernel]
  dsimp only
  rw [kernels]
  refine Follows.closeInfoFd ⟨queues,?_,queuesAsync,follows.sockaddrInV,follows.infoFd,follows.held,kernelsAsync,rfl⟩
  rw [few]
  exact follows.few

/-- While the second ring is small, a node with rings follows the same node with lists. -/
theorem Follows.step (gives : ∀ n, (malloc n).isSome) (follows : Follows r t) (acc : t.Accounted id)
    (small : r.connQAsyncfd.allocsz * 4 < 2 ^ 30) (event : SocketEvent) :
    Follows (step (cfQueuePool malloc) r event) (step fifoPool t event) := by
  rw [step.eq_def,step.eq_def,follows.live]
  split
  · exact follows
  cases event with
  | fdGet asyncfd nbconnect answers => exact follows.fdGet acc asyncfd nbconnect answers
  | fdPut fd asyncfd =>
    dsimp only
    rw [follows.held]
    split
    · exact follows.fdPut gives small fd asyncfd
    · exact follows
  | closeFd fd =>
    dsimp only
    rw [follows.held]
    split
    · exact ⟨follows.connQ,follows.few,follows.connQAsyncfd,follows.sockaddrInV,follows.infoFd,rfl,
        congrArg (Kernel.close · fd) follows.kernel,rfl⟩
    · exact follows
  | getInfo call => exact follows.getInfo call
  | addAddress saIn =>
    dsimp only
    rw [follows.sockaddrInV]
    split
    · exact follows
    · exact ⟨follows.connQ,follows.few,follows.connQAsyncfd,rfl,follows.infoFd,follows.held,follows.kernel,rfl⟩
  | release =>
    dsimp only
    rw [follows.held]
    split
    · exact follows.release acc
    · exact follows

/-- The descriptors between the offsets of a ring. -/
def idleFds (q : CfQueue 4) : List Nat := q.contents.map leNat

theorem idleFds_ready (ready : q.Ready (l.map fdElement)) (word : ∀ fd ∈ l, fd < 2 ^ 31) : idleFds q = l := by
  rw [idleFds,ready.contents,List.map_map,List.map_map]
  exact (List.map_congr_left fun fd member => fdElement_read (word fd member)).trans (List.map_id l)

theorem Follows.accounted (follows : Follows r t) (acc : t.Accounted id) : r.Accounted idleFds := by
  obtain ⟨words,wordsAsync⟩ := acc.words
  have idle := idleFds_ready follows.connQ words
  have places : r.places idleFds = t.places id := by
    rw [ClClusterNode.places,ClClusterNode.places,idle,idleFds_ready follows.connQAsyncfd wordsAsync,follows.infoFd,
      follows.held]
    rfl
  refine ⟨?_,?_,fun dead => ?_⟩
  · rw [follows.kernel,places]
    exact acc.books
  · rw [idle]
    exact acc.limit
  · rw [follows.kernel]
    exact acc.freed (follows.live.symm.trans dead)

/-- The bytes of the second ring, whose elements nothing limits, stay below a gigabyte. -/
def AsyncSmall (r : ClClusterNode (CfQueue 4)) (_ : SocketEvent) : Prop := r.connQAsyncfd.allocsz * 4 < 2 ^ 30

theorem Follows.always (gives : ∀ n, (malloc n).isSome) (follows : Follows r t) (acc : t.Accounted id)
    (events : List SocketEvent) (small : Guarded (ClClusterNode.step (cfQueuePool malloc)) AsyncSmall r events) :
    Always (ClClusterNode.step (cfQueuePool malloc)) (Accounted idleFds) r events := by
  induction events generalizing r t with
  | nil => exact follows.accounted acc
  | cons event events ih =>
    obtain ⟨now,later⟩ := small
    exact ⟨follows.accounted acc,ih (follows.step gives acc now event) (acc.step event) later⟩

end

end ClClusterNode

/-- In every run of a node, whatever the order in which transactions and info requests come, each descriptor
that is open is in one place, once, and none is closed twice or by mistake; and the last release closes all. -/
theorem sockets_accounted (malloc : Malloc) (gives : ∀ n, (malloc n).isSome) (q asyncQ : CfQueue 4)
    (created : cfQueueCreate 4 malloc = some q) (createdAsync : cfQueueCreate 4 malloc = some asyncQ) (saIn : SockaddrIn)
    (events : List SocketEvent)
    (small : Guarded (ClClusterNode.step (cfQueuePool malloc)) ClClusterNode.AsyncSmall (.clClusterNodeCreate q asyncQ saIn)
      events) :
    Always (ClClusterNode.step (cfQueuePool malloc)) (ClClusterNode.Accounted ClClusterNode.idleFds)
      (.clClusterNodeCreate q asyncQ saIn) events := by
  obtain ⟨new,given,ready⟩ := @CfQueue.create_holds 4 malloc gives
  obtain rfl := Option.some.inj (given.symm.trans created)
  obtain rfl := Option.some.inj (given.symm.trans createdAsync)
  have few : new.allocsz < connLimit.toNat + cfQueueAllocsz := by
    rw [cfQueueCreate] at given
    obtain ⟨_,_,rfl⟩ := Option.map_eq_some_iff.mp given
    exact (by decide : cfQueueAllocsz < connLimit.toNat + cfQueueAllocsz)
  have follows : ClClusterNode.Follows (.clClusterNodeCreate new new saIn) (.clClusterNodeCreate [] [] saIn) :=
    ⟨ready,few,ready,rfl,rfl,rfl,rfl,rfl⟩
  exact follows.always gives (ClClusterNode.create_accounted saIn) events small

/-- A socket that connects. -/
def sampleFd (fd : Nat) : FdAnswers := ⟨some fd,true,fun _ => .connected,true⟩

def sampleMalloc : Malloc := fun _ => some fun _ => 0

def sampleRing : CfQueue 4 := ⟨64,0,0,(List.range 256).map fun _ => 0⟩

def sampleEvents : List SocketEvent :=
  [.fdGet true false (sampleFd 5),.fdGet true false (sampleFd 6),.fdPut 5 true,.closeFd 6,.release]

theorem sockets_accounted_sample :
    cfQueueCreate 4 sampleMalloc = some sampleRing ∧
      Always (ClClusterNode.step (cfQueuePool sampleMalloc)) (ClClusterNode.Accounted ClClusterNode.idleFds)
        (.clClusterNodeCreate sampleRing sampleRing (Vector.replicate 16 0)) sampleEvents := by
  have created : cfQueueCreate 4 sampleMalloc = some sampleRing := by rw [cfQueueCreate,mallocBlock]; rfl
  have small : (64 : Nat) * 4 < 2 ^ 30 := by decide
  refine ⟨created,sockets_accounted sampleMalloc (fun _ => rfl) sampleRing sampleRing created created _ sampleEvents ?_⟩
  refine ⟨small,small,small,?_,?_,trivial⟩ <;> (rw [ClClusterNode.AsyncSmall]; decide +kernel)

end Citrusleaf.NodeSockets
