import Citrusleaf.ClusterDestroy

/-! Every cluster is in one place at a time: new, in the list, being destroyed or freed. A cluster
that somebody refers to is in the list and not yet unlinked, so only the walks can meet one that
was freed: that of a lookup, between the last decrement and the unlinking, and that of the tender. -/
namespace Citrusleaf.ClusterDestroy
open Lib

/-- What the threads and the holders of clusters have to do with them, against the list, the
counts, and which clusters were created and freed. -/
structure Tracked (roles : List (Stage × Address)) (l : List Address) (refCount : Address → Nat) (freed : Address → Bool)
    (allocated : Nat) : Prop where
  counted : ∀ a, refCount a = roles.count (.fresh,a) + roles.count (.refers,a)
  once : ∀ a, roles.count (.fresh,a) + l.count a + roles.count (.frees,a) + (freed a).toNat = if a < allocated then 1 else 0
  unlinks : ∀ a, roles.count (.unlinks,a) = if a ∈ l ∧ refCount a = 0 then 1 else 0
  refers : ∀ a, roles.count (.refers,a) ≠ 0 → a ∈ l

namespace Tracked

variable {roles others : List (Stage × Address)} {l first later : List Address} {refCount : Address → Nat}
  {freed : Address → Bool} {allocated : Nat} {a : Address} {stage : Stage}

theorem perm (tracked : Tracked roles l refCount freed allocated) (same : roles.Perm others) :
    Tracked others l refCount freed allocated :=
  ⟨fun a => by simpa only [same.count_eq] using tracked.counted a,fun a => by simpa only [same.count_eq] using tracked.once a,
    fun a => by simpa only [same.count_eq] using tracked.unlinks a,fun a => by simpa only [same.count_eq] using tracked.refers a⟩

theorem listed (tracked : Tracked roles l refCount freed allocated) (member : a ∈ l) : freed a = false := by
  have once := tracked.once a
  have inside := List.count_pos_iff.mpr member
  cases gone : freed a with
  | false => rfl
  | true =>
    rw [gone,Bool.toNat_true] at once
    split at once <;> omega

/-- Whoever has to do with a cluster finds it. -/
theorem present (tracked : Tracked ((stage,a) :: others) l refCount freed allocated) : freed a = false := by
  have once := tracked.once a
  cases stage with
  | refers => exact tracked.listed (tracked.refers a (by simp))
  | unlinks =>
    have unlinks := tracked.unlinks a
    rw [List.count_cons_self] at unlinks
    split at unlinks
    · rename_i inside
      exact tracked.listed inside.1
    · omega
  | fresh | frees =>
    rw [List.count_cons_self] at once
    cases gone : freed a with
    | false => rfl
    | true =>
      rw [gone,Bool.toNat_true] at once
      split at once <;> omega

theorem create (tracked : Tracked roles l refCount freed allocated) :
    Tracked ((.fresh,allocated) :: roles) l (Function.update refCount allocated 1) freed (allocated + 1) := by
  have none := tracked.once allocated
  rw [if_neg (Nat.lt_irrefl allocated)] at none
  have outside : allocated ∉ l := fun inside => by
    have := List.count_pos_iff.mpr inside
    omega
  have unreferred : roles.count (.refers,allocated) = 0 := by
    by_contra referred
    exact outside (tracked.refers _ referred)
  constructor
  · intro a
    have counted := tracked.counted a
    by_cases same : a = allocated
    · subst same
      rw [Function.update_self]
      simp
      omega
    · rw [Function.update_of_ne same]
      simpa [List.count_cons,Ne.symm same] using counted
  · intro a
    have once := tracked.once a
    by_cases same : a = allocated
    · subst same
      simp
      omega
    · have bound : a < allocated + 1 ↔ a < allocated := Nat.lt_succ_iff_lt_or_eq.trans (or_iff_left same)
      simpa [List.count_cons,Ne.symm same,bound] using once
  · intro a
    have unlinks := tracked.unlinks a
    by_cases same : a = allocated
    · subst same
      simpa [outside] using unlinks
    · rw [Function.update_of_ne same]
      simpa using unlinks
  · intro a referred
    exact tracked.refers a (by simpa using referred)

theorem append (tracked : Tracked ((.fresh,a) :: others) l refCount freed allocated) :
    a ∉ l ∧ Tracked ((.refers,a) :: others) (l ++ [a]) refCount freed allocated := by
  have here := tracked.once a
  rw [List.count_cons_self] at here
  have outside : a ∉ l := fun inside => by
    have := List.count_pos_iff.mpr inside
    split at here <;> omega
  refine ⟨outside,⟨fun b => ?_,fun b => ?_,fun b => ?_,fun b referred => ?_⟩⟩
  · have counted := tracked.counted b
    by_cases same : b = a
    · subst same
      simp at counted ⊢
      omega
    · simpa [List.count_cons,Ne.symm same] using counted
  · have once := tracked.once b
    by_cases same : b = a
    · subst same
      simp at once ⊢
      omega
    · simpa [List.count_cons,Ne.symm same] using once
  · have unlinks := tracked.unlinks b
    have counted := tracked.counted b
    by_cases same : b = a
    · subst same
      have counts : refCount b ≠ 0 := by
        simp at counted
        omega
      simpa [outside,counts] using unlinks
    · simpa [same] using unlinks
  · by_cases same : b = a
    · simp [same]
    · exact List.mem_append_left _ (tracked.refers b (by simpa [List.count_cons,Ne.symm same] using referred))

/-- One reference more to a cluster that has some. -/
theorem increment (tracked : Tracked roles l refCount freed allocated) (inside : a ∈ l) (counts : refCount a ≠ 0) :
    Tracked ((.refers,a) :: roles) l (Function.update refCount a (refCount a + 1)) freed allocated := by
  refine ⟨fun b => ?_,fun b => ?_,fun b => ?_,fun b referred => ?_⟩
  · have counted := tracked.counted b
    by_cases same : b = a
    · subst same
      simp [counted,Nat.add_assoc]
    · simpa [List.count_cons,Function.update_of_ne same,Ne.symm same] using counted
  · simpa using tracked.once b
  · have unlinks := tracked.unlinks b
    by_cases same : b = a
    · subst same
      simpa [counts] using unlinks
    · simpa [Function.update_of_ne same] using unlinks
  · by_cases same : b = a
    · exact same ▸ inside
    · exact tracked.refers b (by simpa [List.count_cons,Ne.symm same] using referred)

/-- A reference is given up; who gives up the last one is to unlink the cluster. -/
theorem decrement (tracked : Tracked ((.refers,a) :: others) l refCount freed allocated) :
    Tracked (if refCount a - 1 = 0 then (.unlinks,a) :: others else others) l (Function.update refCount a (refCount a - 1)) freed
      allocated := by
  have inside := tracked.refers a (by simp)
  have here := tracked.counted a
  rw [List.count_cons_self] at here
  have unlinking := tracked.unlinks a
  rw [if_neg (by omega)] at unlinking
  simp at unlinking
  refine ⟨fun b => ?_,fun b => ?_,fun b => ?_,fun b referred => ?_⟩
  · have counted := tracked.counted b
    by_cases same : b = a
    · subst same
      simp at counted ⊢
      split
      · simp
        omega
      · omega
    · rw [Function.update_of_ne same]
      by_cases last : refCount a - 1 = 0 <;> simpa [last,List.count_cons,Ne.symm same] using counted
  · have once := tracked.once b
    by_cases last : refCount a - 1 = 0 <;> simpa [last] using once
  · have unlinks := tracked.unlinks b
    by_cases same : b = a
    · subst same
      rw [Function.update_self]
      split
      · rename_i last
        simp [inside,last,unlinking]
      · rename_i more
        simp [more,unlinking]
    · split <;> simpa [List.count_cons,Function.update_of_ne same,Ne.symm same] using unlinks
  · by_cases same : b = a
    · exact same ▸ inside
    · split at referred <;> exact tracked.refers b (by simpa [List.count_cons,Ne.symm same] using referred)

theorem unlinks_mem (tracked : Tracked ((.unlinks,a) :: others) l refCount freed allocated) : a ∈ l := by
  have unlinks := tracked.unlinks a
  rw [List.count_cons_self] at unlinks
  split at unlinks
  · rename_i last
    exact last.1
  · omega

theorem unlink (tracked : Tracked ((.unlinks,a) :: others) (first ++ a :: later) refCount freed allocated) :
    Tracked ((.frees,a) :: others) (first ++ later) refCount freed allocated := by
  have unlinking := tracked.unlinks a
  have counted := tracked.counted a
  have here := tracked.once a
  simp at unlinking counted here
  have last : refCount a = 0 := by
    split at unlinking
    · rename_i last
      exact last
    · omega
  have outside : a ∉ first ++ later := by
    rw [← List.count_eq_zero,List.count_append]
    split at here <;> omega
  refine ⟨fun b => ?_,fun b => ?_,fun b => ?_,fun b referred => ?_⟩
  · simpa using tracked.counted b
  · have once := tracked.once b
    by_cases same : b = a
    · subst same
      simp at once ⊢
      omega
    · simpa [List.count_cons,Ne.symm same] using once
  · have unlinks := tracked.unlinks b
    by_cases same : b = a
    · subst same
      simpa [outside,last] using unlinking
    · simpa [List.count_cons,Ne.symm same,same] using unlinks
  · have before := tracked.refers b (by simpa using referred)
    by_cases same : b = a
    · subst same
      simp at referred
      omega
    · simpa [same] using before

theorem free (tracked : Tracked ((.frees,a) :: others) l refCount freed allocated) :
    Tracked others l refCount (Function.update freed a true) allocated := by
  have gone := tracked.present
  refine ⟨fun b => ?_,fun b => ?_,fun b => ?_,fun b referred => ?_⟩
  · simpa using tracked.counted b
  · have once := tracked.once b
    by_cases same : b = a
    · subst same
      simp [gone] at once ⊢
      omega
    · simpa [List.count_cons,Function.update_of_ne same,Ne.symm same] using once
  · simpa using tracked.unlinks b
  · exact tracked.refers b (by simpa using referred)

end Tracked

/-! ### One step -/

def ClusterThread.walks : ClusterThread → Bool
  | looking _ _ => true
  | _ => false

namespace ClusterState

/-- A walk that holds the lock of the list is on an element of it, and the tender does not come to
a cluster that was freed. -/
structure InvOn (s : ClusterState) (l : List Address) : Prop extends Unharmed s where
  holds : s.clusterLl.Holds l
  tracked : Tracked s.roles l s.refCount s.freed s.allocated
  locked : s.threads.countP ClusterThread.walks = s.clusterLlLock.toNat
  walk : ∀ host asc, .looking host (some asc) ∈ s.threads → asc ∈ l
  ahead : ∀ e asc, s.tender.element = some e → Reaches s.clusterLl.next e asc → s.freed asc = false

def Inv (s : ClusterState) : Prop := ∃ l, s.InvOn l

variable {s : ClusterState} {l : List Address} {thread : Nat} {old new : ClusterThread} {asc e : Address} {stage : Stage}

/-- The roles of the others stay. -/
theorem roles_move (there : s.threads[thread]? = some old) (new : ClusterThread) :
    ∃ others, s.roles.Perm (old.role.toList ++ others) ∧ (s.move thread new).roles.Perm (new.role.toList ++ others) := by
  refine ⟨s.handles.map (.refers,·) ++ (s.threads.eraseIdx thread).filterMap ClusterThread.role,?_,?_⟩
  · have perm := filterMap_cons_perm ClusterThread.role (thread_perm there)
    exact (perm.append_left _).trans (List.perm_append_comm_assoc ..)
  · have perm := filterMap_cons_perm ClusterThread.role (moved_perm there new)
    exact (perm.append_left _).trans (List.perm_append_comm_assoc ..)

theorem use_of (gone : s.freed asc = false) : s.use asc = s := by
  rw [use,gone,Bool.or_false]

theorem InvOn.present (inv : s.InvOn l) (there : s.threads[thread]? = some old) (role : old.role = some (stage,asc)) :
    s.use asc = s := by
  obtain ⟨others,before,_⟩ := roles_move there old
  rw [role] at before
  exact use_of (inv.tracked.perm before).present

theorem InvOn.released (inv : s.InvOn l) (there : s.threads[thread]? = some old) (stays : old.walks = true) : s.clusterLlLock = true := by
  have walking : 0 < s.threads.countP ClusterThread.walks := List.countP_pos_iff.mpr ⟨old,List.mem_of_getElem? there,stays⟩
  rw [inv.locked] at walking
  exact Bool.toNat_eq_one.mp (by have := s.clusterLlLock.toNat_le; omega)

/-- A thread moves on and leaves the list; the lock is held as long as it walks. -/
theorem InvOn.move (inv : s.InvOn l) (there : s.threads[thread]? = some old) (new : ClusterThread) {refCount : Address → Nat}
    {freed : Address → Bool} {allocated : Nat} (change : ∀ others, Tracked (old.role.toList ++ others) l s.refCount s.freed s.allocated →
      Tracked (new.role.toList ++ others) l refCount freed allocated)
    {clusterLlLock : Bool} (locked : s.clusterLlLock.toNat + new.walks.toNat = clusterLlLock.toNat + old.walks.toNat)
    (walk : ∀ host asc, new = .looking host (some asc) → asc ∈ l)
    (ahead : ∀ e asc, s.tender.element = some e → Reaches s.clusterLl.next e asc → freed asc = false)
    (hosts : Address → List Host) (tenderRunning clsFreed : Address → Bool) :
    {s.move thread new with clusterLlLock,refCount,freed,allocated,hosts,tenderRunning,clsFreed}.InvOn l := by
  obtain ⟨others,before,after⟩ := roles_move there new
  have count := countP_moved ClusterThread.walks there new
  rw [inv.locked] at count
  refine ⟨⟨inv.unused,inv.linked⟩,inv.holds,?_,Nat.add_right_cancel (count.trans locked),fun host asc member => ?_,ahead⟩
  · exact (change others (inv.tracked.perm before)).perm after.symm
  · rcases List.mem_or_eq_of_mem_set member with member | same
    · exact inv.walk host asc member
    · exact walk host asc same.symm

/-- A thread that changes the list does so while no walk of a lookup is under way. -/
theorem InvOn.relink (inv : s.InvOn l) (there : s.threads[thread]? = some old) (free : s.clusterLlLock = false)
    (leaves : new.walks = false) {clusterLl : CfLl Address} {l' : List Address} (holds : clusterLl.Holds l')
    (change : ∀ others, Tracked (old.role.toList ++ others) l s.refCount s.freed s.allocated →
      Tracked (new.role.toList ++ others) l' s.refCount s.freed s.allocated)
    (ahead : ∀ e asc, s.tender.element = some e → Reaches clusterLl.next e asc → s.freed asc = false) :
    {s.move thread new with clusterLl}.InvOn l' := by
  obtain ⟨others,before,after⟩ := roles_move there new
  have none : s.threads.countP ClusterThread.walks = 0 := by
    rw [inv.locked,free]
    rfl
  have idle {t : ClusterThread} (member : t ∈ s.threads.set thread new) : t.walks = false := by
    rcases List.mem_or_eq_of_mem_set member with member | same
    · exact eq_false_of_ne_true (List.countP_eq_zero.mp none t member)
    · exact same ▸ leaves
  refine ⟨⟨inv.unused,inv.linked⟩,holds,?_,?_,fun host asc member => ?_,ahead⟩
  · exact (change others (inv.tracked.perm before)).perm after.symm
  · refine (List.countP_eq_zero.mpr fun t member => ?_).trans (none.symm.trans inv.locked)
    rw [idle member]
    exact Bool.false_ne_true
  · exact Bool.noConfusion (idle member)

/-- A handle goes to or comes from a thread. -/
theorem InvOn.hand (inv : s.InvOn l) (there : s.threads[thread]? = some old) (stays : old.walks = false) (leaves : new.walks = false)
    {handles : List Address} (same : (handles.map (Stage.refers,·) ++ (s.threads.set thread new).filterMap ClusterThread.role).Perm s.roles) :
    {s.move thread new with handles}.InvOn l := by
  have count := countP_moved ClusterThread.walks there new
  rw [stays,leaves] at count
  refine ⟨⟨inv.unused,inv.linked⟩,inv.holds,inv.tracked.perm same.symm,count.trans inv.locked,fun host asc member => ?_,inv.ahead⟩
  rcases List.mem_or_eq_of_mem_set member with member | same
  · exact inv.walk host asc member
  · rw [← same] at leaves
    cases leaves

theorem InvOn.ret (inv : s.InvOn l) (there : s.threads[thread]? = some (.returning asc)) :
    {s.move thread .outside with handles := asc :: s.handles}.InvOn l := by
  refine inv.hand there rfl rfl ?_
  have before := filterMap_cons_perm ClusterThread.role (thread_perm there)
  have after := filterMap_cons_perm ClusterThread.role (moved_perm there .outside)
  exact (after.append_left _).trans ((List.perm_middle.symm).trans (before.append_left _).symm)

theorem InvOn.release (inv : s.InvOn l) (there : s.threads[thread]? = some .outside) {handle : Nat} (held : s.handles[handle]? = some asc) :
    {s.move thread (.releasing asc) with handles := s.handles.eraseIdx handle}.InvOn l := by
  refine inv.hand there rfl rfl ?_
  have before := filterMap_cons_perm ClusterThread.role (thread_perm there)
  have after := filterMap_cons_perm ClusterThread.role (moved_perm there (.releasing asc))
  have handles := (thread_perm held).map (Prod.mk Stage.refers)
  exact ((after.append_left _).trans List.perm_middle).trans (handles.symm.append before.symm)

/-- The tender moves. -/
theorem InvOn.tend (inv : s.InvOn l) (tender : ClusterTender)
    (ahead : ∀ e asc, tender.element = some e → Reaches s.clusterLl.next e asc → s.freed asc = false) (tenderRunning : Address → Bool) :
    {s with tender,tenderRunning}.InvOn l :=
  ⟨⟨inv.unused,inv.linked⟩,inv.holds,inv.tracked,inv.locked,inv.walk,ahead⟩

/-! ### The threads -/

theorem InvOn.call (inv : s.InvOn l) (there : s.threads[thread]? = some .outside) (free : s.clusterLlLock = false) (host : Host) :
    {s.move thread (.looking host (cfLlGetHead s.clusterLl)) with clusterLlLock := true}.InvOn l := by
  refine inv.move there (.looking host (cfLlGetHead s.clusterLl)) (fun _ => id) (by rw [free]; rfl) (fun host asc same => ?_) inv.ahead s.hosts s.tenderRunning s.clsFreed
  injection same with _ head
  exact List.mem_of_mem_head? (inv.holds.head.symm.trans head)

theorem InvOn.look (inv : s.InvOn l) {host : Host} {curElement : Option Address} (there : s.threads[thread]? = some (.looking host curElement))
    (spared : s.Spared (.look thread)) : (s.look thread host curElement).InvOn l := by
  have locked := inv.released there rfl
  cases curElement with
  | none =>
    exact inv.move there (.creating host) (fun _ => id) (by rw [locked]; rfl) nofun inv.ahead s.hosts s.tenderRunning s.clsFreed
  | some asc =>
    have inside := inv.walk host asc (List.mem_of_getElem? there)
    rw [ClusterState.look,use_of (inv.tracked.listed inside)]
    dsimp only
    split
    · rename_i found
      obtain ⟨counts,fits⟩ := spared host asc there (List.contains_iff_mem.mp found)
      rw [Nat.mod_eq_of_lt fits]
      exact inv.move there (.returning asc) (fun others tracked => tracked.increment inside counts) (by rw [locked]; rfl) nofun inv.ahead s.hosts
        s.tenderRunning s.clsFreed
    · refine inv.move there (.looking host (cfLlGetNext s.clusterLl asc)) (fun _ => id) rfl (fun host next same => ?_) inv.ahead s.hosts s.tenderRunning s.clsFreed
      injection same with _ follows
      exact inv.holds.next_mem inside follows

theorem InvOn.create (inv : s.InvOn l) {host : Host} (there : s.threads[thread]? = some (.creating host)) :
    (s.citrusleafClusterCreate thread host).InvOn l :=
  inv.move there (.appending s.allocated host) (fun _ tracked => tracked.create) rfl nofun inv.ahead _ _ _

theorem InvOn.append (inv : s.InvOn l) {host : Host} (there : s.threads[thread]? = some (.appending asc host))
    (free : s.clusterLlLock = false) : (s.append thread asc host).InvOn (l ++ [asc]) := by
  obtain ⟨others,before,_⟩ := roles_move there .outside
  obtain ⟨outside,_⟩ := (inv.tracked.perm before).append
  obtain ⟨after,given,holds,next⟩ := cfLlAppend_holds inv.holds outside
  rw [ClusterState.append,given]
  refine inv.relink there free rfl holds (fun others tracked => tracked.append.2) fun e b here reaches => ?_
  rw [next] at reaches
  rcases reaches.push with rfl | reaches
  · exact (inv.tracked.perm before).present
  · exact inv.ahead e b here reaches

theorem InvOn.decrement (inv : s.InvOn l) (there : s.threads[thread]? = some (.releasing asc)) : (s.decrement thread asc).InvOn l := by
  obtain ⟨others,before,_⟩ := roles_move there .outside
  have counted := (inv.tracked.perm before).counted asc
  rw [ClusterThread.role,Option.toList_some,List.singleton_append,List.count_cons_self] at counted
  rw [ClusterState.decrement,inv.present there rfl]
  dsimp only
  rw [if_pos (by omega)]
  simp only [Function.update_self]
  split
  · rename_i last
    refine inv.move there (.unlinking asc) (fun others tracked => ?_) rfl nofun inv.ahead s.hosts s.tenderRunning s.clsFreed
    have unlinking := tracked.decrement
    rwa [if_pos last] at unlinking
  · rename_i more
    refine inv.move there .outside (fun others tracked => ?_) rfl nofun inv.ahead s.hosts s.tenderRunning s.clsFreed
    have fewer := tracked.decrement
    rwa [if_neg more] at fewer

theorem InvOn.unlink (inv : s.InvOn l) (there : s.threads[thread]? = some (.unlinking asc)) (free : s.clusterLlLock = false) :
    (s.unlink thread asc).Inv := by
  obtain ⟨others,before,_⟩ := roles_move there .outside
  obtain ⟨first,later,rfl⟩ := List.append_of_mem (inv.tracked.perm before).unlinks_mem
  obtain ⟨after,given,holds,next⟩ := cfLlDelete_holds inv.holds
  rw [ClusterState.unlink,inv.present there rfl]
  dsimp only
  rw [given]
  refine ⟨first ++ later,inv.relink there free rfl holds (fun others tracked => tracked.unlink) fun e b here reaches => ?_⟩
  rw [next] at reaches
  exact inv.ahead e b here (reaches.drop inv.holds.toLinked)

theorem InvOn.retry (inv : s.InvOn l) (there : s.threads[thread]? = some (.retrying asc)) : (s.retry thread asc).InvOn l := by
  rw [ClusterState.retry,inv.present there rfl]
  dsimp only
  split
  · exact inv
  · exact inv.move there (.freeing asc) (fun _ => id) rfl nofun inv.ahead s.hosts s.tenderRunning _

theorem InvOn.free (inv : s.InvOn l) (there : s.threads[thread]? = some (.freeing asc)) (spared : s.Spared (.free thread)) :
    (s.free thread asc).InvOn l := by
  rw [ClusterState.free,inv.present there rfl]
  refine inv.move there .outside (fun _ tracked => tracked.free) rfl nofun (fun e b here reaches => ?_) s.hosts s.tenderRunning s.clsFreed
  rw [Function.update_of_ne]
  · exact inv.ahead e b here reaches
  · rintro rfl
    exact spared e b there here reaches

/-! ### The tender -/

theorem InvOn.visit (inv : s.InvOn l) {next : Option Address}
    (ahead : ∀ e asc, next = some e → Reaches s.clusterLl.next e asc → s.freed asc = false) : (s.visit next).InvOn l := by
  cases next with
  | none => exact inv.tend .sleeping (fun _ _ nowhere => nomatch nowhere) s.tenderRunning
  | some e => exact inv.tend (.visiting e) ahead s.tenderRunning

theorem InvOn.tender (inv : s.InvOn l) (due : Bool) : (s.clusterTenderFn due).InvOn l := by
  have used (e : Address) (here : s.tender.element = some e) : s.use e = s := use_of (inv.ahead e e here .refl)
  have ahead := inv.ahead
  rw [clusterTenderFn]
  cases there : s.tender with
  | sleeping =>
    refine inv.visit fun e asc head reaches => ?_
    have inside := List.mem_of_mem_head? (inv.holds.head.symm.trans head)
    exact inv.tracked.listed (inv.holds.reaches_mem inside reaches)
  | visiting e =>
    rw [there] at used ahead
    dsimp only
    rw [used e rfl]
    cases due with
    | false => exact inv.tend (.following e) ahead s.tenderRunning
    | true => exact inv.tend (.entering e) ahead s.tenderRunning
  | entering e =>
    rw [there] at used ahead
    dsimp only
    rw [used e rfl,tendEnter]
    by_cases closed : s.clsFreed e || s.tenderRunning e
    · rw [if_pos closed]
      exact inv.tend (.following e) ahead s.tenderRunning
    · rw [if_neg closed]
      exact inv.tend (.running e) ahead _
  | running e =>
    rw [there] at used ahead
    dsimp only
    rw [used e rfl]
    exact inv.tend (.following e) ahead _
  | following e =>
    rw [there] at used ahead
    dsimp only
    rw [used e rfl]
    exact inv.visit fun n asc follows reaches => ahead e asc rfl (.head follows reaches)

theorem Inv.step (inv : s.Inv) (event : ClusterEvent) (spared : s.Spared event) : (s.step event).Inv := by
  have stays := inv
  obtain ⟨l,inv⟩ := inv
  cases event with
  | call thread host =>
    rw [ClusterState.step]
    split
    · rename_i there
      split
      · exact stays
      · rename_i free
        exact ⟨l,inv.call there (eq_false_of_ne_true free) host⟩
    · exact stays
  | look thread =>
    rw [ClusterState.step]
    split
    · rename_i there
      exact ⟨l,inv.look there spared⟩
    · exact stays
  | create thread malloc =>
    rw [ClusterState.step]
    split
    · rename_i there
      split
      · exact ⟨l,inv.create there⟩
      · exact ⟨l,inv.move there .outside (fun _ => id) rfl nofun inv.ahead s.hosts s.tenderRunning s.clsFreed⟩
    · exact stays
  | append thread =>
    rw [ClusterState.step]
    split
    · rename_i asc host there
      split
      · exact stays
      · rename_i free
        exact ⟨l ++ [asc],inv.append there (eq_false_of_ne_true free)⟩
    · exact stays
  | resolve thread found =>
    rw [ClusterState.step]
    split
    · rename_i asc host there
      rw [inv.present there rfl]
      dsimp only
      split
      · exact ⟨l,inv.move there (.tending asc) (fun _ => id) rfl nofun inv.ahead _ s.tenderRunning s.clsFreed⟩
      · exact ⟨l,inv.move there (.releasing asc) (fun _ => id) rfl nofun inv.ahead s.hosts s.tenderRunning s.clsFreed⟩
    · exact stays
  | tendEnter thread =>
    rw [ClusterState.step]
    split
    · rename_i asc there
      rw [inv.present there rfl,ClusterState.tendEnter]
      by_cases closed : s.clsFreed asc || s.tenderRunning asc
      · rw [if_pos closed]
        exact stays
      · rw [if_neg closed]
        exact ⟨l,inv.move there (.running asc) (fun _ => id) rfl nofun inv.ahead s.hosts _ s.clsFreed⟩
    · exact stays
  | tendLeave thread =>
    rw [ClusterState.step]
    split
    · rename_i asc there
      rw [inv.present there rfl]
      exact ⟨l,inv.move there (.tending asc) (fun _ => id) rfl nofun inv.ahead s.hosts _ s.clsFreed⟩
    · exact stays
  | reached thread reacheable =>
    rw [ClusterState.step]
    split
    · rename_i asc there
      rw [inv.present there rfl]
      cases reacheable with
      | true => exact ⟨l,inv.move there (.returning asc) (fun _ => id) rfl nofun inv.ahead s.hosts s.tenderRunning s.clsFreed⟩
      | false => exact ⟨l,inv.move there (.releasing asc) (fun _ => id) rfl nofun inv.ahead s.hosts s.tenderRunning s.clsFreed⟩
    · exact stays
  | ret thread =>
    rw [ClusterState.step]
    split
    · rename_i asc there
      rw [inv.present there rfl]
      exact ⟨l,inv.ret there⟩
    · exact stays
  | release thread handle =>
    rw [ClusterState.step]
    split
    · rename_i asc there held
      exact ⟨l,inv.release there held⟩
    · exact stays
  | decrement thread =>
    rw [ClusterState.step]
    split
    · rename_i there
      exact ⟨l,inv.decrement there⟩
    · exact stays
  | unlink thread =>
    rw [ClusterState.step]
    split
    · rename_i there
      split
      · exact stays
      · rename_i free
        exact inv.unlink there (eq_false_of_ne_true free)
    · exact stays
  | retry thread =>
    rw [ClusterState.step]
    split
    · rename_i there
      exact ⟨l,inv.retry there⟩
    · exact stays
  | free thread =>
    rw [ClusterState.step]
    split
    · rename_i there
      exact ⟨l,inv.free there spared⟩
    · exact stays
  | tender due => exact ⟨l,inv.tender due⟩

theorem start_inv (threads : Nat) : (start threads).Inv := by
  have idle : (start threads).threads.filterMap ClusterThread.role = [] := by
    simp [start,ClusterThread.role]
  refine ⟨[],⟨rfl,rfl⟩,cfLlInit_holds _ _,?_,?_,fun host asc member => ?_,nofun⟩
  · rw [roles,idle]
    exact ⟨fun _ => rfl,fun _ => rfl,fun _ => rfl,nofun⟩
  · exact List.countP_eq_zero.mpr fun t member => by
      rw [List.eq_of_mem_replicate member]
      exact Bool.false_ne_true
  · cases List.eq_of_mem_replicate member

end ClusterState

/-- In a run in which lookups find only clusters that somebody refers to, and the tender is neither
on a cluster nor on its way to it when it is freed, no cluster that was freed is ever used. -/
theorem cluster_unused_after_destroy (threads : Nat) (events : List ClusterEvent)
    (spared : Guarded ClusterState.step ClusterState.Spared (.start threads) events) :
    Always ClusterState.step ClusterState.Unharmed (.start threads) events :=
  (always_of_guarded (fun _ event inv spared => inv.step event spared) (ClusterState.start_inv threads) spared).mono
    fun _ inv => inv.elim fun _ inv => inv.toUnharmed

/-- A thread creates a cluster and gets it. -/
def created (thread : Nat) (host : Host) : List ClusterEvent :=
  [.call thread host,.look thread,.create thread true,.append thread,.resolve thread true,.tendEnter thread,.tendLeave thread,
    .reached thread true,.ret thread]

/-- It gives the last reference up. -/
def destroyed (thread : Nat) : List ClusterEvent := [.unlink thread,.retry thread,.free thread]

/-- Two threads share a cluster that the tender visits, and give it up one after the other. -/
theorem cluster_unused_after_turns :
    Always ClusterState.step ClusterState.Unharmed (.start 2)
      (created 0 ([],3000) ++ [.call 1 ([],3000),.look 1,.ret 1,.tender false,.tender false,.tender false,.release 1 0,.decrement 1,
        .release 0 0,.decrement 0] ++ destroyed 0) :=
  cluster_unused_after_destroy 2 _
    ⟨trivial,nofun,trivial,trivial,trivial,trivial,trivial,trivial,trivial,trivial,
      fun _ _ there _ => by cases there; exact ⟨Nat.one_ne_zero,by decide⟩,trivial,trivial,trivial,trivial,trivial,trivial,trivial,
      trivial,trivial,trivial,nofun,trivial⟩

/-- A second thread finds the cluster between the last decrement and the unlinking, or the tender
stands on it all the time: either one uses it after it was freed. -/
theorem cluster_used_after_destroy :
    (¬Always ClusterState.step ClusterState.Unharmed (.start 2)
      (created 0 ([],3000) ++ [.release 0 0,.decrement 0,.call 1 ([],3000),.look 1] ++ destroyed 0 ++ [.ret 1])) ∧
    ¬Always ClusterState.step ClusterState.Unharmed (.start 1)
      (created 0 ([],3000) ++ [.tender false,.release 0 0,.decrement 0] ++ destroyed 0 ++ [.tender false]) := by
  constructor
  · intro always
    have last := (always_iff _ _ _ _).mp always _ [] (List.append_nil _).symm
    exact Bool.noConfusion (last.unused.symm.trans (by decide : _ = true))
  · intro always
    have last := (always_iff _ _ _ _).mp always _ [] (List.append_nil _).symm
    exact Bool.noConfusion (last.unused.symm.trans (by decide : _ = true))

end Citrusleaf.ClusterDestroy
