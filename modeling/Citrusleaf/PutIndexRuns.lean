import Citrusleaf.PutIndex

/-! The stored index record over whole runs of concurrent `put_index` calls. A write in
flight carries its guard, and whatever the server holds when the guard passes is what
the record was created from. -/
namespace Citrusleaf.PutIndex
open Lib

/-- A record with as many digests as it counts, none of them twice. -/
structure Sound (record : IndexRecord) : Prop where
  counted : record.count = record.redirectId.length
  distinct : record.redirectId.Nodup

/-- The digests of the record on the server. -/
def stored : Option (UInt32 × IndexRecord) → List CfDigest
  | none => []
  | some (_,record) => record.redirectId

theorem recordIsNew_iff (sound : Sound old) :
    recordIsNew digest (some old) = true ↔ digest ∉ old.redirectId := by
  simp only [recordIsNew,sound.counted,List.take_length,List.all_eq_true,bne_iff_ne]
  constructor
  · intro differ member
    exact differ digest member rfl
  · intro absent other member same
    exact absent (same ▸ member)

theorem createRecord_redirectId (sound : Sound old) :
    (createRecord (some old) digest).redirectId = old.redirectId ++ [digest] := by
  simp only [createRecord,sound.counted,List.take_length]

theorem createRecord_sound (sound : Sound old) (new : digest ∉ old.redirectId) :
    Sound (createRecord (some old) digest) := by
  constructor
  · rw [createRecord_redirectId sound,List.length_append,List.length_singleton]
    exact congrArg (· + 1) sound.counted
  · rw [createRecord_redirectId sound]
    exact List.nodup_append.mpr ⟨sound.distinct,List.nodup_singleton digest,
      fun a member b last => by
        obtain rfl := List.mem_singleton.mp last
        exact fun same => new (same ▸ member)⟩

theorem createRecord_none_sound : Sound (createRecord none digest) :=
  ⟨rfl,List.nodup_singleton digest⟩

/-! ### Guarded writes -/

/-- The guard a write carries: it creates the record, or it extends the version whose
generation it names. That version is the stored one or older. -/
inductive Writable (server : Option (UInt32 × IndexRecord)) (digest : CfDigest) :
    UInt32 → UInt32 → IndexRecord → Prop where
  | creates : Writable server digest (clMsgInfo2Write ||| clMsgInfo2WriteUnique) 0 (createRecord none digest)
  | extends_ (held : server = some (now,current)) (known : generation ≤ now)
      (added : generation = now → digest ∉ current.redirectId ∧
        record = createRecord (some current) digest) :
      Writable server digest (clMsgInfo2Write ||| clMsgInfo2Generation) generation record

theorem applies_unique (r : Request) (unique : r.info2 = clMsgInfo2Write ||| clMsgInfo2WriteUnique) :
    applies server r = server.isNone := by
  rw [applies,unique,if_pos (by decide)]

theorem applies_generation (r : Request) (guarded : r.info2 = clMsgInfo2Write ||| clMsgInfo2Generation) :
    applies server r = (server.map Prod.fst == some r.generation) := by
  rw [applies,guarded,if_neg (by decide),if_pos (by decide)]

/-- A write that applies keeps the stored digests and adds its own. -/
theorem Writable.applied (r : Request) (writable : Writable server digest r.info2 r.generation r.record)
    (sound : ∀ now current, server = some (now,current) → Sound current)
    (passes : applies server r = true) :
    Sound r.record ∧ r.record.redirectId = stored server ++ [digest] := by
  generalize shape : r.info2 = info2 at writable
  generalize named : r.generation = generation at writable
  generalize carried : r.record = record at writable ⊢
  cases writable with
  | creates =>
    rw [applies_unique r shape] at passes
    rw [Option.isNone_iff_eq_none.mp passes]
    exact ⟨createRecord_none_sound,rfl⟩
  | @extends_ now current _ _ held known added =>
    rw [applies_generation r shape,named,held] at passes
    have same : now = generation := Option.some.inj (eq_of_beq passes)
    obtain ⟨new,rfl⟩ := added same.symm
    have whole := sound now current held
    rw [held]
    exact ⟨createRecord_sound whole new,createRecord_redirectId whole⟩

/-- The next version overtakes every generation a write in flight can name. -/
theorem Writable.overtaken (writable : Writable server digest info2 generation record)
    (follows_ : follows server next = true) :
    Writable (some (next,newer)) digest info2 generation record := by
  cases writable with
  | creates => exact .creates
  | @extends_ now current _ _ held known added =>
    subst held
    have later : now < next := of_decide_eq_true follows_
    have overtaken : generation < next := UInt32.lt_of_le_of_lt known later
    exact .extends_ rfl (UInt32.le_of_lt overtaken)
      fun same => absurd (same ▸ overtaken) (UInt32.lt_irrefl _)

theorem writeInfo2_generation (generation : UInt32) :
    writeInfo2 clMsgInfo2Write
      (some (clWriteParametersSetGeneration (clWriteParametersSetDefault unset) generation)) =
      (clMsgInfo2Write ||| clMsgInfo2Generation,generation) := rfl

theorem writeInfo2_unique :
    writeInfo2 clMsgInfo2Write (some {clWriteParametersSetDefault unset with unique := true}) =
      (clMsgInfo2Write ||| clMsgInfo2WriteUnique,0) := rfl

/-! ### The phases of a call -/

/-- What a phase says about the server: a write is guarded, and success means that the
digest is stored. -/
def PhaseSound (server : Option (UInt32 × IndexRecord)) (digest : CfDigest) : Phase → Prop
  | .writing clWP record _ =>
    Writable server digest (writeInfo2 clMsgInfo2Write (some clWP)).1
      (writeInfo2 clMsgInfo2Write (some clWP)).2 record
  | .finished true => digest ∈ stored server
  | _ => True

theorem startPut_sound (writable : Writable server digest (writeInfo2 clMsgInfo2Write (some clWP)).1
    (writeInfo2 clMsgInfo2Write (some clWP)).2 record) :
    PhaseSound server digest (startPut clWP record) := by
  unfold startPut
  split
  · exact writable
  · trivial

theorem afterGet_sound (server : Option (UInt32 × IndexRecord)) (digest : CfDigest)
    (sound : ∀ now current, server = some (now,current) → Sound current) :
    PhaseSound server digest (afterGet digest (getAll server)) := by
  rcases server with _ | ⟨generation,current⟩
  · refine startPut_sound ?_
    rw [writeInfo2_unique]
    exact .creates
  · have whole := sound generation current rfl
    unfold getAll afterGet
    dsimp only
    split
    · trivial
    · rw [if_neg (by simp)]
      split
      · rename_i new
        refine startPut_sound ?_
        rw [writeInfo2_generation]
        exact .extends_ rfl (UInt32.le_refl generation)
          fun _ => ⟨(recordIsNew_iff whole).mp new,rfl⟩
      · rename_i known
        have member : digest ∈ current.redirectId := by
          by_contra absent
          exact known ((recordIsNew_iff whole).mpr absent)
        exact member

theorem afterPut_sound (clWP : ClWriteParameters) (ok : rv = .ok → digest ∈ stored server) :
    PhaseSound server digest (afterPut clWP rv) := by
  generalize conflict : (if clWP.unique then PutResult.failKeyExists else .failGeneration) = refused
  by_cases again : rv = refused
  · simp only [afterPut,conflict,again,if_true,PhaseSound]
  · simp only [afterPut,conflict,again,if_false]
    cases rv with
    | ok => exact ok rfl
    | _ => trivial

theorem PhaseSound.overtaken (sound : PhaseSound server digest phase)
    (follows_ : follows server next = true) (kept : ∀ d ∈ stored server, d ∈ record.redirectId) :
    PhaseSound (some (next,record)) digest phase := by
  cases phase with
  | writing clWP created try_ => exact Writable.overtaken sound follows_
  | finished updated =>
    cases updated with
    | true => exact kept digest sound
    | false => trivial
  | reading | overrun => trivial

/-! ### Steps and runs -/

variable {newRecd : Call → CfDigest}

structure Inv (newRecd : Call → CfDigest) (s : IndexState) : Prop where
  sound : ∀ now current, s.server = some (now,current) → Sound current
  phases : ∀ call, PhaseSound s.server (newRecd call) (s.phase call)
  requests : ∀ r ∈ s.requests, Writable s.server (newRecd r.call) r.info2 r.generation r.record
  responses : ∀ r ∈ s.responses, r.rv = .ok → newRecd r.call ∈ stored s.server

theorem Inv.setPhase (inv : Inv newRecd s) (sound : PhaseSound s.server (newRecd call) phase) :
    Inv newRecd (setPhase s call phase) := by
  refine ⟨inv.sound,fun other => ?_,inv.requests,inv.responses⟩
  dsimp only [PutIndex.setPhase]
  split
  · rename_i same
    exact same ▸ sound
  · exact inv.phases other

theorem Inv.dropRequest (inv : Inv newRecd s) (i : Nat) :
    Inv newRecd {s with requests := s.requests.eraseIdx i} :=
  ⟨inv.sound,inv.phases,fun r member => inv.requests r (List.mem_of_mem_eraseIdx member),inv.responses⟩

/-- An arriving write is applied on top of what is stored, or answered with a failure. -/
theorem Inv.arrive (inv : Inv newRecd s) (i : Nat) (next : UInt32) :
    Inv newRecd (indexStep newRecd s (.arrive i next)) := by
  unfold indexStep
  dsimp only
  cases found : s.requests[i]? with
  | none => exact inv
  | some r =>
    have writable := inv.requests r (List.mem_of_getElem? found)
    dsimp only
    split
    · rename_i passes
      split
      · rename_i follows_
        obtain ⟨sound,digests⟩ := writable.applied r inv.sound passes
        have kept : ∀ d ∈ stored s.server, d ∈ r.record.redirectId := by
          intro d member
          rw [digests]
          exact List.mem_append_left _ member
        have added : newRecd r.call ∈ r.record.redirectId := by
          rw [digests]
          exact List.mem_append_right _ (List.mem_singleton_self _)
        refine ⟨?_,?_,?_,?_⟩
        · intro now current held
          obtain ⟨_,rfl⟩ := Prod.mk.inj (Option.some.inj held)
          exact sound
        · exact fun call => (inv.phases call).overtaken follows_ kept
        · exact fun other member =>
            (inv.requests other (List.mem_of_mem_eraseIdx member)).overtaken follows_
        · intro response member ok
          rcases List.mem_cons.mp member with rfl | old
          · exact added
          · exact kept _ (inv.responses response old ok)
      · exact inv
    · refine ⟨inv.sound,inv.phases,(inv.dropRequest i).requests,?_⟩
      intro response member ok
      rcases List.mem_cons.mp member with rfl | old
      · dsimp only at ok
        split at ok <;> cases ok
      · exact inv.responses response old ok

theorem Inv.step (inv : Inv newRecd s) (event : IndexEvent) : Inv newRecd (indexStep newRecd s event) := by
  cases event with
  | read call =>
    unfold indexStep
    dsimp only
    split
    · exact inv.setPhase (afterGet_sound s.server (newRecd call) inv.sound)
    · exact inv
  | readFails call =>
    unfold indexStep
    dsimp only
    split
    · exact inv.setPhase trivial
    · exact inv
  | send call =>
    unfold indexStep
    dsimp only
    split
    · rename_i clWP record try_ writing
      have writable := inv.phases call
      rw [writing] at writable
      have sent : Inv newRecd (PutIndex.setPhase s call (.writing clWP record (try_ + 1))) :=
        inv.setPhase writable
      refine ⟨inv.sound,sent.phases,?_,inv.responses⟩
      intro r member
      rcases List.mem_append.mp member with old | new
      · exact inv.requests r old
      · obtain rfl := List.mem_singleton.mp new
        exact writable
    · exact inv
  | arrive i next => exact inv.arrive i next
  | loseRequest i => exact inv.dropRequest i
  | respond i =>
    unfold indexStep
    dsimp only
    split
    · exact inv
    · rename_i r found
      have answered := inv.responses r (List.mem_of_getElem? found)
      split
      · split
        · exact inv.setPhase (afterPut_sound _ answered)
        · exact inv
      · exact inv
  | putFails call =>
    unfold indexStep
    dsimp only
    split
    · exact inv.setPhase (afterPut_sound _ nofun)
    · exact inv

/-- Only an arriving write changes what is stored. -/
theorem indexStep_server (s : IndexState) (event : IndexEvent) :
    (indexStep newRecd s event).server = s.server ∨ ∃ next, ∃ r ∈ s.requests,
      applies s.server r = true ∧ (indexStep newRecd s event).server = some (next,r.record) := by
  cases event with
  | arrive i next =>
    cases found : s.requests[i]? with
    | none => exact .inl (by simp only [indexStep,found])
    | some r =>
      by_cases passes : applies s.server r = true
      · by_cases follows_ : follows s.server next = true
        · exact .inr ⟨next,r,List.mem_of_getElem? found,passes,
            by simp only [indexStep,found,passes,follows_,if_true]⟩
        · exact .inl (by simp only [indexStep,found,passes,follows_,if_true]; rfl)
      · exact .inl (by simp only [indexStep,found,passes]; rfl)
  | loseRequest i => exact .inl rfl
  | _ =>
    left
    simp only [indexStep]
    split <;> (try split) <;> (try split) <;> rfl

/-- No step loses a digest. -/
theorem Inv.stored_kept (inv : Inv newRecd s) (event : IndexEvent) (member : d ∈ stored s.server) :
    d ∈ stored (indexStep newRecd s event).server := by
  rcases indexStep_server s event with same | ⟨next,r,sent,passes,after⟩
  · exact same ▸ member
  · obtain ⟨_,digests⟩ := (inv.requests r sent).applied r inv.sound passes
    rw [after]
    change d ∈ r.record.redirectId
    rw [digests]
    exact List.mem_append_left _ member

theorem Inv.start : Inv newRecd .start := ⟨nofun,fun _ => trivial,nofun,nofun⟩

theorem Inv.run (inv : Inv newRecd s) (events : List IndexEvent) :
    Inv newRecd (run (indexStep newRecd) s events) := by
  have preserved : ∀ s event, Inv newRecd s → Inv newRecd (indexStep newRecd s event) :=
    fun s event inv => inv.step event
  exact run_invariant preserved inv events

/-- No run loses a digest. -/
theorem Inv.stored_run (inv : Inv newRecd s) (member : d ∈ stored s.server) (events : List IndexEvent) :
    d ∈ stored (Lib.run (indexStep newRecd) s events).server := by
  have preserved : ∀ s event, Inv newRecd s ∧ d ∈ stored s.server →
      Inv newRecd (indexStep newRecd s event) ∧ d ∈ stored (indexStep newRecd s event).server :=
    fun s event held => ⟨held.1.step event,held.1.stored_kept event held.2⟩
  exact (run_invariant preserved ⟨inv,member⟩ events).2

/-- In every run of concurrent `put_index` calls on one key, the stored record counts its
digests, holds none twice and keeps each in every later state, and it holds the digest of
every call that passed the index step with success. -/
theorem index_lossless (newRecd : Call → CfDigest) (events : List IndexEvent) :
    (∀ generation record, (run (indexStep newRecd) .start events).server = some (generation,record) →
      record.count = record.redirectId.length ∧ record.redirectId.Nodup) ∧
    (∀ d ∈ stored (run (indexStep newRecd) .start events).server, ∀ later,
      d ∈ stored (run (indexStep newRecd) .start (events ++ later)).server) ∧
    (∀ call, (run (indexStep newRecd) .start events).phase call = .finished true →
      newRecd call ∈ stored (run (indexStep newRecd) .start events).server) := by
  have inv : Inv newRecd (run (indexStep newRecd) .start events) := Inv.start.run events
  refine ⟨?_,?_,?_⟩
  · intro generation record held
    exact ⟨(inv.sound generation record held).counted,(inv.sound generation record held).distinct⟩
  · intro d member later
    rw [run_append]
    exact inv.stored_run member later
  · intro call finished
    have sound := inv.phases call
    rw [finished] at sound
    exact sound

end Citrusleaf.PutIndex
