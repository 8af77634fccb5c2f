import Citrusleaf.ShashMap

/-! Sequences of calls on a table of cf_shash.c, against the same sequences on a finite map. -/
namespace Citrusleaf.ShashTable
open Shash

variable {κ ν : Type} [DecidableEq κ] {h after : ShashTable κ ν}

/-! ### Sequences of calls -/

inductive ShashCall (κ ν : Type) where
  | put (key : κ) (value : ν)
  | putUnique (key : κ) (value : ν)
  | get (key : κ)
  | delete (key : κ)
  | deleteLockfree (key : κ)
  | getAndDelete (key : κ)
  | reduce (f : ReduceFn κ ν)
  | reduceDelete (f : ReduceFn κ ν)

/-- What a call returns, with the value it copies or the pairs it gives to its callback. -/
inductive ShashResult (κ ν : Type) where
  | code (rv : Int)
  | value (rv : Int) (value : Option ν)
  | visited (rv : Int) (pairs : List (κ × ν))
  deriving DecidableEq

def shashCall (h : ShashTable κ ν) : ShashCall κ ν → Option (ShashResult κ ν × ShashTable κ ν)
  | .put key value => (h.shashPut key value).map fun (rv,h) => (.code rv,h)
  | .putUnique key value => (h.shashPutUnique key value).map fun (rv,h) => (.code rv,h)
  | .get key => (h.shashGet key).map fun (rv,value,h) => (.value rv value,h)
  | .delete key => (h.shashDelete key).map fun (rv,h) => (.code rv,h)
  | .deleteLockfree key => some (.code (h.shashDeleteLockfree key).1,(h.shashDeleteLockfree key).2)
  | .getAndDelete key => (h.shashGetAndDelete key).map fun (rv,value,h) => (.value rv value,h)
  | .reduce f => (h.shashReduce f).map fun (rv,visited,h) => (.visited rv visited,h)
  | .reduceDelete f => (h.shashReduceDelete f).map fun (rv,visited,h) => (.visited rv visited,h)

def shashCalls : ShashTable κ ν → List (ShashCall κ ν) → Option (List (ShashResult κ ν) × ShashTable κ ν)
  | h,[] => some ([],h)
  | h,call :: calls => do
    let (result,h) ← h.shashCall call
    let (results,h) ← h.shashCalls calls
    return (result :: results,h)

/-- The same call on a finite map. -/
inductive MapCall (m : κ → Option ν) : ShashCall κ ν → ShashResult κ ν → (κ → Option ν) → Prop where
  | put (key : κ) (value : ν) : MapCall m (.put key value) (.code shashOk) (Function.update m key (some value))
  | found (key : κ) (value : ν) : (m key).isSome → MapCall m (.putUnique key value) (.code shashErrFound) m
  | putUnique (key : κ) (value : ν) : m key = none →
      MapCall m (.putUnique key value) (.code shashOk) (Function.update m key (some value))
  | get (key : κ) :
      MapCall m (.get key) (.value (if (m key).isSome then shashOk else shashErrNotfound) (m key)) m
  | delete (key : κ) : MapCall m (.delete key)
      (.code (if (m key).isSome then shashOk else shashErrNotfound)) (Function.update m key none)
  | deleteLockfree (key : κ) : MapCall m (.deleteLockfree key)
      (.code (if (m key).isSome then shashOk else shashErrNotfound)) (Function.update m key none)
  | getAndDelete (key : κ) : MapCall m (.getAndDelete key)
      (.value (if (m key).isSome then shashOk else shashErrNotfound) (m key)) (Function.update m key none)
  | reduce : Lists m order → Visits f [] order rv visited → MapCall m (.reduce f) (.visited rv visited) m
  | reduceDelete : Lists m order → Deletes f [] order rv visited stay → Lists m' stay →
      MapCall m (.reduceDelete f) (.visited rv visited) m'

inductive MapCalls : (κ → Option ν) → List (ShashCall κ ν) → List (ShashResult κ ν) → (κ → Option ν) → Prop where
  | nil : MapCalls m [] [] m
  | cons : MapCall m call result m' → MapCalls m' calls results m'' →
      MapCalls m (call :: calls) (result :: results) m''

theorem shashCall_map (sound : Sound h) (done : h.shashCall call = some (result,after)) :
    MapCall h.lookup call result after.lookup ∧ Sound after := by
  cases call with
  | put key value =>
    obtain ⟨⟨_,_⟩,called,same⟩ := Option.map_eq_some_iff.mp done
    obtain ⟨rfl,rfl⟩ := Prod.mk.inj same
    obtain ⟨rfl,stored,map⟩ := shashPut_spec sound called
    exact ⟨map ▸ .put key value,stored⟩
  | putUnique key value =>
    obtain ⟨⟨_,_⟩,called,same⟩ := Option.map_eq_some_iff.mp done
    obtain ⟨rfl,rfl⟩ := Prod.mk.inj same
    obtain ⟨stored,map⟩ := shashPutUnique_spec sound called
    split at map
    · rename_i found
      obtain ⟨rfl,map⟩ := map
      rw [map]
      exact ⟨.found key value found,stored⟩
    · rename_i missing
      obtain ⟨rfl,map⟩ := map
      exact ⟨map ▸ .putUnique key value (by simpa using missing),stored⟩
  | get key =>
    obtain ⟨⟨_,_,_⟩,called,same⟩ := Option.map_eq_some_iff.mp done
    obtain ⟨rfl,rfl⟩ := Prod.mk.inj same
    obtain ⟨rfl,rfl,stored,map⟩ := shashGet_spec sound called
    exact ⟨map ▸ .get key,stored⟩
  | delete key =>
    obtain ⟨⟨_,_⟩,called,same⟩ := Option.map_eq_some_iff.mp done
    obtain ⟨rfl,rfl⟩ := Prod.mk.inj same
    obtain ⟨rfl,stored,map⟩ := shashDelete_spec sound called
    exact ⟨map ▸ .delete key,stored⟩
  | deleteLockfree key =>
    obtain ⟨rfl,rfl⟩ := Prod.mk.inj (Option.some.inj done)
    obtain ⟨code,stored,map⟩ := shashDeleteLockfree_spec sound key
    rw [code,map]
    exact ⟨.deleteLockfree key,stored⟩
  | getAndDelete key =>
    obtain ⟨⟨_,_,_⟩,called,same⟩ := Option.map_eq_some_iff.mp done
    obtain ⟨rfl,rfl⟩ := Prod.mk.inj same
    obtain ⟨rfl,rfl,stored,map⟩ := shashGetAndDelete_spec sound called
    exact ⟨map ▸ .getAndDelete key,stored⟩
  | reduce f =>
    obtain ⟨⟨_,_,_⟩,called,same⟩ := Option.map_eq_some_iff.mp done
    obtain ⟨rfl,rfl⟩ := Prod.mk.inj same
    obtain ⟨visits,stored,map⟩ := shashReduce_spec sound called
    rw [map]
    exact ⟨.reduce sound.lists visits,stored⟩
  | reduceDelete f =>
    obtain ⟨⟨_,_,_⟩,called,same⟩ := Option.map_eq_some_iff.mp done
    obtain ⟨rfl,rfl⟩ := Prod.mk.inj same
    obtain ⟨deletes,stored⟩ := shashReduceDelete_spec sound called
    exact ⟨.reduceDelete sound.lists deletes stored.lists,stored⟩

theorem shashCalls_map (sound : Sound h) (done : h.shashCalls calls = some (results,after)) :
    MapCalls h.lookup calls results after.lookup ∧ Sound after := by
  induction calls generalizing h results with
  | nil =>
    obtain ⟨rfl,rfl⟩ := Prod.mk.inj (Option.some.inj done)
    exact ⟨.nil,sound⟩
  | cons call calls ih =>
    obtain ⟨⟨_,next⟩,called,done⟩ := Option.bind_eq_some_iff.mp done
    obtain ⟨⟨_,last⟩,rest,done⟩ := Option.bind_eq_some_iff.mp done
    obtain ⟨rfl,rfl⟩ := Prod.mk.inj (Option.some.inj done)
    obtain ⟨one,sound⟩ := shashCall_map sound called
    obtain ⟨more,sound⟩ := ih sound rest
    exact ⟨.cons one more,sound⟩

/-! ### Callbacks that only keep or delete -/

section
omit [DecidableEq κ]
variable {f : ReduceFn κ ν}

/-- A callback that always returns 0 sees every pair. -/
theorem Visits.all (visits : Visits f before order rv visited) (answers : ∀ seen e, f seen e = 0) :
    rv = 0 ∧ visited = before ++ order := by
  induction visits with
  | done => exact ⟨rfl,(List.append_nil _).symm⟩
  | stop other => exact absurd (answers _ _) other
  | next _ _ ih =>
    obtain ⟨rfl,rfl⟩ := ih
    exact ⟨rfl,by rw [List.append_assoc]; rfl⟩

/-- The places of a list, its first one apart. -/
theorem split_cons (p : List α → Prop) (x : α) (order : List α) (e : α) :
    (∃ first later, x :: order = first ++ e :: later ∧ p first) ↔
      x = e ∧ p [] ∨ ∃ first later, order = first ++ e :: later ∧ p (x :: first) := by
  constructor
  · rintro ⟨first,later,split,holds⟩
    cases first with
    | nil =>
      obtain ⟨rfl,rfl⟩ := List.cons.inj split
      exact .inl ⟨rfl,holds⟩
    | cons y first =>
      obtain ⟨rfl,rfl⟩ := List.cons.inj split
      exact .inr ⟨first,later,rfl,holds⟩
  · rintro (⟨rfl,holds⟩ | ⟨first,later,rfl,holds⟩)
    · exact ⟨[],order,rfl,holds⟩
    · exact ⟨x :: first,later,rfl,holds⟩

/-- A callback that only answers 0 or to delete sees every pair, and the pairs that stay are
those it answered 0 for. -/
theorem Deletes.all (deletes : Deletes f before order rv visited stay)
    (answers : ∀ seen e, f seen e = 0 ∨ f seen e = shashReduceDeleteRv) :
    rv = 0 ∧ visited = before ++ order ∧
      ∀ e, e ∈ stay ↔ ∃ first later, order = first ++ e :: later ∧ f (before ++ first) e = 0 := by
  induction deletes with
  | done => exact ⟨rfl,(List.append_nil _).symm,fun e => by simp⟩
  | stop other differ => exact absurd (answers _ _) (not_or.mpr ⟨other,differ⟩)
  | @keep before e order rv visited stay answer _ ih =>
    obtain ⟨rfl,rfl,stays⟩ := ih
    refine ⟨rfl,by rw [List.append_assoc]; rfl,fun other => ?_⟩
    rw [List.mem_cons,stays,split_cons (fun first => f (before ++ first) other = 0)]
    simp only [List.append_assoc,List.singleton_append,List.append_nil]
    constructor
    · rintro (rfl | there)
      · exact .inl ⟨rfl,answer⟩
      · exact .inr there
    · rintro (⟨rfl,_⟩ | there)
      · exact .inl rfl
      · exact .inr there
  | @delete before e order rv visited stay answer _ ih =>
    obtain ⟨rfl,rfl,stays⟩ := ih
    refine ⟨rfl,by rw [List.append_assoc]; rfl,fun other => ?_⟩
    rw [stays,split_cons (fun first => f (before ++ first) other = 0)]
    simp only [List.append_assoc,List.singleton_append,List.append_nil]
    constructor
    · exact .inr
    · rintro (⟨rfl,zero⟩ | there)
      · rw [answer] at zero
        cases zero
      · exact there

end

theorem shashReduce_all (sound : Sound h) {f : ReduceFn κ ν} (answers : ∀ seen e, f seen e = 0)
    (done : h.shashReduce f = some (rv,visited,after)) :
    rv = 0 ∧ Lists h.lookup visited ∧ after.lookup = h.lookup := by
  obtain ⟨visits,_,map⟩ := shashReduce_spec sound done
  obtain ⟨zero,rfl⟩ := visits.all answers
  exact ⟨zero,sound.lists,map⟩

theorem shashReduceDelete_all (sound : Sound h) {f : ReduceFn κ ν}
    (answers : ∀ seen e, f seen e = 0 ∨ f seen e = shashReduceDeleteRv)
    (done : h.shashReduceDelete f = some (rv,visited,after)) :
    rv = 0 ∧ Lists h.lookup visited ∧ ∀ key value,
      after.lookup key = some value ↔ ∃ first later, visited = first ++ (key,value) :: later ∧ f first (key,value) = 0 := by
  obtain ⟨deletes,stored⟩ := shashReduceDelete_spec sound done
  obtain ⟨zero,rfl,stays⟩ := deletes.all answers
  refine ⟨zero,sound.lists,fun key value => ?_⟩
  rw [← stored.lists.pairs,stays]
  rfl

end Citrusleaf.ShashTable
