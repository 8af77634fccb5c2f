import Mathlib.Data.List.Basic

/-! Finite runs of state machines. A machine is a total step function driven by
events, or a relation between states where several successors are possible. The
rules below turn a fact about one step into a fact about every state of a run. -/
namespace Citrusleaf.Lib

/-- The state after a list of events. -/
def run (step : σ → ε → σ) (s : σ) (events : List ε) : σ := events.foldl step s

@[simp] theorem run_nil (step : σ → ε → σ) (s : σ) : run step s [] = s := rfl

@[simp] theorem run_cons (step : σ → ε → σ) (s : σ) (e : ε) (events : List ε) :
    run step s (e :: events) = run step (step s e) events := rfl

@[simp] theorem run_append (step : σ → ε → σ) (s : σ) (first later : List ε) :
    run step s (first ++ later) = run step (run step s first) later :=
  List.foldl_append

/-- Every event of the run meets the guard in the state it is applied to. -/
def Guarded (step : σ → ε → σ) (guard : σ → ε → Prop) : σ → List ε → Prop
  | _, [] => True
  | s, e :: events => guard s e ∧ Guarded step guard (step s e) events

/-- The property holds in the first state of the run and in every later one. -/
def Always (step : σ → ε → σ) (property : σ → Prop) : σ → List ε → Prop
  | s, [] => property s
  | s, e :: events => property s ∧ Always step property (step s e) events

theorem guarded_of_forall {step : σ → ε → σ} {guard : σ → ε → Prop} (all : ∀ s e, guard s e) (s : σ) (events : List ε) :
    Guarded step guard s events := by
  induction events generalizing s with
  | nil => trivial
  | cons e events ih => exact ⟨all s e,ih _⟩

theorem Always.head {step : σ → ε → σ} {property : σ → Prop}
    (always : Always step property s events) : property s := by
  cases events with
  | nil => exact always
  | cons e events => exact always.1

/-- `Always` speaks about the state after each prefix of the events. -/
theorem always_iff (step : σ → ε → σ) (property : σ → Prop) (s : σ) (events : List ε) :
    Always step property s events ↔
      ∀ first later, events = first ++ later → property (run step s first) := by
  induction events generalizing s with
  | nil =>
    constructor
    · intro now first later parts
      obtain ⟨rfl,rfl⟩ := List.append_eq_nil_iff.mp parts.symm
      exact now
    · intro all
      exact all [] [] rfl
  | cons e events ih =>
    constructor
    · rintro ⟨now,rest⟩ first later parts
      cases first with
      | nil => exact now
      | cons f first =>
        obtain ⟨rfl,tail⟩ := List.cons.inj parts
        exact (ih _).mp rest first later tail
    · intro all
      refine ⟨all [] _ rfl,(ih _).mpr ?_⟩
      intro first later parts
      exact all (e :: first) later (by simp [parts])

theorem Always.mono {step : σ → ε → σ} {property weaker : σ → Prop}
    (always : Always step property s events) (implies : ∀ s, property s → weaker s) :
    Always step weaker s events := by
  induction events generalizing s with
  | nil => exact implies _ always
  | cons e events ih => exact ⟨implies _ always.1,ih always.2⟩

/-- A property that guarded steps keep holds all along a guarded run. -/
theorem always_of_guarded {step : σ → ε → σ} {guard : σ → ε → Prop} {property : σ → Prop}
    (preserved : ∀ s e, property s → guard s e → property (step s e))
    (initial : property s) (guarded : Guarded step guard s events) :
    Always step property s events := by
  induction events generalizing s with
  | nil => exact initial
  | cons e events ih => exact ⟨initial,ih (preserved s e initial guarded.1) guarded.2⟩

/-- Where one step keeps the property exactly under the guard, so does a run. -/
theorem always_iff_guarded {step : σ → ε → σ} {allowed guard : σ → ε → Prop}
    {invariant property : σ → Prop} (holds : ∀ s, invariant s → property s)
    (preserved : ∀ s e, invariant s → allowed s e → guard s e → invariant (step s e))
    (needed : ∀ s e, invariant s → allowed s e → property (step s e) → guard s e)
    (initial : invariant s) (permitted : Guarded step allowed s events) :
    Always step property s events ↔ Guarded step guard s events := by
  induction events generalizing s with
  | nil => exact ⟨fun _ => trivial,fun _ => holds s initial⟩
  | cons e events ih =>
    obtain ⟨now,rest⟩ := permitted
    constructor
    · rintro ⟨_,later⟩
      have guarded := needed s e initial now later.head
      exact ⟨guarded,(ih (preserved s e initial now guarded) rest).mp later⟩
    · rintro ⟨guarded,later⟩
      exact ⟨holds s initial,(ih (preserved s e initial now guarded) rest).mpr later⟩

/-- The same where no event is forbidden. -/
theorem always_iff_guarded_free {step : σ → ε → σ} {guard : σ → ε → Prop} {invariant property : σ → Prop}
    (holds : ∀ s, invariant s → property s)
    (preserved : ∀ s e, invariant s → guard s e → invariant (step s e))
    (needed : ∀ s e, invariant s → property (step s e) → guard s e)
    (initial : invariant s) (events : List ε) :
    Always step property s events ↔ Guarded step guard s events := by
  have free : Guarded step (fun _ _ => True) s events := guarded_of_forall (fun _ _ => trivial) s events
  exact always_iff_guarded holds (fun s e inv _ now => preserved s e inv now)
    (fun s e inv _ after => needed s e inv after) initial free

/-- Where a step leaves the good states exactly when its event breaks the guard, and nothing leads back from the
bad ones, the last state of a run tells whether every event met the guard. -/
theorem run_good_or_bad {step : σ → ε → σ} {guard : σ → ε → Prop} {good bad : σ → Prop}
    (kept : ∀ s e, good s → guard s e → good (step s e)) (lost : ∀ s e, good s → ¬guard s e → bad (step s e))
    (stays : ∀ s e, bad s → bad (step s e)) (initial : good s) (events : List ε) :
    (Guarded step guard s events ∧ good (run step s events)) ∨
      (¬Guarded step guard s events ∧ bad (run step s events)) := by
  induction events generalizing s with
  | nil => exact .inl ⟨trivial,initial⟩
  | cons e events ih =>
    by_cases guarded : guard s e
    · rcases ih (kept s e initial guarded) with ⟨later,last⟩ | ⟨broken,last⟩
      · exact .inl ⟨⟨guarded,later⟩,last⟩
      · exact .inr ⟨fun all => broken all.2,last⟩
    · have first := lost s e initial guarded
      have last (t : σ) (start : bad t) : bad (run step t events) := by
        clear ih
        induction events generalizing t with
        | nil => exact start
        | cons f events ih => exact ih (step t f) (stays t f start)
      exact .inr ⟨fun all => guarded all.1,last (step s e) first⟩

theorem run_invariant {step : σ → ε → σ} {property : σ → Prop}
    (preserved : ∀ s e, property s → property (step s e))
    (initial : property s) (events : List ε) : property (run step s events) := by
  induction events generalizing s with
  | nil => exact initial
  | cons e events ih => exact ih (preserved s e initial)

/-- How many events of a run count. -/
def counted (step : σ → ε → σ) (counts : σ → ε → Bool) : σ → List ε → Nat
  | _, [] => 0
  | s, e :: events => (counts s e).toNat + counted step counts (step s e) events

/-- Where each event that counts takes from a weight that no event raises, few count. -/
theorem counted_le {step : σ → ε → σ} {counts : σ → ε → Bool} (weight : σ → Nat) (property : σ → Prop)
    (lowers : ∀ s e, property s → (counts s e).toNat + weight (step s e) ≤ weight s ∧ property (step s e))
    (initial : property s) (events : List ε) : counted step counts s events ≤ weight s := by
  induction events generalizing s with
  | nil => exact Nat.zero_le _
  | cons e events ih =>
    obtain ⟨lower,later⟩ := lowers s e initial
    have rest := ih later
    rw [counted]
    omega

/-- The states some sequence of steps reaches. -/
inductive Reachable (initial : σ → Prop) (step : σ → σ → Prop) : σ → Prop where
  | start : initial s → Reachable initial step s
  | next : Reachable initial step s → step s t → Reachable initial step t

theorem Reachable.invariant {initial : σ → Prop} {step : σ → σ → Prop} {property : σ → Prop}
    (reached : Reachable initial step s) (holds : ∀ s, initial s → property s)
    (preserved : ∀ s t, property s → step s t → property t) : property s := by
  induction reached with
  | start first => exact holds _ first
  | next _ moved ih => exact preserved _ _ ih moved

/-- A run from one state stays there or takes a first step. -/
theorem reachable_from_iff {step : σ → σ → Prop} :
    Reachable (· = s) step t ↔ t = s ∨ ∃ r, step s r ∧ Reachable (· = r) step t := by
  constructor
  · intro reached
    induction reached with
    | start first => exact .inl first
    | next _ moved ih =>
      rcases ih with rfl | ⟨r,first,rest⟩
      · exact .inr ⟨_,moved,.start rfl⟩
      · exact .inr ⟨r,first,rest.next moved⟩
  · rintro (rfl | ⟨r,first,rest⟩)
    · exact .start rfl
    · induction rest with
      | start same => exact .next (.start rfl) (same ▸ first)
      | next _ moved ih => exact .next ih moved

end Citrusleaf.Lib
