import Mathlib.Logic.Basic

/-! Loops that may not end. A lap goes on with a new state or ends with a result. -/
namespace Citrusleaf.Lib

inductive Lap (σ ρ : Type) where
  | on (s : σ)
  | ends (r : ρ)

/-- The result, if so many laps are enough. -/
def laps (lap : σ → Lap σ ρ) : Nat → σ → Option ρ
  | 0,_ => none
  | n + 1,s =>
    match lap s with
    | .on s => laps lap n s
    | .ends r => some r

/-- Some number of laps is enough. -/
def Ends (lap : σ → Lap σ ρ) (s : σ) (r : ρ) : Prop := ∃ n, laps lap n s = some r

variable {lap : σ → Lap σ ρ}

theorem ends_on (on : lap s = .on t) : Ends lap s r ↔ Ends lap t r := by
  constructor
  · rintro ⟨n,done⟩
    cases n with
    | zero => cases done
    | succ n =>
      rw [laps,on] at done
      exact ⟨n,done⟩
  · rintro ⟨n,done⟩
    exact ⟨n + 1,by rw [laps,on]; exact done⟩

theorem ends_ends (ends : lap s = .ends last) : Ends lap s r ↔ last = r := by
  constructor
  · rintro ⟨n,done⟩
    cases n with
    | zero => cases done
    | succ n =>
      rw [laps,ends] at done
      exact Option.some.inj done
  · rintro rfl
    exact ⟨1,by rw [laps,ends]⟩

/-- A loop that goes on from every state of an invariant never ends. -/
theorem never_ends (inv : σ → Prop) (stays : ∀ s, inv s → ∃ t, lap s = .on t ∧ inv t) (start : inv s) : ¬Ends lap s r := by
  rintro ⟨n,done⟩
  induction n generalizing s with
  | zero => cases done
  | succ n ih =>
    obtain ⟨t,on,later⟩ := stays s start
    rw [laps,on] at done
    exact ih later done

end Citrusleaf.Lib
