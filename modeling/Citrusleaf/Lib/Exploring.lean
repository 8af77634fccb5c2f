import Mathlib.Data.Finset.Card
import Mathlib.Logic.Relation

/-! Exploration of a graph in rounds. A round adds what it finds to what is known; it says
that it is done when it finds nothing new, so a finite world bounds the rounds. -/
namespace Citrusleaf.Lib

/-- Some chain of edges leads from a seed to this vertex. -/
def ReachedFrom (seeds : α → Prop) (next : α → α → Prop) (a : α) : Prop :=
  ∃ seed, seeds seed ∧ Relation.ReflTransGen next seed a

theorem ReachedFrom.seed {next : α → α → Prop} (first : seeds a) : ReachedFrom seeds next a := ⟨a,first,.refl⟩

theorem ReachedFrom.next {next : α → α → Prop} (reached : ReachedFrom seeds next a) (edge : next a b) :
    ReachedFrom seeds next b := by
  obtain ⟨seed,first,chain⟩ := reached
  exact ⟨seed,first,chain.tail edge⟩

/-- What is reached lies in every closed set with the seeds in it. -/
theorem ReachedFrom.least {next : α → α → Prop} {known : α → Prop} (reached : ReachedFrom seeds next a)
    (base : ∀ a, seeds a → known a) (closed : ∀ a b, known a → next a b → known b) : known a := by
  obtain ⟨seed,first,chain⟩ := reached
  induction chain with
  | refl => exact base seed first
  | tail _ edge ih => exact closed _ _ ih edge

/-- Rounds until one says that it is done, or there are no more of them. -/
def roundsUntil (done : σ → Bool) (round : σ → σ) : Nat → σ → σ
  | 0,s => s
  | n + 1,s => if done s then s else roundsUntil done round n (round s)

theorem roundsUntil_invariant {done : σ → Bool} {round : σ → σ} {property : σ → Prop}
    (kept : ∀ s, done s = false → property s → property (round s)) (n : Nat) (initial : property s) :
    property (roundsUntil done round n s) := by
  induction n generalizing s with
  | zero => exact initial
  | succ n ih =>
    rw [roundsUntil]
    split
    · exact initial
    · exact ih (kept s (Bool.eq_false_iff.mpr ‹_›) initial)

/-- Where a round that is not done adds something of a finite world, as many rounds as the world has left are
enough, and one more to see it. -/
theorem roundsUntil_done [DecidableEq α] {done : σ → Bool} {round : σ → σ} {property : σ → Prop} {known : σ → Finset α}
    {world : Finset α} (kept : ∀ s, done s = false → property s → property (round s))
    (inside : ∀ s, property s → known s ⊆ world)
    (grows : ∀ s, property s → done s = false → done (round s) = false → known s ⊂ known (round s))
    (initial : property s) (enough : world.card < n + (known s).card) : done (roundsUntil done round n s) = true := by
  induction n generalizing s with
  | zero =>
    have most := Finset.card_le_card (inside s initial)
    omega
  | succ n ih =>
    rw [roundsUntil]
    split
    · assumption
    · have unsettled : done s = false := Bool.eq_false_iff.mpr ‹_›
      cases seen : done (round s) with
      | true =>
        cases n with
        | zero => exact seen
        | succ n => rw [roundsUntil,if_pos seen]; exact seen
      | false =>
        have more := Finset.card_lt_card (grows s initial unsettled seen)
        exact ih (kept s unsettled initial) (by omega)

end Citrusleaf.Lib
