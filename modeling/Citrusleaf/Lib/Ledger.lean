import Mathlib.Data.List.Perm.Basic

/-! Books of what a sequence of calls takes and gives back. Only what is held can be given back,
and the books are balanced if nothing is held at the end. -/
namespace Citrusleaf.Lib

/-- What a call takes, and what it gives back. -/
structure Ledger (κ α : Type) where
  takes : κ → Option α
  gives : κ → Option α

namespace Ledger

variable {κ α : Type} [DecidableEq α]

/-- What is held behind the calls; `none` if one of them gives back what is not held. -/
def settle (ledger : Ledger κ α) : List α → List κ → Option (List α)
  | held,[] => some held
  | held,call :: calls =>
    let held := (ledger.takes call).toList ++ held
    match ledger.gives call with
    | none => settle ledger held calls
    | some a => if a ∈ held then settle ledger (held.erase a) calls else none

def Balanced (ledger : Ledger κ α) (calls : List κ) : Prop := ledger.settle [] calls = some []

variable {ledger : Ledger κ α} {held : List α} {first later calls : List κ}

instance : Decidable (ledger.Balanced calls) := inferInstanceAs (Decidable (_ = _))

@[simp] theorem balanced_nil : ledger.Balanced [] := rfl

theorem settle_append (ledger : Ledger κ α) (held : List α) (first later : List κ) :
    ledger.settle held (first ++ later) = (ledger.settle held first).bind fun held => ledger.settle held later := by
  induction first generalizing held with
  | nil => rfl
  | cons call first ih =>
    rw [List.cons_append,settle,settle]
    split
    · exact ih _
    · split
      · exact ih _
      · rfl

/-- Balanced calls can be left out in front. -/
theorem Balanced.append_iff (balanced : ledger.Balanced first) : ledger.Balanced (first ++ later) ↔ ledger.Balanced later := by
  rw [Balanced,settle_append,show ledger.settle [] first = some [] from balanced,Option.bind_some]
  rfl

/-- Calls that neither take nor give back. -/
theorem settle_neutral (neutral : ∀ call ∈ calls, ledger.takes call = none ∧ ledger.gives call = none) :
    ledger.settle held calls = some held := by
  induction calls generalizing held with
  | nil => rfl
  | cons call calls ih =>
    obtain ⟨takes,gives⟩ := neutral call List.mem_cons_self
    rw [settle,takes,gives]
    exact ih fun other member => neutral other (List.mem_cons_of_mem _ member)

/-- Calls that only take. -/
theorem settle_takes (ledger : Ledger κ α) (held l : List α) (call : α → κ) (takes : ∀ a, ledger.takes (call a) = some a)
    (gives : ∀ a, ledger.gives (call a) = none) : ledger.settle held (l.map call) = some (l.reverse ++ held) := by
  induction l generalizing held with
  | nil => rfl
  | cons a l ih =>
    rw [List.map_cons,settle,takes,gives]
    dsimp only
    rw [ih]
    simp

/-- Calls that only give back, in any order. -/
theorem settle_gives (ledger : Ledger κ α) {l : List α} (call : α → κ) (takes : ∀ a, ledger.takes (call a) = none)
    (gives : ∀ a, ledger.gives (call a) = some a) (same : held.Perm l) : ledger.settle held (l.map call) = some [] := by
  induction l generalizing held with
  | nil =>
    rw [same.eq_nil]
    rfl
  | cons a l ih =>
    rw [List.map_cons,settle,takes,gives,Option.toList_none,List.nil_append]
    dsimp only
    rw [if_pos (same.mem_iff.mpr List.mem_cons_self)]
    exact ih (by simpa using same.erase a)

/-- The books of calls of which only some are looked at. -/
def comap {κ' : Type} (ledger : Ledger κ α) (call : κ' → Option κ) : Ledger κ' α where
  takes c := (call c).bind ledger.takes
  gives c := (call c).bind ledger.gives

theorem settle_comap {κ' : Type} (ledger : Ledger κ α) (call : κ' → Option κ) (held : List α) (calls : List κ') :
    (ledger.comap call).settle held calls = ledger.settle held (calls.filterMap call) := by
  induction calls generalizing held with
  | nil => rfl
  | cons c calls ih =>
    rw [settle,comap]
    cases looked : call c with
    | none =>
      rw [List.filterMap_cons_none looked]
      simp only [looked,Option.bind_none]
      exact ih held
    | some c' =>
      rw [List.filterMap_cons_some looked,settle]
      simp only [looked,Option.bind_some]
      split
      · exact ih _
      · split
        · exact ih _
        · rfl

theorem balanced_comap {κ' : Type} {call : κ' → Option κ} {calls : List κ'} :
    (ledger.comap call).Balanced calls ↔ ledger.Balanced (calls.filterMap call) := by
  rw [Balanced,settle_comap]
  rfl

end Ledger
end Citrusleaf.Lib
