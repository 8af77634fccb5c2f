import Mathlib.Data.List.Perm.Basic
import Mathlib.Data.List.Nodup

/-! Things that are opened and closed, and the places that keep them in the meantime. -/
namespace Citrusleaf.Lib

/-- Each thing that is open is in one of the places, once. -/
structure Custody (opened : List α) (places : List (List α)) : Prop where
  once : opened.Nodup
  placed : places.flatten.Perm opened

variable {opened gone : List α} {places others : List (List α)} {a : α}

theorem Custody.none (α : Type) (n : Nat) : Custody ([] : List α) (List.replicate n []) :=
  ⟨List.nodup_nil,by simp⟩

theorem Custody.mem (custody : Custody opened places) (place : l ∈ places) (member : a ∈ l) : a ∈ opened :=
  custody.placed.mem_iff.mp (List.mem_flatten_of_mem place member)

/-- Things change places. -/
theorem Custody.moved (custody : Custody opened places) (same : others.flatten.Perm places.flatten) :
    Custody opened others :=
  ⟨custody.once,same.trans custody.placed⟩

theorem Custody.opens (custody : Custody opened places) (fresh : a ∉ opened)
    (more : others.flatten.Perm (a :: places.flatten)) : Custody (a :: opened) others :=
  ⟨List.nodup_cons.mpr ⟨fresh,custody.once⟩,more.trans (custody.placed.cons a)⟩

theorem Custody.closes [DecidableEq α] (custody : Custody opened places)
    (less : places.flatten.Perm (a :: others.flatten)) : a ∈ opened ∧ Custody (opened.erase a) others := by
  have parts : (a :: others.flatten).Perm opened := less.symm.trans custody.placed
  refine ⟨parts.mem_iff.mp List.mem_cons_self,custody.once.erase a,?_⟩
  have rest := parts.erase a
  rwa [List.erase_cons_head] at rest

end Citrusleaf.Lib
