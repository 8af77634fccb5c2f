import Mathlib.Data.List.Perm.Basic
import Mathlib.Data.List.Nodup

/-! An array whose slots a counter hands out, one after the other, to threads that fill them
later. What a thread has left to write to its slot is a function of the slot. -/
namespace Citrusleaf.Lib

/-- The slots handed out are to hold `values`; each of `flights` is a slot that is still being
filled, with what is left to write. -/
structure Tickets (start cells values : List α) (flights : List (Nat × (α → α))) : Prop where
  size : cells.length = start.length
  room : values.length ≤ start.length
  distinct : (flights.map Prod.fst).Nodup
  coming : ∀ flight ∈ flights, ∃ value, values[flight.1]? = some value ∧ cells[flight.1]?.map flight.2 = some value
  settled : ∀ k < values.length, k ∉ flights.map Prod.fst → cells[k]? = values[k]?
  untouched : ∀ k, values.length ≤ k → cells[k]? = start[k]?

variable {start cells values : List α} {flights : List (Nat × (α → α))}

theorem Tickets.none (start : List α) : Tickets start start [] [] :=
  ⟨rfl,Nat.zero_le _,List.nodup_nil,nofun,fun k inside => absurd inside (Nat.not_lt_zero k),fun _ _ => rfl⟩

theorem Tickets.perm (tickets : Tickets start cells values flights) (same : flights.Perm other) :
    Tickets start cells values other where
  size := tickets.size
  room := tickets.room
  distinct := (same.map Prod.fst).nodup_iff.mp tickets.distinct
  coming flight member := tickets.coming flight (same.mem_iff.mpr member)
  settled k inside outside := tickets.settled k inside fun member => outside ((same.map Prod.fst).mem_iff.mp member)
  untouched := tickets.untouched

theorem Tickets.inside (tickets : Tickets start cells values flights) {flight : Nat × (α → α)}
    (member : flight ∈ flights) : flight.1 < values.length := by
  obtain ⟨value,given,_⟩ := tickets.coming flight member
  exact (List.getElem?_eq_some_iff.mp given).1

/-- The next slot is handed out, for a value that what is left to write makes of it. -/
theorem Tickets.take (tickets : Tickets start cells values flights) (room : values.length < start.length)
    (value : α) (finish : α → α) (makes : ∀ cell, start[values.length]? = some cell → finish cell = value) :
    Tickets start cells (values ++ [value]) ((values.length,finish) :: flights) where
  size := tickets.size
  room := by
    rw [List.length_append]
    exact room
  distinct := by
    refine List.nodup_cons.mpr ⟨fun again => ?_,tickets.distinct⟩
    obtain ⟨flight,member,same⟩ := List.mem_map.mp again
    have inside := tickets.inside member
    rw [same] at inside
    exact Nat.lt_irrefl _ inside
  coming := by
    intro flight member
    rcases List.mem_cons.mp member with rfl | old
    · refine ⟨value,by simp,?_⟩
      have cell := List.getElem?_eq_getElem room
      rw [tickets.untouched _ (Nat.le_refl _),cell]
      exact congrArg some (makes _ cell)
    · obtain ⟨value,given,done⟩ := tickets.coming flight old
      exact ⟨value,by rw [List.getElem?_append_left (tickets.inside old),given],done⟩
  settled := by
    intro k inside outside
    simp only [List.map_cons,List.mem_cons,not_or,List.length_append,List.length_singleton] at inside outside
    rw [List.getElem?_append_left (by omega)]
    exact tickets.settled k (by omega) outside.2
  untouched := by
    intro k beyond
    rw [List.length_append] at beyond
    exact tickets.untouched k (Nat.le_of_succ_le beyond)

/-- A thread writes to its slot. -/
theorem Tickets.write (tickets : Tickets start cells values ((slot,finish) :: flights)) (write rest : α → α)
    (parts : ∀ cell, cells[slot]? = some cell → rest (write cell) = finish cell) :
    Tickets start (cells.modify slot write) values ((slot,rest) :: flights) where
  size := (List.length_modify ..).trans tickets.size
  room := tickets.room
  distinct := tickets.distinct
  coming := by
    intro flight member
    rcases List.mem_cons.mp member with rfl | other
    · obtain ⟨value,given,done⟩ := tickets.coming _ List.mem_cons_self
      refine ⟨value,given,?_⟩
      rw [List.getElem?_modify_eq,← done]
      cases content : cells[slot]? with
      | none => rfl
      | some cell => exact congrArg some (parts cell content)
    · obtain ⟨value,given,done⟩ := tickets.coming flight (List.mem_cons_of_mem _ other)
      have apart := (List.nodup_cons.mp tickets.distinct).1
      have member : flight.1 ∈ flights.map Prod.fst := List.mem_map_of_mem other
      have differ : slot ≠ flight.1 := fun same => apart (same ▸ member)
      exact ⟨value,given,by rw [List.getElem?_modify_ne _ _ differ,done]⟩
  settled := by
    intro k inside outside
    have differ : slot ≠ k := fun same => outside (same ▸ List.mem_cons_self)
    rw [List.getElem?_modify_ne _ _ differ]
    exact tickets.settled k inside outside
  untouched := by
    intro k beyond
    have inside := tickets.inside List.mem_cons_self
    have differ : slot ≠ k := Nat.ne_of_lt (Nat.lt_of_lt_of_le inside beyond)
    rw [List.getElem?_modify_ne _ _ differ]
    exact tickets.untouched k beyond

/-- A thread that has nothing left to write is done with its slot. -/
theorem Tickets.done (tickets : Tickets start cells values ((slot,finish) :: flights))
    (nothing : ∀ cell, cells[slot]? = some cell → finish cell = cell) : Tickets start cells values flights where
  size := tickets.size
  room := tickets.room
  distinct := (List.nodup_cons.mp tickets.distinct).2
  coming flight member := tickets.coming flight (List.mem_cons_of_mem _ member)
  settled := by
    intro k inside outside
    by_cases here : k = slot
    · subst here
      obtain ⟨value,given,done⟩ := tickets.coming _ List.mem_cons_self
      rw [given,← done]
      cases content : cells[k]? with
      | none => rfl
      | some cell => exact congrArg some (nothing cell content).symm
    · refine tickets.settled k inside ?_
      rw [List.map_cons,List.mem_cons,not_or]
      exact ⟨here,outside⟩
  untouched := tickets.untouched

/-- Once no slot is being filled, the array is the values in the order of their slots. -/
theorem Tickets.complete (tickets : Tickets start cells values []) : cells = values ++ start.drop values.length := by
  apply List.ext_getElem?
  intro k
  by_cases inside : k < values.length
  · rw [List.getElem?_append_left inside]
    exact tickets.settled k inside List.not_mem_nil
  · have beyond := Nat.not_lt.mp inside
    rw [List.getElem?_append_right beyond,List.getElem?_drop,Nat.add_sub_cancel' beyond]
    exact tickets.untouched k beyond

end Citrusleaf.Lib
