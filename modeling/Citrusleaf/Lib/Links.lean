import Mathlib.Data.List.Nodup
import Mathlib.Logic.Function.Basic
import Mathlib.Logic.Relation

/-! Doubly linked lists. Links are kept for every element, whether it is in the list or was taken
out of it; a reader that stands on an element goes on along the links it finds there. -/
namespace Citrusleaf.Lib

variable {α : Type} {next prev : α → Option α} {first later before behind l : List α} {a b c e t : α}

/-- The links of each element of the list lead to its neighbours there. -/
structure Linked (next prev : α → Option α) (l : List α) : Prop where
  distinct : l.Nodup
  links : ∀ first e later, l = first ++ e :: later → next e = later.head? ∧ prev e = first.getLast?

theorem Linked.nil (next prev : α → Option α) : Linked next prev [] :=
  ⟨List.nodup_nil,fun _ _ _ parts => absurd parts.symm (List.append_ne_nil_of_right_ne_nil _ (List.cons_ne_nil _ _))⟩

/-- Who follows the links from one element comes to another. -/
def Reaches (next : α → Option α) : α → α → Prop := Relation.ReflTransGen fun a b => next a = some b

theorem Linked.next_mem (linked : Linked next prev l) (member : a ∈ l) (follows : next a = some b) : b ∈ l := by
  obtain ⟨first,later,rfl⟩ := List.append_of_mem member
  have head := (linked.links first a later rfl).1.symm.trans follows
  exact List.mem_append_right _ (List.mem_cons_of_mem _ (List.mem_of_mem_head? head))

/-- From the list no link leads out of it. -/
theorem Linked.reaches_mem (linked : Linked next prev l) (member : a ∈ l) (reaches : Reaches next a b) : b ∈ l := by
  induction reaches with
  | refl => exact member
  | tail _ follows ih => exact linked.next_mem ih follows

/-- Who follows the links from one on meets these elements, and then a null link. -/
inductive LinkPath (next : α → Option α) : Option α → List α → Prop where
  | nil : LinkPath next none []
  | cons (e : α) (l : List α) (rest : LinkPath next (next e) l) : LinkPath next (some e) (e :: l)

theorem Linked.path_from (linked : Linked next prev (first ++ l)) : LinkPath next l.head? l := by
  induction l generalizing first with
  | nil => exact .nil
  | cons e l ih =>
    have follows := (linked.links first e l rfl).1
    have rest : Linked next prev (first ++ [e] ++ l) := by simpa using linked
    exact .cons e l (follows ▸ ih rest)

/-- Backwards the list is linked as well. -/
theorem Linked.reverse (linked : Linked next prev l) : Linked prev next l.reverse := by
  constructor
  · exact List.nodup_reverse.mpr linked.distinct
  · intro first e later parts
    have turned := congrArg List.reverse parts
    simp only [List.reverse_reverse,List.reverse_append,List.reverse_cons,List.append_assoc,List.singleton_append] at turned
    have both := linked.links later.reverse e first.reverse turned
    rw [List.head?_reverse,List.getLast?_reverse] at both
    exact both.symm

/-- Only the links of the elements matter. -/
theorem Linked.congr {next' prev' : α → Option α} (linked : Linked next prev l) (nexts : ∀ a ∈ l, next' a = next a)
    (prevs : ∀ a ∈ l, prev' a = prev a) : Linked next' prev' l := by
  refine ⟨linked.distinct,fun first e later parts => ?_⟩
  have member : e ∈ l := parts ▸ List.mem_append_right _ List.mem_cons_self
  rw [nexts e member,prevs e member]
  exact linked.links first e later parts

variable [DecidableEq α]

/-- The links of a list with a new last element. -/
def pushNext (next : α → Option α) (l : List α) (e a : α) : Option α :=
  if a = e then none else if l.getLast? = some a then some e else next a

/-- The links past an element that is taken out. -/
def dropNext (next : α → Option α) (first later : List α) (a : α) : Option α :=
  if first.getLast? = some a then later.head? else next a

def dropPrev (prev : α → Option α) (first later : List α) (a : α) : Option α :=
  if later.head? = some a then first.getLast? else prev a

/-- The links past an element that is put in. -/
def insertNext (next : α → Option α) (first later : List α) (e a : α) : Option α :=
  if a = e then later.head? else if first.getLast? = some a then some e else next a

theorem insertNext_nil (next : α → Option α) (later : List α) (e : α) :
    insertNext next [] later e = Function.update next e later.head? := by
  funext a
  rw [insertNext,Function.update_apply]
  rfl

/-- Behind an element that is not the new one. -/
theorem insertNext_last (last : first.getLast? = some a) (differ : a ≠ e) :
    insertNext next first later e = Function.update (Function.update next e later.head?) a (some e) := by
  funext b
  rw [insertNext,last,Function.update_apply,Function.update_apply]
  by_cases new : b = e
  · rw [if_pos new,if_pos new,if_neg (new ▸ differ.symm)]
  · rw [if_neg new,if_neg new]
    exact if_congr (Option.some_inj.trans eq_comm) rfl rfl

theorem Linked.insert_next (linked : Linked next prev (first ++ later)) (fresh : e ∉ first ++ later)
    (parts : first ++ e :: later = before ++ a :: behind) : insertNext next first later e a = behind.head? := by
  have distinct := List.nodup_append.mp linked.distinct
  rcases List.append_eq_append_iff.mp parts with ⟨other,rfl,rest⟩ | ⟨other,rfl,rest⟩
  · cases other with
    | nil =>
      obtain ⟨rfl,rfl⟩ := List.cons.inj rest
      exact if_pos rfl
    | cons n other =>
      -- `a` is behind the new element
      obtain ⟨rfl,rfl⟩ := List.cons.inj rest
      have differ : a ≠ e := fun same => fresh (by simp [same])
      have follows := (linked.links (first ++ other) a behind (by simp)).1
      have inside : first.getLast? ≠ some a := fun last =>
        distinct.2.2 a (List.mem_of_getLast? last) a (by simp) rfl
      rw [insertNext,if_neg differ,if_neg inside,follows]
  · rcases List.cons_eq_append_iff.mp rest with ⟨rfl,rest⟩ | ⟨other,rfl,rfl⟩
    · obtain ⟨rfl,rfl⟩ := List.cons.inj rest
      exact if_pos rfl
    · -- `a` is in front of it
      have differ : a ≠ e := fun same => fresh (by simp [same])
      have follows := (linked.links before a (other ++ later) (by simp)).1
      rw [insertNext,if_neg differ]
      cases other with
      | nil => exact if_pos (List.getLast?_concat ..)
      | cons n other =>
        refine (if_neg fun last => ?_).trans follows
        -- what is behind `a` is not `a` again
        rw [List.getLast?_append_cons,List.getLast?_cons_cons] at last
        have once := (List.nodup_cons.mp (List.nodup_append.mp distinct.1).2.1).1
        exact once (List.mem_of_getLast? last)

/-- An element is put in. -/
theorem Linked.insert (linked : Linked next prev (first ++ later)) (fresh : e ∉ first ++ later) :
    Linked (insertNext next first later e) (insertNext prev later.reverse first.reverse e) (first ++ e :: later) := by
  have back := linked.reverse
  rw [List.reverse_append] at back
  constructor
  · exact List.nodup_middle.mpr (List.nodup_cons.mpr ⟨fresh,linked.distinct⟩)
  · intro before a behind parts
    have turned := congrArg List.reverse parts
    simp only [List.reverse_append,List.reverse_cons,List.append_assoc,List.singleton_append] at turned
    refine ⟨linked.insert_next fresh parts,?_⟩
    rw [back.insert_next (by simpa [and_comm] using fresh) turned,List.head?_reverse]

/-- A new last element. -/
theorem Linked.push (linked : Linked next prev l) (fresh : e ∉ l) :
    Linked (pushNext next l e) (Function.update prev e l.getLast?) (l ++ [e]) := by
  rw [← List.append_nil l] at linked fresh
  have inserted := linked.insert fresh
  rwa [List.reverse_nil,insertNext_nil,List.head?_reverse] at inserted

/-- An element is taken out. -/
theorem Linked.drop (linked : Linked next prev (first ++ e :: later)) :
    Linked (dropNext next first later) (dropPrev prev first later) (first ++ later) := by
  have distinct := linked.distinct
  have apart {a : α} (before : a ∈ first) (behind : a ∈ later) : False :=
    (List.nodup_append.mp distinct).2.2 a before a (List.mem_cons_of_mem _ behind) rfl
  constructor
  · exact distinct.sublist ((List.sublist_cons_self e later).append_left first)
  · intro before a behind parts
    rcases List.append_eq_append_iff.mp parts with ⟨other,rfl,rfl⟩ | ⟨other,rfl,rest⟩
    · -- `a` is behind the element
      obtain ⟨follows,precedes⟩ := linked.links (first ++ e :: other) a behind (by rw [List.append_assoc,List.cons_append])
      constructor
      · exact (if_neg fun last => apart (List.mem_of_getLast? last) (by simp)).trans follows
      · cases other with
        | nil =>
          rw [List.append_nil]
          exact if_pos rfl
        | cons n other =>
          refine (if_neg fun head => ?_).trans (precedes.trans ?_)
          · have once := (List.nodup_cons.mp (List.nodup_append.mp distinct).2.1).2
            rw [List.cons_append,List.head?_cons] at head
            obtain rfl := Option.some.inj head
            exact (List.nodup_cons.mp once).1 (by simp)
          · rw [List.getLast?_append_cons,List.getLast?_cons_cons,List.getLast?_append_cons]
    · obtain ⟨rfl,rfl⟩ | ⟨other,rfl,rfl⟩ := List.cons_eq_append_iff.mp rest
      · obtain ⟨follows,precedes⟩ := linked.links (before ++ [e]) a behind (by simp)
        rw [List.append_nil]
        exact ⟨(if_neg fun last => apart (by rw [List.append_nil]; exact List.mem_of_getLast? last) List.mem_cons_self).trans follows,
          if_pos rfl⟩
      · -- `a` is in front of it
        obtain ⟨follows,precedes⟩ := linked.links before a (other ++ e :: later) (by simp)
        constructor
        · cases other with
          | nil => exact if_pos (List.getLast?_concat ..)
          | cons n other =>
            refine (if_neg fun last => ?_).trans follows
            have once := (List.nodup_append.mp (List.nodup_append.mp distinct).1).2.1
            rw [List.getLast?_append_cons,List.getLast?_cons_cons] at last
            exact (List.nodup_cons.mp once).1 (List.mem_of_getLast? last)
        · exact (if_neg fun head => apart (by simp) (List.mem_of_mem_head? head)).trans precedes

/-! ### Readers -/

/-- No reader comes to an element by a link past another one that it did not come to before. -/
theorem Reaches.drop (linked : Linked next prev (first ++ e :: later)) (reaches : Reaches (dropNext next first later) a b) :
    Reaches next a b := by
  induction reaches with
  | refl => exact .refl
  | tail _ follows ih =>
    rw [dropNext] at follows
    split at follows
    · rename_i p n _ last
      obtain ⟨front,rfl⟩ := List.getLast?_eq_some_iff.mp last
      have stepped := (linked.links front p (e :: later) (by simp)).1
      have skipped := (linked.links (front ++ [p]) e later rfl).1
      exact (ih.tail stepped).tail (skipped.trans follows)
    · exact ih.tail follows

/-- Behind a new last element there is nothing. -/
theorem Reaches.push (reaches : Reaches (pushNext next l e) a b) : b = e ∨ Reaches next a b := by
  induction reaches with
  | refl => exact .inr .refl
  | tail _ follows ih =>
    rw [pushNext] at follows
    split at follows
    · cases follows
    · rename_i differ
      split at follows
      · exact .inl (Option.some.inj follows).symm
      · exact .inr ((ih.resolve_left differ).tail follows)

end Citrusleaf.Lib
