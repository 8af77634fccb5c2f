import Mathlib.Logic.Basic

/-! Computations that may fail, with the exact condition under which they do not. The
rules follow the shape of the computation: a sequence needs the conditions of its parts,
a branch the condition of the side that is taken. -/
namespace Citrusleaf.Lib

/-- A sequence whose first part is known goes on with the second. -/
theorem bind_given {f : α → Option β} (given : x = some a) (rest : f a = some b) : x.bind f = some b := by
  rw [given]
  exact rest

/-- What is missing is an error. -/
def orError (error : ε) : Option α → Except ε α
  | none => .error error
  | some a => .ok a

@[simp] theorem orError_ok {x : Option α} : orError error x = .ok a ↔ x = some a := by
  cases x <;> simp [orError]

@[simp] theorem orError_error {x : Option α} : orError error x = .error e ↔ x = none ∧ error = e := by
  cases x <;> simp [orError]

theorem except_bind_ok {x : Except ε α} {f : α → Except ε β} : x.bind f = .ok b ↔ ∃ a, x = .ok a ∧ f a = .ok b := by
  cases x <;> simp [Except.bind]

theorem except_bind_given {x : Except ε α} {f : α → Except ε β} (given : x = .ok a) (rest : f a = .ok b) :
    x.bind f = .ok b := except_bind_ok.mpr ⟨a,given,rest⟩

theorem except_bind_error {x : Except ε α} {f : α → Except ε β} :
    x.bind f = .error e ↔ x = .error e ∨ ∃ a, x = .ok a ∧ f a = .error e := by
  cases x <;> simp [Except.bind]

/-- The computation gives a value, and one that meets `post`, exactly under the condition. -/
inductive Checked (condition : Prop) (post : α → Prop) : Option α → Prop where
  | gives : condition → post a → Checked condition post (some a)
  | fails : ¬condition → Checked condition post none

variable {condition other next : Prop} {post weaker : β → Prop} {mid : α → Prop}

theorem Checked.isSome_iff (checked : Checked condition post x) : x.isSome ↔ condition := by
  cases checked with
  | gives holds _ => exact iff_of_true rfl holds
  | fails broken => exact iff_of_false nofun broken

theorem Checked.meets (checked : Checked condition post x) (value : x = some a) : post a := by
  cases checked with
  | gives _ meets => exact Option.some.inj value ▸ meets
  | fails => cases value

theorem Checked.congr (checked : Checked condition post x) (same : condition ↔ other) :
    Checked other post x := by
  cases checked with
  | gives holds meets => exact .gives (same.mp holds) meets
  | fails broken => exact .fails (mt same.mpr broken)

theorem Checked.weaken (checked : Checked condition post x) (implies : ∀ a, post a → weaker a) :
    Checked condition weaker x := by
  cases checked with
  | gives holds meets => exact .gives holds (implies _ meets)
  | fails broken => exact .fails broken

theorem Checked.pure (meets : post a) : Checked True post (some a) := .gives trivial meets

/-- The second part may use what the first one gave. -/
theorem Checked.bind {f : α → Option β} (first : Checked condition mid x)
    (second : ∀ a, condition → mid a → Checked next post (f a)) :
    Checked (condition ∧ next) post (x.bind f) := by
  cases first with
  | gives holds meets => exact (second _ holds meets).congr (and_iff_right holds).symm
  | fails broken => exact .fails fun both => broken both.1

theorem Checked.map {f : α → β} (first : Checked condition mid x) (meets : ∀ a, mid a → post (f a)) :
    Checked condition post (x.map f) := by
  cases first with
  | gives holds mid => exact .gives holds (meets _ mid)
  | fails broken => exact .fails broken

theorem Checked.ite [Decidable branch] (yes : branch → Checked condition post x)
    (no : ¬branch → Checked other post y) :
    Checked ((branch → condition) ∧ (¬branch → other)) post (if branch then x else y) := by
  split
  · rename_i taken
    exact (yes taken).congr ⟨fun holds => ⟨fun _ => holds,fun not => absurd taken not⟩,fun both => both.1 taken⟩
  · rename_i taken
    exact (no taken).congr ⟨fun holds => ⟨fun is => absurd is taken,fun _ => holds⟩,fun both => both.2 taken⟩

end Citrusleaf.Lib
