import Mathlib.Logic.Function.Basic
import Citrusleaf.Lib.Runs

/-! Machines side by side, one for each key: an event goes to the machine of its key, and
what a run does to one of them is the run of the events for its key. -/
namespace Citrusleaf.Lib

variable [DecidableEq κ]

def keyedStep (step : κ → σ → ε → σ) (s : κ → σ) (event : κ × ε) : κ → σ :=
  Function.update s event.1 (step event.1 (s event.1) event.2)

/-- The events for one key. -/
def eventsFor (key : κ) (events : List (κ × ε)) : List ε :=
  events.filterMap fun event => if event.1 = key then some event.2 else none

theorem run_keyed (step : κ → σ → ε → σ) (s : κ → σ) (key : κ) (events : List (κ × ε)) :
    run (keyedStep step) s events key = run (step key) (s key) (eventsFor key events) := by
  induction events generalizing s with
  | nil => rfl
  | cons event events ih =>
    have parts : eventsFor key (event :: events) =
        (if event.1 = key then [event.2] else []) ++ eventsFor key events := by
      rw [eventsFor,eventsFor,List.filterMap_cons]
      split <;> split_ifs at * <;> simp_all
    rw [run_cons,ih,parts,run_append]
    by_cases same : event.1 = key
    · rw [if_pos same,keyedStep,same,Function.update_self]
      rfl
    · rw [if_neg same,keyedStep,Function.update_of_ne (Ne.symm same)]
      rfl

end Citrusleaf.Lib
