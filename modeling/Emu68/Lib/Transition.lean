import Mathlib.Logic.Relation
import Mathlib.Tactic.SplitIfs

/-!
Deterministic partial transition systems with labelled operations. `step state op` is the state
after an operation, or `none` when the operation does not return. `ok state op` says which
operations may be issued in a state. An invariant is proved of the initial state and of one
admissible step; `Reachable.invariant` carries it to every run.
-/

set_option autoImplicit false
set_option relaxedAutoImplicit false

namespace Emu68.Lib

variable {State Op : Type*}

/-- The states reached from `start` by operations that are admissible where they are issued. -/
inductive Reachable (step : State → Op → Option State) (ok : State → Op → Prop) (start : State) :
    State → Prop
  | refl : Reachable step ok start start
  | tail {state next : State} (op : Op) (prior : Reachable step ok start state)
      (admissible : ok state op) (taken : step state op = some next) : Reachable step ok start next

variable {step : State → Op → Option State} {ok weaker : State → Op → Prop} {start state : State}

/-- An invariant of the start that every admissible step keeps holds of every reachable state. -/
theorem Reachable.invariant (inv : State → Prop) (hstart : inv start)
    (hstep : ∀ s op s', inv s → ok s op → step s op = some s' → inv s')
    (h : Reachable step ok start state) : inv state := by
  induction h with
  | refl => exact hstart
  | tail op _ admissible taken ih => exact hstep _ op _ ih admissible taken

/-- Weakening what is admissible only adds runs. -/
theorem Reachable.mono (h : Reachable step ok start state)
    (hok : ∀ s op, ok s op → weaker s op) : Reachable step weaker start state := by
  induction h with
  | refl => exact .refl
  | tail op _ admissible taken ih => exact .tail op ih (hok _ op admissible) taken

/-- The run of a list of operations, as long as a test accepts them. -/
def runOps (step : State → Op → Option State) (test : State → Op → Bool) :
    State → List Op → Option State
  | s, [] => some s
  | s, op :: rest => if test s op then (step s op).bind fun next ↦ runOps step test next rest else none

/-- A run whose operations pass a test for being admissible. -/
theorem Reachable.of_runOps {test : State → Op → Bool} (htest : ∀ s op, test s op = true → ok s op)
    {ops : List Op} {s final : State} (h : Reachable step ok start s)
    (hrun : runOps step test s ops = some final) : Reachable step ok start final := by
  induction ops generalizing s with
  | nil =>
    cases hrun
    exact h
  | cons op rest ih =>
    unfold runOps at hrun
    split_ifs at hrun with hpass
    obtain ⟨next, hstep, hrest⟩ := Option.bind_eq_some_iff.mp hrun
    exact ih (.tail op h (htest s op hpass) hstep) hrest

end Emu68.Lib
