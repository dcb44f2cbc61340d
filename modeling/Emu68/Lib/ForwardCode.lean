import Mathlib.Tactic.Common

/-!
Code in which every jump goes forward. An instruction changes the state and says how many of the
instructions behind it are skipped, so that a run is a pass over the list.
-/

set_option autoImplicit false
set_option relaxedAutoImplicit false

namespace Emu68.Lib

variable {σ ι : Type*}

/-- The state behind the code, and how many instructions behind it are still to be skipped. The
first number is how many of the code are skipped. -/
def runForward (effect : ι → σ → σ × ℕ) : ℕ → List ι → σ → σ × ℕ
  | skip, [], s => (s, skip)
  | skip + 1, _ :: code, s => runForward effect skip code s
  | 0, op :: code, s => runForward effect (effect op s).2 code (effect op s).1

variable {effect : ι → σ → σ × ℕ} {s s' : σ} {first second code : List ι} {k : ℕ}

theorem runForward_cons (op : ι) (code : List ι) (s : σ) :
    runForward effect 0 (op :: code) s = runForward effect (effect op s).2 code (effect op s).1 := rfl

/-- One instruction is run, and then the rest is. -/
theorem runForward_step {op : ι} (h : effect op s = (s', k)) :
    runForward effect 0 (op :: code) s = runForward effect k code s' := by
  rw [runForward_cons, h]

theorem runForward_append (k : ℕ) (first second : List ι) (s : σ) :
    runForward effect k (first ++ second) s =
      runForward effect (runForward effect k first s).2 second (runForward effect k first s).1 := by
  induction first generalizing k s with
  | nil =>
    cases k with
    | zero => rfl
    | succ k => rfl
  | cons op first ih =>
    cases k with
    | zero => exact ih _ _
    | succ k => exact ih _ _

/-- A piece that ends without a pending skip is run, and then the rest is. -/
theorem runForward_piece (h : runForward effect 0 first s = (s', 0)) :
    runForward effect 0 (first ++ second) s = runForward effect 0 second s' := by
  rw [runForward_append, h]

/-- Code that is skipped as a whole. -/
theorem runForward_skip (h : first.length = k) :
    runForward effect k (first ++ second) s = runForward effect 0 second s := by
  subst h
  induction first with
  | nil => rfl
  | cons op first ih => exact ih

theorem runForward_skip_all (h : code.length = k) : runForward effect k code s = (s, 0) := by
  have hskip : runForward effect k (code ++ []) s = runForward effect 0 [] s := runForward_skip h
  rwa [List.append_nil] at hskip

/-- Instructions that never skip anything. -/
theorem runForward_straight {step : σ → ι → σ} (h : ∀ op ∈ code, ∀ s, effect op s = (step s op, 0)) :
    runForward effect 0 code s = (code.foldl step s, 0) := by
  induction code generalizing s with
  | nil => rfl
  | cons op code ih =>
    rw [runForward_cons, h op (List.mem_cons_self ..) s, List.foldl_cons]
    exact ih fun op hop ↦ h op (List.mem_cons_of_mem _ hop)

end Emu68.Lib
