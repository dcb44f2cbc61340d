import Mathlib.Data.Nat.Notation
import Mathlib.Logic.Basic
import Mathlib.Data.Option.Basic

/-!
Variables that a program sets and reads at its places, and updates of them that are left out. A
variable is overwritten from a place on when every path sets it before it reads it. An update may be
left out where the variable is overwritten from every next place on: a run without these updates is
a run of the program as far as any place can tell.
-/

set_option autoImplicit false
set_option relaxedAutoImplicit false

namespace Emu68.Lib

variable {Place Var Value Rest : Type*}

/-- The successors of each place, and the variables that are read and set there. -/
structure Accesses (Place Var : Type*) where
  next : Place → Place → Prop
  reads : Place → Var → Prop
  sets : Place → Var → Prop

/-- Every path from the place sets the variable, and does not read it before. -/
inductive Overwritten (p : Accesses Place Var) (v : Var) : Place → Prop
  | set {a : Place} (unread : ¬ p.reads a v) (sets : p.sets a v) : Overwritten p v a
  | later {a : Place} (unread : ¬ p.reads a v) (next : ∀ b, p.next a b → Overwritten p v b) :
    Overwritten p v a

theorem Overwritten.unread {p : Accesses Place Var} {v : Var} {a : Place}
    (h : Overwritten p v a) : ¬ p.reads a v := by
  cases h with
  | set unread _ => exact unread
  | later unread _ => exact unread

theorem Overwritten.next {p : Accesses Place Var} {v : Var} {a b : Place} (h : Overwritten p v a)
    (hkept : ¬ p.sets a v) (hnext : p.next a b) : Overwritten p v b := by
  cases h with
  | set _ sets => exact absurd sets hkept
  | later _ next => exact next b hnext

/-- A program that accesses its variables as described. `step a r values` is the next place with the
rest of the state and the variables. -/
structure Program (p : Accesses Place Var) (Rest Value : Type*) where
  step : Place → Rest → (Var → Value) → Option (Place × Rest × (Var → Value))
  next : ∀ {a r values b r' values'}, step a r values = some (b, r', values') → p.next a b
  kept : ∀ {a r values b r' values'}, step a r values = some (b, r', values') →
    ∀ v, ¬ p.sets a v → values' v = values v
  /-- The step depends on nothing but the variables that are read. -/
  same : ∀ {a r values values₁ b r' values'}, (∀ v, p.reads a v → values₁ v = values v) →
    step a r values = some (b, r', values') →
    ∃ values₁', step a r values₁ = some (b, r', values₁') ∧
      ∀ v, p.sets a v → values₁' v = values' v

variable {p : Accesses Place Var}

namespace Program

def run (program : Program p Rest Value) :
    ℕ → Place → Rest → (Var → Value) → Option (Place × Rest × (Var → Value))
  | 0, a, r, values => some (a, r, values)
  | n + 1, a, r, values =>
    (program.step a r values).bind fun state ↦ program.run n state.1 state.2.1 state.2.2

/-- A run that updates some of the variables that are set. Those that are not updated may be
anything. -/
inductive LazyRun (program : Program p Rest Value) (updates : Place → Var → Prop) :
    ℕ → Place → Rest → (Var → Value) → Place → Rest → (Var → Value) → Prop
  | refl (a : Place) (r : Rest) (values : Var → Value) :
      LazyRun program updates 0 a r values a r values
  | step {n : ℕ} {a b c : Place} {r r₁ r' : Rest} {values full values₁ values' : Var → Value}
      (taken : program.step a r values = some (b, r₁, full))
      (updated : ∀ v, ¬ p.sets a v ∨ updates a v → values₁ v = full v)
      (rest : LazyRun program updates n b r₁ values₁ c r' values') :
    LazyRun program updates (n + 1) a r values c r' values'

variable {program : Program p Rest Value} {updates : Place → Var → Prop}

/-- The updates that are left out are not missed. -/
def Suffices (p : Accesses Place Var) (updates : Place → Var → Prop) : Prop :=
  ∀ a v, p.sets a v → ¬ updates a v → ∀ b, p.next a b → Overwritten p v b

/-- A run with the updates that suffice comes to the place and the rest of the state that the
program comes to, and the variables differ where they are overwritten at most. -/
theorem LazyRun.refines (hsuffices : Suffices p updates) {n : ℕ} {a c : Place} {r r' : Rest}
    {values values' : Var → Value} (h : LazyRun program updates n a r values c r' values')
    {exact : Var → Value} (hagree : ∀ v, values v = exact v ∨ Overwritten p v a) :
    ∃ exact', program.run n a r exact = some (c, r', exact') ∧
      ∀ v, values' v = exact' v ∨ Overwritten p v c := by
  induction h generalizing exact with
  | refl a r values => exact ⟨exact, rfl, hagree⟩
  | @step n a b c r r₁ r' values full values₁ values' taken updated _ ih =>
    have hread : ∀ v, p.reads a v → exact v = values v := fun v hv ↦
      ((hagree v).resolve_right fun hover ↦ hover.unread hv).symm
    obtain ⟨exact₁, htaken, hset⟩ := program.same hread taken
    have hnext := program.next taken
    have hagree₁ : ∀ v, values₁ v = exact₁ v ∨ Overwritten p v b := by
      intro v
      by_cases hsets : p.sets a v
      · by_cases hupdates : updates a v
        · exact .inl ((updated v (.inr hupdates)).trans (hset v hsets).symm)
        · exact .inr (hsuffices a v hsets hupdates b hnext)
      · rcases hagree v with heq | hover
        · refine .inl ?_
          rw [updated v (.inl hsets), program.kept taken v hsets, program.kept htaken v hsets, heq]
        · exact .inr (hover.next hsets hnext)
    obtain ⟨exact', hrun, hfinal⟩ := ih hagree₁
    refine ⟨exact', ?_, hfinal⟩
    rw [run, htaken]
    exact hrun

end Program

end Emu68.Lib
