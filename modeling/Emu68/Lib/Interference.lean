import Mathlib.Logic.Relation
import Mathlib.Order.WellFounded

/-!
Straight-line programs beside an environment. A program is a list of instructions on a state that
an environment changes at any time, and an instruction may have to wait until it is enabled. An
outline annotates a program with assertions that the environment does not destroy, one before each
instruction, and follows the program to the end. Every state of every run is then covered by the
assertion before the instruction that is next; and if an instruction that has to wait leaves the
environment something to do, and the environment comes to rest, every run comes to the end.
-/

set_option autoImplicit false
set_option relaxedAutoImplicit false

namespace Emu68.Lib

/-- The instructions that a program can consist of, and what goes on beside them. -/
structure Thread (Instr State : Type*) where
  enabled : Instr → State → Prop
  exec : Instr → State → State
  env : State → State → Prop

namespace Thread

variable {Instr State : Type*}

/-- The instructions that remain, and the state. -/
structure Config (Instr State : Type*) where
  rest : List Instr
  state : State

inductive Step (t : Thread Instr State) : Config Instr State → Config Instr State → Prop
  | own (i : Instr) (rest : List Instr) (s : State) (enabled : t.enabled i s) :
    Step t ⟨i :: rest, s⟩ ⟨rest, t.exec i s⟩
  | other (rest : List Instr) (s s' : State) (env : t.env s s') : Step t ⟨rest, s⟩ ⟨rest, s'⟩

/-- The environment leaves the assertion alone. -/
def Stable (t : Thread Instr State) (P : State → Prop) : Prop := ∀ s s', P s → t.env s s' → P s'

/-- Assertions before each instruction. Each is stable, permits the instruction, and does not let
it wait for an environment that has come to rest. -/
inductive Outline (t : Thread Instr State) (ok : Instr → State → Prop) :
    (State → Prop) → List Instr → (State → Prop) → Prop
  | nil (P R : State → Prop) (stable : t.Stable P) (post : ∀ s, P s → R s) : Outline t ok P [] R
  | cons (P Q R : State → Prop) (i : Instr) (rest : List Instr) (stable : t.Stable P)
    (permits : ∀ s, P s → ok i s) (goesOn : ∀ s, P s → t.enabled i s ∨ ∃ s', t.env s s')
    (next : ∀ s, P s → t.enabled i s → Q (t.exec i s)) (tail : Outline t ok Q rest R) :
    Outline t ok P (i :: rest) R

variable {t : Thread Instr State} {ok : Instr → State → Prop} {P P' Q R R' : State → Prop}
  {i : Instr} {first second rest : List Instr} {s : State} {c c' : Config Instr State}

theorem Outline.stable (h : Outline t ok P first R) : t.Stable P := by
  cases h with
  | nil _ _ stable => exact stable
  | cons _ _ _ _ _ stable => exact stable

theorem Outline.done (stable : t.Stable P) : Outline t ok P [] P :=
  .nil P P stable fun _ h ↦ h

/-- A stronger assertion in front. -/
theorem Outline.weaken (h : Outline t ok P first R) (stable : t.Stable P')
    (hpre : ∀ s, P' s → P s) : Outline t ok P' first R := by
  cases h with
  | nil _ _ _ post => exact .nil P' R stable fun s hs ↦ post s (hpre s hs)
  | cons _ Q _ i rest _ permits goesOn next tail =>
    exact .cons P' Q R i rest stable (fun s hs ↦ permits s (hpre s hs))
      (fun s hs ↦ goesOn s (hpre s hs)) (fun s hs ↦ next s (hpre s hs)) tail

/-- A weaker assertion at the end. -/
theorem Outline.conclude (h : Outline t ok P first R) (hpost : ∀ s, R s → R' s) :
    Outline t ok P first R' := by
  induction h with
  | nil P R stable post => exact .nil P R' stable fun s hs ↦ hpost s (post s hs)
  | cons P Q R i rest stable permits goesOn next _ ih =>
    exact .cons P Q R' i rest stable permits goesOn next (ih hpost)

theorem Outline.append (h : Outline t ok P first Q) (h' : Outline t ok Q second R) :
    Outline t ok P (first ++ second) R := by
  induction h with
  | nil P Q stable post => exact h'.weaken stable post
  | cons P Q _ i rest stable permits goesOn next _ ih =>
    exact .cons P Q R i _ stable permits goesOn next (ih h')

/-- An instruction that never waits. -/
theorem Outline.single (stable : t.Stable P) (stable' : t.Stable Q) (permits : ∀ s, P s → ok i s)
    (enabled : ∀ s, P s → t.enabled i s) (next : ∀ s, P s → Q (t.exec i s)) :
    Outline t ok P [i] Q :=
  .cons P Q Q i [] stable permits (fun s hs ↦ .inl (enabled s hs)) (fun s hs _ ↦ next s hs)
    (.done stable')

/-- The same for the program that follows. -/
theorem Outline.then (h : Outline t ok P [i] Q) (h' : Outline t ok Q rest R) :
    Outline t ok P (i :: rest) R :=
  h.append h'

/-- A configuration that an assertion of an outline covers. -/
def Covered (t : Thread Instr State) (ok : Instr → State → Prop) (R : State → Prop)
    (c : Config Instr State) : Prop :=
  ∃ P, Outline t ok P c.rest R ∧ P c.state

theorem Covered.step (h : Covered t ok R c) (hstep : t.Step c c') : Covered t ok R c' := by
  obtain ⟨P, houtline, hP⟩ := h
  cases hstep with
  | own i rest s enabled =>
    cases houtline with
    | cons _ Q _ _ _ _ _ _ next tail => exact ⟨Q, tail, next s hP enabled⟩
  | other rest s s' env => exact ⟨P, houtline, houtline.stable s s' hP env⟩

/-- Every configuration of a run is covered. -/
theorem Covered.run (h : Covered t ok R c) (hrun : Relation.ReflTransGen t.Step c c') :
    Covered t ok R c' := by
  induction hrun with
  | refl => exact h
  | tail _ hstep ih => exact ih.step hstep

theorem Covered.permits (h : Covered t ok R ⟨i :: rest, s⟩) : ok i s := by
  obtain ⟨P, houtline, hP⟩ := h
  cases houtline with
  | cons _ _ _ _ _ _ permits => exact permits s hP

theorem Covered.final (h : Covered t ok R ⟨[], s⟩) : R s := by
  obtain ⟨P, houtline, hP⟩ := h
  cases houtline with
  | nil _ _ _ post => exact post s hP

/-- A run goes on until the program has ended. -/
theorem Covered.progress (h : Covered t ok R c) : c.rest = [] ∨ ∃ c', t.Step c c' := by
  obtain ⟨P, houtline, hP⟩ := h
  obtain ⟨rest, s⟩ := c
  cases houtline with
  | nil => exact .inl rfl
  | cons _ _ _ i rest _ _ goesOn =>
    rcases goesOn s hP with henabled | ⟨s', henv⟩
    · exact .inr ⟨_, .own i rest s henabled⟩
    · exact .inr ⟨_, .other _ s s' henv⟩

/-- No run goes on forever if the environment comes to rest. -/
theorem step_wellFounded (t : Thread Instr State) (work : State → ℕ)
    (hwork : ∀ s s', t.env s s' → work s' < work s) :
    WellFounded fun c' c : Config Instr State ↦ t.Step c c' := by
  refine Subrelation.wf (r := InvImage (Prod.Lex (· < ·) (· < ·))
    fun c : Config Instr State ↦ (c.rest.length, work c.state)) ?_
      (InvImage.wf _ (Prod.lex ⟨_, wellFounded_lt⟩ ⟨_, wellFounded_lt⟩).wf)
  intro c' c hstep
  cases hstep with
  | own i rest s enabled => exact .left _ _ (Nat.lt_succ_self _)
  | other rest s s' env => exact .right _ (hwork s s' env)

/-- So every run can be continued to the end, and the end is as the outline says. -/
theorem Covered.completes (h : Covered t ok R c) (work : State → ℕ)
    (hwork : ∀ s s', t.env s s' → work s' < work s) :
    ∃ s, Relation.ReflTransGen t.Step c ⟨[], s⟩ ∧ R s := by
  induction c using (step_wellFounded t work hwork).induction with
  | _ c ih =>
    rcases h.progress with hend | ⟨c', hstep⟩
    · obtain ⟨rest, s⟩ := c
      obtain rfl : rest = [] := hend
      exact ⟨s, .refl, h.final⟩
    · obtain ⟨s, hrun, hR⟩ := ih c' hstep (h.step hstep)
      exact ⟨s, .head hstep hrun, hR⟩

end Thread

end Emu68.Lib
