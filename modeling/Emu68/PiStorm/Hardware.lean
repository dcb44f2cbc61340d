import Emu68.PiStorm.Protocol
import Mathlib.Data.List.Basic

/-!
The FPGA seen from the software: it has executed the first so many of the transactions that were
started, the others are the one or two that run, and each of these is still in the registers of its
slot. `Hardware` says so, and every step of the FPGA keeps it.
-/

set_option autoImplicit false
set_option relaxedAutoImplicit false

namespace Emu68.PiStorm

open Lib

variable {σ : Type*}

/-- The device after some transfers. -/
def Device.run (d : Device σ) (m : σ) (txns : List Txn) : σ :=
  txns.foldl (fun m t ↦ (d.transfer m t).1) m

/-- The values that the device returns. -/
def Device.answers (d : Device σ) (m : σ) : List Txn → List (BitVec 32)
  | [] => []
  | t :: rest => (d.transfer m t).2 :: d.answers (d.transfer m t).1 rest

theorem Device.run_append (d : Device σ) (m : σ) (first second : List Txn) :
    d.run m (first ++ second) = d.run (d.run m first) second :=
  List.foldl_append

/-! ### Slots -/

/-- The slot of the transaction with a number. -/
def slotOf (k : ℕ) : Slot := k % 2 = 1

theorem slotOf_succ (k : ℕ) : slotOf (k + 1) = !slotOf k := by
  unfold slotOf
  rcases Nat.mod_two_eq_zero_or_one k with h | h
  · simp [Nat.add_mod, h]
  · simp [Nat.add_mod, h]

theorem slotOf_ne (k : ℕ) : slotOf (k + 1) ≠ slotOf k := by
  rw [slotOf_succ]
  exact Bool.not_ne_self _

theorem slotOf_add_two (k : ℕ) : slotOf (k + 2) = slotOf k := by
  rw [slotOf_succ, slotOf_succ, Bool.not_not]

/-- The slot that the FPGA turns to when it has executed what it has been given. -/
def fpgaNext (s : State σ) : Slot := s.execSlot ^^ (s.running false ^^ s.running true)

/-! ### The state of the FPGA -/

/-- The transactions `log` were started, and the first `done` of them are executed. -/
structure Hardware (d : Device σ) (m₀ : σ) (log : List Txn) (done : ℕ) (s : State σ) : Prop where
  started : s.started = log
  done_le : done ≤ log.length
  length_le : log.length ≤ done + 2
  device : s.device = d.run m₀ (log.take done)
  execSlot : s.execSlot = slotOf done
  running : ∀ slot, s.running slot = true ↔ ∃ k, done ≤ k ∧ k < log.length ∧ slotOf k = slot
  held : ∀ k (h : k < log.length), done ≤ k → (s.regs (slotOf k)).txn = log[k]
  /-- The value of a read is in the data registers until the next transaction is started. -/
  answer : done = log.length → ∀ front t, log = front ++ [t] → t.read = true →
    (s.regs (slotOf front.length)).dataLo = (d.transfer (d.run m₀ front) t).2.setWidth 16 ∧
      (s.regs (slotOf front.length)).dataHi =
        (d.transfer (d.run m₀ front) t).2.extractLsb' 16 16

variable {d : Device σ} {m₀ : σ} {log : List Txn} {done : ℕ} {s s' : State σ} {t : Txn}

theorem Hardware.not_running (h : Hardware d m₀ log done s) (slot : Slot) :
    s.running slot = false ↔ ∀ k, done ≤ k → k < log.length → slotOf k ≠ slot := by
  rw [← Bool.not_eq_true, h.running]
  simp only [not_exists, not_and]

/-- At rest nothing runs. -/
theorem Hardware.idle (h : Hardware d m₀ log log.length s) (slot : Slot) :
    s.running slot = false :=
  (h.not_running slot).mpr fun _ hge hlt ↦ absurd hge (not_le.mpr hlt)

theorem Hardware.fpgaNext_eq (h : Hardware d m₀ log done s) : fpgaNext s = slotOf log.length := by
  have hdone := h.done_le
  have hlength := h.length_le
  have hcases : log.length = done ∨ log.length = done + 1 ∨ log.length = done + 2 := by omega
  unfold fpgaNext
  rw [h.execSlot]
  rcases hcases with hcase | hcase | hcase
  · have hnone : ∀ slot, s.running slot = false := fun slot ↦
      (h.not_running slot).mpr fun k hge hlt ↦ by omega
    rw [hnone, hnone, hcase]
    simp
  · have hone : ∀ slot, s.running slot = (slotOf done == slot) := by
      intro slot
      rw [Bool.eq_iff_iff, h.running, beq_iff_eq]
      constructor
      · rintro ⟨k, hge, hlt, rfl⟩
        rw [show k = done by omega]
      · intro hslot
        exact ⟨done, le_rfl, by omega, hslot⟩
    rw [hone, hone, hcase, slotOf_succ]
    cases slotOf done <;> rfl
  · have hboth : ∀ slot, s.running slot = true := by
      intro slot
      rw [h.running]
      by_cases hslot : slotOf done = slot
      · exact ⟨done, le_rfl, by omega, hslot⟩
      · refine ⟨done + 1, by omega, by omega, ?_⟩
        rw [slotOf_succ]
        revert hslot
        cases slotOf done <;> cases slot <;> decide
    rw [hboth, hboth, hcase, slotOf_add_two]
    simp

/-! ### Steps of the FPGA -/

/-- What the FPGA leaves alone. -/
structure Frame (s s' : State σ) : Prop where
  nextSlot : s'.nextSlot = s.nextSlot
  slotActive : s'.slotActive = s.slotActive
  regSlot : s'.regSlot = s.regSlot
  started : s'.started = s.started
  words : s'.words = s.words
  results : s'.results = s.results
  running : ∀ slot, s'.running slot = true → s.running slot = true
  regs : ∀ slot, s.running slot = false → s'.regs slot = s.regs slot

theorem Fpga.frame (h : Fpga d s s') : Frame s s' := by
  obtain ⟨due⟩ := h
  refine ⟨rfl, rfl, rfl, rfl, rfl, rfl, fun slot hrun ↦ ?_, fun slot hidle ↦ ?_⟩
  · dsimp only at hrun
    rw [Function.update_apply] at hrun
    split at hrun
    · exact absurd hrun Bool.false_ne_true
    · exact hrun
  · have hne : slot ≠ s.execSlot := by
      rintro rfl
      rw [due] at hidle
      exact absurd hidle.symm Bool.false_ne_true
    dsimp only
    split
    · exact Function.update_of_ne hne _ _
    · rfl

/-- The FPGA executes the transaction that is due. -/
theorem Hardware.fpga (h : Hardware d m₀ log done s) (hstep : Fpga d s s') :
    Hardware d m₀ log (done + 1) s' := by
  obtain ⟨due⟩ := hstep
  rw [h.execSlot] at due
  obtain ⟨k, hge, hlt, hslot⟩ := (h.running _).mp due
  have hlength := h.length_le
  have hdone : done < log.length := by omega
  have htxn : (s.regs s.execSlot).txn = log[done] := by
    rw [h.execSlot]
    exact h.held done hdone le_rfl
  have hother : ∀ k, done + 1 ≤ k → k < log.length → k = done + 1 := by omega
  refine ⟨h.started, hdone, by omega, ?_, ?_, fun slot ↦ ?_, fun k hk hge ↦ ?_, ?_⟩
  · dsimp only
    rw [htxn, h.device, List.take_succ_eq_append_getElem hdone, Device.run_append]
    rfl
  · dsimp only
    rw [h.execSlot, slotOf_succ]
  · dsimp only
    rw [Function.update_apply, h.execSlot]
    by_cases hslot : slot = slotOf done
    · rw [if_pos hslot]
      refine iff_of_false Bool.false_ne_true ?_
      rintro ⟨k, hge, hlt, hk⟩
      rw [hother k hge hlt, hslot] at hk
      exact slotOf_ne done hk
    · rw [if_neg hslot, h.running]
      constructor
      · rintro ⟨k, hge, hlt, rfl⟩
        refine ⟨k, ?_, hlt, rfl⟩
        rcases Nat.eq_or_lt_of_le hge with rfl | hgt
        · exact absurd rfl hslot
        · exact hgt
      · rintro ⟨k, hge, hlt, hk⟩
        exact ⟨k, by omega, hlt, hk⟩
  · have hne : slotOf k ≠ s.execSlot := by
      rw [hother k hge hk, h.execSlot]
      exact slotOf_ne done
    have hregs := h.held k hk (by omega)
    dsimp only
    split
    · rw [Function.update_of_ne hne]
      exact hregs
    · exact hregs
  · intro hlast front t hlog hread
    have hfront : front.length = done := by
      have := congrArg List.length hlog
      simp only [List.length_append, List.length_singleton] at this
      omega
    subst hlog
    have hget : (front ++ [t])[done] = t := by
      simp [← hfront]
    have htake : (front ++ [t]).take done = front := by
      rw [← hfront, List.take_left]
    rw [hget] at htxn
    dsimp only
    rw [htxn, hread, if_pos rfl, hfront, ← h.execSlot, Function.update_self, h.device, htake]
    exact ⟨rfl, rfl⟩

/-- While something runs, the FPGA can go on. -/
theorem Hardware.canStep (h : Hardware d m₀ log done s) {slot : Slot}
    (hrun : s.running slot = true) : ∃ s', Fpga d s s' := by
  obtain ⟨k, hge, hlt, -⟩ := (h.running slot).mp hrun
  refine ⟨_, .complete s ?_⟩
  rw [h.execSlot, h.running]
  exact ⟨done, le_rfl, by omega, rfl⟩

/-- The number of transactions that run. -/
def work (s : State σ) : ℕ := (s.running false).toNat + (s.running true).toNat

theorem Fpga.work_lt (h : Fpga d s s') : work s' < work s := by
  obtain ⟨due⟩ := h
  unfold work
  dsimp only
  cases hexec : s.execSlot with
  | false =>
    rw [hexec] at due
    rw [Function.update_self, Function.update_of_ne (by decide), due]
    exact Nat.add_lt_add_right (by decide) _
  | true =>
    rw [hexec] at due
    rw [Function.update_self, Function.update_of_ne (by decide), due]
    exact Nat.add_lt_add_left (by decide) _

end Emu68.PiStorm
