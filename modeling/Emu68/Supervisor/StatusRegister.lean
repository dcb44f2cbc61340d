import Mathlib.Data.BitVec
import Mathlib.Logic.Function.Basic
import Mathlib.Tactic.Common

/-!
The status register of the 68040 and its three stack pointers. A7 is one of them, selected by the
bits S and M. The host keeps A7 in a register and the others in a bank each; the bank of the pointer
that is in use is stale. What a switch does to the bank and to A7 leaves the three pointers alone.
-/

set_option autoImplicit false
set_option relaxedAutoImplicit false

namespace Emu68.Supervisor

/-! ### The status register -/

/-- The bits that the 68040 implements: T1, T0, S, M, the interrupt mask, X, N, Z, V and C. -/
def srImplemented : BitVec 16 := 0xf71f

structure StatusRegister where
  word : BitVec 16
  implemented : word &&& srImplemented = word

theorem implemented_and (w : BitVec 16) :
    w &&& srImplemented &&& srImplemented = w &&& srImplemented := by
  rw [BitVec.and_assoc, BitVec.and_self]

/-- What the register holds after a word is written to it. -/
def StatusRegister.ofWord (w : BitVec 16) : StatusRegister :=
  ⟨w &&& srImplemented, implemented_and w⟩

def StatusRegister.s (sr : StatusRegister) : Bool := sr.word.getLsbD 13

def StatusRegister.m (sr : StatusRegister) : Bool := sr.word.getLsbD 12

inductive Bank where
  | usp
  | isp
  | msp
deriving DecidableEq

/-- The stack pointer that A7 is. -/
def StatusRegister.active (sr : StatusRegister) : Bank :=
  if sr.s then (if sr.m then .msp else .isp) else .usp

/-! ### The order of the flags

In the register that the emitted code works with, C and V have each other's place. -/

variable {w : ℕ}

/-- The lowest two bits in the other order. -/
def swapCV (x : BitVec w) : BitVec w := x &&& ~~~3#w ||| (x &&& 1#w) <<< 1 ||| x >>> 1 &&& 1#w

theorem getLsbD_three (i : ℕ) : (3#w).getLsbD i = (decide (i < 2) && decide (i < w)) := by
  rw [BitVec.getLsbD_ofNat, show 3 = 2 ^ 2 - 1 from rfl, Nat.testBit_two_pow_sub_one, Bool.and_comm]

theorem getLsbD_one (i : ℕ) : (1#w).getLsbD i = (decide (i = 0) && decide (i < w)) := by
  rw [BitVec.getLsbD_ofNat, show 1 = 2 ^ 1 - 1 from rfl, Nat.testBit_two_pow_sub_one, Bool.and_comm,
    decide_eq_decide.mpr Nat.lt_one_iff]

theorem getLsbD_swapCV (x : BitVec w) {i : ℕ} (hi : i < w) :
    (swapCV x).getLsbD i = x.getLsbD (if i = 0 then 1 else if i = 1 then 0 else i) := by
  simp only [swapCV, BitVec.getLsbD_or, BitVec.getLsbD_and, BitVec.getLsbD_not,
    BitVec.getLsbD_shiftLeft, BitVec.getLsbD_ushiftRight, getLsbD_three, getLsbD_one, hi]
  rcases i with _ | _ | i
  · simp [hi]
  · simp [show 0 < w by omega]
  · simp

theorem getLsbD_swapCV_of_two_le (x : BitVec w) {i : ℕ} (h : 2 ≤ i) (hi : i < w) :
    (swapCV x).getLsbD i = x.getLsbD i := by
  rw [getLsbD_swapCV x hi, if_neg (by omega), if_neg (by omega)]

theorem swapCV_swapCV (h : 2 ≤ w) (x : BitVec w) : swapCV (swapCV x) = x := by
  refine BitVec.eq_of_getLsbD_eq fun i hi ↦ ?_
  rw [getLsbD_swapCV _ hi]
  split
  · next h0 =>
    subst h0
    rw [getLsbD_swapCV x (by omega)]
    rfl
  · split
    · next h1 =>
      subst h1
      rw [getLsbD_swapCV x (by omega)]
      rfl
    · next h0 h1 => rw [getLsbD_swapCV_of_two_le x (by omega) hi]

theorem swapCV_or (x y : BitVec w) : swapCV (x ||| y) = swapCV x ||| swapCV y := by
  refine BitVec.eq_of_getLsbD_eq fun i hi ↦ ?_
  simp only [BitVec.getLsbD_or, getLsbD_swapCV _ hi]

theorem swapCV_and (x y : BitVec w) : swapCV (x &&& y) = swapCV x &&& swapCV y := by
  refine BitVec.eq_of_getLsbD_eq fun i hi ↦ ?_
  simp only [BitVec.getLsbD_and, getLsbD_swapCV _ hi]

theorem swapCV_xor (x y : BitVec w) : swapCV (x ^^^ y) = swapCV x ^^^ swapCV y := by
  refine BitVec.eq_of_getLsbD_eq fun i hi ↦ ?_
  simp only [BitVec.getLsbD_xor, getLsbD_swapCV _ hi]

theorem swapCV_implemented : swapCV srImplemented = srImplemented := by decide

/-- The register as the emitted code has it. -/
def StatusRegister.host (sr : StatusRegister) : BitVec 16 := swapCV sr.word

theorem StatusRegister.host_s (sr : StatusRegister) : sr.host.getLsbD 13 = sr.s :=
  getLsbD_swapCV_of_two_le _ (by decide) (by decide)

theorem StatusRegister.host_m (sr : StatusRegister) : sr.host.getLsbD 12 = sr.m :=
  getLsbD_swapCV_of_two_le _ (by decide) (by decide)

/-! ### The stack pointers -/

structure Stacks where
  a7 : BitVec 32
  bank : Bank → BitVec 32

/-- The old A7 goes to its bank, and the new one comes from its own. -/
def Stacks.switch (s : Stacks) (old new : Bank) : Stacks :=
  if old = new then s else ⟨s.bank new, Function.update s.bank old s.a7⟩

/-- The three stack pointers of the 68040. -/
def Stacks.pointer (s : Stacks) (active b : Bank) : BitVec 32 :=
  if b = active then s.a7 else s.bank b

variable {old new : Bank}

theorem Stacks.switch_self (s : Stacks) (b : Bank) : s.switch b b = s := if_pos rfl

theorem Stacks.switch_of_ne (s : Stacks) (h : old ≠ new) :
    s.switch old new = ⟨s.bank new, Function.update s.bank old s.a7⟩ := if_neg h

/-- A switch changes which pointer A7 is and none of the pointers. -/
theorem Stacks.pointer_switch (s : Stacks) (old new : Bank) :
    (s.switch old new).pointer new = s.pointer old := by
  by_cases h : old = new
  · rw [h, switch_self]
  · funext b
    rw [switch_of_ne s h]
    by_cases hnew : b = new
    · simp [pointer, hnew, Ne.symm h]
    · by_cases hold : b = old
      · simp [pointer, hold, h]
      · simp [pointer, hnew, hold]

end Emu68.Supervisor
