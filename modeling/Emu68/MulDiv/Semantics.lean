import Emu68.Alu.ConditionCodes

/-!
What the multiplications and divisions of the 68040 do: the registers, the condition codes, and the
exception. Products and quotients are those of integers.
-/

set_option autoImplicit false
set_option relaxedAutoImplicit false

namespace Emu68.MulDiv

open A64 Alu

/-! ### Products -/

/-- The numbers that the operands stand for. -/
def number {w : ℕ} (signed : Bool) (x : BitVec w) : ℤ := if signed then x.toInt else x.toNat

/-- The product of two numbers of half the width. -/
def product {w : ℕ} (signed : Bool) (n : ℕ) (x y : BitVec w) : BitVec n :=
  BitVec.ofInt n (number signed x * number signed y)

/-- The integer fits into `n` bits. -/
def Fits (signed : Bool) (n : ℕ) (x : ℤ) : Prop :=
  if signed then -2 ^ (n - 1) ≤ x ∧ x < 2 ^ (n - 1) else 0 ≤ x ∧ x < 2 ^ n

instance (signed : Bool) (n : ℕ) (x : ℤ) : Decidable (Fits signed n x) :=
  inferInstanceAs (Decidable (if signed then _ else _))

/-- The flags of a result with an overflow or without. -/
def resultFlags (n z v : Bool) : Flag → FlagValue
  | .n => .set n
  | .z => .set z
  | .v => .set v
  | .c => .set false
  | .x => .unaffected

def productFlags {n : ℕ} (result : BitVec n) (overflow : Bool) : Flag → FlagValue :=
  resultFlags result.msb (result == 0) overflow

/-! ### Quotients -/

inductive Quotient (n : ℕ) where
  | zeroDivide
  | overflow
  | done (quotient remainder : BitVec n)

/-- The quotient is rounded toward zero, and the remainder has the sign of the dividend. -/
def divide (signed : Bool) (n : ℕ) (x y : ℤ) : Quotient n :=
  if y = 0 then .zeroDivide
  else if Fits signed n (x.tdiv y) then .done (.ofInt n (x.tdiv y)) (.ofInt n (x.tmod y))
  else .overflow

/-- The flags of an overflow. -/
def overflowFlags : Flag → FlagValue
  | .v => .set true
  | .c => .set false
  | .x => .unaffected
  | _ => .undefined

end Emu68.MulDiv
