import Mathlib.Data.List.Basic
import Mathlib.Data.BitVec

/-!
The return stack of the translator: the addresses behind the calls that are being translated, so
that a return can be followed. It holds 32 addresses and forgets the oldest one.
-/

set_option autoImplicit false
set_option relaxedAutoImplicit false

namespace Emu68.Ppc

/-- A pointer to PPC code, as the translator keeps it: 64 bits wide, unlike PPC addresses. -/
abbrev CodePtr := BitVec 64

def rtstackSize : ℕ := 32

/-- The entries from the top on. -/
structure ReturnStack where
  entries : List CodePtr
  length_le : entries.length ≤ rtstackSize

namespace ReturnStack

def reset : ReturnStack := ⟨[], Nat.zero_le _⟩

def push (s : ReturnStack) (retAddr : CodePtr) : ReturnStack :=
  ⟨(retAddr :: s.entries).take rtstackSize, List.length_take_le _ _⟩

/-- The address on the top, if the stack is not empty, and the stack without it. -/
def pop (s : ReturnStack) : Option CodePtr × ReturnStack :=
  match s with
  | ⟨[], _⟩ => (none, reset)
  | ⟨retAddr :: rest, h⟩ => (some retAddr, ⟨rest, Nat.le_of_succ_le h⟩)

@[simp] theorem pop_reset : reset.pop = (none, reset) := rfl

/-- What was pushed is popped, however deep the stack is. -/
@[simp] theorem pop_push (s : ReturnStack) (retAddr : CodePtr) :
    (s.push retAddr).pop.1 = some retAddr := rfl

end ReturnStack

end Emu68.Ppc
