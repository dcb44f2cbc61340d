import Emu68.Jit.ExecutionLoop
import Emu68.Lib.Transition

/-!
The translation cache as a transition system. Its operations are the calls the emulator makes: the
look-ups, the creation and verification of units, the flushes, and writes to the JIT control
registers. `mainLoopStart` is the state in which `MainLoop` begins, whatever the memory held
before. `Admissible` is what the callers and the allocator promise: a unit pointer passed to a
call names a unit, and a block that `jit_tlsf` hands out overlaps no allocated one.
-/

set_option autoImplicit false
set_option relaxedAutoImplicit false

namespace Emu68.Jit

open Lib Exec

inductive JitOp
  | lruFindBlock (address : UInt32)
  | lruInsertBlock (unit : UnitAddr)
  | findUnitQuick (pc : UInt32)
  | findUnit (pc : UInt32)
  | findUnitNoLRU (pc : UInt32)
  | getTranslationUnit (m68kcodeptr : UInt32) (answers : List (Option UnitAddr))
      (translation : Translation) (view : CodeView)
  | verifyUnit (unit : Option UnitAddr) (view : CodeView)
  | verifyUnitCRC32 (unit : Option UnitAddr) (view : CodeView)
  | invalidateInstructionCache
  | checkCacr (cacr : UInt32) (returnAddress : ℕ)
  | writeJitControl (control control2 : UInt32)

/-- The state after one call, or `none` when the call does not return. -/
def step (s : JitState) : JitOp → Option JitState
  | .lruFindBlock address => some (lruFindBlock s address).1
  | .lruInsertBlock u => (readUnit s (.hashNode u)).bind (lruInsertBlock s)
  | .findUnitQuick pc => (findUnitQuick s pc).map Prod.fst
  | .findUnit pc => (findUnit s pc).map Prod.fst
  | .findUnitNoLRU pc => (findUnitNoLRU s pc).map fun _ ↦ s
  | .getTranslationUnit pc answers translation view =>
    (m68kGetTranslationUnit s pc answers translation view).map Prod.fst
  | .verifyUnit unit view => (m68kVerifyUnit s unit view).map Prod.fst
  | .verifyUnitCRC32 unit view => (m68kVerifyUnitCRC32 s unit view).map Prod.fst
  | .invalidateInstructionCache => some (invalidateInstructionCache s)
  | .checkCacr cacr returnAddress => checkCacr s cacr returnAddress
  | .writeJitControl control control2 => some { s with jitControl := control, jitControl2 := control2 }

/-- `M68K_InitializeCache` and the boot code around it, then `LRU_InvalidateAll` at the start of
`MainLoop`. The fields of `memory` that are not set here are what the memory happens to hold. -/
def mainLoopStart (memory : JitState) : JitState :=
  lruInvalidateAll { memory with
    links := m68kInitializeCache memory.links
    unit := fun _ ↦ none
    jitUnitCount := 0
    epoch := 0 }

/-- `jit_tlsf` hands out `size` bytes at `u`: they overlap no allocated block. -/
structure FreeBlock (s : JitState) (u : UnitAddr) (size : ℕ) : Prop where
  unallocated : s.unit u = none
  apart : ∀ v, (s.unit v).isSome →
    64 * u.val + size ≤ 64 * v.val ∨ 64 * v.val + s.unitSize v ≤ 64 * u.val

/-- A unit pointer that is null or names an allocated unit. -/
def NamesUnit (s : JitState) (unit : Option UnitAddr) : Prop :=
  ∀ u, unit = some u → (s.unit u).isSome

def Admissible (s : JitState) : JitOp → Prop
  | .lruInsertBlock u => (s.unit u).isSome
  | .verifyUnit unit _ => NamesUnit s unit
  | .verifyUnitCRC32 unit _ => NamesUnit s unit
  | .getTranslationUnit _ answers _ _ =>
    ∀ s' u, allocateUnit answers s = some (s', u) → FreeBlock s' u (initialAlloc s'.jitControl)
  | _ => True

end Emu68.Jit
