import Emu68.Jit.Translator

/-!
The look-up functions of `ExecutionLoop.c`: the set-associative cache `LRU_cache` of entry points
and the bucket scans behind it, together with the two functions that flush (`check_cacr` and
`invalidate_instruction_cache`).
-/

set_option autoImplicit false
set_option relaxedAutoImplicit false

namespace Emu68.Jit

open Lib Exec

/-- `EMU68_LRU_WAY_COUNT`. -/
abbrev lruWayCount : ℕ := 4

/-- `EMU68_LRU_SET_COUNT`. -/
abbrev lruSetCount : ℕ := 128

/-- `ADDR_2_SET(addr)`. -/
def addr2Set (address : UInt32) : ℕ := (address >>> 4).toNat % lruSetCount

theorem addr2Set_lt (address : UInt32) : addr2Set address < lruSetCount :=
  Nat.mod_lt _ (by decide)

/-- The bit of `LRU_alloc[set]` that belongs to a way. -/
def wayMask (way : ℕ) : UInt32 := 0x80000000 >>> way.toUInt32

/-- Mark a way as used; when no way is left, all others become available again. -/
def touchWay (current : UInt32) (way : ℕ) : UInt32 :=
  let current := current &&& ~~~wayMask way
  if current >>> 28 = 0 then ~~~wayMask way else current

/-- `__builtin_clz`. -/
def clz (x : UInt32) : ℕ := if x = 0 then 32 else 31 - x.toNat.log2

/-- The ways of a set in the order of the search. -/
def findWay (s : JitState) (address : UInt32) : Option ℕ :=
  (List.range lruWayCount).find? fun i ↦
    (s.lruCache (addr2Set address * lruWayCount + i)).m68k = address

/-- `LRU_FindBlock`: the state afterwards and the entry point, null when nothing was found. -/
def lruFindBlock (s : JitState) (address : UInt32) : JitState × Option ArmPtr :=
  let set := addr2Set address
  match findWay s address with
  | some i =>
    ({ s with lruAlloc := Function.update s.lruAlloc set (touchWay (s.lruAlloc set) i) },
      (s.lruCache (set * lruWayCount + i)).arm)
  | none => (s, none)

/-- `LRU_InvalidateAll`. -/
def lruInvalidateAll (s : JitState) : JitState :=
  { s with
    lruCache := fun i ↦ if i < lruSetCount * lruWayCount then ⟨0xffffffff, none⟩ else s.lruCache i
    lruAlloc := fun i ↦ if i < lruSetCount then 0xffffffff else s.lruAlloc i }

/-- `LRU_InsertBlock`, given what it reads of the unit. A write past the array is not defined. -/
def lruInsertBlock (s : JitState) (unit : UnitHead) : Option JitState :=
  let set := addr2Set unit.mtM68kAddress
  let loc := clz (s.lruAlloc set)
  if set * lruWayCount + loc < lruSetCount * lruWayCount then
    some { s with
      lruCache := Function.update s.lruCache (set * lruWayCount + loc)
        ⟨unit.mtM68kAddress, unit.mtARMEntryPoint⟩
      lruAlloc := Function.update s.lruAlloc set (touchWay (s.lruAlloc set) loc) }
  else none

/-- `un.unit->mt_Key == key`, with the key made of `EPOCH` and the program counter. -/
def matchesKey (epoch pc : UInt32) (unit : UnitHead) : Bool :=
  unit.mtEpoch = epoch ∧ unit.mtM68kAddress = pc

/-- `un.unit->mt_M68kAddress == PC`. -/
def matchesAddress (pc : UInt32) (unit : UnitHead) : Bool := unit.mtM68kAddress = pc

/-- The bucket scan shared by the look-ups: the first node with a matching unit. -/
def findInBucket (s : JitState) (pc : UInt32) (found : UnitHead → Bool) :
    Option (Option (NodeAddr × UnitHead)) := do
  let nodes ← forEachNode walkFuel s.links (icache (bucketOf pc))
  scanBucket s found nodes

def findUnitQuick (s : JitState) (pc : UInt32) : Option (JitState × Option ArmPtr) := do
  let (s, code) := lruFindBlock s pc
  if code.isSome then
    return (s, code)
  match ← findInBucket s pc (matchesKey s.epoch pc) with
  | some (_, unit) =>
    let s ← lruInsertBlock s unit
    return (s, unit.mtARMEntryPoint)
  | none => return (s, none)

def findUnit (s : JitState) (pc : UInt32) : Option (JitState × Option NodeAddr) := do
  match ← findInBucket s pc (matchesAddress pc) with
  | some (n, unit) =>
    let s ← lruInsertBlock s unit
    return (s, some n)
  | none => return (s, none)

def findUnitNoLRU (s : JitState) (pc : UInt32) : Option (Option NodeAddr) :=
  (findInBucket s pc (matchesAddress pc)).map (·.map Prod.fst)

/-- `invalidate_instruction_cache`, as far as it concerns the translation cache. -/
def invalidateInstructionCache (s : JitState) : JitState :=
  let s := lruInvalidateAll { s with lastPC := 0xffffffff }
  { s with epoch := s.epoch + 1 }

/-- `check_cacr`, called by the code of a unit with the return address in that unit. -/
def checkCacr (s : JitState) (cacr : UInt32) (returnAddress : ℕ) : Option JitState := do
  let change := s.oldCacr ^^^ cacr
  let s := { s with oldCacr := cacr }
  if change &&& 0x8000 ≠ 0 ∧ cacr &&& 0x8000 = 0 then
    let (s, keep) ← flushUnits returnAddress walkFuel s none
    let s := lruInvalidateAll { s with lastPC := 0xffffffff }
    match keep with
    | none => some s
    | some u =>
      let links ← addTail s.links lru (.lruNode u)
      some { s with links := links }
  else
    some s

end Emu68.Jit
