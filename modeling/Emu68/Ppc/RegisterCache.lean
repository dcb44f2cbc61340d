import Emu68.A64.RegisterAllocator
import Mathlib.Data.List.Perm.Basic
import Mathlib.Data.List.Nodup

/-!
The integer registers of PowerPC in A64 registers, as `PPC_TranslatorContext.cpp` manages them. Most
registers have an A64 register for good (`INT_REG_MAPPING`). GPR14 to GPR31, CR, XER and FPSCR have
a lane of a vector register, and are in one of w0 to w11 while the emitters use them. The ones in
use are kept in the order of their last use, and the last of them makes room when no register is
free.
-/

set_option autoImplicit false
set_option relaxedAutoImplicit false

namespace Emu68.Ppc.RegisterCache

open A64

/-- The numbers of `PPC.h`: the GPRs, then CR, XER, LR, CTR, FPSCR and PC. -/
abbrev Gpr := Fin 38

def FPSCRn : Gpr := 36

/-- `INT_REG_MAPPING`. -/
def intRegMapping (reg : Gpr) : Reg :=
  [13, 14, 15, 16, 17, 19, 20, 21,
    22, 23, 24, 25, 26, 27, 255, 255,
    255, 255, 255, 255, 255, 255, 255, 255,
    255, 255, 255, 255, 255, 255, 255, 255,
    255, 255, 28, 29, 255, 18].getD reg.val noReg

/-- The macros `GPR14` to `GPR31`, `REG_CR` and `REG_XER`, which share v22 to v26, and `REG_FPSCR`.
The other registers have none. -/
def simdLane (reg : Gpr) : Option (ℕ × ℕ) :=
  if 14 ≤ reg.val ∧ reg.val ≤ 33 then some (22 + (reg.val - 14) / 4, (reg.val - 14) % 4)
  else if reg = FPSCRn then some (20, 0)
  else none

/-! ### The emitted moves -/

inductive Move where
  | movRegToSimd (vn pos : ℕ) (rn : Reg)
  | movSimdToReg (rd : Reg) (vn pos : ℕ)
  /-- The move from `CTX_POINTER`. -/
  | movCtxToReg (rd : Reg)

/-- A64 registers, the lanes of 32 bits and the context pointer. -/
structure Host where
  regs : Reg → BitVec 64
  simd : ℕ × ℕ → BitVec 32
  context : BitVec 64

namespace Host

def step (s : Host) : Move → Host
  | .movRegToSimd vn pos rn =>
    { s with simd := Function.update s.simd (vn, pos) ((s.regs rn).setWidth 32) }
  | .movSimdToReg rd vn pos =>
    { s with regs := Function.update s.regs rd ((s.simd (vn, pos)).setWidth 64) }
  | .movCtxToReg rd => { s with regs := Function.update s.regs rd s.context }

def exec (code : List Move) (s : Host) : Host := code.foldl step s

theorem exec_append (first second : List Move) (s : Host) :
    exec (first ++ second) s = exec second (exec first s) :=
  List.foldl_append

end Host

/-! ### The lanes to be stored -/

/-- The item of a lane; `vn` is 0 in an item that is not used. All lanes have 32 bits. -/
structure FlushItem where
  vn : ℕ
  pos : ℕ
  arm : Reg
deriving DecidableEq

def FlushItem.move (item : FlushItem) : Move := .movRegToSimd item.vn item.pos item.arm

/-- The array `flush_store`, of which 20 items are used. -/
abbrev FlushStore := ℕ → FlushItem

def FlushStore.cleared : FlushStore := fun _ ↦ ⟨0, 0, 0⟩

def markForFlush (store : FlushStore) (vn lane : ℕ) (arm : Reg) : FlushStore :=
  Function.update store (lane + (vn - 22) * 4) ⟨vn, lane, arm⟩

/-- The used items of a vector register, in the order of the lanes. -/
def laneItems (store : FlushStore) (i : ℕ) : List FlushItem :=
  ((List.range 4).map fun j ↦ store (4 * i + j)).filter fun item ↦ item.vn ≠ 0

/-- The vector registers by the number of lanes they use; one that uses none is left out. -/
def sortedByUsage (groups : List (List FlushItem)) : List (List FlushItem) :=
  [4, 3, 2, 1].flatMap fun lanes ↦ groups.filter fun items ↦ items.length = lanes

/-- What is left of the vector registers after a pass. -/
def afterPass (groups : List (List FlushItem)) : List (List FlushItem) := groups.map List.tail

theorem afterPass_le (groups : List (List FlushItem)) :
    ((afterPass groups).map List.length).sum ≤ (groups.map List.length).sum := by
  induction groups with
  | nil => exact Nat.le_refl _
  | cons items groups ih =>
    rw [afterPass, List.map_cons, List.map_cons, List.map_cons, List.sum_cons, List.sum_cons,
      List.length_tail]
    exact Nat.add_le_add (Nat.sub_le _ _) ih

theorem afterPass_lt {groups : List (List FlushItem)} (h : ¬ groups.all List.isEmpty = true) :
    ((afterPass groups).map List.length).sum < (groups.map List.length).sum := by
  induction groups with
  | nil => exact absurd rfl h
  | cons items groups ih =>
    rw [afterPass, List.map_cons, List.map_cons, List.map_cons, List.sum_cons, List.sum_cons,
      List.length_tail]
    cases items with
    | nil => exact Nat.add_lt_add_left (ih h) 0
    | cons item items =>
      rw [List.length_cons, Nat.add_sub_cancel]
      exact Nat.add_lt_add_of_lt_of_le (Nat.lt_succ_self _) (afterPass_le groups)

/-- The passes over the vector registers, each of which stores the first lane that is left of each
register, until a pass stores nothing. -/
def storePasses (groups : List (List FlushItem)) : List FlushItem :=
  if _h : groups.all List.isEmpty = true then []
  else groups.filterMap List.head? ++ storePasses (afterPass groups)
termination_by (groups.map List.length).sum
decreasing_by exact afterPass_lt _h

def purgeFlushStore (store : FlushStore) : List FlushItem :=
  storePasses (sortedByUsage ((List.range 5).map (laneItems store)))

/-! ### The registers in use -/

/-- A `RegisterNode`: `rn_RegNum`, `rn_ARM` and `rn_Dirty`. -/
structure RegisterNode where
  regNum : Gpr
  arm : Reg
  dirty : Bool
deriving DecidableEq

/-- The members of `PPCTranslatorContext` that the integer registers need. `lastAllocated` is the
static variable of `allocARMRegister`. Of the free nodes only the number matters. -/
structure Context where
  regCtx : Reg
  gprTmpPool : Reg → Bool
  lastAllocated : ℕ
  freePool : ℕ
  gprLru : List RegisterNode

namespace Context

/-- The search for a free register, from behind the one found last. -/
def findFree (c : Context) : Option Reg :=
  ((List.range' 1 12).map fun i ↦ (c.lastAllocated + i) % 12).find? fun reg ↦ !c.gprTmpPool reg

/-- The store of one node, when its register makes room. -/
def writeBack (rn : RegisterNode) : List Move :=
  if rn.dirty then
    match simdLane rn.regNum with
    | some (vn, pos) => [.movRegToSimd vn pos rn.arm]
    | none => []
  else []

/-- `none` stands for the access to a null pointer, when there is nothing that could make room. -/
def allocARMRegister (c : Context) : Option (Context × List Move × Reg) :=
  match c.findFree with
  | some reg =>
    some ({ c with gprTmpPool := Function.update c.gprTmpPool reg true, lastAllocated := reg }, [],
      reg)
  | none =>
    c.gprLru.getLast?.map fun rn ↦
      ({ c with gprLru := c.gprLru.dropLast, freePool := c.freePool + 1 }, writeBack rn, rn.arm)

def freeARMRegister (c : Context) (armReg : Reg) : Context :=
  if 11 < armReg then c
  else { c with gprTmpPool := Function.update c.gprTmpPool armReg false }

def getCTX (c : Context) : Option (Context × List Move × Reg) :=
  if c.regCtx = noReg then
    c.allocARMRegister.map fun (c, code, reg) ↦
      ({ c with regCtx := reg }, code ++ [.movCtxToReg reg], reg)
  else some (c, [], c.regCtx)

def flushCTX (c : Context) : Context :=
  { (if c.regCtx ≠ noReg then c.freeARMRegister c.regCtx else c) with regCtx := noReg }

/-- The load of a register that was not in use. -/
def fetch (armReg : Reg) (reg : Gpr) : List Move :=
  match simdLane reg with
  | some (vn, pos) => [.movSimdToReg armReg vn pos]
  | none => []

def intMapGPR (c : Context) (reg : Gpr) (load setDirty : Bool) :
    Option (Context × List Move × Reg) :=
  if intRegMapping reg ≠ noReg then some (c, [], intRegMapping reg)
  else
    match c.gprLru.find? fun rn ↦ rn.regNum = reg with
    | some rn =>
      some ({ c with
        gprLru := { rn with dirty := rn.dirty || setDirty } ::
          c.gprLru.eraseP fun rn ↦ rn.regNum = reg }, [], rn.arm)
    | none =>
      c.allocARMRegister.bind fun (c, code, armReg) ↦
        if c.freePool = 0 then none
        else
          some ({ c with
            freePool := c.freePool - 1
            gprLru := ⟨reg, armReg, setDirty⟩ :: c.gprLru },
            code ++ (if load then fetch armReg reg else []), armReg)

def mapGPRForRead (c : Context) (reg : Gpr) := c.intMapGPR reg true false

def mapGPRForReadAndWrite (c : Context) (reg : Gpr) := c.intMapGPR reg true true

def mapGPRForWrite (c : Context) (reg : Gpr) := c.intMapGPR reg false true

def tryGetGPR (c : Context) (reg : Gpr) : Reg :=
  if intRegMapping reg ≠ noReg then intRegMapping reg
  else ((c.gprLru.find? fun rn ↦ rn.regNum = reg).map RegisterNode.arm).getD noReg

def setDirtyGPR (c : Context) (reg : Gpr) : Context :=
  if intRegMapping reg ≠ noReg then c
  else
    { c with
      gprLru := c.gprLru.map fun rn ↦ if rn.regNum = reg then { rn with dirty := true } else rn }

/-- The treatment of a node by `storeDirtyGPRs` and `flushAllGPRs`: FPSCR is stored at once, the
other registers are marked. -/
def flushNode (acc : FlushStore × List FlushItem) (rn : RegisterNode) :
    FlushStore × List FlushItem :=
  if rn.dirty then
    match simdLane rn.regNum with
    | some (vn, pos) =>
      if rn.regNum = FPSCRn then (acc.1, acc.2 ++ [⟨vn, pos, rn.arm⟩])
      else (markForFlush acc.1 vn pos rn.arm, acc.2)
    | none => acc
  else acc

/-- The stores in the order in which they are emitted. -/
def dirtyItems (lru : List RegisterNode) : List FlushItem :=
  let (store, emitted) := lru.foldl flushNode (FlushStore.cleared, [])
  emitted ++ purgeFlushStore store

def storeDirtyGPRs (c : Context) : List Move := (dirtyItems c.gprLru).map FlushItem.move

def flushAllGPRs (c : Context) : Context × List Move :=
  ({ c.gprLru.foldl (fun c rn ↦ c.freeARMRegister rn.arm) c with
      gprLru := []
      freePool := c.freePool + c.gprLru.length }, c.storeDirtyGPRs)

end Context

end Emu68.Ppc.RegisterCache
